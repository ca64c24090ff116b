/-!
# Numerals

Reading numbers below a limit. The limit is tested digit by digit, so a numeral
of any length is read without building a large number.
-/

namespace Isa16.Text

/-- The value of a digit; letters of either case continue the decimal digits. -/
def digit? (radix : Nat) (c : Char) : Option Nat :=
  let value? :=
    if '0' ≤ c ∧ c ≤ '9' then some (c.toNat - 48)
    else if 'a' ≤ c ∧ c ≤ 'z' then some (c.toNat - 87)
    else if 'A' ≤ c ∧ c ≤ 'Z' then some (c.toNat - 55)
    else none
  value?.filter (· < radix)

/-- Reads one more digit behind the number `n`. -/
def appendDigit? (radix limit n : Nat) (c : Char) : Option Nat :=
  ((digit? radix c).map (radix * n + ·)).filter (· < limit)

/-- A number below `limit`, written as one or more digits. -/
def digits? (radix limit : Nat) (s : List Char) : Option Nat :=
  if s.isEmpty then none else s.foldlM (appendDigit? radix limit) 0

/-- A number below `limit`, with or without a plus sign. -/
def natural? (radix limit : Nat) : List Char → Option Nat
  | '+' :: s => digits? radix limit s
  | s => digits? radix limit s

/-- A decimal number in `-limit .. limit - 1`, with or without a sign. -/
def integer? (limit : Nat) : List Char → Option Int
  | '-' :: s => (digits? 10 (limit + 1) s).map fun n => -(n : Int)
  | s => (natural? 10 limit s).map Int.ofNat

end Isa16.Text
