import Isa16.Text.Numeral
/-!
# Hexadecimal text

Writing numbers with a fixed count of hexadecimal digits, and reading the
groups of digits a text holds: each run of digits is cut from its start into
groups of one length, and an incomplete last group is dropped.
-/

namespace Isa16.Text.Hex

/-! ## Writing -/

def upperDigit (n : Nat) : Char := Char.ofNat (if n < 10 then 48 + n else 55 + n)

def lowerDigit (n : Nat) : Char := Char.ofNat (if n < 10 then 48 + n else 87 + n)

/-- The last `width` hexadecimal digits of a number. -/
def fixed (digit : Nat → Char) : Nat → Nat → List Char
  | 0, _ => []
  | width + 1, n => fixed digit width (n / 16) ++ [digit (n % 16)]

theorem length_fixed (digit : Nat → Char) (width n : Nat) : (fixed digit width n).length = width := by
  induction width generalizing n with
  | zero => rfl
  | succ width ih => simp [fixed, ih]

/-- A word as four digits. -/
def word (w : UInt16) : String := String.ofList (fixed upperDigit 4 w.toNat)

/-- A byte, or any other number below 256, as two digits. -/
def byte (n : Nat) : String := String.ofList (fixed upperDigit 2 n)

def lowerWord (w : UInt16) : String := String.ofList (fixed lowerDigit 4 w.toNat)

/-! ## Reading -/

/-- The groups read so far, and the digits of the group that is not yet full. -/
structure Scan where
  groups : Array Nat
  digits : Nat
  value : Nat

namespace Scan

def start : Scan := ⟨#[], 0, 0⟩

/-- Reads a character: a digit extends the group, and anything else drops it. -/
def next (size : Nat) (s : Scan) (c : Char) : Scan :=
  match digit? 16 c with
  | none => { s with digits := 0, value := 0 }
  | some d =>
    if s.digits + 1 = size then ⟨s.groups.push (16 * s.value + d), 0, 0⟩
    else { s with digits := s.digits + 1, value := 16 * s.value + d }

end Scan

/-- The values of the groups of `size` digits in a text. -/
def groups (size : Nat) (s : List Char) : Array Nat := (s.foldl (Scan.next size) Scan.start).groups

end Isa16.Text.Hex
