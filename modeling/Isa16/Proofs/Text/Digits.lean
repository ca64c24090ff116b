import Mathlib.Data.List.Basic
import Mathlib.Data.List.Induction
import Isa16.Proofs.Text
import Isa16.Proofs.Text.Case
import Isa16.Text.Hex
/-!
# Digits in any base

What the readers of digits accept, in terms of the digits and their value. A
number below a limit is a run of digits with its value, of any length
(`digits?_iff`). A digit is one of `digitChars` in either case, and its place
there is its value (`digit?_eq_ite`). The groups of hexadecimal digits in a text
are those of its runs of digits, each cut from its start (`groups_eq`).
-/

namespace Isa16.Text

/-! ## Numerals -/

/-- The value of digits, the highest first. -/
def digitsValue (radix : Nat) (s : List Char) : Nat := s.foldl (fun n c => radix * n + (digit? radix c).getD 0) 0

/-- One or more digits with the value `n`. -/
def IsNumeral (radix n : Nat) (s : List Char) : Prop :=
  s ≠ [] ∧ (∀ c ∈ s, (digit? radix c).isSome) ∧ digitsValue radix s = n

theorem digitsValue_append (radix : Nat) (s : List Char) (c : Char) :
    digitsValue radix (s ++ [c]) = radix * digitsValue radix s + (digit? radix c).getD 0 := by
  simp [digitsValue]

theorem appendDigit?_eq_some_iff {radix limit m n : Nat} {c : Char} :
    appendDigit? radix limit m c = some n ↔
      (digit? radix c).isSome ∧ radix * m + (digit? radix c).getD 0 = n ∧ n < limit := by
  unfold appendDigit?
  cases digit? radix c with
  | none => simp
  | some d => simp [Option.filter_eq_some_iff]

/-- The limit is tested at each digit, and holds at each because it holds at the last. -/
theorem foldlM_appendDigit?_iff {radix limit n : Nat} (hr : 0 < radix) {s : List Char} (hl : 0 < limit) :
    s.foldlM (appendDigit? radix limit) 0 = some n ↔
      (∀ c ∈ s, (digit? radix c).isSome) ∧ digitsValue radix s = n ∧ n < limit := by
  -- The last digit is the one that decides, so the induction is from the end.
  induction s using List.reverseRecOn generalizing n with
  | nil =>
    simp only [List.foldlM_nil, Option.pure_def, Option.some.injEq, digitsValue, List.foldl_nil]
    constructor
    · rintro rfl
      exact ⟨by simp, rfl, hl⟩
    · exact fun h => h.2.1
  | append_singleton s c ih =>
    simp only [List.foldlM_append, List.foldlM_cons, List.foldlM_nil, Option.bind_eq_bind, Option.pure_def,
      Option.bind_fun_some, Option.bind_eq_some_iff, ih, appendDigit?_eq_some_iff, digitsValue_append,
      List.forall_mem_append, List.forall_mem_singleton]
    constructor
    · rintro ⟨m, ⟨hs, rfl, -⟩, hc, hn, hlt⟩
      exact ⟨⟨hs, hc⟩, hn, hlt⟩
    · rintro ⟨⟨hs, hc⟩, rfl, hlt⟩
      have hle := Nat.le_mul_of_pos_left (digitsValue radix s) hr
      exact ⟨_, ⟨hs, rfl, by omega⟩, hc, rfl, hlt⟩

theorem digits?_iff {radix limit n : Nat} (hr : 0 < radix) (hl : 0 < limit) {s : List Char} :
    digits? radix limit s = some n ↔ IsNumeral radix n s ∧ n < limit := by
  unfold digits? IsNumeral
  cases s with
  | nil => simp
  | cons c s =>
    rw [List.isEmpty_cons, if_neg Bool.false_ne_true, foldlM_appendDigit?_iff hr hl, and_assoc, and_assoc]
    simp

/-- A number may have a plus sign, which is no digit. -/
theorem natural?_iff {radix limit n : Nat} (hr : 0 < radix) (hl : 0 < limit) {s : List Char} :
    natural? radix limit s = some n ↔ (IsNumeral radix n s ∨ ∃ t, s = '+' :: t ∧ IsNumeral radix n t) ∧ n < limit := by
  have hplus : digit? radix '+' = none := rfl
  unfold natural?
  split
  · rename_i t
    have hno : ¬ IsNumeral radix n ('+' :: t) := fun h => by simpa [hplus] using h.2.1 '+' (by simp)
    simp [digits?_iff hr hl, hno]
  · rename_i hs
    have hno : ¬ ∃ t, s = '+' :: t ∧ IsNumeral radix n t := fun ⟨t, ht, _⟩ => hs t ht
    simp [digits?_iff hr hl, hno]

/-! ## The digits -/

/-- The digits of all bases up to sixteen, in the order of their values. -/
def digitChars : List Char := "0123456789abcdef".toList

/-- A digit in a base; its letter may have either case. -/
def IsDigitOf (radix : Nat) (c : Char) : Prop := c.toLower ∈ digitChars.take radix

instance (radix : Nat) : DecidablePred (IsDigitOf radix) := fun c =>
  inferInstanceAs (Decidable (c.toLower ∈ digitChars.take radix))

/-- The value of digits, the highest first. -/
def valueOf (radix : Nat) (s : List Char) : Nat :=
  s.foldl (fun n c => radix * n + digitChars.idxOf c.toLower) 0

/-- Characters behind `z` are digits in no base. -/
theorem digit?_of_large {radix : Nat} {c : Char} (h : 123 ≤ c.toNat) : digit? radix c = none := by
  have hle : ∀ a b : Char, a ≤ b ↔ a.toNat ≤ b.toNat := fun a b => UInt32.le_iff_toNat_le
  have h9 : ¬ c ≤ '9' := by rw [hle]; change ¬ c.toNat ≤ 57; omega
  have hz : ¬ c ≤ 'z' := by rw [hle]; change ¬ c.toNat ≤ 122; omega
  have hZ : ¬ c ≤ 'Z' := by rw [hle]; change ¬ c.toNat ≤ 90; omega
  simp [digit?, h9, hz, hZ]

/-- A hexadecimal digit has the place of its lower case among the digits as its value. -/
theorem digit?_sixteen (c : Char) :
    digit? 16 c = if c.toLower ∈ digitChars then some (digitChars.idxOf c.toLower) else none := by
  by_cases h : c.toNat < 123
  · have hall : ∀ k : Fin 123, digit? 16 (Char.ofNat k) = if (Char.ofNat k).toLower ∈ digitChars then
        some (digitChars.idxOf (Char.ofNat k).toLower) else none := by decide
    have hc := hall ⟨c.toNat, h⟩
    rwa [Char.ofNat_toNat] at hc
  · have hdigits : digitChars.all (·.toNat < 123) := by decide
    have hletters : upperLetters.all (·.toNat < 123) := by decide
    have hnot : c.toLower ∉ digitChars := by
      intro hm
      rcases toLower_cases c with hc | hc
      · exact h (of_decide_eq_true (List.all_eq_true.1 hdigits c (hc ▸ hm)))
      · exact h (of_decide_eq_true (List.all_eq_true.1 hletters c hc))
    rw [digit?_of_large (Nat.le_of_not_lt h), if_neg hnot]

/-- A digit of a base is read as its place among the digits, and nothing else is read. -/
theorem digit?_eq_ite {radix : Nat} (hr : radix ≤ 16) (c : Char) :
    digit? radix c = if IsDigitOf radix c then some (digitChars.idxOf c.toLower) else none := by
  have hfilter : digit? radix c = (digit? 16 c).filter (· < radix) := by
    rw [digit?, digit?, Option.filter_filter]
    congr 1
    funext n
    simp only [← Bool.decide_and]
    congr 1
    apply propext
    omega
  rw [hfilter, digit?_sixteen]
  by_cases hc : c.toLower ∈ digitChars
  · have hlt := List.mem_take_iff_idxOf_lt (n := radix) hc
    by_cases hd : IsDigitOf radix c
    · simp [hc, hd, hlt.1 hd]
    · simp only [hc, if_true, hd, if_false, Option.filter_some, decide_eq_true_eq, ite_eq_right_iff, reduceCtorEq,
        imp_false]
      exact fun h => hd (hlt.2 h)
  · have hd : ¬ IsDigitOf radix c := fun h => hc (List.mem_of_mem_take h)
    simp [hc, hd]

theorem isSome_digit?_iff {radix : Nat} (hr : radix ≤ 16) {c : Char} : (digit? radix c).isSome ↔ IsDigitOf radix c := by
  rw [digit?_eq_ite hr]
  split <;> simp [*]

/-- Digits have the value that they are read as. -/
theorem digitsValue_eq {radix : Nat} (hr : radix ≤ 16) {s : List Char} (h : ∀ c ∈ s, IsDigitOf radix c) :
    digitsValue radix s = valueOf radix s := by
  refine List.foldl_ext _ _ 0 fun n c hc => ?_
  rw [digit?_eq_ite hr, if_pos (h c hc)]
  rfl

/-! ## Groups -/

namespace Hex

def isDigit (c : Char) : Bool := (digit? 16 c).isSome

/-- The runs of digits in a text, with an empty one between two other characters. -/
def runs (s : List Char) : List (List Char) := s.splitOnP (! isDigit ·)

/-- A run cut from its start into groups of `size` digits; digits left over at its end are dropped. -/
def cut (size : Nat) (run : List Char) : List (List Char) :=
  (List.range (run.length / size)).map fun k => (run.drop (size * k)).take size

theorem cut_of_short {size : Nat} {run : List Char} (h : run.length < size) : cut size run = [] := by
  rw [cut, Nat.div_eq_of_lt h]
  rfl

theorem cut_append {size : Nat} (hsize : 0 < size) {group : List Char} (h : group.length = size) (run : List Char) :
    cut size (group ++ run) = group :: cut size run := by
  have hcount : (group ++ run).length / size = run.length / size + 1 := by
    rw [List.length_append, h, Nat.add_comm, Nat.add_div_right _ hsize]
  rw [cut, hcount, List.range_succ_eq_map, List.map_cons, List.map_map, cut]
  congr 1
  · simp [← h]
  · refine List.map_congr_left fun k _ => ?_
    have hdrop : size * (k + 1) = group.length + size * k := by rw [h, Nat.mul_succ, Nat.add_comm]
    rw [Function.comp_apply, Nat.succ_eq_add_one, hdrop, ← List.drop_drop, List.drop_left]

theorem runs_of_digits {s : List Char} (h : ∀ c ∈ s, isDigit c) : runs s = [s] :=
  List.splitOnP_eq_singleton fun c hc => by simpa using h c hc

/-- Any other character ends a run. -/
theorem runs_append_cons {c : Char} (hc : isDigit c = false) {s : List Char} (h : ∀ d ∈ s, isDigit d)
    (rest : List Char) : runs (s ++ c :: rest) = s :: runs rest := by
  have hcut : (s ++ c :: rest).splitOnP (! isDigit ·) = runs s ++ runs rest :=
    List.splitOnP_append_cons s rest (by simpa using hc)
  rw [runs, hcut, runs_of_digits h]
  rfl

/-- Digits go on with the first run behind them. -/
theorem runs_append_digits {group : List Char} (h : ∀ c ∈ group, isDigit c) (s : List Char) :
    runs (group ++ s) = (runs s).modifyHead (group ++ ·) := by
  induction group with
  | nil => cases hs : runs s <;> simp [hs]
  | cons c group ih =>
    obtain ⟨hc, hgroup⟩ := List.forall_mem_cons.1 h
    have ih := ih hgroup
    rw [List.cons_append, runs, List.splitOnP_cons_eq_if_modifyHead, if_neg (by simp [hc]), ← runs, ih,
      List.modifyHead_modifyHead]
    rfl

theorem groups_scan {size : Nat} (hsize : 0 < size) (s pending : List Char) (gs : Array Nat)
    (hp : ∀ c ∈ pending, isDigit c) (hshort : pending.length < size) :
    (s.foldl (Scan.next size) ⟨gs, pending.length, digitsValue 16 pending⟩).groups.toList =
      gs.toList ++ (runs (pending ++ s)).flatMap fun run => (cut size run).map (digitsValue 16) := by
  induction s generalizing pending gs with
  | nil => simp [runs_of_digits hp, cut_of_short hshort]
  | cons c s ih =>
    rw [List.foldl_cons]
    cases hc : digit? 16 c with
    | none =>
      have hnext : Scan.next size ⟨gs, pending.length, digitsValue 16 pending⟩ c = ⟨gs, 0, 0⟩ := by
        simp only [Scan.next, hc]
      rw [hnext, runs_append_cons (by simp [isDigit, hc]) hp, List.flatMap_cons, cut_of_short hshort]
      exact ih [] gs (by simp) hsize
    | some d =>
      have hgroup : ∀ x ∈ pending ++ [c], isDigit x :=
        List.forall_mem_append.2 ⟨hp, List.forall_mem_singleton.2 (by simp [isDigit, hc])⟩
      have hvalue : digitsValue 16 (pending ++ [c]) = 16 * digitsValue 16 pending + d := by
        rw [digitsValue_append, hc]
        rfl
      rw [List.append_cons]
      by_cases hfull : pending.length + 1 = size
      · have hnext : Scan.next size ⟨gs, pending.length, digitsValue 16 pending⟩ c =
            ⟨gs.push (digitsValue 16 (pending ++ [c])), 0, 0⟩ := by
          simp only [Scan.next, hc, if_pos hfull, hvalue]
        have hlength : (pending ++ [c]).length = size := by simpa using hfull
        rw [hnext, runs_append_digits hgroup]
        refine (ih [] _ (by simp) hsize).trans ?_
        cases hruns : runs s with
        | nil => exact absurd hruns (List.splitOnP_ne_nil _ _)
        | cons run rest =>
          rw [List.nil_append, List.modifyHead_cons, hruns, List.flatMap_cons, List.flatMap_cons,
            cut_append hsize hlength]
          simp
      · have hnext : Scan.next size ⟨gs, pending.length, digitsValue 16 pending⟩ c =
            ⟨gs, (pending ++ [c]).length, digitsValue 16 (pending ++ [c])⟩ := by
          simp only [Scan.next, hc, if_neg hfull, hvalue, List.length_append, List.length_singleton]
        rw [hnext]
        refine ih _ gs hgroup ?_
        rw [List.length_append, List.length_singleton]
        omega

/-- The groups of a text are those of its runs of digits. -/
theorem groups_eq {size : Nat} (hsize : 0 < size) (s : List Char) :
    (groups size s).toList = (runs s).flatMap fun run => (cut size run).map (digitsValue 16) := by
  have h := groups_scan hsize s [] #[] (by simp) hsize
  simpa [groups, Scan.start, digitsValue] using h

end Hex

end Isa16.Text
