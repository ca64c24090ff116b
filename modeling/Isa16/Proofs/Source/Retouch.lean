import Isa16.Proofs.Source.Normal
/-!
# Blanks and comments

What can be done to a source without a change of what it says: lines of blanks
or of a comment go between its lines (`IsBare`), and its lines get blanks at
their ends and comments behind them (`Retouched`). A retouched line has the code
it had, in normal form too (`code_normalLine_of_retouched`), and a bare line has
none (`code_normalLine_of_isBare`).
-/

namespace Isa16.Source

/-- The line has blanks, and maybe a comment behind them. -/
def IsBare (line : List Char) : Prop :=
  ∃ blanks comment, line = blanks ++ comment ∧ (∀ c ∈ blanks, Text.isBlank c) ∧
    (comment = [] ∨ ∃ text, comment = '/' :: '/' :: text)

/-- Blanks were put in front of a line or behind it, and comments behind it. -/
inductive Retouched (line : List Char) : List Char → Prop
  | refl : Retouched line line
  | indented {b : Char} {l : List Char} (hb : Text.isBlank b) (hn : b ≠ '\n') (h : Retouched line l) :
      Retouched line (b :: l)
  | padded {b : Char} {l : List Char} (hb : Text.isBlank b) (hn : b ≠ '\n') (h : Retouched line l) :
      Retouched line (l ++ [b])
  | commented {b : Char} {l text : List Char} (hb : b = ' ' ∨ b = '\t') (hn : '\n' ∉ text) (h : Retouched line l) :
      Retouched line (l ++ b :: '/' :: '/' :: text)

/-- From line `k` on, the lines `xs` are those of `ys` from line `n` on, retouched and with bare
lines between them, and `r` gives the new number of a line. -/
inductive Annotated (r : Nat → Nat) : Nat → Nat → List (List Char) → List (List Char) → Prop
  | nil {k n : Nat} : Annotated r k n [] []
  | bare {k n : Nat} {y : List Char} {xs ys : List (List Char)} (h : IsBare y) (rest : Annotated r k (n + 1) xs ys) :
      Annotated r k n xs (y :: ys)
  | line {k n : Nat} {x y : List Char} {xs ys : List (List Char)} (h : Retouched x y) (hr : r k = n)
      (rest : Annotated r (k + 1) (n + 1) xs ys) : Annotated r k n (x :: xs) (y :: ys)

/-! ## The code of a line -/

theorem code_normalizeLine (line : List Char) :
    Text.code (normalizeLine line) = Text.trim (normalizeCode (Text.splitComment line).1) := by
  rw [Text.code, splitComment_normalizeLine]

theorem normalLine_cons (c : Char) (line : List Char) :
    normalLine (c :: line) = if c = '\r' then normalLine line else normalizeLine (c :: line.filter (· ≠ '\r')) := by
  by_cases h : c = '\r' <;> simp [normalLine, h]

theorem code_normalLine_cons {b : Char} (hb : Text.isBlank b) (line : List Char) :
    Text.code (normalLine (b :: line)) = Text.code (normalLine line) := by
  rw [normalLine_cons]
  split
  · rfl
  · rw [normalizeLine_cons_of_blank hb, Text.code_cons_of_blank hb]
    rfl

theorem code_normalLine_append {b : Char} (hb : Text.isBlank b) (line : List Char) :
    Text.code (normalLine (line ++ [b])) = Text.code (normalLine line) := by
  unfold normalLine
  rw [List.filter_append]
  by_cases h : b = '\r'
  · simp [h]
  · have hkeep : [b].filter (· ≠ '\r') = [b] := by simp [h]
    rw [hkeep, normalizeLine_append_blank hb, Text.code_append_singleton hb]

theorem splitComment_comment (text : List Char) : Text.splitComment ('/' :: '/' :: text) = ([], '/' :: '/' :: text) :=
  splitComment_of_parts List.not_mem_nil (.inr rfl)

/-- A comment behind a blank is no code, whether there is one before it or not. -/
theorem code_normalLine_comment {b : Char} (hb : Text.isBlank b) (hr : b ≠ '\r') (line text : List Char) :
    Text.code (normalLine (line ++ b :: '/' :: '/' :: text)) = Text.code (normalLine line) := by
  have hfilter : (line ++ b :: '/' :: '/' :: text).filter (· ≠ '\r') =
      line.filter (· ≠ '\r') ++ b :: '/' :: '/' :: text.filter (· ≠ '\r') := by
    simp [List.filter_append, hr]
  rw [normalLine, hfilter, normalLine, code_normalizeLine, code_normalizeLine, Text.splitComment_append_blank hb,
    splitComment_comment]
  split
  · rw [normalizeCode_append_blank hb, Text.trim_append_singleton hb]
  · rfl

theorem code_normalLine_of_retouched {line l : List Char} (h : Retouched line l) :
    Text.code (normalLine l) = Text.code (normalLine line) := by
  induction h with
  | refl => rfl
  | indented hb _ _ ih => rw [code_normalLine_cons hb, ih]
  | padded hb _ _ ih => rw [code_normalLine_append hb, ih]
  | commented hb _ _ ih =>
    rcases hb with rfl | rfl
    · rw [code_normalLine_comment (by decide) (by decide), ih]
    · rw [code_normalLine_comment (by decide) (by decide), ih]

theorem code_normalLine_of_isBare {line : List Char} (h : IsBare line) : Text.code (normalLine line) = [] := by
  obtain ⟨blanks, comment, rfl, hblanks, hcomment⟩ := h
  induction blanks with
  | nil =>
    rcases hcomment with rfl | ⟨text, rfl⟩
    · rfl
    · have hfilter : ('/' :: '/' :: text).filter (· ≠ '\r') = '/' :: '/' :: text.filter (· ≠ '\r') := by simp
      rw [List.nil_append, normalLine, hfilter, code_normalizeLine, splitComment_comment]
      rfl
  | cons b blanks ih =>
    obtain ⟨hb, hblanks⟩ := List.forall_mem_cons.1 hblanks
    rw [List.cons_append, code_normalLine_cons hb, ih hblanks]

end Isa16.Source
