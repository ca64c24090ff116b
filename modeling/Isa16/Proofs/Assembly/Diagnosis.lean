import Isa16.Proofs.Assembly.Refusal
/-!
# Diagnostics are right and come in order

What a diagnostic says is so, and what is checked first is reported first:
macro calls before labels, labels before addresses, and addresses before
instructions (`diagnosed_of_assemble_error`).
-/

namespace Isa16

namespace Assembly

open Isa16.Source (BadMacro BadLabel FirstBadMacro FirstBadLabel Redefines)

/-- A diagnostic is about a line of the source, says of it what is so, and comes before what is
checked later. -/
structure Diagnosed (source : String) (d : Diagnostic) : Prop where
  one_le_line : 1 ≤ d.line
  line_le : d.line ≤ (Text.lines source.toList).length
  /-- A wrong macro call is reported whatever else is wrong, and so is the first of them. -/
  badMacro : (∃ n body, BadMacro source n body) → ∃ body, FirstBadMacro source d.line body ∧
    (d.cause = .malformedMacro (String.ofList ('%' :: body)) ∨ ∃ value, d.cause = .valueOutOfRange value)
  /-- With all macro calls right, a wrong label is reported whatever else is wrong. -/
  badLabel : (∀ n body, ¬ BadMacro source n body) → (∃ n code, BadLabel source n code) →
    ∃ code, FirstBadLabel source d.line code ∧ d.cause = .invalidLabel (String.ofList ('.' :: code))
  malformedMacro : ∀ text, d.cause = .malformedMacro text → ∃ body, BadMacro source d.line body
  valueOutOfRange : ∀ value, d.cause = .valueOutOfRange value → ∃ body, BadMacro source d.line body
  invalidLabel : ∀ label, d.cause = .invalidLabel label → ∃ code, BadLabel source d.line code
  /-- The line is the first to define what an earlier one defines. -/
  duplicate : ∀ name, d.cause = .duplicateSymbol name →
    Redefines source d.line name ∧ ∀ n, n < d.line → ∀ other, ¬ Redefines source n other
  undefined : ∀ name, d.cause = .undefinedSymbol name →
    (∀ n, ¬ Source.HasLabel source n name) ∧ Source.Uses source d.line name
  /-- The whole source has addresses, the instruction is wrong at its own, and the ones on earlier
  lines are right at theirs. -/
  instruction : d.cause.AboutInstruction → ∃ items l, itemsOf source = .ok items ∧ Layout.ofItems items = .ok l ∧
    (∃ addr text, Source.Holds source d.line (.instruction text) ∧ l.InstructionAt addr d.line text ∧
      readInstruction l.symbols addr (Text.code text.toList) = .error d.cause) ∧
    ∀ n text, n < d.line → Source.Holds source n (.instruction text) → (∃ addr, l.InstructionAt addr n text) ∧
      ∀ addr, l.InstructionAt addr n text → ∃ i, readInstruction l.symbols addr (Text.code text.toList) = .ok i
  /-- A label on two lines is reported before any symbol or instruction. -/
  redefined : (∀ n body, ¬ BadMacro source n body) → (∀ n code, ¬ BadLabel source n code) →
    (∃ n name, Redefines source n name) → d.cause = .programTooLarge ∨ ∃ name, d.cause = .duplicateSymbol name

theorem diagnosed_of_assemble_error {source : String} {d : Diagnostic} (h : assemble source = .error d) :
    Diagnosed source d := by
  obtain ⟨n, cause⟩ := d
  have hrefused : Refused source n cause := refused_of_assemble h
  obtain ⟨line, hline⟩ := hrefused.exists_line
  obtain ⟨hpos, hle⟩ := Source.bounds_of_line? hline
  refine ⟨hpos, hle, ?badMacro, ?badLabel, ?malformedMacro, ?valueOutOfRange, ?invalidLabel, ?duplicate, ?undefined,
    ?instruction, ?redefined⟩
  case badMacro =>
    rintro ⟨k, body, hbad⟩
    cases hrefused with
    | malformedMacro first => exact ⟨_, first, .inl rfl⟩
    | valueOutOfRange first => exact ⟨_, first, .inr ⟨_, rfl⟩⟩
    | invalidLabel proper _ => exact absurd hbad (proper k body)
    | tooLarge hitems | duplicate hitems | undefined hitems | instruction _ hitems =>
      exact absurd hbad ((not_bad_of_itemsOf hitems).1 k body)
  case badLabel =>
    rintro macros ⟨k, code, hbad⟩
    cases hrefused with
    | malformedMacro first | valueOutOfRange first => exact absurd first.1 (macros _ _)
    | invalidLabel _ first => exact ⟨_, first, rfl⟩
    | tooLarge hitems | duplicate hitems | undefined hitems | instruction _ hitems =>
      exact absurd hbad ((not_bad_of_itemsOf hitems).2 k code)
  case malformedMacro =>
    rintro text rfl
    cases hrefused with
    | malformedMacro first => exact ⟨_, first.1⟩
    | instruction about => exact about.elim
  case valueOutOfRange =>
    rintro value rfl
    cases hrefused with
    | valueOutOfRange first => exact ⟨_, first.1⟩
    | instruction about => exact about.elim
  case invalidLabel =>
    rintro label rfl
    cases hrefused with
    | invalidLabel _ first => exact ⟨_, first.1⟩
    | instruction about => exact about.elim
  case duplicate =>
    rintro name rfl
    cases hrefused with
    | duplicate _ here first => exact ⟨here, first⟩
    | instruction about => exact about.elim
  case undefined =>
    rintro name rfl
    cases hrefused with
    | undefined _ _ absent use => exact ⟨absent, use⟩
    | instruction about => exact about.elim
  case instruction =>
    intro about
    cases hrefused with
    | instruction _ hitems hlayout _ hat hread before =>
      refine ⟨_, _, hitems, hlayout, ⟨_, _, holds_of_instructionAt hitems hlayout hat, hat, hread⟩, ?_⟩
      exact fun k text hk hs => ⟨exists_instructionAt hitems hlayout hs, fun addr hat => before addr k text hk hat⟩
    | malformedMacro | valueOutOfRange | invalidLabel | tooLarge | duplicate | undefined => exact about.elim
  case redefined =>
    rintro macros labels ⟨k, name, hre⟩
    cases hrefused with
    | malformedMacro first | valueOutOfRange first => exact absurd first.1 (macros _ _)
    | invalidLabel _ first => exact absurd first.1 (labels _ _)
    | tooLarge => exact .inl rfl
    | duplicate => exact .inr ⟨_, rfl⟩
    | undefined _ unique | instruction _ _ _ unique => exact absurd hre (unique k name)

/-- A label is twice in a source that also has an unknown operation on an earlier line. -/
theorem diagnosed_of_duplicate : assemble ".a:\nnop r1\n.a: // again\n%SLDI r1,.b" = .error ⟨3, .duplicateSymbol "a"⟩ ∧
    Diagnosed ".a:\nnop r1\n.a: // again\n%SLDI r1,.b" ⟨3, .duplicateSymbol "a"⟩ := by
  have h : assemble ".a:\nnop r1\n.a: // again\n%SLDI r1,.b" = .error ⟨3, .duplicateSymbol "a"⟩ :=
    eq_error_of_test (by decide +kernel)
  exact ⟨h, diagnosed_of_assemble_error h⟩

end Assembly

end Isa16
