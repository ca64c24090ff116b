import Isa16.Proofs.Assembly.Items
/-!
# Lines that are refused

Before anything is laid out, a source is refused for its first line that begins
like a macro call and is none (`firstBadMacro_of_statements`), and otherwise for
its first line that begins like a label and is none
(`firstBadLabel_of_expand`). A source with logical lines has neither
(`not_bad_of_itemsOf`).
-/

namespace Isa16

namespace Source

open Isa16.Assembly (Cause)

/-- Line `n` begins like a macro call, with `body` behind the `%`, and is none. -/
def BadMacro (source : String) (n : Nat) (body : List Char) : Prop :=
  ∃ line, line? source n = some line ∧ Text.code line = '%' :: body ∧ ∀ c, ¬ MacroCall.Says body c

/-- Line `n` begins like a label, with `code` behind the `.`, and is none. -/
def BadLabel (source : String) (n : Nat) (code : List Char) : Prop :=
  ∃ line, line? source n = some line ∧ Text.code line = '.' :: code ∧
    ∀ name, code = name ++ [':'] → isName name = false

def FirstBadMacro (source : String) (n : Nat) (body : List Char) : Prop :=
  BadMacro source n body ∧ ∀ k, k < n → ∀ b, ¬ BadMacro source k b

def FirstBadLabel (source : String) (n : Nat) (code : List Char) : Prop :=
  BadLabel source n code ∧ ∀ k, k < n → ∀ c, ¬ BadLabel source k c

theorem labelName?_eq_none_iff {code : List Char} :
    labelName? ('.' :: code) = none ↔ ∀ name, code = name ++ [':'] → isName name = false := by
  rw [labelName?]
  constructor
  · rintro h name rfl
    simpa using h
  · intro h
    rw [if_neg]
    rw [Bool.and_eq_true, not_and]
    intro hlast
    have hcolon := List.dropLast_append_getLast? ':' (of_decide_eq_true hlast)
    simpa using h code.dropLast hcolon.symm

namespace MacroCall

/-- A macro call is refused as a whole, or for a number that is too large. -/
theorem cause_of_read {body : List Char} {cause : Cause} (h : read body = .error cause) :
    cause = .malformedMacro (String.ofList ('%' :: body)) ∨ ∃ value, cause = .valueOutOfRange value := by
  have load {malformed : Cause} {r : Reg} {value : List Char} (h : readLoad malformed r value = .error cause) :
      cause = malformed ∨ ∃ value, cause = .valueOutOfRange value := by
    unfold readLoad at h
    split at h
    · split at h <;> cases h
      exact .inl rfl
    · split at h
      · cases h
        exact .inl rfl
      · split at h <;> cases h
        exact .inr ⟨_, rfl⟩
  unfold read at h
  dsimp only at h
  split at h
  · split at h
    · cases h
      exact .inl rfl
    · split at h
      · cases h
        exact .inl rfl
      · exact load h
  · split at h <;> cases h
    exact .inl rfl
  · split at h <;> cases h
    exact .inl rfl
  · split at h <;> cases h
    exact .inl rfl
  · cases h
    exact .inl rfl

end MacroCall

/-- A line is refused when its macro call is. -/
theorem Statement.cause_of_read {line : List Char} {cause : Cause} (h : Statement.read line = .error cause) :
    ∃ body, Text.code line = '%' :: body ∧ (∀ c, ¬ MacroCall.Says body c) ∧
      (cause = .malformedMacro (String.ofList ('%' :: body)) ∨ ∃ value, cause = .valueOutOfRange value) := by
  unfold Statement.read at h
  dsimp only at h
  rw [Text.code_trim] at h
  split at h
  · cases h
  · rename_i body hcode
    have hread := map_eq_error_iff.1 h
    refine ⟨body, hcode, fun c hc => ?_, MacroCall.cause_of_read hread⟩
    rw [MacroCall.read_eq_ok_iff.2 hc] at hread
    cases hread
  · cases h
  · cases h

end Source

namespace Assembly

open Isa16.Source (Statement MacroCall BadMacro BadLabel FirstBadMacro FirstBadLabel)

/-! ## Macro calls and labels -/

section

variable {α : Type} {line : α → Nat} {pre post : List α} {x y : α}
  (hs : (pre ++ x :: post).Pairwise fun a b => line a ≤ line b)

include hs

theorem line_le_of_behind (hy : y ∈ x :: post) : line x ≤ line y := by
  rcases List.mem_cons.1 hy with rfl | hy
  · exact Nat.le_refl _
  · exact (List.pairwise_cons.1 (List.pairwise_append.1 hs).2.1).1 y hy

/-- What has a smaller number stands in front. -/
theorem mem_front (hy : y ∈ pre ++ x :: post) (hlt : line y < line x) : y ∈ pre :=
  (List.mem_append.1 hy).resolve_right fun hy => Nat.not_lt.2 (line_le_of_behind hs hy) hlt

end

theorem exists_of_readEach_error {α β : Type} {read : α → Except Cause β} {xs : List (Numbered α)} {d : Diagnostic}
    (h : readEach read xs = .error d) :
    ∃ pre x post, xs = pre ++ x :: post ∧ (∀ y ∈ pre, ∃ b, read y.val = .ok b) ∧ d.line = x.line ∧
      read x.val = .error d.cause := by
  obtain ⟨pre, x, post, ys, rfl, hpre, hx⟩ := exists_of_mapM_error h
  obtain ⟨hline, hx⟩ := atLine_eq_error_iff.1 hx
  refine ⟨pre, x, post, rfl, fun y hy => ?_, hline, map_eq_error_iff.1 hx⟩
  obtain ⟨z, -, hz⟩ := exists_of_mem_left hpre hy
  obtain ⟨b, hb, -⟩ := map_eq_ok_iff.1 (atLine_eq_ok_iff.1 hz)
  exact ⟨b, hb⟩

section

variable {source : String}

theorem mem_numberedLines {n : Nat} {line : List Char} (h : Source.line? source n = some line)
    (hne : Text.code line ≠ []) : ⟨n, line⟩ ∈ numberedLines (Source.normalizeText source.toList) := by
  have hline : line ≠ [] := by
    rintro rfl
    exact hne rfl
  obtain ⟨k, rfl, hk⟩ := line?_normal h hline
  exact List.mem_of_getElem? (i := k) (by rw [getElem?_numberedLines, hk]; rfl)

theorem numberedLines_pairwise (text : List Char) : (numberedLines text).Pairwise fun x y => x.line ≤ y.line :=
  (List.pairwise_map.1 (numberedLines_sorted text)).imp Nat.le_of_lt

theorem not_badMacro {n : Nat} {line : List Char} {s : Statement} (hl : Source.line? source n = some line)
    (hs : Statement.Says line s) (body : List Char) : ¬ BadMacro source n body := by
  rintro ⟨line', hl', hcode, hbad⟩
  rw [hl] at hl'
  cases hl'
  cases hs with
  | call hc hsays =>
    obtain ⟨-, rfl⟩ := List.cons.inj (hcode.symm.trans hc)
    exact hbad _ hsays
  | note hc | label hc => simp [hcode] at hc
  | instruction hc hp _ => exact hp (List.cons.inj (hcode.symm.trans hc)).1.symm

theorem not_badLabel {n : Nat} {line : List Char} {s : Statement} {items : List Item}
    (hl : Source.line? source n = some line) (hs : Statement.Says line s) (he : expand s = .ok items)
    (code : List Char) : ¬ BadLabel source n code := by
  rintro ⟨line', hl', hcode, hbad⟩
  rw [hl] at hl'
  cases hl'
  cases hs with
  | label hc =>
    obtain ⟨-, rfl⟩ := List.cons.inj (hcode.symm.trans hc)
    rw [expand, String.toList_ofList, Source.labelName?_eq_none_iff.2 hbad] at he
    cases he
  | note hc | call hc => simp [hcode] at hc
  | instruction hc _ hd => exact hd (List.cons.inj (hcode.symm.trans hc)).1.symm

/-- Reading the lines stops at the first that begins like a macro call and is none. -/
theorem firstBadMacro_of_statements {d : Diagnostic}
    (h : readEach Statement.read (numberedLines (Source.normalizeText source.toList)) = .error d) :
    ∃ body, FirstBadMacro source d.line body ∧
      (d.cause = .malformedMacro (String.ofList ('%' :: body)) ∨ ∃ value, d.cause = .valueOutOfRange value) := by
  obtain ⟨pre, x, post, hlines, hpre, hline, hx⟩ := exists_of_readEach_error h
  have hsorted := numberedLines_pairwise (Source.normalizeText source.toList)
  have hmem : x ∈ numberedLines (Source.normalizeText source.toList) := by simp [hlines]
  obtain ⟨body, hcode, hno, hcause⟩ := Statement.cause_of_read hx
  refine ⟨body, ⟨⟨x.val, hline ▸ line?_of_numbered hmem, hcode, hno⟩, fun k hk b hbad => ?_⟩, hcause⟩
  obtain ⟨line, hl, hb, -⟩ := id hbad
  have hfront := mem_numberedLines hl (by simp [hb])
  rw [hlines] at hsorted hfront
  obtain ⟨s, hs⟩ := hpre _ (mem_front hsorted hfront (hline ▸ hk))
  exact not_badMacro hl (Statement.read_eq_ok_iff.1 hs) b hbad

/-- When all lines are read, the check of labels stops at the first line that begins like one and is none. -/
theorem firstBadLabel_of_expand {statements : List (Numbered Statement)} {d : Diagnostic}
    (hs : readEach Statement.read (numberedLines (Source.normalizeText source.toList)) = .ok statements)
    (h : readEach expand statements = .error d) :
    (∀ k b, ¬ BadMacro source k b) ∧
      ∃ code, FirstBadLabel source d.line code ∧ d.cause = .invalidLabel (String.ofList ('.' :: code)) := by
  have hread := readEach_eq_ok_iff.1 hs
  have hsays {n : Nat} {line : List Char} (hl : Source.line? source n = some line) (hne : Text.code line ≠ []) :
      ∃ y ∈ statements, y.line = n ∧ Statement.Says line y.val := by
    obtain ⟨y, hy, hline, hs⟩ := exists_of_mem_left hread (mem_numberedLines hl hne)
    exact ⟨y, hy, hline, Statement.read_eq_ok_iff.1 hs⟩
  have hsorted : statements.Pairwise fun x y => x.line ≤ y.line := by
    have hlines : statements.map (·.line) = (numberedLines (Source.normalizeText source.toList)).map (·.line) := by
      rw [← List.forall₂_eq_eq_eq, List.forall₂_map_left_iff, List.forall₂_map_right_iff]
      exact hread.flip.imp fun _ _ h => h.1
    rw [← List.pairwise_map (f := Numbered.line), hlines]
    exact (numberedLines_sorted _).imp Nat.le_of_lt
  refine ⟨fun k b hbad => ?_, ?_⟩
  · obtain ⟨line, hl, hb, -⟩ := id hbad
    obtain ⟨y, -, -, hy⟩ := hsays hl (by simp [hb])
    exact not_badMacro hl hy b hbad
  obtain ⟨pre, x, post, rfl, hpre, hline, hx⟩ := exists_of_readEach_error h
  obtain ⟨z, hz, hzline, hzread⟩ := exists_of_mem_right hread (y := x) (by simp)
  have hzsays := Statement.read_eq_ok_iff.1 hzread
  generalize x.val = s at hx hzsays
  cases hzsays with
  | @label code hcode =>
    simp only [expand, String.toList_ofList] at hx
    split at hx
    · cases hx
    · rename_i hname
      have hl : Source.line? source d.line = some z.val := by
        rw [hline, hzline]
        exact line?_of_numbered hz
      refine ⟨code, ⟨⟨z.val, hl, hcode, Source.labelName?_eq_none_iff.1 hname⟩, fun k hk c hbad => ?_⟩,
        (Except.error.inj hx).symm⟩
      obtain ⟨line, hl, hc, -⟩ := id hbad
      obtain ⟨y, hy, hyline, hysays⟩ := hsays hl (by simp [hc])
      obtain ⟨items, he⟩ := hpre y (mem_front hsorted hy (by omega))
      exact not_badLabel hl hysays he c hbad
  | note _ | call _ _ | instruction _ _ _ => cases hx

/-- A source with only proper macro calls and labels has logical lines. -/
theorem exists_itemsOf (hm : ∀ k b, ¬ BadMacro source k b) (hl : ∀ k c, ¬ BadLabel source k c) :
    ∃ items, itemsOf source = .ok items := by
  cases h : itemsOf source with
  | ok items => exact ⟨items, rfl⟩
  | error d =>
    rcases bind_eq_error_iff.1 h with h | ⟨statements, hs, h⟩
    · obtain ⟨body, first, -⟩ := firstBadMacro_of_statements h
      exact absurd first.1 (hm _ _)
    · rcases bind_eq_error_iff.1 h with h | ⟨_, -, h⟩
      · obtain ⟨-, code, first, -⟩ := firstBadLabel_of_expand hs h
        exact absurd first.1 (hl _ _)
      · cases h

/-- A source with logical lines has only proper macro calls and labels. -/
theorem not_bad_of_itemsOf {items : List (Numbered Item)} (h : itemsOf source = .ok items) :
    (∀ k b, ¬ BadMacro source k b) ∧ ∀ k c, ¬ BadLabel source k c := by
  obtain ⟨blocks, hblocks, -⟩ := exists_blocks h
  have hsays {n : Nat} {line : List Char} (hl : Source.line? source n = some line) (hne : Text.code line ≠ []) :
      ∃ s own, Statement.Says line s ∧ expand s = .ok own := by
    obtain ⟨b, -, -, s, hs, he⟩ := exists_of_mem_left hblocks (mem_numberedLines hl hne)
    exact ⟨s, b.val, hs, he⟩
  refine ⟨fun k b hbad => ?_, fun k c hbad => ?_⟩
  · obtain ⟨line, hl, hb, -⟩ := id hbad
    obtain ⟨s, _, hs, -⟩ := hsays hl (by simp [hb])
    exact not_badMacro hl hs b hbad
  · obtain ⟨line, hl, hc, -⟩ := id hbad
    obtain ⟨s, own, hs, he⟩ := hsays hl (by simp [hc])
    exact not_badLabel hl hs he c hbad

end

end Assembly

end Isa16
