import Isa16.Proofs.Source.Lines
import Isa16.Proofs.Source.Form
import Isa16.Assembly.Line
/-!
# Logical lines by source line

The logical lines of a source are those of its lines, one after the other. So
the logical lines of line `n` stand together, behind those of smaller numbers
and in front of those of larger ones (`items_at`), and each logical line comes
from what some line of the source says (`origin_of_item`), which tells its kind
(`stems_of_item`).
-/

namespace Isa16

/-- Line `n` of a source says `s`. -/
def Source.Holds (source : String) (n : Nat) (s : Source.Statement) : Prop :=
  ∃ line, Source.line? source n = some line ∧ Source.Statement.Says line s

theorem Source.Holds.unique {source : String} {n : Nat} {s t : Source.Statement} (hs : Source.Holds source n s)
    (ht : Source.Holds source n t) : s = t := by
  obtain ⟨line, hl, hs⟩ := hs
  obtain ⟨line', hl', ht⟩ := ht
  rw [hl] at hl'
  cases hl'
  exact hs.unique ht

namespace Assembly

open Isa16.Source (Statement)

/-! ## Numbered lines -/

theorem getElem?_numberedLines (text : List Char) (k : Nat) :
    (numberedLines text)[k]? = (Text.lines text)[k]?.map (⟨k + 1, ·⟩) := by
  simp [numberedLines, Function.comp_def, Nat.add_comm]

/-- A line stands in the numbered lines between those of smaller and of larger numbers. -/
theorem numberedLines_split {text line : List Char} {k : Nat} (h : (Text.lines text)[k]? = some line) :
    ∃ pre post, numberedLines text = pre ++ ⟨k + 1, line⟩ :: post ∧
      (∀ x ∈ pre, x.line < k + 1) ∧ ∀ x ∈ post, k + 1 < x.line := by
  have hk : (numberedLines text)[k]? = some ⟨k + 1, line⟩ := by rw [getElem?_numberedLines, h]; rfl
  have hnum : ∀ i x, (numberedLines text)[i]? = some x → x.line = i + 1 := by
    intro i x hx
    rw [getElem?_numberedLines] at hx
    obtain ⟨_, -, rfl⟩ := Option.map_eq_some_iff.1 hx
    rfl
  refine ⟨(numberedLines text).take k, (numberedLines text).drop (k + 1), ?_, ?_, ?_⟩
  · obtain ⟨hlt, hx⟩ := List.getElem?_eq_some_iff.1 hk
    rw [← hx, ← List.drop_eq_getElem_cons hlt, List.take_append_drop]
  · intro x hx
    obtain ⟨i, hi, rfl⟩ := List.mem_iff_getElem.1 hx
    simp only [List.length_take, Nat.lt_min] at hi
    have := hnum i _ (List.getElem?_eq_getElem hi.2)
    rw [List.getElem_take]
    omega
  · intro x hx
    obtain ⟨i, hi, rfl⟩ := List.mem_iff_getElem.1 hx
    rw [List.length_drop] at hi
    have := hnum (k + 1 + i) _ (List.getElem?_eq_getElem (by omega))
    rw [List.getElem_drop]
    omega

theorem numberedLines_sorted (text : List Char) : ((numberedLines text).map (·.line)).Pairwise (· < ·) := by
  have hlines : (numberedLines text).map (·.line) = List.range' 1 (Text.lines text).length := by
    rw [numberedLines, List.map_map]
    exact List.zipIdx_map_snd ..
  rw [hlines]
  exact List.pairwise_lt_range'

/-- A line of a source that is not empty is a numbered line of its normal form. -/
theorem line?_normal {source : String} {n : Nat} {line : List Char} (h : Source.line? source n = some line)
    (hne : line ≠ []) :
    ∃ k, n = k + 1 ∧ (Text.lines (Source.normalizeText source.toList))[k]? = some line := by
  cases n with
  | zero => cases h
  | succ k =>
    refine ⟨k, rfl, ?_⟩
    obtain ⟨rest, hrest, hlines⟩ := Source.lines_normalizeText source.toList
    have h : ((Text.lines source.toList).map Source.normalLine)[k]? = some line := by
      rw [List.getElem?_map]
      exact h
    rw [hlines] at h
    rcases Nat.lt_or_ge k (Text.lines (Source.normalizeText source.toList)).length with hk | hk
    · rwa [List.getElem?_append_left hk] at h
    · -- Only the line that the normal form lacks is left.
      rw [List.getElem?_append_right hk] at h
      have hmem := List.mem_of_getElem? h
      rcases hrest with rfl | rfl
      · cases hmem
      · exact absurd (List.mem_singleton.1 hmem) hne

theorem line?_of_numbered {source : String} {x : Numbered (List Char)}
    (h : x ∈ numberedLines (Source.normalizeText source.toList)) : Source.line? source x.line = some x.val := by
  obtain ⟨k, hk⟩ := List.getElem?_of_mem h
  rw [getElem?_numberedLines] at hk
  obtain ⟨line, hline, rfl⟩ := Option.map_eq_some_iff.1 hk
  obtain ⟨rest, -, hlines⟩ := Source.lines_normalizeText source.toList
  have hlt := (List.getElem?_eq_some_iff.1 hline).1
  have : ((Text.lines source.toList).map Source.normalLine)[k]? = some line := by
    rw [hlines, List.getElem?_append_left hlt, hline]
  rwa [List.getElem?_map] at this

/-! ## Readings of numbered things -/

theorem readEach_eq_ok_iff {α β : Type} {read : α → Except Cause β} {xs : List (Numbered α)}
    {ys : List (Numbered β)} :
    readEach read xs = .ok ys ↔ List.Forall₂ (fun x y => y.line = x.line ∧ read x.val = .ok y.val) xs ys := by
  have hstep : ∀ (x : Numbered α) (y : Numbered β),
      atLine x.line ((read x.val).map (⟨x.line, ·⟩)) = .ok y ↔ y.line = x.line ∧ read x.val = .ok y.val := by
    intro x y
    rw [atLine_eq_ok_iff, map_eq_ok_iff]
    constructor
    · rintro ⟨b, hb, rfl⟩
      exact ⟨rfl, hb⟩
    · rintro ⟨hline, hb⟩
      exact ⟨y.val, hb, by rw [← hline]⟩
  simp only [readEach, mapM_eq_ok_iff, hstep]

/-- A line and the block of logical lines it comes to. -/
def Expands (x : Numbered (List Char)) (block : Numbered (List Item)) : Prop :=
  block.line = x.line ∧ ∃ s, Statement.Says x.val s ∧ expand s = .ok block.val

theorem expands_of_read {lines : List (Numbered (List Char))} {statements : List (Numbered Statement)}
    {blocks : List (Numbered (List Item))}
    (hs : List.Forall₂ (fun x y => y.line = x.line ∧ Statement.read x.val = .ok y.val) lines statements)
    (hb : List.Forall₂ (fun x y => y.line = x.line ∧ expand x.val = .ok y.val) statements blocks) :
    List.Forall₂ Expands lines blocks := by
  induction hs generalizing blocks with
  | nil => cases hb; exact .nil
  | cons hx _ ih =>
    cases hb with
    | cons hy hrest => exact .cons ⟨hy.1.trans hx.1, _, Statement.read_eq_ok_iff.1 hx.2, hy.2⟩ (ih hrest)

/-- The blocks of the lines, one after the other, are the logical lines. -/
theorem exists_blocks {source : String} {items : List (Numbered Item)} (h : itemsOf source = .ok items) :
    ∃ blocks, List.Forall₂ Expands (numberedLines (Source.normalizeText source.toList)) blocks ∧
      items = blocks.flatMap fun b => b.val.map (⟨b.line, ·⟩) := by
  obtain ⟨statements, hs, h⟩ := bind_eq_ok_iff.1 h
  obtain ⟨blocks, hb, h⟩ := bind_eq_ok_iff.1 h
  cases h
  exact ⟨blocks, expands_of_read (readEach_eq_ok_iff.1 hs) (readEach_eq_ok_iff.1 hb), rfl⟩

theorem map_line_of_expands {lines : List (Numbered (List Char))} {blocks : List (Numbered (List Item))}
    (h : List.Forall₂ Expands lines blocks) : blocks.map (·.line) = lines.map (·.line) := by
  induction h with
  | nil => rfl
  | cons hx _ ih => rw [List.map_cons, List.map_cons, hx.1, ih]

theorem line_of_block {lines : List (Numbered (List Char))} {blocks : List (Numbered (List Item))}
    (h : List.Forall₂ Expands lines blocks) {p : Nat → Prop} (hp : ∀ x ∈ lines, p x.line) :
    ∀ x ∈ blocks.flatMap fun b => b.val.map (Numbered.mk b.line), p x.line := by
  intro x hx
  obtain ⟨b, hb, hx⟩ := List.mem_flatMap.1 hx
  obtain ⟨_, -, rfl⟩ := List.mem_map.1 hx
  obtain ⟨y, hy, hyb⟩ := exists_of_mem_right h hb
  have hline : b.line = y.line := hyb.1
  exact hline ▸ hp y hy

/-- The logical lines of line `n` stand together. -/
theorem items_at {source : String} {items : List (Numbered Item)} (h : itemsOf source = .ok items) {n : Nat}
    {line : List Char} {s : Statement} (hl : Source.line? source n = some line) (hne : line ≠ [])
    (hs : Statement.Says line s) :
    ∃ own pre post, expand s = .ok own ∧ items = pre ++ (own.map (⟨n, ·⟩) ++ post) ∧
      (∀ x ∈ pre, x.line < n) ∧ ∀ x ∈ post, n < x.line := by
  obtain ⟨blocks, hblocks, rfl⟩ := exists_blocks h
  obtain ⟨k, rfl, hk⟩ := line?_normal hl hne
  obtain ⟨pre, post, hlines, hpre, hpost⟩ := numberedLines_split hk
  rw [hlines, forall₂_append_left_iff] at hblocks
  obtain ⟨preBlocks, _, hpreB, hrest, rfl⟩ := hblocks
  obtain ⟨b, postBlocks, ⟨hline, t, ht, hexp⟩, hpostB, rfl⟩ := List.forall₂_cons_left_iff.1 hrest
  cases Statement.Says.unique ht hs
  refine ⟨b.val, _, _, hexp, ?_, line_of_block (p := (· < k + 1)) hpreB hpre,
    line_of_block (p := (k + 1 < ·)) hpostB hpost⟩
  rw [List.flatMap_append, List.flatMap_cons, hline]

/-- Each logical line comes from what a line of the source says. -/
theorem origin_of_item {source : String} {items : List (Numbered Item)} (h : itemsOf source = .ok items)
    {x : Numbered Item} (hx : x ∈ items) :
    ∃ s own, Source.Holds source x.line s ∧ expand s = .ok own ∧ x.val ∈ own := by
  obtain ⟨blocks, hblocks, rfl⟩ := exists_blocks h
  obtain ⟨b, hb, hx⟩ := List.mem_flatMap.1 hx
  obtain ⟨i, hi, rfl⟩ := List.mem_map.1 hx
  obtain ⟨y, hy, hline, s, hs, hexp⟩ := exists_of_mem_right hblocks hb
  refine ⟨s, b.val, ⟨y.val, ?_, hs⟩, hexp, hi⟩
  simp only [hline]
  exact line?_of_numbered hy

theorem line_pos_of_item {source : String} {items : List (Numbered Item)} (h : itemsOf source = .ok items)
    {x : Numbered Item} (hx : x ∈ items) : 1 ≤ x.line := by
  obtain ⟨_, _, ⟨_, hline, -⟩, -⟩ := origin_of_item h hx
  exact (Source.bounds_of_line? hline).1

/-- The normal form may lack an empty line, but if the line is there it is a note. -/
theorem note_of_empty_line {source : String} {items : List (Numbered Item)} (h : itemsOf source = .ok items)
    {x : Numbered Item} (hx : x ∈ items) (hl : Source.line? source x.line = some []) :
    ∃ text, x.val = .line (.note text) := by
  obtain ⟨s, own, hs, hown, hmem⟩ := origin_of_item h hx
  cases hs.unique ⟨[], hl, .note (by decide)⟩
  cases hown
  exact ⟨_, List.mem_singleton.1 hmem⟩

/-- The logical lines that a statement can have. -/
inductive Stems : Statement → Item → Prop
  | note (text : String) : Stems (.note text) (.line (.note text))
  | label {code name : String} (h : Source.labelName? code.toList = some name) :
      Stems (.label code) (.line (.label name))
  | instruction (text : String) : Stems (.instruction text) (.line (.written text))
  | callNote (c : Source.MacroCall) (text : String) : Stems (.call c) (.line (.note text))
  | made (c : Source.MacroCall) (i : Instruction) : Stems (.call c) (.line (.made i))
  | loadSymbol (r : Reg) (name : String) : Stems (.call (.loadSymbol r name)) (.load ⟨r, .symbol name⟩)
  | returnAddress (r : Reg) (tail : Nat) : Stems (.call (.call r)) (.load ⟨linkReg, .returnAddress tail⟩)

theorem stems_of_expandCall {c : Source.MacroCall} {i : Item} (h : i ∈ expandCall c) : Stems (.call c) i := by
  have bracketed {call : String} {items : List Item} (hi : i ∈ bracket call items)
      (hitems : i ∈ items → Stems (.call c) i) : Stems (.call c) i := by
    simp only [bracket, List.cons_append, List.mem_cons, List.mem_append, List.not_mem_nil, or_false] at hi
    rcases hi with rfl | hi | rfl
    · exact .callNote c _
    · exact hitems hi
    · exact .callNote c _
  have made {α : Type} {f : α → Instruction} {xs : List α} (hi : i ∈ xs.map fun x => Item.made (f x)) :
      Stems (.call c) i := by
    obtain ⟨x, -, rfl⟩ := List.mem_map.1 hi
    exact .made c _
  cases c with
  | load r value => exact bracketed h made
  | loadSymbol r name =>
    rw [List.mem_singleton.1 h]
    exact .loadSymbol r name
  | initStack =>
    refine bracketed h fun hi => ?_
    rw [List.mem_singleton.1 hi]
    exact .made _ _
  | call r =>
    refine bracketed h fun hi => ?_
    rcases List.mem_cons.1 hi with rfl | hi
    · exact .returnAddress r _
    · exact made hi
  | ret => exact bracketed h made

theorem stems_of_expand {s : Statement} {own : List Item} (h : expand s = .ok own) {i : Item} (hi : i ∈ own) :
    Stems s i := by
  cases s with
  | note text =>
    cases h
    rw [List.mem_singleton.1 hi]
    exact .note text
  | label code =>
    simp only [expand] at h
    split at h
    · cases h
      rw [List.mem_singleton.1 hi]
      exact .label ‹_›
    · cases h
  | call c =>
    cases h
    exact stems_of_expandCall hi
  | instruction text =>
    cases h
    rw [List.mem_singleton.1 hi]
    exact .instruction text

/-- Each logical line is of a kind that its line of the source can have. -/
theorem stems_of_item {source : String} {items : List (Numbered Item)} (h : itemsOf source = .ok items)
    {x : Numbered Item} (hx : x ∈ items) : ∃ s, Source.Holds source x.line s ∧ Stems s x.val := by
  obtain ⟨s, own, hs, hown, hmem⟩ := origin_of_item h hx
  exact ⟨s, hs, stems_of_expand hown hmem⟩

/-- Logical lines are in the order of their source lines. -/
theorem items_sorted {source : String} {items : List (Numbered Item)} (h : itemsOf source = .ok items) :
    items.Pairwise fun x y => x.line ≤ y.line := by
  obtain ⟨blocks, hblocks, rfl⟩ := exists_blocks h
  rw [List.pairwise_flatMap]
  refine ⟨fun b _ => List.pairwise_map.2 (List.pairwise_of_forall fun _ _ => Nat.le_refl _), ?_⟩
  have hsorted := numberedLines_sorted (Source.normalizeText source.toList)
  rw [← map_line_of_expands hblocks, List.pairwise_map] at hsorted
  refine hsorted.imp fun hlt x hx y hy => ?_
  obtain ⟨_, -, rfl⟩ := List.mem_map.1 hx
  obtain ⟨_, -, rfl⟩ := List.mem_map.1 hy
  exact Nat.le_of_lt hlt

/-- Every line of a source with logical lines says something. -/
theorem holds_of_line {source : String} {items : List (Numbered Item)} (h : itemsOf source = .ok items) {n : Nat}
    {line : List Char} (hl : Source.line? source n = some line) : ∃ s, Source.Holds source n s := by
  obtain ⟨blocks, hblocks, -⟩ := exists_blocks h
  by_cases hne : line = []
  · exact ⟨_, line, hl, .note (by rw [hne]; decide)⟩
  · obtain ⟨k, rfl, hk⟩ := line?_normal hl hne
    have hmem : ⟨k + 1, line⟩ ∈ numberedLines (Source.normalizeText source.toList) :=
      List.mem_of_getElem? (i := k) (by rw [getElem?_numberedLines, hk]; rfl)
    obtain ⟨b, -, -, s, hs, -⟩ := exists_of_mem_left hblocks hmem
    exact ⟨s, line, hl, hs⟩

end Assembly

end Isa16
