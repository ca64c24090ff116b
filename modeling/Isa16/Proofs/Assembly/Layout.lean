import Isa16.Proofs.Assembly.Code
import Isa16.Proofs.Assembly.Plain
import Isa16.Proofs.Instruction.Canonical
/-!
# The laid out lines of a source

What the laid out lines of an assembled source can be: notes, labels with a
proper name, canonical instructions, and instructions as the source has them
(`laidOut_of_assemble`). Each of these last is there (`written_mem_layout`).
-/

namespace Isa16.Assembly

open Isa16.Source (Statement MacroCall IsNormal)

/-! ## Notes -/

theorem oneLine_regText (r : Reg) : OneLine (regText r) := by
  revert r
  decide

theorem oneLine_name {name : String} (h : Source.isName name.toList) : OneLine name := by
  intro c hc
  have hchar := Source.isNameChar_of_isName h c hc
  constructor <;> rintro rfl <;> exact absurd hchar (by decide)

theorem isNote_beginNote {call : String} (h : OneLine call) : IsNote (beginNote call).toList := by
  refine isNote_of_oneLine ?_ (OneLine.append (by decide) h)
  rw [beginNote, String.toList_append]
  rfl

theorem isNote_endNote : IsNote endNote.toList := isNote_of_oneLine (by decide) (by decide)

theorem oneLine_caption {load : Load} {value : UInt16}
    (h : ∀ name, load.target = .symbol name → Source.isName name.toList) : OneLine (load.caption value) := by
  obtain ⟨reg, target⟩ := load
  cases target with
  | symbol name =>
    exact ((OneLine.append (by decide) (oneLine_regText reg)).append (by decide)).append (oneLine_name (h name rfl))
  | returnAddress tail =>
    exact ((OneLine.append (by decide) (oneLine_regText reg)).append (by decide)).append (oneLine_digits value.toNat)

/-! ## Lines -/

/-- What a laid out line of a source can be. -/
inductive LaidOut (source : String) : Line → Prop
  | note {text : String} (h : IsNote text.toList) : LaidOut source (.note text)
  | label {name : String} (h : Source.isName name.toList) : LaidOut source (.label name)
  | made {i : Instruction} (h : i.IsCanonical) : LaidOut source (.made i)
  | written {n : Nat} {text : String} (h : Source.Holds source n (.instruction text)) : LaidOut source (.written text)

theorem isName_of_labelName? {code : List Char} {name : String} (h : Source.labelName? code = some name) :
    Source.isName name.toList := by
  unfold Source.labelName? at h
  split at h
  · split at h
    · rename_i hname
      cases h
      simp only [Bool.and_eq_true] at hname
      rw [String.toList_ofList]
      exact hname.2
    · cases h
  · cases h

/-- A line of a source is in normal form. -/
theorem isNormal_of_line? {source : String} {n : Nat} {line : List Char} (h : Source.line? source n = some line) :
    IsNormal line := by
  rcases eq_or_ne line [] with rfl | hne
  · exact isNote_nil.isNormal
  · obtain ⟨k, -, hk⟩ := line?_normal h hne
    exact Source.isNormal_of_mem_lines (List.mem_of_getElem? hk)

theorem isNote_of_holds {source : String} {n : Nat} {text : String} (h : Source.Holds source n (.note text)) :
    IsNote text.toList := by
  obtain ⟨line, hline, hs⟩ := h
  cases hs with
  | note hcode =>
    rw [String.toList_ofList]
    exact ⟨(isNormal_of_line? hline).trim, by rw [Text.code_trim, hcode]⟩

/-- The lines of a macro call are made, but for its notes. -/
theorem laidOut_of_expandCall {source : String} {c : MacroCall} {l : Line} (h : .line l ∈ expandCall c) :
    LaidOut source l := by
  have bracketed {call : String} {items : List Item} (hcall : OneLine call) (hl : .line l ∈ bracket call items)
      (hitems : .line l ∈ items → ∃ i, l = .made i) : LaidOut source l := by
    simp only [bracket, Item.note, List.cons_append, List.mem_cons, List.mem_append, List.not_mem_nil, or_false,
      Item.line.injEq] at hl
    rcases hl with rfl | hl | rfl
    · exact .note (isNote_beginNote hcall)
    · obtain ⟨i, rfl⟩ := hitems hl
      exact .made (isCanonical_of_expandCall h)
    · exact .note isNote_endNote
  cases c with
  | load r value =>
    refine bracketed ?_ h fun hl => ?_
    · exact ((OneLine.append (by decide) (oneLine_regText r)).append (by decide)).append
        (oneLine_digits value.toNat)
    · obtain ⟨s, -, hs⟩ := List.mem_map.1 hl
      exact ⟨_, (Item.line.inj hs).symm⟩
  | loadSymbol r name => simp [expandCall] at h
  | initStack => exact bracketed (by decide) h fun hl => ⟨_, by simpa [Item.made] using hl⟩
  | call r =>
    refine bracketed (OneLine.append (by decide) (oneLine_regText r)) h fun hl => ?_
    simp only [List.mem_cons, List.mem_map, reduceCtorEq, false_or] at hl
    obtain ⟨i, -, hi⟩ := hl
    exact ⟨i, (Item.line.inj hi).symm⟩
  | ret =>
    refine bracketed (by decide) h fun hl => ?_
    obtain ⟨i, -, hi⟩ := List.mem_map.1 hl
    exact ⟨i, (Item.line.inj hi).symm⟩

/-- A load of a symbol names it properly. -/
theorem isName_of_load {body : List Char} {c : MacroCall} (hc : c.Says body) {load : Load}
    (h : .load load ∈ expandCall c) {name : String} (hname : load.target = .symbol name) :
    Source.isName name.toList := by
  cases hc with
  | loadSymbol _ _ _ _ hn =>
    simp only [expandCall, List.mem_singleton, Item.load.injEq] at h
    subst h
    cases hname
    exact hn
  | load | initStack | ret => simp [expandCall, bracket, Item.note, Item.made] at h
  | call =>
    obtain rfl : load = ⟨linkReg, .returnAddress _⟩ := by
      simpa [expandCall, bracket, Item.note, Item.made] using h
    cases hname

/-- The logical lines of a source are of these kinds, and its loads name their symbols properly. -/
theorem laidOut_of_item {source : String} {items : List (Numbered Item)} (hitems : itemsOf source = .ok items)
    {x : Numbered Item} (hx : x ∈ items) :
    (∀ l, x.val = .line l → LaidOut source l) ∧
      ∀ load, x.val = .load load → ∀ name, load.target = .symbol name → Source.isName name.toList := by
  have single {own : Line} (hval : x.val ∈ [Item.line own]) (hown : LaidOut source own) :
      (∀ l, x.val = .line l → LaidOut source l) ∧
        ∀ load, x.val = .load load → ∀ name, load.target = .symbol name → Source.isName name.toList := by
    rw [List.mem_singleton.1 hval]
    exact ⟨fun l hl => Item.line.inj hl ▸ hown, fun load hl => nomatch hl⟩
  obtain ⟨s, own, hs, hown, hmem⟩ := origin_of_item hitems hx
  cases s with
  | note text =>
    cases hown
    exact single hmem (.note (isNote_of_holds hs))
  | label code =>
    simp only [expand] at hown
    split at hown
    · rename_i name hname
      cases hown
      exact single hmem (.label (isName_of_labelName? hname))
    · cases hown
  | call c =>
    cases hown
    obtain ⟨line, -, hs⟩ := hs
    cases hs with
    | call _ hc =>
      exact ⟨fun l hl => laidOut_of_expandCall (hl ▸ hmem), fun load hl name hname =>
        isName_of_load hc (hl ▸ hmem) hname⟩
  | instruction text =>
    cases hown
    exact single hmem (.written hs)

/-! ## Layouts -/

section

variable {symbols : SymbolTable} {cells : List Cell} {blocks : List (List (Numbered Line))} {start : Nat}
  (h : List.Forall₂ (LaysOut symbols) (addressed Cell.width start cells) blocks)

include h

/-- A logical line that is a line is laid out as it is. -/
theorem mem_blocks_of_line {n : Nat} {l : Line} (hl : ⟨n, .line l⟩ ∈ cells.map Cell.numbered) :
    ⟨n, l⟩ ∈ blocks.flatten := by
  rw [← map_snd_addressed Cell.width start cells, List.map_map] at hl
  obtain ⟨⟨addr, cell⟩, hcell, hnum⟩ := List.mem_map.1 hl
  obtain ⟨block, hblock, hb⟩ := exists_of_mem_left h hcell
  obtain ⟨m, item, width⟩ := cell
  cases hnum
  obtain ⟨lines, hlines, rfl⟩ := hb
  cases hlines
  exact List.mem_flatten.2 ⟨_, hblock, by simp⟩

/-- A laid out line has the number of a logical line, which is this line if it is one as the source has it. -/
theorem numbered_of_mem_blocks {x : Numbered Line} (hx : x ∈ blocks.flatten) :
    ∃ y ∈ cells.map Cell.numbered, y.line = x.line ∧
      ∀ text, x.val = .written text → y.val = .line (.written text) := by
  obtain ⟨block, hblock, hx⟩ := List.mem_flatten.1 hx
  obtain ⟨⟨addr, cell⟩, hcell, hb⟩ := exists_of_mem_right h hblock
  have hmem : cell.numbered ∈ cells.map Cell.numbered := List.mem_map_of_mem (addressed_bounds _ hcell).1
  obtain ⟨lines, hl, rfl⟩ := hb
  obtain ⟨l, hmeml, rfl⟩ := List.mem_map.1 hx
  refine ⟨_, hmem, rfl, fun text htext => ?_⟩
  obtain ⟨n, item, width⟩ := cell
  cases item with
  | line own =>
    cases hl
    rw [List.mem_singleton] at hmeml
    exact congrArg Item.line (hmeml.symm.trans htext)
  | load load =>
    obtain ⟨value, -, hl⟩ := bind_eq_ok_iff.1 hl
    cases hl
    obtain rfl : l = .written text := htext
    simp [loadLines_eq] at hmeml

end

section

variable {source : String} {a : Assembly} (h : assemble source = .ok a)

include h

/-- The layout of an assembled source is made of the blocks of its cells. -/
theorem blocks_of_assemble :
    ∃ items cells blocks, itemsOf source = .ok items ∧ cells.map Cell.numbered = items ∧
      List.Forall₂ (LaysOut a.symbols) (addressed Cell.width 0 cells) blocks ∧ a.layout.lines = blocks.flatten := by
  obtain ⟨items, hitems, hlayout, -⟩ := assemble_eq_ok_iff.1 h
  obtain ⟨cells, blocks, hsettled, hblocks, hlines⟩ := blocks_of_ofItems hlayout
  exact ⟨items, cells, blocks, hitems, hsettled.items_eq, hblocks, hlines⟩

theorem laidOut_of_assemble : ∀ x ∈ a.layout.lines, LaidOut source x.val := by
  obtain ⟨items, cells, blocks, hitems, hnumbered, hblocks, hlines⟩ := blocks_of_assemble h
  intro x hx
  rw [hlines] at hx
  obtain ⟨block, hblock, hx⟩ := List.mem_flatten.1 hx
  obtain ⟨⟨addr, cell⟩, hcell, hb⟩ := exists_of_mem_right hblocks hblock
  have hitem : cell.numbered ∈ items := by
    rw [← hnumbered, ← map_snd_addressed Cell.width 0 cells, List.map_map]
    exact List.mem_map.2 ⟨_, hcell, rfl⟩
  obtain ⟨hline, hload⟩ := laidOut_of_item hitems hitem
  obtain ⟨lines, hl, rfl⟩ := hb
  obtain ⟨l, hmem, rfl⟩ := List.mem_map.1 hx
  obtain ⟨n, item, width⟩ := cell
  cases item with
  | line own =>
    cases hl
    rw [List.mem_singleton.1 hmem]
    exact hline own rfl
  | load load =>
    obtain ⟨value, -, hl⟩ := bind_eq_ok_iff.1 hl
    cases hl
    rcases List.mem_append.1 hmem with hmem | hmem
    · rcases List.mem_cons.1 hmem with rfl | hmem
      · exact .note (isNote_beginNote (oneLine_caption (hload load rfl)))
      · obtain ⟨i, -, rfl⟩ := List.mem_map.1 (loadLines_eq .. ▸ hmem)
        exact .made (isCanonical_of_loadLines hmem)
    · rw [List.mem_singleton.1 hmem]
      exact .note isNote_endNote

/-- Each instruction of a source is laid out as it is written. -/
theorem written_mem_layout {n : Nat} {text : String} (hs : Source.Holds source n (.instruction text)) :
    ⟨n, .written text⟩ ∈ a.layout.lines := by
  obtain ⟨items, cells, blocks, hitems, hnumbered, hblocks, hlines⟩ := blocks_of_assemble h
  obtain ⟨line, hline, hs⟩ := hs
  have hne : line ≠ [] := by
    rintro rfl
    cases hs with
    | instruction hcode => cases hcode
  obtain ⟨own, pre, post, hown, rfl, -, -⟩ := items_at hitems hline hne hs
  cases hown
  rw [hlines]
  exact mem_blocks_of_line hblocks (by simp [hnumbered])

/-- The code of an assembled source is what its laid out lines come to. -/
theorem emits_of_assemble : Emits a.symbols 0 (a.layout.lines.map (·.val)) a.code.instructions := by
  obtain ⟨items, -, -, hcode⟩ := assemble_eq_ok_iff.1 h
  obtain ⟨is, his, hinst⟩ := emits_of_foldlM hcode
  have hcode : a.code.instructions = is := by simpa [Code.instructions, Code.empty] using hinst
  exact hcode ▸ his

theorem isCanonical_of_mem_instructions : ∀ i ∈ a.code.instructions, i.IsCanonical := by
  intro i hi
  obtain ⟨k, hk⟩ := List.getElem?_of_mem hi
  obtain ⟨l, hl, hread⟩ := (emits_of_assemble h).exists_line hk
  obtain ⟨x, hx, rfl⟩ := List.mem_map.1 hl
  have hlaid := laidOut_of_assemble h x hx
  generalize x.val = l at hlaid hread
  cases hlaid with
  | note _ | label _ => exact hread.elim
  | made hcanonical =>
    cases hread
    exact hcanonical
  | written _ => exact isCanonical_of_read hread

end

end Isa16.Assembly
