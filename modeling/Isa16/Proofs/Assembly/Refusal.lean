import Isa16.Proofs.Assembly.Consistent
import Isa16.Proofs.Assembly.Extent
import Isa16.Proofs.Assembly.Operands
import Isa16.Proofs.Source.Refusal
/-!
# Why laying out and coding are refused

Each round of a layout goes over the cells twice, and building the code goes
over the laid out lines once. A refusal says something about one line and about
all lines before it: a layout is refused for a label that is there already, for
a load of a symbol that is on no line, or for want of room
(`refused_of_ofItems`), and the code for an instruction that cannot be read
(`refused_of_ofLayout`).
-/

namespace Isa16

namespace Source

open Isa16.Assembly (cutInstruction)

/-- Line `n` is a label that a line before it has too. -/
def Redefines (source : String) (n : Nat) (name : String) : Prop :=
  HasLabel source n name ∧ ∃ k, k < n ∧ HasLabel source k name

/-- Line `n` has the symbol as an operand, or loads its address. -/
def Uses (source : String) (n : Nat) (name : String) : Prop :=
  (∃ r, Holds source n (.call (.loadSymbol r name))) ∨
    ∃ text, Holds source n (.instruction text) ∧ '.' :: name.toList ∈ (cutInstruction (Text.code text.toList)).2

end Source

namespace Assembly

open Isa16.Source (Statement MacroCall BadMacro FirstBadMacro FirstBadLabel Redefines)

/-- The cause is about one instruction at its address. -/
def Cause.AboutInstruction : Cause → Prop
  | .unknownMnemonic _ | .unknownOperand _ | .wrongOperands _ | .branchTooFar _ => True
  | _ => False

/-- A line of a layout, at an address, is an instruction as the source has it. -/
def Layout.InstructionAt (l : Layout) (addr n : Nat) (text : String) : Prop :=
  (addr, ⟨n, .written text⟩) ∈ addressed (fun x : Numbered Line => x.val.width) 0 l.lines

/-- Why a source is refused on a line. -/
inductive Refused (source : String) : Nat → Cause → Prop
  | malformedMacro {n : Nat} {body : List Char} (first : FirstBadMacro source n body) :
      Refused source n (.malformedMacro (String.ofList ('%' :: body)))
  | valueOutOfRange {n : Nat} {body : List Char} {value : String} (first : FirstBadMacro source n body) :
      Refused source n (.valueOutOfRange value)
  | invalidLabel {n : Nat} {code : List Char} (proper : ∀ k b, ¬ BadMacro source k b)
      (first : FirstBadLabel source n code) : Refused source n (.invalidLabel (String.ofList ('.' :: code)))
  | tooLarge {n : Nat} {items : List (Numbered Item)} (hitems : itemsOf source = .ok items)
      (hline : ∃ x ∈ items, x.line = n) : Refused source n .programTooLarge
  | duplicate {n : Nat} {name : String} {items : List (Numbered Item)} (hitems : itemsOf source = .ok items)
      (here : Redefines source n name) (first : ∀ k, k < n → ∀ other, ¬ Redefines source k other) :
      Refused source n (.duplicateSymbol name)
  | undefined {n : Nat} {name : String} {items : List (Numbered Item)} (hitems : itemsOf source = .ok items)
      (unique : ∀ k other, ¬ Redefines source k other) (absent : ∀ k, ¬ Source.HasLabel source k name)
      (use : Source.Uses source n name) : Refused source n (.undefinedSymbol name)
  | instruction {n addr : Nat} {text : String} {cause : Cause} {items : List (Numbered Item)} {l : Layout}
      (about : cause.AboutInstruction) (hitems : itemsOf source = .ok items) (hlayout : Layout.ofItems items = .ok l)
      (unique : ∀ k other, ¬ Redefines source k other) (hat : l.InstructionAt addr n text)
      (hread : readInstruction l.symbols addr (Text.code text.toList) = .error cause)
      (before : ∀ addr k text, k < n → l.InstructionAt addr k text →
        ∃ i, readInstruction l.symbols addr (Text.code text.toList) = .ok i) : Refused source n cause

/-! ## Rounds -/

theorem bindCell_eq_error {t : SymbolTable} {x : Nat × Cell} {d : Diagnostic} (h : bindCell t x = .error d) :
    d.line = x.2.line ∧ (d.cause = .programTooLarge ∨
      ∃ name, x.2.item = .line (.label name) ∧ name ∈ t ∧ d.cause = .duplicateSymbol name) := by
  obtain ⟨addr, cell⟩ := x
  have reach : ∀ {u : SymbolTable},
      (if addr + cell.width > 65536 then throw ⟨cell.line, .programTooLarge⟩
        else pure u : Except Diagnostic SymbolTable) = .error d → ⟨cell.line, .programTooLarge⟩ = d := by
    intro u hu
    split at hu <;> cases hu
    rfl
  simp only [bindCell] at h
  split at h
  · rename_i name hitem
    split at h
    · cases h
      exact ⟨rfl, .inl rfl⟩
    split at h
    · cases h
      exact ⟨rfl, .inr ⟨name, hitem, ‹_›, rfl⟩⟩
    · rw [← reach h]
      exact ⟨rfl, .inl rfl⟩
  · rw [← reach h]
    exact ⟨rfl, .inl rfl⟩

theorem widenCell_eq_error {t : SymbolTable} {x : Nat × Cell} {d : Diagnostic} (h : widenCell t x = .error d) :
    d.line = x.2.line ∧ (d.cause = .programTooLarge ∨
      ∃ r name, x.2.item = .load ⟨r, .symbol name⟩ ∧ t[name]? = none ∧ d.cause = .undefinedSymbol name) := by
  obtain ⟨addr, n, item, width⟩ := x
  cases item with
  | line l => cases h
  | load load =>
    rcases bind_eq_error_iff.1 h with h | ⟨_, -, h⟩
    · obtain ⟨hline, h⟩ := atLine_eq_error_iff.1 h
      refine ⟨hline, ?_⟩
      obtain ⟨r, target⟩ := load
      cases target with
      | symbol name =>
        simp only [Target.value] at h
        split at h
        · cases h
        · exact .inr ⟨r, name, rfl, ‹_›, (Except.error.inj h).symm⟩
      | returnAddress tail =>
        simp only [Target.value] at h
        split at h
        · cases h
        · exact .inl (Except.error.inj h).symm
    · cases h

/-- When the rounds fail, one of them does. -/
theorem exists_relax_error {start : List Cell} {d : Diagnostic} (h : settle start = .error d) :
    ∃ cells, cells.map Cell.numbered = start.map Cell.numbered ∧ relax cells = .error d := by
  induction start using settle_induction with
  | refused start e hr =>
    rw [settle_of_relax_error hr] at h
    exact ⟨start, rfl, h ▸ hr⟩
  | last start t hr =>
    rw [settle_of_relax hr, if_pos rfl] at h
    cases h
  | round start t widened hr hne ih =>
    rw [settle_of_relax hr, if_neg hne] at h
    obtain ⟨cells, hcells, hrelax⟩ := ih h
    exact ⟨cells, hcells.trans (widened_cells (relax_eq_ok_iff.1 hr).2).1, hrelax⟩

/-- Settled cells can be laid out, so it is the rounds that refuse. -/
theorem settle_of_ofItems_error {items : List (Numbered Item)} {d : Diagnostic} (h : Layout.ofItems items = .error d) :
    settle (items.map Cell.start) = .error d := by
  rcases bind_eq_error_iff.1 h with h | ⟨⟨symbols, cells⟩, hsettle, h⟩
  · exact h
  · rcases bind_eq_error_iff.1 h with h | ⟨_, -, h⟩
    · obtain ⟨pre, ⟨addr, cell⟩, post, _, hcells, -, hx⟩ := exists_of_mapM_error h
      have hplaced := (settled_start hsettle).placed (addr, cell) (by simp [hcells])
      have hlines := map_eq_error_iff.1 (atLine_eq_error_iff.1 hx).2
      obtain ⟨n, item, width⟩ := cell
      cases item with
      | line l => cases hlines
      | load load =>
        obtain ⟨-, value, hv, -⟩ := hplaced.load rfl
        simp only [cellLines, hv] at hlines
        cases hlines
    · cases h

section

variable {source : String} {items : List (Numbered Item)} (hitems : itemsOf source = .ok items)

include hitems

/-- A label has its line to itself. -/
theorem line_lt_of_label : items.Pairwise fun x y =>
    ∀ name, x.val = .line (.label name) ∨ y.val = .line (.label name) → x.line < y.line := by
  obtain ⟨blocks, hblocks, rfl⟩ := exists_blocks hitems
  rw [List.pairwise_flatMap]
  constructor
  · intro b hb
    obtain ⟨x, -, -, s, -, hs⟩ := exists_of_mem_right hblocks hb
    rw [List.pairwise_map]
    cases s with
    | label code =>
      simp only [expand] at hs
      split at hs
      · rw [← Except.ok.inj hs]
        exact List.pairwise_singleton ..
      · cases hs
    | note _ | instruction _ | call _ =>
      refine List.pairwise_of_forall_mem_list fun i hi j hj name hname => ?_
      obtain rfl | rfl : i = .line (.label name) ∨ j = .line (.label name) := hname
      · cases stems_of_expand hs hi
      · cases stems_of_expand hs hj
  · have hsorted := numberedLines_sorted (Source.normalizeText source.toList)
    rw [← map_line_of_expands hblocks, List.pairwise_map] at hsorted
    refine hsorted.imp fun hlt x hx y hy name _ => ?_
    obtain ⟨_, -, rfl⟩ := List.mem_map.1 hx
    obtain ⟨_, -, rfl⟩ := List.mem_map.1 hy
    exact hlt

theorem not_redefines (hpair : items.Pairwise fun x y =>
    ∀ name, x.val = .line (.label name) → y.val ≠ .line (.label name)) (n : Nat) (name : String) :
    ¬ Redefines source n name := by
  rintro ⟨hn, k, hlt, hk⟩
  have hsame := line_unique hpair (mem_items_of_hasLabel hitems hn) (mem_items_of_hasLabel hitems hk)
  omega

/-- A load of a symbol comes from a line that loads it. -/
theorem holds_of_load {x : Numbered Item} (hx : x ∈ items) {r : Reg} {name : String}
    (hload : x.val = .load ⟨r, .symbol name⟩) : Source.Holds source x.line (.call (.loadSymbol r name)) := by
  obtain ⟨s, hs, hstems⟩ := stems_of_item hitems hx
  rw [hload] at hstems
  cases hstems with
  | loadSymbol => exact hs

/-- Binding labels stops at the first one that is there already, unless the program is too large. -/
theorem refused_of_bindLabels {cells : List Cell} {d : Diagnostic} (hcells : cells.map Cell.numbered = items)
    (h : bindLabels cells = .error d) : Refused source d.line d.cause := by
  obtain ⟨pre, x, post, t, hsplit, hpre, hx⟩ := exists_of_foldlM_error h
  have hmap : items = pre.map (·.2.numbered) ++ x.2.numbered :: post.map (·.2.numbered) := by
    rw [← hcells, ← map_snd_addressed Cell.width 0 cells, hsplit, List.map_map, List.map_append, List.map_cons]
    rfl
  obtain ⟨hline, hlarge | ⟨name, hitem, hname, hdup⟩⟩ := bindCell_eq_error hx
  · rw [hlarge]
    exact .tooLarge hitems ⟨x.2.numbered, by simp [hmap], hline.symm⟩
  -- The labels before this one are in the table, and each is there once.
  obtain ⟨hlook, -, -, hpair⟩ := foldlM_bindCell hpre
  have hpair : (pre.map (·.2.numbered)).Pairwise fun x y =>
      ∀ name, x.val = .line (.label name) → y.val ≠ .line (.label name) := List.pairwise_map.2 hpair
  obtain ⟨addr, haddr⟩ := Option.isSome_iff_exists.1 (Std.TreeMap.mem_iff_isSome_getElem?.1 hname)
  obtain ⟨y, hy, hyname, -⟩ := ((hlook name addr).1 haddr).resolve_left (by simp)
  have hlt := line_lt_of_label hitems
  have hsorted := items_sorted hitems
  have hfront {n : Nat} {other : String} (hn : n < d.line) (hl : Source.HasLabel source n other) :
      ⟨n, .line (.label other)⟩ ∈ pre.map (·.2.numbered) := by
    have hmem := mem_items_of_hasLabel hitems hl
    rw [hmap] at hsorted hmem
    exact mem_front hsorted hmem (Nat.lt_of_lt_of_eq hn hline)
  rw [hmap, List.pairwise_append] at hlt
  have hymem : y.2.numbered ∈ pre.map (·.2.numbered) := List.mem_map.2 ⟨y, hy, rfl⟩
  rw [hdup]
  refine .duplicate hitems ⟨?_, y.2.line, ?_, ?_⟩ fun n hn other hre => ?_
  · rw [hline]
    exact hasLabel_of_mem hitems (x := x.2.numbered) (by simp [hmap]) hitem
  · rw [hline]
    exact hlt.2.2 _ hymem _ (List.mem_cons_self ..) name (.inl hyname)
  · exact hasLabel_of_mem hitems (x := y.2.numbered) (by rw [hmap]; exact List.mem_append_left _ hymem) hyname
  · obtain ⟨hhere, k, hk, hthere⟩ := hre
    have hsame := line_unique hpair (hfront hn hhere) (hfront (hk.trans hn) hthere)
    omega

theorem refused_of_ofItems {d : Diagnostic} (h : Layout.ofItems items = .error d) :
    Refused source d.line d.cause := by
  obtain ⟨cells, hcells, hrelax⟩ := exists_relax_error (settle_of_ofItems_error h)
  rw [Cell.map_numbered_start] at hcells
  rcases bind_eq_error_iff.1 hrelax with hbind | ⟨t, hbind, h⟩
  · exact refused_of_bindLabels hitems hcells hbind
  rcases bind_eq_error_iff.1 h with h | ⟨_, -, h⟩
  · obtain ⟨pre, x, post, _, hsplit, -, hx⟩ := exists_of_mapM_error h
    have hmem : x.2.numbered ∈ items := by
      rw [← hcells, ← map_snd_addressed Cell.width 0 cells, hsplit]
      simp
    obtain ⟨hline, hlarge | ⟨r, name, hload, habsent, hcause⟩⟩ := widenCell_eq_error hx
    · rw [hlarge]
      exact .tooLarge hitems ⟨_, hmem, hline.symm⟩
    have huse : Source.Holds source x.2.line _ := holds_of_load hitems hmem hload
    rw [hcause, hline]
    refine .undefined hitems (not_redefines hitems ?_) (fun n hl => ?_) (.inl ⟨r, huse⟩)
    · obtain ⟨-, -, -, hpair⟩ := foldlM_bindCell hbind
      rw [← hcells, ← map_snd_addressed Cell.width 0 cells, List.map_map]
      exact List.pairwise_map.2 hpair
    · have hlabel : name ∈ t := by
        rw [mem_table_iff hbind]
        have hmem := mem_items_of_hasLabel hitems hl
        rw [← hcells] at hmem
        obtain ⟨c, hc, hnum⟩ := List.mem_map.1 hmem
        exact ⟨c, hc, congrArg Numbered.val hnum⟩
      rw [Std.TreeMap.mem_iff_isSome_getElem?, habsent] at hlabel
      cases hlabel
  · cases h

end

/-! ## Instructions -/

theorem aboutInstruction_of_place {pc : Nat} {i : Instruction} {operand : Operand} {arg : Argument} {cause : Cause}
    (h : place pc i operand arg = .error cause) : cause.AboutInstruction := by
  cases place_eq_error_iff.1 h <;> trivial

/-- An argument is refused when it is none, or a symbol without an address. -/
theorem Argument.cause_of_read {symbols : SymbolTable} {token : List Char} {cause : Cause}
    (h : Argument.read symbols token = .error cause) :
    cause.AboutInstruction ∨
      ∃ name : String, cause = .undefinedSymbol name ∧ token = '.' :: name.toList ∧ symbols[name]? = none := by
  cases read_eq_error_iff.1 h with
  | undefined hnone => exact .inr ⟨_, rfl, rfl, hnone⟩
  | unknown => exact .inl trivial

/-- Why an instruction cannot be read. -/
theorem cause_of_readInstruction {symbols : SymbolTable} {pc : Nat} {code : List Char} {cause : Cause}
    (h : readInstruction symbols pc code = .error cause) :
    cause.AboutInstruction ∨ ∃ name : String, cause = .undefinedSymbol name ∧
      '.' :: name.toList ∈ (cutInstruction code).2 ∧ symbols[name]? = none := by
  unfold readInstruction at h
  dsimp only at h
  split at h
  · cases h
    exact .inl trivial
  · rename_i op _
    rcases bind_eq_error_iff.1 h with h | ⟨args, -, h⟩
    · obtain ⟨pre, token, post, _, htokens, -, htoken⟩ := exists_of_mapM_error h
      refine (Argument.cause_of_read htoken).imp_right fun ⟨name, hcause, hname, habsent⟩ => ?_
      exact ⟨name, hcause, by simp [htokens, hname], habsent⟩
    · unfold fill at h
      split at h
      · obtain ⟨_, x, _, i, -, -, hx⟩ := exists_of_foldlM_error h
        exact .inl (aboutInstruction_of_place hx)
      · cases h
        exact .inl trivial

/-! ## Code -/

theorem append_eq_error {c : Code} {n : Nat} {read : Nat → Except Cause Instruction} {d : Diagnostic}
    (hlt : c.size < 65536) (h : c.append n read = .error d) : d.line = n ∧ read c.size = .error d.cause := by
  unfold Code.size at hlt ⊢
  unfold Code.append at h
  rw [dif_pos hlt] at h
  rcases bind_eq_error_iff.1 h with h | ⟨_, -, h⟩
  · exact atLine_eq_error_iff.1 h
  · cases h

theorem appendLine_eq_error {symbols : SymbolTable} {c : Code} {x : Numbered Line} {d : Diagnostic}
    (hlt : c.size < 65536 ∨ x.val.width = 0) (h : c.appendLine symbols x = .error d) :
    ∃ text, x = ⟨d.line, .written text⟩ ∧ readInstruction symbols c.size (Text.code text.toList) = .error d.cause := by
  obtain ⟨n, l⟩ := x
  cases l with
  | note _ | label _ => cases h
  | made i =>
    rw [Code.appendLine] at h
    cases (append_eq_error (hlt.resolve_right Nat.one_ne_zero) h).2
  | written text =>
    rw [Code.appendLine] at h
    obtain ⟨rfl, hread⟩ := append_eq_error (hlt.resolve_right Nat.one_ne_zero) h
    exact ⟨text, rfl, hread⟩

/-- Laid out lines never run out of addresses, so their code is refused for an instruction that
cannot be read, and all lines before it come to their instructions. -/
theorem exists_unread {items : List (Numbered Item)} {l : Layout} (hlayout : Layout.ofItems items = .ok l)
    {d : Diagnostic} (h : Code.ofLayout l = .error d) :
    ∃ pre text post is, l.lines = pre ++ ⟨d.line, .written text⟩ :: post ∧ Emits l.symbols 0 (pre.map (·.val)) is ∧
      readInstruction l.symbols is.length (Text.code text.toList) = .error d.cause := by
  obtain ⟨pre, x, post, c, hsplit, hpre, hx⟩ := exists_of_foldlM_error h
  obtain ⟨is, his, hinst⟩ := emits_of_foldlM hpre
  have hwidth := width_lines_le hlayout
  have hsize : c.size = is.length := by
    rw [size_of_instructions hinst]
    exact Nat.zero_add _
  have hlength : is.length = (pre.map (·.val.width)).sum := by
    rw [his.length_eq, List.map_map]
    rfl
  have hroom : c.size < 65536 ∨ x.val.width = 0 := by
    rw [hsplit, List.map_append, List.sum_append, List.map_cons, List.sum_cons] at hwidth
    omega
  obtain ⟨text, rfl, hread⟩ := appendLine_eq_error hroom hx
  exact ⟨pre, text, post, is, hsplit, his, hsize ▸ hread⟩

section

variable {source : String} {items : List (Numbered Item)} (hitems : itemsOf source = .ok items) {l : Layout}
  (hlayout : Layout.ofItems items = .ok l)

include hitems

theorem holds_of_written {x : Numbered Item} (hx : x ∈ items) {text : String} (hw : x.val = .line (.written text)) :
    Source.Holds source x.line (.instruction text) := by
  obtain ⟨s, hs, hstems⟩ := stems_of_item hitems hx
  rw [hw] at hstems
  cases hstems with
  | instruction => exact hs

include hlayout

/-- Laid out lines are in the order of their source lines. -/
theorem lines_sorted : l.lines.Pairwise fun x y => x.line ≤ y.line := by
  obtain ⟨cells, blocks, hsettled, hblocks, hlines⟩ := blocks_of_ofItems hlayout
  have hcells : (addressed Cell.width 0 cells).Pairwise fun x y => x.2.line ≤ y.2.line := by
    have hsorted := items_sorted hitems
    rw [← hsettled.items_eq, ← map_snd_addressed Cell.width 0 cells, List.pairwise_map, List.pairwise_map] at hsorted
    exact hsorted
  rw [hlines]
  clear hlines
  generalize addressed Cell.width 0 cells = xs at hblocks hcells
  have hline : ∀ {x : Nat × Cell} {b : List (Numbered Line)}, LaysOut l.symbols x b → ∀ y ∈ b, y.line = x.2.line := by
    rintro x b ⟨lines, -, rfl⟩ y hy
    obtain ⟨_, -, rfl⟩ := List.mem_map.1 hy
    rfl
  induction hblocks with
  | nil => exact .nil
  | cons hx hxs ih =>
    obtain ⟨hfirst, hrest⟩ := List.pairwise_cons.1 hcells
    rw [List.flatten_cons, List.pairwise_append]
    refine ⟨List.pairwise_of_forall_mem_list fun y hy z hz => ?_, ih hrest, fun y hy z hz => ?_⟩
    · rw [hline hx y hy, hline hx z hz]
    · obtain ⟨b, hb, hz⟩ := List.mem_flatten.1 hz
      obtain ⟨x', hx', hbx⟩ := exists_of_mem_right hxs hb
      rw [hline hx y hy, hline hbx z hz]
      exact hfirst x' hx'

theorem holds_of_instructionAt {addr n : Nat} {text : String} (h : l.InstructionAt addr n text) :
    Source.Holds source n (.instruction text) := by
  obtain ⟨cells, blocks, hsettled, hblocks, hlines⟩ := blocks_of_ofItems hlayout
  have hmem := (addressed_bounds _ h).1
  rw [hlines] at hmem
  obtain ⟨y, hy, hline, hval⟩ := numbered_of_mem_blocks hblocks hmem
  rw [hsettled.items_eq] at hy
  have hs := holds_of_written hitems hy (hval text rfl)
  rwa [hline] at hs

/-- Every instruction of the source has an address. -/
theorem exists_instructionAt {n : Nat} {text : String} (hs : Source.Holds source n (.instruction text)) :
    ∃ addr, l.InstructionAt addr n text := by
  obtain ⟨cells, blocks, hsettled, hblocks, hlines⟩ := blocks_of_ofItems hlayout
  obtain ⟨line, hline, hs⟩ := hs
  have hne : line ≠ [] := by
    rintro rfl
    cases hs with
    | instruction hcode => cases hcode
  obtain ⟨own, pre, post, hown, rfl, -, -⟩ := items_at hitems hline hne hs
  cases hown
  have hmem : (⟨n, .written text⟩ : Numbered Line) ∈ l.lines := by
    rw [hlines]
    exact mem_blocks_of_line hblocks (by simp [hsettled.items_eq])
  rw [← map_snd_addressed (fun x : Numbered Line => x.val.width) 0 l.lines] at hmem
  obtain ⟨⟨addr, _⟩, hat, rfl⟩ := List.mem_map.1 hmem
  exact ⟨addr, hat⟩

/-- The code is refused at the first instruction that cannot be read at its address. -/
theorem refused_of_ofLayout {d : Diagnostic} (h : Code.ofLayout l = .error d) : Refused source d.line d.cause := by
  obtain ⟨pre, text, post, is, hsplit, his, hread⟩ := exists_unread hlayout h
  have hsorted := lines_sorted hitems hlayout
  have haddr : addressed (fun x : Numbered Line => x.val.width) 0 l.lines =
      addressed (·.val.width) 0 pre ++ addressed (·.val.width) is.length (⟨d.line, .written text⟩ :: post) := by
    rw [hsplit, addressed_append, his.length_eq, List.map_map, Nat.zero_add]
    rfl
  have hat : l.InstructionAt is.length d.line text := by
    rw [Layout.InstructionAt, haddr, addressed_cons]
    simp
  have hbefore : ∀ addr n text, n < d.line → l.InstructionAt addr n text →
      ∃ i, readInstruction l.symbols addr (Text.code text.toList) = .ok i := by
    intro addr n text hn hat
    rw [hsplit] at hsorted
    rw [Layout.InstructionAt, haddr, List.mem_append] at hat
    rcases hat with hat | hat
    · have hmem : (addr, Line.written text) ∈ addressed Line.width 0 (pre.map (·.val)) := by
        rw [addressed_map]
        exact List.mem_map.2 ⟨_, hat, rfl⟩
      obtain hw | ⟨-, i, -, hi⟩ := his.cases_of_mem hmem
      · cases hw
      · exact ⟨i, hi⟩
    · have hle := line_le_of_behind hsorted (addressed_bounds _ hat).1
      exact absurd hn (Nat.not_lt.2 hle)
  obtain ⟨cells, blocks, hsettled, -, -⟩ := blocks_of_ofItems hlayout
  have hunique := not_redefines hitems hsettled.labels_distinct
  rcases cause_of_readInstruction hread with habout | ⟨name, hcause, htoken, habsent⟩
  · exact .instruction habout hitems hlayout hunique hat hread hbefore
  · rw [hcause]
    refine .undefined hitems hunique (fun k hl => ?_) (.inr ⟨text, holds_of_instructionAt hitems hlayout hat, htoken⟩)
    have hmem := (hsettled.mem_symbols_iff name).2 ⟨_, mem_items_of_hasLabel hitems hl, rfl⟩
    rw [Std.TreeMap.mem_iff_isSome_getElem?, habsent] at hmem
    cases hmem

end

/-! ## Sources -/

section

variable {source : String} {d : Diagnostic}

/-- The first stage that fails is the one that refuses. -/
theorem refused_of_assemble (h : assemble source = .error d) : Refused source d.line d.cause := by
  rcases bind_eq_error_iff.1 h with h | ⟨items, hitems, h⟩
  · rcases bind_eq_error_iff.1 h with h | ⟨statements, hs, h⟩
    · obtain ⟨body, first, hcause | ⟨value, hcause⟩⟩ := firstBadMacro_of_statements h
      · exact hcause ▸ .malformedMacro first
      · exact hcause ▸ .valueOutOfRange first
    · rcases bind_eq_error_iff.1 h with h | ⟨_, -, h⟩
      · obtain ⟨proper, code, first, hcause⟩ := firstBadLabel_of_expand hs h
        exact hcause ▸ .invalidLabel proper first
      · cases h
  · rcases bind_eq_error_iff.1 h with h | ⟨l, hlayout, h⟩
    · exact refused_of_ofItems hitems h
    · rcases bind_eq_error_iff.1 h with h | ⟨_, -, h⟩
      · exact refused_of_ofLayout hitems hlayout h
      · cases h

/-- A refusal is on a line of the source. -/
theorem Refused.exists_line {n : Nat} {cause : Cause} (h : Refused source n cause) :
    ∃ line, Source.line? source n = some line := by
  have holds {s : Statement} (hs : Source.Holds source n s) : ∃ line, Source.line? source n = some line :=
    hs.imp fun _ h => h.1
  cases h with
  | malformedMacro first | valueOutOfRange first | invalidLabel _ first => exact first.1.imp fun _ h => h.1
  | tooLarge hitems hline =>
    obtain ⟨x, hx, rfl⟩ := hline
    obtain ⟨_, _, hs, -⟩ := origin_of_item hitems hx
    exact holds hs
  | duplicate _ here _ =>
    obtain ⟨_, hs, -⟩ := here.1
    exact holds hs
  | undefined _ _ _ use =>
    obtain ⟨_, hs⟩ | ⟨_, hs, -⟩ := use
    · exact holds hs
    · exact holds hs
  | instruction _ hitems hlayout _ hat _ _ => exact holds (holds_of_instructionAt hitems hlayout hat)

end

end Assembly

end Isa16
