import Mathlib.Data.Set.List
import Isa16.Proofs.Assembly.Consistent
import Isa16.Proofs.Assembly.Extent
import Isa16.Proofs.Assembly.Relocation
/-!
# Assembling sources behind each other

Lines behind a source change none of its rounds: they need no widening
themselves, and all they add to the table are labels that the source does not
ask for (`Rounds.append`). So a source behind another is laid out as the lines
that it is laid out as alone, and if it only asks for labels by their distance,
they come to the same code there (`assemble_append`).
-/

namespace Isa16

namespace Assembly

open Isa16.Source (Statement MacroCall)

/-! ## Loads with more labels -/

section

variable {t t' : SymbolTable} (hm : Moves 0 t t')

include hm

theorem value_of_moves {next : Nat} {target : Target} {value : UInt16} (h : target.value t next = .ok value) :
    target.value t' next = .ok value := by
  cases target with
  | returnAddress tail => exact h
  | symbol name =>
    unfold Target.value at h ⊢
    dsimp only at h ⊢
    split at h
    · rename_i addr haddr
      rwa [hm.getElem? haddr]
    · cases h

theorem widenCell_of_moves {x : Nat × Cell} {c : Cell} (h : widenCell t x = .ok c) : widenCell t' x = .ok c := by
  obtain ⟨addr, n, item, width⟩ := x
  cases item with
  | line l => exact h
  | load load =>
    obtain ⟨value, hv, h⟩ := bind_eq_ok_iff.1 h
    rw [atLine_eq_ok_iff] at hv
    exact bind_eq_ok_iff.2 ⟨value, atLine_eq_ok_iff.2 (value_of_moves hm hv), h⟩

theorem laysOut_of_moves {x : Nat × Cell} {block : List (Numbered Line)} (h : LaysOut t x block) :
    LaysOut t' x block := by
  obtain ⟨lines, hlines, hblock⟩ := h
  refine ⟨lines, ?_, hblock⟩
  obtain ⟨addr, n, item, width⟩ := x
  cases item with
  | line l => exact hlines
  | load load =>
    obtain ⟨value, hv, hlines⟩ := bind_eq_ok_iff.1 hlines
    exact bind_eq_ok_iff.2 ⟨value, value_of_moves hm hv, hlines⟩

end

/-! ## Rounds with lines behind -/

/-- The lines have labels that are neither among the logical lines nor twice. -/
structure NewLabels (items : List (Numbered Item)) (lines : List (Numbered Line)) : Prop where
  fresh : ∀ x ∈ lines, ∀ name, x.val = .label name → ∀ y ∈ items, y.val ≠ .line (.label name)
  distinct : lines.Pairwise fun x y => ∀ name, x.val = .label name → y.val ≠ .label name

theorem width_lineCells (lines : List (Numbered Line)) :
    ((lines.map lineCell).map Cell.width).sum = (lines.map (·.val.width)).sum := by
  rw [List.map_map]
  rfl

theorem moves_of_bindLabels {cells more : List Cell} {t t' : SymbolTable} (h : bindLabels cells = .ok t)
    (h' : bindLabels (cells ++ more) = .ok t') : Moves 0 t t' := by
  intro name addr haddr
  obtain ⟨x, hx, hname, hat⟩ := (label_iff h name addr).1 haddr
  refine ⟨addr, (label_iff h' name addr).2 ⟨x, ?_, hname, hat⟩, rfl⟩
  rw [addressed_append]
  exact List.mem_append_left _ hx

section

variable {items : List (Numbered Item)} {lines : List (Numbered Line)} (hnew : NewLabels items lines)

include hnew

theorem bindLabels_append {cells : List Cell} {t : SymbolTable} (hi : cells.map Cell.numbered = items)
    (hfit : (cells.map Cell.width).sum + (lines.map (·.val.width)).sum < 65536) (h : bindLabels cells = .ok t) :
    ∃ t', bindLabels (cells ++ lines.map lineCell) = .ok t' := by
  have hbound : ∀ x ∈ addressed Cell.width (0 + (cells.map Cell.width).sum) (lines.map lineCell),
      x.2 ∈ lines.map lineCell ∧ x.1 + x.2.width < 65536 := by
    intro x hx
    obtain ⟨hmem, hle⟩ := addressed_bounds x hx
    rw [width_lineCells] at hle
    exact ⟨hmem, by omega⟩
  have hlines : ∃ t', (addressed Cell.width (0 + (cells.map Cell.width).sum) (lines.map lineCell)).foldlM
      bindCell t = .ok t' := by
    refine exists_foldlM_bindCell (fun x hx => Nat.le_of_lt (hbound x hx).2) (fun x hx name hname => ?_) ?_
    · obtain ⟨hmem, hlt⟩ := hbound x hx
      refine ⟨by omega, fun hold => ?_⟩
      -- A label in the table is one of the logical lines, and these have none of the new ones.
      obtain ⟨l, hl, hcell⟩ := List.mem_map.1 hmem
      obtain ⟨c, hc, hcname⟩ := (mem_table_iff h name).1 hold
      have hitem : c.numbered ∈ items := hi ▸ List.mem_map_of_mem hc
      rw [← hcell] at hname
      exact hnew.fresh l hl name (Item.line.inj hname) _ hitem hcname
    · rw [← List.pairwise_map (f := Prod.snd)
        (R := fun c d : Cell => ∀ name, c.item = .line (.label name) → d.item ≠ .line (.label name)),
        map_snd_addressed, List.pairwise_map]
      refine hnew.distinct.imp fun hxy name hx hy => ?_
      exact hxy name (Item.line.inj hx) (Item.line.inj hy)
  obtain ⟨t', ht'⟩ := hlines
  refine ⟨t', ?_⟩
  rw [bindLabels, addressed_append, List.foldlM_append]
  exact bind_eq_ok_iff.2 ⟨t, h, ht'⟩

theorem relax_append {cells widened : List Cell} {t : SymbolTable} (hi : cells.map Cell.numbered = items)
    (hfit : (cells.map Cell.width).sum + (lines.map (·.val.width)).sum < 65536) (h : relax cells = .ok (t, widened)) :
    ∃ t', relax (cells ++ lines.map lineCell) = .ok (t', widened ++ lines.map lineCell) := by
  obtain ⟨hbind, hwiden⟩ := relax_eq_ok_iff.1 h
  obtain ⟨t', hbind'⟩ := bindLabels_append hnew hi hfit hbind
  have hm := moves_of_bindLabels hbind hbind'
  refine ⟨t', relax_eq_ok_iff.2 ⟨hbind', ?_⟩⟩
  rw [addressed_append]
  exact List.rel_append (hwiden.imp fun _ _ => widenCell_of_moves hm) (widened_lineCells t' _ lines)

/-- Lines behind the cells make no difference to the rounds. -/
theorem Rounds.append {start cells : List Cell} {t : SymbolTable} (h : Rounds start t cells)
    (hi : start.map Cell.numbered = items)
    (hfit : (cells.map Cell.width).sum + (lines.map (·.val.width)).sum < 65536) :
    ∃ t', Rounds (start ++ lines.map lineCell) t' (cells ++ lines.map lineCell) := by
  induction h with
  | last h =>
    obtain ⟨t', h'⟩ := relax_append hnew hi hfit h
    exact ⟨t', .last h'⟩
  | round h rest ih =>
    have hle := (Rounds.round h rest).width_le
    obtain ⟨_, h'⟩ := relax_append hnew hi (by omega) h
    obtain ⟨t', rest'⟩ := ih ((widened_cells (relax_eq_ok_iff.1 h).2).1.trans hi) hfit
    exact ⟨t', .round h' rest'⟩

end

/-! ## The labels of lines -/

/-- The lines, of which the first is at `start`, have a label at an address. -/
def LabelAt (start : Nat) (lines : List (Numbered Line)) (name : String) (addr : UInt16) : Prop :=
  ∃ x ∈ addressed (·.val.width) start lines, x.2.val = .label name ∧ addr = UInt16.ofNat x.1

section

variable {start : Nat} {lines : List (Numbered Line)} {name : String} {addr : UInt16}

theorem labelAt_lineCells : LabelAt start lines name addr ↔
    ∃ x ∈ addressed Cell.width start (lines.map lineCell), x.2.item = .line (.label name) ∧
      addr = UInt16.ofNat x.1 := by
  rw [addressed_map]
  simp only [List.mem_map, exists_exists_and_eq_and, lineCell, Item.line.injEq]
  rfl

theorem labelAt_down {n : Nat} : LabelAt start (lines.map (·.down n)) name addr ↔ LabelAt start lines name addr := by
  unfold LabelAt
  rw [addressed_map]
  simp only [List.mem_map, exists_exists_and_eq_and]
  rfl

/-- A label is as much further on as the first line is. -/
theorem labelAt_add {k : Nat} (hfit : (lines.map (·.val.width)).sum + k < 65536) : LabelAt k lines name addr ↔
    ∃ base, LabelAt 0 lines name base ∧ addr.toNat = base.toNat + k := by
  have hmove : ∀ x ∈ addressed (fun x : Numbered Line => x.val.width) 0 lines,
      (UInt16.ofNat (x.1 + k)).toNat = (UInt16.ofNat x.1).toNat + k := by
    intro x hx
    have hle := (addressed_bounds x hx).2
    rw [UInt16.toNat_ofNat_of_lt' (show x.1 + k < 65536 by omega),
      UInt16.toNat_ofNat_of_lt' (show x.1 < 65536 by omega)]
  have hk := addressed_add (fun x : Numbered Line => x.val.width) 0 k lines
  rw [Nat.zero_add] at hk
  unfold LabelAt
  rw [hk]
  constructor
  · rintro ⟨_, hmem, hname, rfl⟩
    obtain ⟨x, hx, rfl⟩ := List.mem_map.1 hmem
    exact ⟨_, ⟨x, hx, hname, rfl⟩, hmove x hx⟩
  · rintro ⟨_, ⟨x, hx, hname, rfl⟩, haddr⟩
    refine ⟨_, List.mem_map_of_mem hx, hname, UInt16.toNat_inj.1 ?_⟩
    rw [haddr, hmove x hx]

theorem LabelAt.toNat_le (h : LabelAt 0 lines name addr) : addr.toNat ≤ (lines.map (·.val.width)).sum := by
  obtain ⟨x, hx, -, rfl⟩ := h
  have hle := (addressed_bounds x hx).2
  have hmod : (UInt16.ofNat x.1).toNat ≤ x.1 := by
    rw [UInt16.toNat_ofNat']
    exact Nat.mod_le ..
  omega

end

/-! ## Layouts of lines -/

/-- No round widens a line. -/
theorem cells_of_lineCells {lines : List (Numbered Line)} {cells : List Cell} {t : SymbolTable}
    (h : Rounds (lines.map lineCell) t cells) : cells = lines.map lineCell := by
  generalize hstart : lines.map lineCell = start at h
  induction h with
  | last _ => rfl
  | @round _ widened _ t _ h _ ih =>
    have hsame : widened = lines.map lineCell := by
      have hwiden := mapM_eq_ok_iff.2 (relax_eq_ok_iff.1 h).2
      rw [← hstart, mapM_eq_ok_iff.2 (widened_lineCells t 0 lines)] at hwiden
      exact (Except.ok.inj hwiden).symm
    rw [ih hsame.symm, hsame, hstart]

theorem rightUnique_laysOut (t : SymbolTable) : Relator.RightUnique (LaysOut t) := by
  rintro x _ _ ⟨lines, hlines, rfl⟩ ⟨lines', hlines', rfl⟩
  rw [hlines] at hlines'
  cases hlines'
  rfl

/-- Logical lines without loads are laid out as they are, and their labels are the table. -/
theorem layout_of_lineItems {lines : List (Numbered Line)} {l : Layout}
    (h : Layout.ofItems (lines.map lineItem) = .ok l) :
    l.lines = lines ∧ (∀ name addr, l.symbols[name]? = some addr ↔ LabelAt 0 lines name addr) ∧
      lines.Pairwise fun x y => ∀ name, x.val = .label name → y.val ≠ .label name := by
  obtain ⟨cells, blocks, hsettle, hblocks, hlines⟩ := ofItems_eq_ok_iff.1 h
  have hsettled := settled_start hsettle
  rw [List.map_map] at hsettle
  obtain rfl : cells = lines.map lineCell := cells_of_lineCells (rounds_of_settle hsettle)
  have hbind := hsettled.bindLabels_eq
  refine ⟨?_, fun name addr => ?_, ?_⟩
  · have hsame := (rightUnique_laysOut l.symbols).forall₂ hblocks (blocks_lineCells l.symbols 0 lines)
    rw [hlines, hsame, ← List.flatMap_def, List.flatMap_singleton']
  · rw [label_iff hbind, labelAt_lineCells]
  · have hdistinct := hsettled.labels_distinct
    rw [List.pairwise_map] at hdistinct
    refine hdistinct.imp fun hxy name hx hy => ?_
    exact hxy name (congrArg Item.line hx) (congrArg Item.line hy)

/-- Lines behind logical lines are laid out behind them. -/
theorem ofItems_append {items : List (Numbered Item)} {lines : List (Numbered Line)} {l : Layout}
    (h : Layout.ofItems items = .ok l) (hnew : NewLabels items lines)
    (hfit : (l.lines.map (·.val.width)).sum + (lines.map (·.val.width)).sum < 65536) :
    ∃ t, Layout.ofItems (items ++ lines.map lineItem) = .ok ⟨l.lines ++ lines, t⟩ ∧
      ∀ name addr, t[name]? = some addr ↔
        l.symbols[name]? = some addr ∨ LabelAt (l.lines.map (·.val.width)).sum lines name addr := by
  obtain ⟨cells, blocks, hsettle, hblocks, hlines⟩ := ofItems_eq_ok_iff.1 h
  have hsettled := settled_start hsettle
  have hbind := hsettled.bindLabels_eq
  have hwidth : (l.lines.map (·.val.width)).sum = (cells.map Cell.width).sum := by
    rw [hlines, width_blocks hsettled.placed hblocks]
  rw [hwidth] at hfit ⊢
  obtain ⟨t, hrounds⟩ := (rounds_of_settle hsettle).append hnew (Cell.map_numbered_start items) hfit
  have hsettle' : settle ((items ++ lines.map lineItem).map Cell.start) = .ok (t, cells ++ lines.map lineCell) := by
    rw [List.map_append, List.map_map]
    exact settle_of_rounds hrounds
  have hbind' := (settled_start hsettle').bindLabels_eq
  refine ⟨t, ofItems_eq_ok_iff.2 ⟨_, blocks ++ lines.map ([·]), hsettle', ?_, ?_⟩, fun name addr => ?_⟩
  · have hm := moves_of_bindLabels hbind hbind'
    rw [addressed_append]
    exact List.rel_append (hblocks.imp fun _ _ => laysOut_of_moves hm) (blocks_lineCells t _ lines)
  · rw [List.flatten_append, hlines, ← List.flatMap_def, List.flatMap_singleton']
  · rw [label_iff hbind', label_iff hbind, labelAt_lineCells, addressed_append, Nat.zero_add]
    simp only [List.mem_append, or_and_right, exists_or]

/-- The table has the labels of the first, those of the second `k` addresses further on, and no others. -/
def Joins (k : Nat) (t₁ t₂ t : SymbolTable) : Prop :=
  ∀ (name : String) (addr : UInt16), t[name]? = some addr ↔
    t₁[name]? = some addr ∨ ∃ base : UInt16, t₂[name]? = some base ∧ addr.toNat = base.toNat + k

section

variable {k : Nat} {t₁ t₂ t : SymbolTable} (h : Joins k t₁ t₂ t)

include h

theorem Joins.moves_left : Moves 0 t₁ t := by
  intro name addr haddr
  exact ⟨addr, (h name addr).2 (.inl haddr), rfl⟩

theorem Joins.moves_right (hfit : ∀ (name : String) (base : UInt16), t₂[name]? = some base → base.toNat + k < 65536) :
    Moves k t₂ t := by
  intro name base hname
  have haddr : (UInt16.ofNat (base.toNat + k)).toNat = base.toNat + k :=
    UInt16.toNat_ofNat_of_lt' (hfit name base hname)
  exact ⟨_, (h name _).2 (.inr ⟨base, hname, haddr⟩), haddr⟩

end

/-- Logical lines without loads are laid out behind others as they are laid out alone. -/
theorem ofItems_join {items : List (Numbered Item)} {lines : List (Numbered Line)} {l₁ l₂ : Layout}
    (h₁ : Layout.ofItems items = .ok l₁) (h₂ : Layout.ofItems (lines.map lineItem) = .ok l₂)
    (hfresh : ∀ x ∈ lines, ∀ name, x.val = .label name → ∀ y ∈ items, y.val ≠ .line (.label name))
    (hfit : (l₁.lines.map (·.val.width)).sum + (l₂.lines.map (·.val.width)).sum < 65536) (n : Nat) :
    ∃ t, Layout.ofItems (items ++ (lines.map lineItem).map (·.down n)) =
        .ok ⟨l₁.lines ++ l₂.lines.map (·.down n), t⟩ ∧
      Joins (l₁.lines.map (·.val.width)).sum l₁.symbols l₂.symbols t ∧
      Moves (l₁.lines.map (·.val.width)).sum l₂.symbols t := by
  obtain ⟨hlines, hbase, hdistinct⟩ := layout_of_lineItems h₂
  rw [hlines] at hfit ⊢
  have hnew : NewLabels items (lines.map (·.down n)) := by
    refine ⟨fun _ hmem name hname => ?_, List.pairwise_map.2 hdistinct⟩
    obtain ⟨x, hx, rfl⟩ := List.mem_map.1 hmem
    exact hfresh x hx name hname
  have hwidth : ((lines.map (·.down n)).map (·.val.width)).sum = (lines.map (·.val.width)).sum := by
    rw [List.map_map]
    rfl
  obtain ⟨t, hlayout, hsymbols⟩ := ofItems_append h₁ hnew (hwidth ▸ hfit)
  rw [Nat.add_comm] at hfit
  have hjoins : Joins (l₁.lines.map (·.val.width)).sum l₁.symbols l₂.symbols t := by
    intro name addr
    rw [hsymbols, labelAt_down, labelAt_add hfit]
    simp only [hbase]
  refine ⟨t, ?_, hjoins, hjoins.moves_right fun name base hname => ?_⟩
  · rw [List.map_map] at hlayout ⊢
    exact hlayout
  · have hle := ((hbase name base).1 hname).toNat_le
    omega

/-- A source has as many instructions as its lines fill words. -/
theorem size_of_assemble {source : String} {a : Assembly} (h : assemble source = .ok a) :
    a.size = (a.layout.lines.map (·.val.width)).sum := by
  have hlength := (emits_of_assemble h).length_eq
  rw [Code.length_instructions, List.map_map] at hlength
  exact hlength

theorem toList_hex (a : Assembly) : a.hex.toList =
    a.code.entries.toList.flatMap fun e => Text.Hex.fixed Text.Hex.upperDigit 4 e.val.word.toNat := by
  have hwords : a.program.words.toList = a.code.entries.toList.map (·.val.word) := Array.toList_map
  rw [hex, Program.toList_toHex, hwords, List.flatMap_map]

end Assembly

/-! ## Position independence -/

/-- The source asks for labels only by their distance. -/
structure Source.PositionIndependent (source : String) : Prop where
  no_call : ∀ n r, ¬ Source.Holds source n (.call (.call r))
  no_loadSymbol : ∀ n r name, ¬ Source.Holds source n (.call (.loadSymbol r name))
  no_immediate : ¬ Source.HasSymbolicImmediate source

namespace Assembly

open Isa16.Source (PositionIndependent)

theorem LaidOut.not_symbolic {source : String} {l : Line} (h : LaidOut source l)
    (hno : ¬ Source.HasSymbolicImmediate source) : ¬ l.Symbolic := by
  intro hsymbolic
  cases h with
  | written hs => exact hno ⟨_, _, hs, hsymbolic⟩
  | note _ | label _ | made _ => exact hsymbolic

/-- Logical lines that load no address need none. -/
theorem exists_lineItems {source : String} {items : List (Numbered Item)} (hitems : itemsOf source = .ok items)
    (hcall : ∀ n r, ¬ Source.Holds source n (.call (.call r)))
    (hload : ∀ n r name, ¬ Source.Holds source n (.call (.loadSymbol r name))) :
    ∃ lines : List (Numbered Line), lines.map lineItem = items := by
  have hline : ∀ x ∈ items, ∃ l, x.val = .line l := by
    intro x hx
    obtain ⟨s, hs, hstems⟩ := stems_of_item hitems hx
    cases hval : x.val with
    | line l => exact ⟨l, rfl⟩
    | load load =>
      rw [hval] at hstems
      cases hstems with
      | loadSymbol r name => exact absurd hs (hload _ r name)
      | returnAddress r _ => exact absurd hs (hcall _ r)
  have hrange : items ∈ Set.range (List.map lineItem) := by
    rw [Set.range_list_map]
    intro x hx
    obtain ⟨l, hl⟩ := hline x hx
    exact ⟨⟨x.line, l⟩, congrArg (Numbered.mk x.line) hl.symm⟩
  exact hrange

end Assembly

open Assembly in
/-- A source behind another one comes to the code it comes to alone, with its labels further on. -/
theorem assemble_append {s₁ s₂ : String} {a₁ a₂ : Assembly} (h₁ : assemble s₁ = .ok a₁) (h₂ : assemble s₂ = .ok a₂)
    (hs : Source.Complete s₁) (hlabels : ∀ name n k, Source.HasLabel s₁ n name → ¬ Source.HasLabel s₂ k name)
    (hfit : a₁.size + a₂.size < 65536) (hpos : Source.PositionIndependent s₂) :
    ∃ a, assemble (s₁ ++ s₂) = .ok a ∧ a.hex = a₁.hex ++ a₂.hex ∧ Joins a₁.size a₁.symbols a₂.symbols a.symbols ∧
      a.lineMap.toList = a₁.lineMap.toList ++ a₂.lineMap.toList.map (· + Source.newlines s₁) := by
  obtain ⟨items₁, hitems₁, hlayout₁, hcode₁⟩ := assemble_eq_ok_iff.1 h₁
  obtain ⟨items₂, hitems₂, hlayout₂, hcode₂⟩ := assemble_eq_ok_iff.1 h₂
  obtain ⟨lines, rfl⟩ := exists_lineItems hitems₂ hpos.no_call hpos.no_loadSymbol
  have hfresh : ∀ x ∈ lines, ∀ name, x.val = .label name → ∀ y ∈ items₁, y.val ≠ .line (.label name) := by
    intro x hx name hname y hy hyname
    have hitem : lineItem x ∈ lines.map lineItem := List.mem_map_of_mem hx
    have hsecond := hasLabel_of_mem hitems₂ hitem (congrArg Item.line hname)
    exact hlabels name _ _ (hasLabel_of_mem hitems₁ hy hyname) hsecond
  obtain ⟨t, hlayout, hjoins, hmoves⟩ := ofItems_join hlayout₁ hlayout₂ hfresh
    (by rwa [← size_of_assemble h₁, ← size_of_assemble h₂]) (Source.newlines s₁)
  rw [← size_of_assemble h₁] at hjoins hmoves
  have hplain : ∀ x ∈ a₂.layout.lines, ¬ x.val.Symbolic :=
    fun x hx => (laidOut_of_assemble h₂ x hx).not_symbolic hpos.no_immediate
  obtain ⟨c, hcode, hentries⟩ :=
    ofLayout_append hcode₁ hcode₂ hjoins.moves_left hmoves hplain (Nat.le_of_lt hfit) (Source.newlines s₁)
  refine ⟨⟨_, c⟩, assemble_eq_ok_iff.2 ⟨_, itemsOf_append hs hitems₁ hitems₂, hlayout, hcode⟩, ?_, hjoins, ?_⟩
  · rw [← String.toList_inj, String.toList_append, toList_hex, toList_hex, toList_hex, hentries, List.flatMap_append,
      List.flatMap_map]
    rfl
  · rw [toList_lineMap, toList_lineMap, toList_lineMap, hentries, List.map_append, List.map_map, List.map_map]
    rfl

/-- A branch behind a load and a call that both ask for an address. -/
theorem append_branch_to_loads :
    ∃ a₁ a₂ a, assemble "%SLDI r1,.a\n%CALL r1\n.a:\n" = .ok a₁ ∧ assemble "brz r1,.b\n.b:" = .ok a₂ ∧
      assemble ("%SLDI r1,.a\n%CALL r1\n.a:\n" ++ "brz r1,.b\n.b:") = .ok a ∧ a.hex = a₁.hex ++ a₂.hex := by
  obtain ⟨a₁, h₁, hsize₁⟩ := exists_ok_of_any (x := assemble "%SLDI r1,.a\n%CALL r1\n.a:\n")
    (p := fun a => a.size < 100) (by decide +kernel)
  obtain ⟨a₂, h₂, hsize₂⟩ := exists_ok_of_any (x := assemble "brz r1,.b\n.b:")
    (p := fun a => a.size < 100) (by decide +kernel)
  have hload : Source.Holds "%SLDI r1,.a\n%CALL r1\n.a:\n" 1 (.call (.loadSymbol 1 "a")) :=
    ⟨_, rfl, Source.Statement.read_eq_ok_iff.1 rfl⟩
  have hcall : Source.Holds "%SLDI r1,.a\n%CALL r1\n.a:\n" 2 (.call (.call 1)) :=
    ⟨_, rfl, Source.Statement.read_eq_ok_iff.1 rfl⟩
  have hfirst : Source.Holds "%SLDI r1,.a\n%CALL r1\n.a:\n" 3 (.label ".a:") :=
    ⟨_, rfl, Source.Statement.read_eq_ok_iff.1 rfl⟩
  have hbranch : Source.Holds "brz r1,.b\n.b:" 1 (.instruction "brz r1,.b") :=
    ⟨_, rfl, Source.Statement.read_eq_ok_iff.1 rfl⟩
  have hsecond : Source.Holds "brz r1,.b\n.b:" 2 (.label ".b:") :=
    ⟨_, rfl, Source.Statement.read_eq_ok_iff.1 rfl⟩
  have hone : ∀ n name, Source.HasLabel "%SLDI r1,.a\n%CALL r1\n.a:\n" n name → name = "a" := by
    rintro n name ⟨code, hs, hname⟩
    match n, hs with
    | 0, ⟨_, hline, _⟩ => cases hline
    | 1, hs => cases hs.unique hload
    | 2, hs => cases hs.unique hcall
    | 3, hs =>
      cases hs.unique hfirst
      exact Option.some.inj hname.symm
    | _ + 4, ⟨_, hline, _⟩ => cases hline
  have hsays : ∀ n s, Source.Holds "brz r1,.b\n.b:" n s → s = .instruction "brz r1,.b" ∨ s = .label ".b:" := by
    intro n s hs
    match n, hs with
    | 0, ⟨_, hline, _⟩ => cases hline
    | 1, hs => exact .inl (hs.unique hbranch)
    | 2, hs => exact .inr (hs.unique hsecond)
    | _ + 3, ⟨_, hline, _⟩ => cases hline
  have hpos : Source.PositionIndependent "brz r1,.b\n.b:" := by
    refine ⟨fun n r hs => ?_, fun n r name hs => ?_, ?_⟩
    · rcases hsays n _ hs with h | h <;> cases h
    · rcases hsays n _ hs with h | h <;> cases h
    · rintro ⟨n, text, hs, op, k, symbol, hop, hk, -⟩
      rcases hsays n _ hs with h | h
      · cases h
        cases hop
        exact absurd (List.mem_of_getElem? hk) (by decide)
      · cases h
  have hlabels : ∀ name n k, Source.HasLabel "%SLDI r1,.a\n%CALL r1\n.a:\n" n name →
      ¬ Source.HasLabel "brz r1,.b\n.b:" k name := by
    rintro name n k hn ⟨code, hs, hname⟩
    obtain rfl := hone n name hn
    rcases hsays k _ hs with h | h
    · cases h
    · cases h
      exact absurd hname (by decide)
  have hfit : a₁.size + a₂.size < 65536 := by
    have hlt₁ := of_decide_eq_true hsize₁
    have hlt₂ := of_decide_eq_true hsize₂
    omega
  obtain ⟨a, ha, hhex, -⟩ := assemble_append h₁ h₂ (.inr rfl) hlabels hfit hpos
  exact ⟨a₁, a₂, a, h₁, h₂, ha, hhex⟩

end Isa16
