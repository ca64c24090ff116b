import Isa16.Proofs.Assembly.Items
import Isa16.Proofs.Assembly.Cells
import Isa16.Assembly.Basic
/-!
# What logical lines come to

`Encodes` says which instructions logical lines come to at an address, without
rounds, notes or cells: a label has the address it stands at, a load fills some
width with the constant that is right for that width, and everything behind is
at the address behind it. The code of an assembled source is what its logical
lines come to at address zero (`encodes_of_assemble`).
-/

namespace Isa16.Assembly

/-- Idle instructions up to a width, and a constant load behind them. -/
def loadCode (reg : Reg) (value : UInt16) (width : Nat) : List Instruction :=
  List.replicate (width - (constant value).length) ⟨.mova, reg, reg, 0⟩
    ++ (constant value).map (·.instruction reg)

/-- The instructions that logical lines come to at an address. -/
inductive Encodes (symbols : SymbolTable) : Nat → List (Numbered Item) → List (Numbered Instruction) → Prop
  | nil {addr : Nat} : Encodes symbols addr [] []
  | note {addr n : Nat} {text : String} {items es} (rest : Encodes symbols addr items es) :
      Encodes symbols addr (⟨n, .line (.note text)⟩ :: items) es
  | label {addr n : Nat} {name : String} {items es} (hlt : addr < 65536)
      (hl : symbols[name]? = some (UInt16.ofNat addr)) (rest : Encodes symbols addr items es) :
      Encodes symbols addr (⟨n, .line (.label name)⟩ :: items) es
  | written {addr n : Nat} {text : String} {i : Instruction} {items es}
      (hi : readInstruction symbols addr (Text.code text.toList) = .ok i)
      (rest : Encodes symbols (addr + 1) items es) :
      Encodes symbols addr (⟨n, .line (.written text)⟩ :: items) (⟨n, i⟩ :: es)
  | made {addr n : Nat} {i : Instruction} {items es} (rest : Encodes symbols (addr + 1) items es) :
      Encodes symbols addr (⟨n, .line (.made i)⟩ :: items) (⟨n, i⟩ :: es)
  | load {addr n width : Nat} {load : Load} {value : UInt16} {items es} (hw : width ≤ 19)
      (hv : load.target.value symbols (addr + width) = .ok value) (hfit : (constant value).length ≤ width)
      (rest : Encodes symbols (addr + width) items es) :
      Encodes symbols addr (⟨n, .load load⟩ :: items) ((loadCode load.reg value width).map (⟨n, ·⟩) ++ es)

/-! ## Lengths and parts -/

theorem loadLines_eq (reg : Reg) (value : UInt16) (width : Nat) :
    loadLines reg value width = (loadCode reg value width).map .made := by
  simp [loadLines, loadCode]

theorem length_loadCode {reg : Reg} {value : UInt16} {width : Nat} (h : (constant value).length ≤ width) :
    (loadCode reg value width).length = width := by
  simp only [loadCode, List.length_append, List.length_replicate, List.length_map]
  omega

namespace Encodes

variable {symbols : SymbolTable} {addr : Nat} {items : List (Numbered Item)} {es : List (Numbered Instruction)}

/-- The parts of the logical lines come to the parts of the code, each at its own address. -/
theorem split {xs ys : List (Numbered Item)} (h : Encodes symbols addr (xs ++ ys) es) :
    ∃ us vs, es = us ++ vs ∧ Encodes symbols addr xs us ∧ Encodes symbols (addr + us.length) ys vs := by
  induction xs generalizing addr es with
  | nil => exact ⟨[], es, rfl, .nil, h⟩
  | cons x xs ih =>
    cases h with
    | note rest =>
      obtain ⟨us, vs, rfl, hu, hv⟩ := ih rest
      exact ⟨us, vs, rfl, .note hu, hv⟩
    | label hlt hl rest =>
      obtain ⟨us, vs, rfl, hu, hv⟩ := ih rest
      exact ⟨us, vs, rfl, .label hlt hl hu, hv⟩
    | written hi rest =>
      obtain ⟨us, vs, rfl, hu, hv⟩ := ih rest
      refine ⟨_ :: us, vs, rfl, .written hi hu, ?_⟩
      rwa [List.length_cons, Nat.add_comm us.length, ← Nat.add_assoc]
    | made rest =>
      obtain ⟨us, vs, rfl, hu, hv⟩ := ih rest
      refine ⟨_ :: us, vs, rfl, .made hu, ?_⟩
      rwa [List.length_cons, Nat.add_comm us.length, ← Nat.add_assoc]
    | load hw hvalue hfit rest =>
      obtain ⟨us, vs, rfl, hu, hv⟩ := ih rest
      refine ⟨_, vs, (List.append_assoc ..).symm, .load hw hvalue hfit hu, ?_⟩
      rwa [List.length_append, List.length_map, length_loadCode hfit, ← Nat.add_assoc]

/-- Each instruction has the number of a logical line that comes to one. -/
theorem origin (h : Encodes symbols addr items es) {e : Numbered Instruction} (he : e ∈ es) :
    ∃ x ∈ items, x.line = e.line ∧ (∀ text, x.val ≠ .note text) ∧ ∀ name, x.val ≠ .line (.label name) := by
  induction h with
  | nil => cases he
  | note _ ih | label _ _ _ ih =>
    obtain ⟨x, hx, h⟩ := ih he
    exact ⟨x, by simp [hx], h⟩
  | written _ _ ih | made _ ih =>
    rcases List.mem_cons.1 he with rfl | he
    · exact ⟨_, List.mem_cons_self .., rfl, by simp [Item.note], by simp⟩
    · obtain ⟨x, hx, h⟩ := ih he
      exact ⟨x, by simp [hx], h⟩
  | load _ _ _ _ ih =>
    rcases List.mem_append.1 he with he | he
    · obtain ⟨_, -, rfl⟩ := List.mem_map.1 he
      exact ⟨_, List.mem_cons_self .., rfl, by simp [Item.note], by simp⟩
    · obtain ⟨x, hx, h⟩ := ih he
      exact ⟨x, by simp [hx], h⟩

/-- Instructions are in the order of their source lines if the logical lines are. -/
theorem sorted (h : Encodes symbols addr items es) (hs : items.Pairwise fun x y => x.line ≤ y.line) :
    es.Pairwise fun e f => e.line ≤ f.line := by
  have behind {addr n : Nat} {items : List (Numbered Item)} {es : List (Numbered Instruction)}
      (h : Encodes symbols addr items es) (hn : ∀ x ∈ items, n ≤ x.line) : ∀ e ∈ es, n ≤ e.line := by
    intro e he
    obtain ⟨x, hx, hline, -⟩ := h.origin he
    exact hline ▸ hn x hx
  induction h with
  | nil => exact .nil
  | note _ ih | label _ _ _ ih => exact ih (List.pairwise_cons.1 hs).2
  | written _ hrest ih | made hrest ih =>
    obtain ⟨hn, hs⟩ := List.pairwise_cons.1 hs
    exact List.pairwise_cons.2 ⟨behind hrest hn, ih hs⟩
  | load _ _ _ hrest ih =>
    obtain ⟨hn, hs⟩ := List.pairwise_cons.1 hs
    refine List.pairwise_append.2 ⟨List.pairwise_map.2 (List.pairwise_of_forall fun _ _ => Nat.le_refl _), ih hs, ?_⟩
    intro e he f hf
    obtain ⟨_, -, rfl⟩ := List.mem_map.1 he
    exact behind hrest hn f hf

end Encodes

/-! ## Appending -/

theorem append_eq_ok {c c' : Code} {n : Nat} {read : Nat → Except Cause Instruction}
    (h : c.append n read = .ok c') :
    ∃ i, read c.size = .ok i ∧ c'.entries.toList = c.entries.toList ++ [⟨n, i⟩] := by
  unfold Code.append at h
  split at h
  · obtain ⟨i, hi, h⟩ := bind_eq_ok_iff.1 h
    cases h
    exact ⟨i, atLine_eq_ok_iff.1 hi, by simp⟩
  · cases h

theorem size_eq_of_entries {c c' : Code} {es : List (Numbered Instruction)}
    (h : c'.entries.toList = c.entries.toList ++ es) : c'.size = c.size + es.length := by
  have := congrArg List.length h
  simpa [Code.size] using this

theorem foldlM_made {symbols : SymbolTable} {n : Nat} {is : List Instruction} {c c' : Code}
    (h : (is.map fun i => (⟨n, .made i⟩ : Numbered Line)).foldlM (Code.appendLine symbols) c = .ok c') :
    c'.entries.toList = c.entries.toList ++ is.map (⟨n, ·⟩) := by
  induction is generalizing c with
  | nil => cases h; simp
  | cons i is ih =>
    rw [List.map_cons, List.foldlM_cons] at h
    obtain ⟨d, hd, h⟩ := bind_eq_ok_iff.1 h
    rw [Code.appendLine] at hd
    obtain ⟨_, hi, hd⟩ := append_eq_ok hd
    cases hi
    rw [ih h, hd]
    simp

/-- The notes around a load add nothing. -/
theorem foldlM_load {symbols : SymbolTable} {n : Nat} {load : Load} {value : UInt16} {width : Nat} {c c' : Code}
    (h : ((Line.note (beginNote (load.caption value)) :: loadLines load.reg value width ++ [Line.note endNote]).map
      (Numbered.mk n)).foldlM (Code.appendLine symbols) c = .ok c') :
    c'.entries.toList = c.entries.toList ++ (loadCode load.reg value width).map (⟨n, ·⟩) := by
  rw [loadLines_eq, List.cons_append, List.map_cons, List.foldlM_cons] at h
  obtain ⟨d, hd, h⟩ := bind_eq_ok_iff.1 h
  cases hd
  rw [List.map_append, List.foldlM_append] at h
  obtain ⟨d, hd, h⟩ := bind_eq_ok_iff.1 h
  cases h
  exact foldlM_made (by simpa [Function.comp_def] using hd)

/-! ## Whole programs -/

/-- A cell at its address in a settled layout. -/
structure Placed (symbols : SymbolTable) (x : Nat × Cell) : Prop where
  widthOk : x.2.WidthOk
  stable : widenCell symbols x = .ok x.2
  label : ∀ name, x.2.item = .line (.label name) → x.1 < 65536 ∧ symbols[name]? = some (UInt16.ofNat x.1)

/-- A load that no round widens has a value, and fits. -/
theorem Placed.load {symbols : SymbolTable} {addr : Nat} {c : Cell} {load : Load} (h : Placed symbols (addr, c))
    (hi : c.item = .load load) : c.width ≤ 19 ∧
      ∃ value, load.target.value symbols (addr + c.width) = .ok value ∧ (constant value).length ≤ c.width := by
  have hw := h.widthOk
  have hs := h.stable
  simp only [Cell.WidthOk, hi] at hw
  simp only [widenCell, hi] at hs
  obtain ⟨value, hv, hs⟩ := bind_eq_ok_iff.1 hs
  have hmax : max c.width (constant value).length = c.width := congrArg Cell.width (Except.ok.inj hs)
  exact ⟨hw.2, value, atLine_eq_ok_iff.1 hv, by omega⟩

/-- The lines that a cell at its address is laid out as. -/
def LaysOut (symbols : SymbolTable) (x : Nat × Cell) (block : List (Numbered Line)) : Prop :=
  ∃ lines, cellLines symbols x.1 x.2 = .ok lines ∧ lines.map (⟨x.2.line, ·⟩) = block

/-- The code of laid out cells is what their logical lines come to. -/
theorem foldlM_cells {symbols : SymbolTable} {cells : List Cell} {blocks : List (List (Numbered Line))} {c c' : Code}
    (hl : List.Forall₂ (LaysOut symbols) (addressed Cell.width c.size cells) blocks)
    (hp : ∀ x ∈ addressed Cell.width c.size cells, Placed symbols x)
    (h : blocks.flatten.foldlM (Code.appendLine symbols) c = .ok c') :
    ∃ es, Encodes symbols c.size (cells.map Cell.numbered) es ∧ c'.entries.toList = c.entries.toList ++ es := by
  induction cells generalizing blocks c with
  | nil =>
    obtain rfl : blocks = [] := by simpa using hl
    cases h
    exact ⟨[], .nil, by simp⟩
  | cons cell cells ih =>
    rw [addressed_cons] at hl hp
    obtain ⟨b, rest, hb, hrest, rfl⟩ := List.forall₂_cons_left_iff.1 hl
    obtain ⟨hx, hp⟩ := List.forall_mem_cons.1 hp
    obtain ⟨lines, hlines, rfl⟩ := hb
    rw [List.flatten_cons, List.foldlM_append] at h
    obtain ⟨d, hd, h⟩ := bind_eq_ok_iff.1 h
    -- What is behind the cell, once it is known what the cell adds.
    have behind : ∀ us : List (Numbered Instruction), us.length = cell.width →
        d.entries.toList = c.entries.toList ++ us →
        ∃ vs, Encodes symbols (c.size + cell.width) (cells.map Cell.numbered) vs ∧
          c'.entries.toList = c.entries.toList ++ (us ++ vs) := by
      intro us hlen hentries
      have hsize : d.size = c.size + cell.width := by rw [size_eq_of_entries hentries, hlen]
      rw [← hsize] at hrest hp ⊢
      obtain ⟨vs, hvs, hc'⟩ := ih hrest hp h
      exact ⟨vs, hvs, by rw [hc', hentries, List.append_assoc]⟩
    obtain ⟨n, item, width⟩ := cell
    cases item with
    | load load =>
      obtain ⟨hw, value, hv, hfit⟩ := hx.load rfl
      simp only [cellLines, hv] at hlines
      cases hlines
      obtain ⟨vs, hvs, hc'⟩ := behind _ (by rw [List.length_map, length_loadCode hfit]) (foldlM_load hd)
      exact ⟨_, .load hw hv hfit hvs, hc'⟩
    | line l =>
      cases hlines
      have hw : width = l.width := hx.widthOk
      rw [List.map_singleton, List.foldlM_cons] at hd
      obtain ⟨d', hd, hd'⟩ := bind_eq_ok_iff.1 hd
      cases hd'
      cases l with
      | note text =>
        cases hd
        obtain ⟨vs, hvs, hc'⟩ := behind [] hw.symm (by simp)
        rw [show width = 0 from hw] at hvs
        exact ⟨vs, .note hvs, hc'⟩
      | label name =>
        cases hd
        obtain ⟨vs, hvs, hc'⟩ := behind [] hw.symm (by simp)
        obtain ⟨hlt, hl⟩ := hx.label name rfl
        rw [show width = 0 from hw] at hvs
        exact ⟨vs, .label hlt hl hvs, hc'⟩
      | written text =>
        rw [Code.appendLine] at hd
        obtain ⟨i, hi, hd⟩ := append_eq_ok hd
        obtain ⟨vs, hvs, hc'⟩ := behind [_] hw.symm hd
        rw [show width = 1 from hw] at hvs
        exact ⟨_, .written hi hvs, hc'⟩
      | made i =>
        rw [Code.appendLine] at hd
        obtain ⟨_, hi, hd⟩ := append_eq_ok hd
        cases hi
        obtain ⟨vs, hvs, hc'⟩ := behind [_] hw.symm hd
        rw [show width = 1 from hw] at hvs
        exact ⟨_, .made hvs, hc'⟩

/-- The table of settled cells was read off the same addresses at which the cells are laid out. -/
theorem Settled.placed {items : List (Numbered Item)} {symbols : SymbolTable} {cells : List Cell}
    (h : Settled items symbols cells) : ∀ x ∈ addressed Cell.width 0 cells, Placed symbols x := by
  obtain ⟨hbind, hstable⟩ := relax_eq_ok_iff.1 h.stable
  obtain ⟨hlook, -, hreach, -⟩ := foldlM_bindCell hbind
  intro x hx
  have hmem : x.2 ∈ cells := by
    rw [← map_snd_addressed Cell.width 0 cells]
    exact List.mem_map_of_mem hx
  exact ⟨h.widthOk x.2 hmem, addressed_self hstable x hx,
    fun name hn => ⟨(hreach x hx name hn).1, (hlook name _).2 (.inr ⟨x, hx, hn, rfl⟩)⟩⟩

/-- What laying out logical lines takes. -/
theorem ofItems_eq_ok_iff {items : List (Numbered Item)} {l : Layout} :
    Layout.ofItems items = .ok l ↔ ∃ cells blocks, settle (items.map Cell.start) = .ok (l.symbols, cells) ∧
      List.Forall₂ (LaysOut l.symbols) (addressed Cell.width 0 cells) blocks ∧ l.lines = blocks.flatten := by
  have hlays : ∀ (symbols : SymbolTable) (x : Nat × Cell) (block : List (Numbered Line)),
      atLine x.2.line ((cellLines symbols x.1 x.2).map (List.map (⟨x.2.line, ·⟩))) = .ok block ↔
        LaysOut symbols x block := by
    intro symbols x block
    rw [atLine_eq_ok_iff, map_eq_ok_iff, LaysOut]
  unfold Layout.ofItems
  constructor
  · intro h
    obtain ⟨⟨symbols, cells⟩, hsettle, h⟩ := bind_eq_ok_iff.1 h
    obtain ⟨blocks, hblocks, h⟩ := bind_eq_ok_iff.1 h
    cases h
    exact ⟨cells, blocks, hsettle, (mapM_eq_ok_iff.1 hblocks).imp fun x b => (hlays _ x b).1, rfl⟩
  · rintro ⟨cells, blocks, hsettle, hblocks, hlines⟩
    have hread := mapM_eq_ok_iff.2 (hblocks.imp fun x b => (hlays _ x b).2)
    refine bind_eq_ok_iff.2 ⟨_, hsettle, bind_eq_ok_iff.2 ⟨blocks, hread, ?_⟩⟩
    rw [← hlines]
    rfl

/-- What a layout is made of. -/
theorem blocks_of_ofItems {items : List (Numbered Item)} {l : Layout} (h : Layout.ofItems items = .ok l) :
    ∃ cells blocks, Settled items l.symbols cells ∧
      List.Forall₂ (LaysOut l.symbols) (addressed Cell.width 0 cells) blocks ∧ l.lines = blocks.flatten := by
  obtain ⟨cells, blocks, hsettle, hblocks, hlines⟩ := ofItems_eq_ok_iff.1 h
  exact ⟨cells, blocks, settled_start hsettle, hblocks, hlines⟩

/-- The stages of assembling a source. -/
theorem assemble_eq_ok_iff {source : String} {a : Assembly} :
    assemble source = .ok a ↔ ∃ items, itemsOf source = .ok items ∧ Layout.ofItems items = .ok a.layout ∧
      Code.ofLayout a.layout = .ok a.code := by
  unfold assemble
  constructor
  · intro h
    obtain ⟨items, hitems, h⟩ := bind_eq_ok_iff.1 h
    obtain ⟨layout, hlayout, h⟩ := bind_eq_ok_iff.1 h
    obtain ⟨code, hcode, h⟩ := bind_eq_ok_iff.1 h
    cases h
    exact ⟨items, hitems, hlayout, hcode⟩
  · rintro ⟨items, hitems, hlayout, hcode⟩
    exact bind_eq_ok_iff.2 ⟨items, hitems, bind_eq_ok_iff.2 ⟨a.layout, hlayout, bind_eq_ok_iff.2 ⟨a.code, hcode, rfl⟩⟩⟩

/-- The code of an assembled source is what its logical lines come to. -/
theorem encodes_of_assemble {source : String} {a : Assembly} (h : assemble source = .ok a) :
    ∃ items cells, itemsOf source = .ok items ∧ Settled items a.symbols cells ∧
      Encodes a.symbols 0 items a.code.entries.toList := by
  obtain ⟨items, hitems, hlayout, hcode⟩ := assemble_eq_ok_iff.1 h
  obtain ⟨cells, blocks, hsettled, hblocks, hlines⟩ := blocks_of_ofItems hlayout
  rw [Code.ofLayout, hlines] at hcode
  obtain ⟨es, hes, hentries⟩ := foldlM_cells (c := Code.empty) hblocks hsettled.placed hcode
  rw [hsettled.items_eq] at hes
  have hes' : a.code.entries.toList = es := by simpa [Code.empty] using hentries
  exact ⟨items, cells, hitems, hsettled, hes' ▸ hes⟩

end Isa16.Assembly
