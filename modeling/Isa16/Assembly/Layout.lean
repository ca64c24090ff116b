import Isa16.Assembly.Line
import Std.Data.TreeMap
/-!
# Layout

Addresses for the logical lines. A load is as wide as the address it loads
needs, and the addresses depend on the widths of all loads before them. So each
load starts with one word; while some load is too narrow for the address it
has to load, it is widened and all addresses are taken again. Widths never
shrink, and no address needs more than 19 words, so this ends: each round but
the last takes from the finite slack of the loads (`slack_relax`).
-/

namespace Isa16.Assembly

/-- The labels of a source and their addresses, in the order of their names. -/
abbrev SymbolTable := Std.TreeMap String UInt16

/-! ## Addresses -/

/-- Each thing with its address, the first being at `start` and the next behind it. -/
def addressed {α : Type} (width : α → Nat) (start : Nat) (xs : List α) : List (Nat × α) :=
  (xs.scanl (fun addr x => addr + width x) start).zip xs

@[simp] theorem addressed_nil {α : Type} (width : α → Nat) (start : Nat) :
    addressed width start ([] : List α) = [] := by
  simp [addressed]

@[simp] theorem addressed_cons {α : Type} (width : α → Nat) (start : Nat) (x : α) (xs : List α) :
    addressed width start (x :: xs) = (start, x) :: addressed width (start + width x) xs := by
  simp [addressed]

theorem map_snd_addressed {α : Type} (width : α → Nat) (start : Nat) (xs : List α) :
    (addressed width start xs).map (·.2) = xs := by
  induction xs generalizing start with
  | nil => simp
  | cons x xs ih => simp [ih]

/-- An item with its place in the source and the words set aside for it. -/
structure Cell where
  line : Nat
  item : Item
  width : Nat
deriving DecidableEq

namespace Cell

/-- The cell that an item starts with. -/
def start (x : Numbered Item) : Cell := ⟨x.line, x.val, x.val.leastWidth⟩

end Cell

/-- Adds the label of a cell to the table. All words of a program have addresses below 65536, and
so has every label. -/
def bindCell (symbols : SymbolTable) : Nat × Cell → Except Diagnostic SymbolTable
  | (addr, cell) => do
    let symbols ← match cell.item with
      | .line (.label name) =>
        if addr ≥ 65536 then throw ⟨cell.line, .programTooLarge⟩
        else if name ∈ symbols then throw ⟨cell.line, .duplicateSymbol name⟩
        else pure (symbols.insert name (UInt16.ofNat addr))
      | _ => pure symbols
    if addr + cell.width > 65536 then throw ⟨cell.line, .programTooLarge⟩ else pure symbols

/-- The labels of the cells. -/
def bindLabels (cells : List Cell) : Except Diagnostic SymbolTable :=
  (addressed Cell.width 0 cells).foldlM bindCell ∅

/-! ## Loads -/

/-- The address a load puts into its register, if the next cell is at `next`. -/
def Target.value (symbols : SymbolTable) (next : Nat) : Target → Except Cause UInt16
  | .symbol name =>
    match symbols[name]? with
    | some addr => .ok addr
    | none => .error (.undefinedSymbol name)
  | .returnAddress tail =>
    if next + tail < 65536 then .ok (UInt16.ofNat (next + tail)) else .error .programTooLarge

/-- Widens the cell of a load that is too narrow for its address. -/
def widenCell (symbols : SymbolTable) : Nat × Cell → Except Diagnostic Cell
  | (addr, cell) =>
    match cell.item with
    | .line _ => .ok cell
    | .load load => do
      let value ← atLine cell.line (load.target.value symbols (addr + cell.width))
      return { cell with width := max cell.width (constant value).length }

/-- One round: the labels for the present widths, and the cells with the widths these ask for. -/
def relax (cells : List Cell) : Except Diagnostic (SymbolTable × List Cell) := do
  let symbols ← bindLabels cells
  let widened ← (addressed Cell.width 0 cells).mapM (widenCell symbols)
  return (symbols, widened)

/-! ## The rounds end -/

/-- By how much a cell can still be widened. -/
def Cell.slack (c : Cell) : Nat := 19 - c.width

def totalSlack : List Cell → Nat
  | [] => 0
  | c :: cells => c.slack + totalSlack cells

/-- A widened cell has its old width, or less slack than before. -/
theorem slack_widenCell {symbols : SymbolTable} {x : Nat × Cell} {c : Cell}
    (h : widenCell symbols x = .ok c) : c.width = x.2.width ∨ c.slack < x.2.slack := by
  obtain ⟨addr, cell⟩ := x
  simp only [widenCell] at h
  split at h
  · cases h; exact .inl rfl
  · rename_i load _
    cases hv : atLine cell.line (load.target.value symbols (addr + cell.width)) with
    | error e => rw [hv] at h; cases h
    | ok value =>
      rw [hv] at h
      cases h
      have := length_constant_le value
      simp only [Cell.slack]
      omega

theorem slack_mapM_widenCell {symbols : SymbolTable} {xs : List (Nat × Cell)} {widened : List Cell}
    (h : xs.mapM (widenCell symbols) = .ok widened) :
    widened.map Cell.width = xs.map (·.2.width) ∨ totalSlack widened < totalSlack (xs.map (·.2)) := by
  have key : ∀ (xs : List (Nat × Cell)) (widened : List Cell), xs.mapM (widenCell symbols) = .ok widened →
      (widened.map Cell.width = xs.map (·.2.width) ∧ totalSlack widened = totalSlack (xs.map (·.2))) ∨
        totalSlack widened < totalSlack (xs.map (·.2)) := by
    intro xs
    induction xs with
    | nil => intro widened h; cases h; exact .inl ⟨rfl, rfl⟩
    | cons x xs ih =>
      intro widened h
      rw [List.mapM_cons] at h
      cases hc : widenCell symbols x with
      | error e => rw [hc] at h; cases h
      | ok c =>
        cases hr : xs.mapM (widenCell symbols) with
        | error e => rw [hc, hr] at h; cases h
        | ok rest =>
          rw [hc, hr] at h
          cases h
          have hs := slack_widenCell hc
          have ih := ih rest hr
          simp only [totalSlack, List.map_cons, List.cons.injEq] at ih ⊢
          have hw : c.width = x.2.width → c.slack = x.2.slack := fun e => by rw [Cell.slack, e, Cell.slack]
          rcases hs with hs | hs
          · have := hw hs
            rcases ih with ⟨h1, h2⟩ | h
            · exact .inl ⟨⟨hs, h1⟩, by omega⟩
            · exact .inr (by omega)
          · exact .inr (by rcases ih with ⟨_, h2⟩ | h <;> omega)
  rcases key xs widened h with ⟨h, _⟩ | h
  · exact .inl h
  · exact .inr h

/-- A round that changes a width takes from the slack. -/
theorem slack_relax {cells widened : List Cell} {symbols : SymbolTable}
    (h : relax cells = .ok (symbols, widened)) (hw : widened.map Cell.width ≠ cells.map Cell.width) :
    totalSlack widened < totalSlack cells := by
  unfold relax at h
  cases hb : bindLabels cells with
  | error e => rw [hb] at h; cases h
  | ok s =>
    cases hm : (addressed Cell.width 0 cells).mapM (widenCell s) with
    | error e => simp [hb, hm, bind, Except.bind] at h
    | ok w =>
      simp only [hb, hm, bind, Except.bind, pure, Except.pure, Except.ok.injEq, Prod.mk.injEq] at h
      obtain ⟨rfl, rfl⟩ := h
      have := slack_mapM_widenCell hm
      rw [show (fun x : Nat × Cell => x.2.width) = Cell.width ∘ (·.2) from rfl, ← List.map_map,
        map_snd_addressed] at this
      exact this.resolve_left hw

/-- Cells of which no load is too narrow, and their labels. -/
def settle (cells : List Cell) : Except Diagnostic (SymbolTable × List Cell) :=
  match _h : relax cells with
  | .error d => .error d
  | .ok (symbols, widened) =>
    if _hw : widened.map Cell.width = cells.map Cell.width then .ok (symbols, cells) else settle widened
termination_by totalSlack cells
decreasing_by exact slack_relax _h _hw

/-! ## Laid out lines -/

/-- The lines that load `value` in `width` words: idle instructions first, then the load. -/
def loadLines (reg : Reg) (value : UInt16) (width : Nat) : List Line :=
  let steps := constant value
  List.replicate (width - steps.length) (.made ⟨.mova, reg, reg, 0⟩)
    ++ steps.map fun s => .made (s.instruction reg)

/-- What the note in front of a load says. -/
def Load.caption (load : Load) (value : UInt16) : String :=
  match load.target with
  | .symbol name => s!"SLDI {regText load.reg},.{name}"
  | .returnAddress _ => s!"PLDI {regText load.reg},{value}"

/-- The lines that a cell at `addr` comes to. -/
def cellLines (symbols : SymbolTable) (addr : Nat) (cell : Cell) : Except Cause (List Line) :=
  match cell.item with
  | .line l => .ok [l]
  | .load load => do
    let value ← load.target.value symbols (addr + cell.width)
    return .note (beginNote (load.caption value)) :: loadLines load.reg value cell.width ++ [.note endNote]

/-- A source with an address for every line and label. -/
structure Layout where
  lines : List (Numbered Line)
  symbols : SymbolTable

/-- Lays out logical lines. -/
def Layout.ofItems (items : List (Numbered Item)) : Except Diagnostic Layout := do
  let (symbols, cells) ← settle (items.map Cell.start)
  let blocks ← (addressed Cell.width 0 cells).mapM fun (addr, cell) =>
    atLine cell.line ((cellLines symbols addr cell).map fun lines => lines.map (Numbered.mk cell.line))
  return ⟨blocks.flatten, symbols⟩

end Isa16.Assembly
