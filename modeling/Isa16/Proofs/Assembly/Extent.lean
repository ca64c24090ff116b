import Mathlib.Algebra.Order.BigOperators.Group.List
import Mathlib.Algebra.Order.Group.Nat
import Isa16.Proofs.Assembly.Layout
/-!
# How much a layout fills

Rounds only ever widen cells, and a round that adds no word changes nothing
(`eq_of_width_eq`). The cells of a settled layout end at address 65536 at the
latest, and the lines of a cell fill its width. So the laid out lines of a
source have no more words than there are addresses (`width_lines_le`), and
building their code never runs out of them.
-/

namespace Isa16.Assembly

/-! ## Rounds -/

/-- Widths that shrink nowhere and do not add up to more are the same. -/
theorem eq_of_sum_eq {us vs : List Nat} (hle : List.Forall₂ (· ≤ ·) us vs) (hsum : vs.sum = us.sum) : vs = us := by
  induction hle with
  | nil => rfl
  | cons hx hxs ih =>
    have hrest := hxs.sum_le_sum
    rw [List.sum_cons, List.sum_cons] at hsum
    rw [ih (by omega), Nat.le_antisymm (by omega) hx]

theorem width_le_of_widenCell {t : SymbolTable} {x : Nat × Cell} {c : Cell} (h : widenCell t x = .ok c) :
    x.2.width ≤ c.width := by
  obtain ⟨addr, n, item, width⟩ := x
  cases item with
  | line l =>
    cases h
    exact Nat.le_refl _
  | load load =>
    obtain ⟨value, -, h⟩ := bind_eq_ok_iff.1 h
    cases h
    exact Nat.le_max_left ..

section

variable {start widened : List Cell} {t : SymbolTable} (h : relax start = .ok (t, widened))

include h

theorem widths_le_of_relax : List.Forall₂ (· ≤ ·) (start.map Cell.width) (widened.map Cell.width) := by
  rw [← map_snd_addressed Cell.width 0 start, List.map_map, List.forall₂_map_left_iff, List.forall₂_map_right_iff]
  exact (relax_eq_ok_iff.1 h).2.imp fun _ _ => width_le_of_widenCell

theorem width_le_of_relax : (start.map Cell.width).sum ≤ (widened.map Cell.width).sum :=
  (widths_le_of_relax h).sum_le_sum

/-- A round that adds no word changes nothing. -/
theorem eq_of_width_eq (hw : (widened.map Cell.width).sum = (start.map Cell.width).sum) : widened = start :=
  (widened_cells (relax_eq_ok_iff.1 h).2).2.1 (eq_of_sum_eq (widths_le_of_relax h) hw)

end

/-- The rounds only ever make a program longer. -/
theorem Rounds.width_le {start cells : List Cell} {t : SymbolTable} (h : Rounds start t cells) :
    (start.map Cell.width).sum ≤ (cells.map Cell.width).sum := by
  induction h with
  | last _ => exact Nat.le_refl _
  | round h _ ih => exact Nat.le_trans (width_le_of_relax h) ih

/-! ## Layouts -/

/-- Things that all end by an address fill no more than what leads up to it. -/
theorem width_le_of_addressed {α : Type} {width : α → Nat} {start limit : Nat} {xs : List α} (hstart : start ≤ limit)
    (h : ∀ x ∈ addressed width start xs, x.1 + width x.2 ≤ limit) : start + (xs.map width).sum ≤ limit := by
  induction xs generalizing start with
  | nil => simpa using hstart
  | cons x xs ih =>
    rw [addressed_cons] at h
    obtain ⟨hx, hxs⟩ := List.forall_mem_cons.1 h
    have hrest := ih hx hxs
    rwa [List.map_cons, List.sum_cons, ← Nat.add_assoc]

/-- The lines of a cell fill its width. -/
theorem width_cellLines {symbols : SymbolTable} {addr : Nat} {cell : Cell} {lines : List Line}
    (hp : Placed symbols (addr, cell)) (h : cellLines symbols addr cell = .ok lines) :
    (lines.map Line.width).sum = cell.width := by
  obtain ⟨n, item, width⟩ := cell
  cases item with
  | line l =>
    cases h
    have hw : width = l.width := hp.widthOk
    simp [hw]
  | load load =>
    obtain ⟨-, value, hv, hfit⟩ := hp.load rfl
    simp only [cellLines, hv] at h
    cases h
    have hmade : ((loadLines load.reg value width).map Line.width).sum = width := by
      have hone : (loadCode load.reg value width).map (Line.width ∘ Line.made) = List.replicate width 1 := by
        rw [List.eq_replicate_iff]
        exact ⟨by rw [List.length_map, length_loadCode hfit], by simp [Line.width]⟩
      rw [loadLines_eq, List.map_map, hone, List.sum_replicate_nat, Nat.mul_one]
    simp [Line.width, hmade]

/-- The lines of a layout fill as many words as its cells. -/
theorem width_blocks {symbols : SymbolTable} {start : Nat} {cells : List Cell} {blocks : List (List (Numbered Line))}
    (hp : ∀ x ∈ addressed Cell.width start cells, Placed symbols x)
    (h : List.Forall₂ (LaysOut symbols) (addressed Cell.width start cells) blocks) :
    (blocks.flatten.map (·.val.width)).sum = (cells.map Cell.width).sum := by
  induction cells generalizing start blocks with
  | nil =>
    obtain rfl : blocks = [] := by simpa using h
    rfl
  | cons cell cells ih =>
    rw [addressed_cons] at h hp
    obtain ⟨b, rest, hb, hrest, rfl⟩ := List.forall₂_cons_left_iff.1 h
    obtain ⟨hx, hp⟩ := List.forall_mem_cons.1 hp
    obtain ⟨lines, hlines, rfl⟩ := hb
    rw [List.flatten_cons, List.map_append, List.sum_append, ih hp hrest, List.map_map, List.map_cons, List.sum_cons]
    exact congrArg (· + _) (width_cellLines hx hlines)

/-- The cells of a layout have no more words than there are addresses. -/
theorem width_cells_le {cells : List Cell} {symbols : SymbolTable} (h : bindLabels cells = .ok symbols) :
    (cells.map Cell.width).sum ≤ 65536 := by
  have := width_le_of_addressed (Nat.zero_le 65536) (foldlM_bindCell h).2.1
  rwa [Nat.zero_add] at this

theorem width_lines_le {items : List (Numbered Item)} {l : Layout} (h : Layout.ofItems items = .ok l) :
    (l.lines.map (·.val.width)).sum ≤ 65536 := by
  obtain ⟨cells, blocks, hsettled, hblocks, hlines⟩ := blocks_of_ofItems h
  rw [hlines, width_blocks hsettled.placed hblocks]
  exact width_cells_le hsettled.bindLabels_eq

end Isa16.Assembly
