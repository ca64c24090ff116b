import Mathlib.Algebra.GroupWithZero.Nat
import Isa16.Proofs.Traversal
import Isa16.Assembly.Layout
/-!
# Settled cells

Cells are settled by rounds (`Rounds`), of which a proof needs the first and the
next ones only; that they come to an end is said once (`settle_induction`). What
is left when no load has to be widened any more: the cells are still those of
the logical lines, each width is one the cell may have, the labels are bound to
the addresses of these very widths, and another round would change nothing
(`settled_of_rounds`). The table of labels is read off the addresses
(`label_iff`).
-/

namespace Isa16.Assembly

/-! ## Addresses -/

theorem addressed_self {α : Type} {width : α → Nat} {start : Nat} {R : Nat × α → α → Prop} {xs : List α}
    (h : List.Forall₂ R (addressed width start xs) xs) : ∀ x ∈ addressed width start xs, R x x.2 := by
  induction xs generalizing start with
  | nil => simp
  | cons x xs ih =>
    rw [addressed_cons] at h ⊢
    cases h with
    | cons hx hrest => exact List.forall_mem_cons.2 ⟨hx, ih hrest⟩

theorem addressed_map {α β : Type} (width : β → Nat) (f : α → β) (start : Nat) (xs : List α) :
    addressed width start (xs.map f) = (addressed (width ∘ f) start xs).map fun (addr, x) => (addr, f x) := by
  induction xs generalizing start with
  | nil => simp
  | cons x xs ih => simp [ih]

theorem addressed_append {α : Type} (width : α → Nat) (start : Nat) (xs ys : List α) :
    addressed width start (xs ++ ys) =
      addressed width start xs ++ addressed width (start + (xs.map width).sum) ys := by
  induction xs generalizing start with
  | nil => simp
  | cons x xs ih => simp [ih, Nat.add_assoc]

/-- Everything stands further on if the first thing does. -/
theorem addressed_add {α : Type} (width : α → Nat) (start k : Nat) (xs : List α) :
    addressed width (start + k) xs = (addressed width start xs).map fun (addr, x) => (addr + k, x) := by
  induction xs generalizing start with
  | nil => simp
  | cons x xs ih => simp [← ih, Nat.add_right_comm]

theorem addressed_bounds {α : Type} {width : α → Nat} {start : Nat} {xs : List α} :
    ∀ x ∈ addressed width start xs, x.2 ∈ xs ∧ x.1 + width x.2 ≤ start + (xs.map width).sum := by
  induction xs generalizing start with
  | nil => simp
  | cons x xs ih =>
    rw [addressed_cons, List.map_cons, List.sum_cons]
    refine List.forall_mem_cons.2 ⟨⟨List.mem_cons_self, ?_⟩, fun y hy => ?_⟩
    · exact Nat.add_le_add_left (Nat.le_add_right ..) start
    · obtain ⟨hmem, hle⟩ := ih y hy
      exact ⟨List.mem_cons_of_mem _ hmem, by omega⟩

/-- A place among things with addresses is a place among the things, behind the widths of those before it. -/
theorem addressed_split {α : Type} {width : α → Nat} {start : Nat} {xs : List α} {pre post : List (Nat × α)}
    {x : Nat × α} (h : addressed width start xs = pre ++ x :: post) :
    xs = pre.map (·.2) ++ x.2 :: post.map (·.2) ∧ addressed width start (pre.map (·.2)) = pre ∧
      x.1 = start + ((pre.map (·.2)).map width).sum := by
  have hxs : xs = pre.map (·.2) ++ x.2 :: post.map (·.2) := by
    rw [← map_snd_addressed width start xs, h, List.map_append, List.map_cons]
  rw [hxs, addressed_append, addressed_cons] at h
  have hlen := congrArg List.length (map_snd_addressed width start (pre.map (·.2)))
  rw [List.length_map, List.length_map] at hlen
  obtain ⟨hfront, hback⟩ := List.append_inj h hlen
  exact ⟨hxs, hfront, (congrArg Prod.fst (List.cons.inj hback).1).symm⟩

/-! ## Widening -/

namespace Cell

/-- A line is as wide as it is, and a load at most as wide as the longest constant. -/
def WidthOk (c : Cell) : Prop :=
  match c.item with
  | .line l => c.width = l.width
  | .load _ => 1 ≤ c.width ∧ c.width ≤ 19

/-- The logical line of a cell. -/
def numbered (c : Cell) : Numbered Item := ⟨c.line, c.item⟩

theorem map_numbered_start (items : List (Numbered Item)) : (items.map start).map numbered = items := by
  rw [List.map_map]
  exact List.map_id items

theorem widthOk_start (x : Numbered Item) : (start x).WidthOk := by
  obtain ⟨line, item⟩ := x
  cases item <;> simp [WidthOk, start, Item.leastWidth]

end Cell

theorem widenCell_eq_ok {symbols : SymbolTable} {x : Nat × Cell} {c : Cell} (h : widenCell symbols x = .ok c) :
    c.numbered = x.2.numbered ∧ (c.width = x.2.width → c = x.2) ∧ (x.2.WidthOk → c.WidthOk) := by
  obtain ⟨addr, cell⟩ := x
  simp only [widenCell] at h
  split at h
  · cases h
    exact ⟨rfl, fun _ => rfl, id⟩
  · rename_i load hitem
    obtain ⟨value, -, h⟩ := bind_eq_ok_iff.1 h
    cases h
    refine ⟨rfl, fun hw => by simp only at hw ⊢; rw [hw], fun hok => ?_⟩
    have := length_constant_le value
    simp only [Cell.WidthOk, hitem] at hok ⊢
    omega

theorem relax_eq_ok_iff {cells widened : List Cell} {symbols : SymbolTable} :
    relax cells = .ok (symbols, widened) ↔ bindLabels cells = .ok symbols ∧
      List.Forall₂ (fun x c => widenCell symbols x = .ok c) (addressed Cell.width 0 cells) widened := by
  unfold relax
  constructor
  · intro h
    obtain ⟨t, ht, h⟩ := bind_eq_ok_iff.1 h
    obtain ⟨w, hw, h⟩ := bind_eq_ok_iff.1 h
    cases h
    exact ⟨ht, mapM_eq_ok_iff.1 hw⟩
  · rintro ⟨ht, hw⟩
    exact bind_eq_ok_iff.2 ⟨symbols, ht, bind_eq_ok_iff.2 ⟨widened, mapM_eq_ok_iff.2 hw, rfl⟩⟩

/-- A round keeps the logical lines, and keeps all of the cells if it keeps their widths. -/
theorem widened_cells {symbols : SymbolTable} {start : Nat} {cells widened : List Cell}
    (h : List.Forall₂ (fun x c => widenCell symbols x = .ok c) (addressed Cell.width start cells) widened) :
    widened.map Cell.numbered = cells.map Cell.numbered ∧
      (widened.map Cell.width = cells.map Cell.width → widened = cells) ∧
      ((∀ c ∈ cells, c.WidthOk) → ∀ c ∈ widened, c.WidthOk) := by
  induction cells generalizing start widened with
  | nil =>
    obtain rfl : widened = [] := by simpa using h
    simp
  | cons c cells ih =>
    rw [addressed_cons] at h
    obtain ⟨c', rest, hc, hrest, rfl⟩ := List.forall₂_cons_left_iff.1 h
    obtain ⟨hnum, hsame, hok⟩ := widenCell_eq_ok hc
    obtain ⟨ihnum, ihsame, ihok⟩ := ih hrest
    refine ⟨by simp [hnum, ihnum], fun hw => ?_, fun hall => ?_⟩
    · simp only [List.map_cons, List.cons.injEq] at hw
      rw [hsame hw.1, ihsame hw.2]
    · rw [List.forall_mem_cons] at hall ⊢
      exact ⟨hok hall.1, ihok hall.2⟩

/-! ## The last round -/

/-- Cells of logical lines that another round does not change. -/
structure Settled (items : List (Numbered Item)) (symbols : SymbolTable) (cells : List Cell) : Prop where
  items_eq : cells.map Cell.numbered = items
  widthOk : ∀ c ∈ cells, c.WidthOk
  stable : relax cells = .ok (symbols, cells)

/-- The rounds that lead from cells to settled ones. -/
inductive Rounds : List Cell → SymbolTable → List Cell → Prop
  | last {cells : List Cell} {symbols : SymbolTable} (h : relax cells = .ok (symbols, cells)) :
      Rounds cells symbols cells
  | round {start widened cells : List Cell} {t symbols : SymbolTable} (h : relax start = .ok (t, widened))
      (rest : Rounds widened symbols cells) : Rounds start symbols cells

theorem settle_of_relax {start widened : List Cell} {t : SymbolTable} (h : relax start = .ok (t, widened)) :
    settle start = if widened = start then .ok (t, start) else settle widened := by
  have hwidths : widened.map Cell.width = start.map Cell.width ↔ widened = start :=
    ⟨(widened_cells (relax_eq_ok_iff.1 h).2).2.1, fun heq => by rw [heq]⟩
  rw [settle]
  split
  · rename_i hr
    rw [h] at hr
    cases hr
  · rename_i hr
    rw [h] at hr
    cases hr
    simp only [hwidths, dite_eq_ite]

theorem settle_of_relax_error {start : List Cell} {d : Diagnostic} (h : relax start = .error d) :
    settle start = .error d := by
  rw [settle]
  split
  · rename_i hr
    rw [h] at hr
    rw [Except.error.inj hr]
  · rename_i hr
    rw [h] at hr
    cases hr

/-- Rounds come to an end: one is refused, or one changes nothing. -/
theorem settle_induction {motive : List Cell → Prop}
    (refused : ∀ start d, relax start = .error d → motive start)
    (last : ∀ cells t, relax cells = .ok (t, cells) → motive cells)
    (round : ∀ start t widened, relax start = .ok (t, widened) → widened ≠ start → motive widened → motive start)
    (start : List Cell) : motive start := by
  induction start using settle.induct with
  | case1 start d hr => exact refused start d hr
  | case2 start t widened hr hsame =>
    -- The round was made from these very cells, so its table is the one for their widths.
    obtain rfl := (widened_cells (relax_eq_ok_iff.1 hr).2).2.1 hsame
    exact last _ t hr
  | case3 start t widened hr hne ih => exact round start t widened hr (fun heq => hne (by rw [heq])) ih

theorem rounds_of_settle {start cells : List Cell} {symbols : SymbolTable}
    (h : settle start = .ok (symbols, cells)) : Rounds start symbols cells := by
  induction start using settle_induction with
  | refused start d hr =>
    rw [settle_of_relax_error hr] at h
    cases h
  | last start t hr =>
    rw [settle_of_relax hr, if_pos rfl] at h
    cases h
    exact .last hr
  | round start t widened hr hne ih =>
    rw [settle_of_relax hr, if_neg hne] at h
    exact .round hr (ih h)

theorem settle_of_rounds {start cells : List Cell} {symbols : SymbolTable} (h : Rounds start symbols cells) :
    settle start = .ok (symbols, cells) := by
  induction h with
  | last h => rw [settle_of_relax h, if_pos rfl]
  | @round start widened _ _ _ h _ ih =>
    by_cases heq : widened = start
    · rwa [heq] at ih
    · rwa [settle_of_relax h, if_neg heq]

theorem settled_of_rounds {items : List (Numbered Item)} {start cells : List Cell} {symbols : SymbolTable}
    (h : Rounds start symbols cells) (hi : start.map Cell.numbered = items) (hw : ∀ c ∈ start, c.WidthOk) :
    Settled items symbols cells := by
  induction h with
  | last h => exact ⟨hi, hw, h⟩
  | round h _ ih =>
    obtain ⟨hnum, -, hok⟩ := widened_cells (relax_eq_ok_iff.1 h).2
    exact ih (hnum.trans hi) (hok hw)

theorem settled_start {items : List (Numbered Item)} {cells : List Cell} {symbols : SymbolTable}
    (h : settle (items.map Cell.start) = .ok (symbols, cells)) : Settled items symbols cells := by
  refine settled_of_rounds (rounds_of_settle h) (Cell.map_numbered_start items) ?_
  intro c hc
  obtain ⟨x, -, rfl⟩ := List.mem_map.1 hc
  exact Cell.widthOk_start x

/-! ## Labels -/

/-- What binding a cell does. -/
theorem bindCell_eq_ok {t t' : SymbolTable} {x : Nat × Cell} (h : bindCell t x = .ok t') :
    x.1 + x.2.width ≤ 65536 ∧
      ((∃ name, x.2.item = .line (.label name) ∧ x.1 < 65536 ∧ name ∉ t ∧ t' = t.insert name (UInt16.ofNat x.1)) ∨
        (∀ name, x.2.item ≠ .line (.label name)) ∧ t' = t) := by
  obtain ⟨addr, cell⟩ := x
  have reach : ∀ {u : SymbolTable},
      (if addr + cell.width > 65536 then throw ⟨cell.line, .programTooLarge⟩
        else pure u : Except Diagnostic SymbolTable) = .ok t' →
        addr + cell.width ≤ 65536 ∧ t' = u := by
    intro u hu
    split at hu
    · cases hu
    · cases hu
      exact ⟨by omega, rfl⟩
  simp only [bindCell] at h
  split at h
  · rename_i name hitem
    split at h
    · cases h
    split at h
    · cases h
    rename_i haddr hnew
    obtain ⟨hfit, rfl⟩ := reach h
    exact ⟨hfit, .inl ⟨name, hitem, by omega, hnew, rfl⟩⟩
  · rename_i hitem
    obtain ⟨hfit, rfl⟩ := reach h
    exact ⟨hfit, .inr ⟨hitem, rfl⟩⟩

/-- The labels in a walk over cells: none twice, each bound to its address, and all cells in
reach. -/
theorem foldlM_bindCell {xs : List (Nat × Cell)} {t t' : SymbolTable} (h : xs.foldlM bindCell t = .ok t') :
    (∀ name addr, t'[name]? = some addr ↔
      t[name]? = some addr ∨ ∃ x ∈ xs, x.2.item = .line (.label name) ∧ addr = UInt16.ofNat x.1) ∧
    (∀ x ∈ xs, x.1 + x.2.width ≤ 65536) ∧
    (∀ x ∈ xs, ∀ name, x.2.item = .line (.label name) → x.1 < 65536 ∧ name ∉ t) ∧
    xs.Pairwise fun x y => ∀ name, x.2.item = .line (.label name) → y.2.item ≠ .line (.label name) := by
  induction xs generalizing t with
  | nil =>
    cases h
    simp
  | cons x xs ih =>
    rw [List.foldlM_cons] at h
    obtain ⟨u, hu, h⟩ := bind_eq_ok_iff.1 h
    obtain ⟨hlook, hfit, hnew, hpair⟩ := ih h
    obtain ⟨hx, hbind⟩ := bindCell_eq_ok hu
    rcases hbind with ⟨name, hitem, haddr, hfresh, rfl⟩ | ⟨hitem, rfl⟩
    · have hname : ∀ other, x.2.item = .line (.label other) ↔ other = name := by
        intro other
        rw [hitem]
        simp [eq_comm]
      refine ⟨fun other addr => ?_, List.forall_mem_cons.2 ⟨hx, hfit⟩, ?_, List.pairwise_cons.2 ⟨?_, hpair⟩⟩
      · rw [hlook, Std.TreeMap.getElem?_insert]
        simp only [List.mem_cons, exists_eq_or_imp, hname, Std.LawfulEqCmp.compare_eq_iff_eq]
        split
        · rename_i e
          subst e
          -- The name was not in the table, so nothing is lost when it is bound.
          have : t[name]? = none := Std.TreeMap.getElem?_eq_none hfresh
          simp [this, eq_comm]
        · rename_i e
          simp [Ne.symm e]
      · refine List.forall_mem_cons.2 ⟨fun other ho => ?_, fun y hy other ho => ?_⟩
        · rw [(hname other).1 ho]
          exact ⟨haddr, hfresh⟩
        · obtain ⟨hlt, hmem⟩ := hnew y hy other ho
          exact ⟨hlt, fun hm => hmem (Std.TreeMap.mem_insert.2 (.inr hm))⟩
      · intro y hy other ho hy'
        rw [(hname other).1 ho] at hy'
        exact (hnew y hy name hy').2 Std.TreeMap.mem_insert_self
    · refine ⟨fun name addr => ?_, List.forall_mem_cons.2 ⟨hx, hfit⟩, ?_, List.pairwise_cons.2 ⟨?_, hpair⟩⟩
      · rw [hlook]
        simp [hitem]
      · exact List.forall_mem_cons.2 ⟨fun name hn => absurd hn (hitem name), hnew⟩
      · exact fun _ _ name hn => absurd hn (hitem name)

theorem bindCell_of_label {t : SymbolTable} {x : Nat × Cell} {name : String} (hitem : x.2.item = .line (.label name))
    (hlt : x.1 < 65536) (hnew : name ∉ t) (hfit : x.1 + x.2.width ≤ 65536) :
    bindCell t x = .ok (t.insert name (UInt16.ofNat x.1)) := by
  simp only [bindCell, hitem, ge_iff_le, if_neg (Nat.not_le.2 hlt), if_neg hnew]
  exact if_neg (Nat.not_lt.2 hfit)

theorem bindCell_of_not_label {t : SymbolTable} {x : Nat × Cell} (hitem : ∀ name, x.2.item ≠ .line (.label name))
    (hfit : x.1 + x.2.width ≤ 65536) : bindCell t x = .ok t := by
  unfold bindCell
  split
  rename_i addr cell
  dsimp only
  split
  · exact absurd ‹_› (hitem _)
  · exact if_neg (Nat.not_lt.2 hfit)

/-- A walk over cells in reach, with no label twice, is not refused. -/
theorem exists_foldlM_bindCell {xs : List (Nat × Cell)} {t : SymbolTable}
    (hfit : ∀ x ∈ xs, x.1 + x.2.width ≤ 65536)
    (hnew : ∀ x ∈ xs, ∀ name, x.2.item = .line (.label name) → x.1 < 65536 ∧ name ∉ t)
    (hpair : xs.Pairwise fun x y => ∀ name, x.2.item = .line (.label name) → y.2.item ≠ .line (.label name)) :
    ∃ t', xs.foldlM bindCell t = .ok t' := by
  induction xs generalizing t with
  | nil => exact ⟨t, rfl⟩
  | cons x xs ih =>
    rw [List.forall_mem_cons] at hfit hnew
    obtain ⟨hx, hpair⟩ := List.pairwise_cons.1 hpair
    rw [List.foldlM_cons]
    by_cases hlabel : ∃ name, x.2.item = .line (.label name)
    · obtain ⟨name, hitem⟩ := hlabel
      obtain ⟨hlt, hfresh⟩ := hnew.1 name hitem
      rw [bindCell_of_label hitem hlt hfresh hfit.1]
      refine ih hfit.2 (fun y hy other ho => ⟨(hnew.2 y hy other ho).1, fun hmem => ?_⟩) hpair
      rcases Std.TreeMap.mem_insert.1 hmem with hsame | hmem
      · rw [Std.LawfulEqCmp.compare_eq_iff_eq] at hsame
        exact hx y hy name hitem (hsame ▸ ho)
      · exact (hnew.2 y hy other ho).2 hmem
    · rw [bindCell_of_not_label (not_exists.1 hlabel) hfit.1]
      exact ih hfit.2 hnew.2 hpair

/-- The table has exactly the labels of the cells, at their addresses. -/
theorem label_iff {cells : List Cell} {symbols : SymbolTable} (h : bindLabels cells = .ok symbols) (name : String)
    (addr : UInt16) : symbols[name]? = some addr ↔
      ∃ x ∈ addressed Cell.width 0 cells, x.2.item = .line (.label name) ∧ addr = UInt16.ofNat x.1 := by
  rw [(foldlM_bindCell h).1]
  simp

theorem mem_table_iff {cells : List Cell} {symbols : SymbolTable} (h : bindLabels cells = .ok symbols)
    (name : String) : name ∈ symbols ↔ ∃ c ∈ cells, c.item = .line (.label name) := by
  rw [Std.TreeMap.mem_iff_isSome_getElem?, Option.isSome_iff_exists]
  constructor
  · rintro ⟨addr, haddr⟩
    obtain ⟨x, hx, hname, -⟩ := (label_iff h name addr).1 haddr
    exact ⟨x.2, (addressed_bounds x hx).1, hname⟩
  · rintro ⟨c, hc, hname⟩
    rw [← map_snd_addressed Cell.width 0 cells] at hc
    obtain ⟨x, hx, rfl⟩ := List.mem_map.1 hc
    exact ⟨_, (label_iff h name _).2 ⟨x, hx, hname, rfl⟩⟩

namespace Settled

variable {items : List (Numbered Item)} {symbols : SymbolTable} {cells : List Cell}

/-- The table is that of these very cells. -/
theorem bindLabels_eq (h : Settled items symbols cells) : bindLabels cells = .ok symbols :=
  (relax_eq_ok_iff.1 h.stable).1

/-- The logical lines are those of the cells at their addresses. -/
theorem map_val_eq (h : Settled items symbols cells) :
    items.map (·.val) = (addressed Cell.width 0 cells).map (·.2.item) :=
  calc items.map (·.val) = (cells.map Cell.numbered).map (·.val) := by rw [h.items_eq]
    _ = ((addressed Cell.width 0 cells).map (·.2)).map Cell.item := by
      rw [map_snd_addressed, List.map_map]
      rfl
    _ = (addressed Cell.width 0 cells).map (·.2.item) := List.map_map

/-- The labels in the table are those of the logical lines. -/
theorem mem_symbols_iff (h : Settled items symbols cells) (name : String) :
    name ∈ symbols ↔ ∃ x ∈ items, x.val = .line (.label name) := by
  rw [mem_table_iff h.bindLabels_eq, ← h.items_eq]
  simp only [List.mem_map, exists_exists_and_eq_and]
  rfl

/-- No label is on two logical lines. -/
theorem labels_distinct (h : Settled items symbols cells) :
    items.Pairwise fun x y => ∀ name, x.val = .line (.label name) → y.val ≠ .line (.label name) := by
  obtain ⟨-, -, -, hpair⟩ := foldlM_bindCell h.bindLabels_eq
  rw [← List.pairwise_map (R := fun i j => ∀ name, i = Item.line (.label name) → j ≠ .line (.label name)),
    h.map_val_eq]
  exact List.pairwise_map.2 hpair

end Settled

end Isa16.Assembly
