import Mathlib.Data.Nat.Find
import Isa16.Proofs.Assembly.Append
import Isa16.Proofs.Assembly.Listing
import Isa16.Proofs.Assembly.Refusal
/-!
# The limit of 65536 words

A source that loads no address has a fixed number of instructions on each line,
so it can be said line by line where it runs out of addresses: on the first line
that ends behind the last one, or is a label there (`FirstOverflow`). The
assembler refuses it there and nowhere else. It is the labels that find this out:
the code of lines that have been laid out is never refused for its size, and its
labels are at addresses that the program reaches (`withinLimit`).
-/

namespace Isa16

open Isa16.Assembly (constant)
open Isa16.Source (Statement MacroCall BadMacro BadLabel Redefines)

namespace Source

/-- How many instructions a statement comes to, loads of addresses taken as short as they can be. -/
def Statement.leastSize : Statement → Nat
  | .note _ | .label _ => 0
  | .instruction _ => 1
  | .call (.load _ value) => (constant value).length
  | .call (.loadSymbol _ _) | .call .initStack => 1
  | .call (.call _) => 4
  | .call .ret => 3

/-- The size of line `n`, where a line that cannot be read has none. -/
def sizeOfLine (source : String) (n : Nat) : Nat :=
  match (line? source n).map Statement.read with
  | some (.ok s) => s.leastSize
  | _ => 0

/-- The number of instructions of lines 1 to `n`. -/
def emitted (source : String) : Nat → Nat
  | 0 => 0
  | n + 1 => emitted source n + sizeOfLine source (n + 1)

/-- Line `n` ends behind the last address, or it is a label there. -/
def Overflows (source : String) (n : Nat) : Prop :=
  65536 < emitted source n ∨ (∃ name, HasLabel source n name) ∧ emitted source (n - 1) = 65536

def FirstOverflow (source : String) (n : Nat) : Prop := Overflows source n ∧ ∀ k, k < n → ¬ Overflows source k

/-- A source in good form that loads no address, so that each line has a size of its own. -/
structure FixedSize (source : String) : Prop where
  macros : ∀ n body, ¬ BadMacro source n body
  labels : ∀ n code, ¬ BadLabel source n code
  distinct : ∀ n name, ¬ Redefines source n name
  no_call : ∀ n r, ¬ Holds source n (.call (.call r))
  no_loadSymbol : ∀ n r name, ¬ Holds source n (.call (.loadSymbol r name))

theorem sizeOfLine_of_holds {source : String} {n : Nat} {s : Statement} (h : Holds source n s) :
    sizeOfLine source n = s.leastSize := by
  obtain ⟨line, hline, hs⟩ := h
  rw [sizeOfLine, hline, Option.map_some, Statement.read_eq_ok_iff.2 hs]

theorem FirstOverflow.unique {source : String} {n k : Nat} (hn : FirstOverflow source n)
    (hk : FirstOverflow source k) : n = k := by
  rcases Nat.lt_trichotomy n k with h | h | h
  · exact absurd hn.1 (hk.2 n h)
  · exact h
  · exact absurd hk.1 (hn.2 k h)

theorem exists_firstOverflow {source : String} (h : ∃ n, Overflows source n) : ∃ n, FirstOverflow source n := by
  classical exact ⟨Nat.find h, Nat.find_spec h, fun _ => Nat.find_min h⟩

end Source

namespace Assembly

open Isa16.Source (emitted sizeOfLine Overflows FirstOverflow FixedSize HasLabel)

/-! ## Sizes of lines -/

theorem leastWidth_bracket (call : String) (items : List Item) :
    ((bracket call items).map Item.leastWidth).sum = (items.map Item.leastWidth).sum := by
  simp [bracket, Item.note, Item.leastWidth, Line.width]

theorem leastWidth_made {α : Type} (f : α → Instruction) (xs : List α) :
    ((xs.map fun x => Item.made (f x)).map Item.leastWidth).sum = xs.length := by
  rw [List.map_map]
  induction xs with
  | nil => rfl
  | cons x xs ih =>
    rw [List.map_cons, List.sum_cons, ih, List.length_cons, Nat.add_comm]
    rfl

/-- The logical lines of a statement are as wide as its size. -/
theorem leastWidth_expand {s : Statement} {own : List Item} (h : expand s = .ok own) :
    (own.map Item.leastWidth).sum = s.leastSize := by
  cases s with
  | note text | instruction text =>
    cases h
    rfl
  | label code =>
    simp only [expand] at h
    split at h <;> cases h
    rfl
  | call c =>
    cases h
    cases c with
    | load r value => rw [expandCall, leastWidth_bracket, leastWidth_made, Statement.leastSize]
    | loadSymbol r name => rfl
    | initStack => rfl
    | call r => rfl
    | ret => rfl

/-- Sorted things fall into those up to a line and those behind it. -/
theorem exists_cut {α : Type} {xs : List (Numbered α)} (h : xs.Pairwise fun x y => x.line ≤ y.line) (k : Nat) :
    ∃ pre post, xs = pre ++ post ∧ (∀ x ∈ pre, x.line ≤ k) ∧ ∀ x ∈ post, k < x.line := by
  induction h with
  | nil => exact ⟨[], [], rfl, by simp, by simp⟩
  | @cons x xs hx _ ih =>
    by_cases hk : x.line ≤ k
    · obtain ⟨pre, post, rfl, hpre, hpost⟩ := ih
      exact ⟨x :: pre, post, rfl, List.forall_mem_cons.2 ⟨hk, hpre⟩, hpost⟩
    · have hlt : k < x.line := by omega
      refine ⟨[], x :: xs, rfl, by simp, List.forall_mem_cons.2 ⟨hlt, fun y hy => ?_⟩⟩
      exact Nat.lt_of_lt_of_le hlt (hx y hy)

/-- The words of logical lines, loads taken as short as they can be. -/
def words (items : List (Numbered Item)) : Nat := (items.map (·.val.leastWidth)).sum

@[simp] theorem words_append (xs ys : List (Numbered Item)) : words (xs ++ ys) = words xs + words ys := by
  rw [words, List.map_append, List.sum_append]
  rfl

@[simp] theorem words_cons (x : Numbered Item) (xs : List (Numbered Item)) :
    words (x :: xs) = x.val.leastWidth + words xs := by
  rw [words, List.map_cons, List.sum_cons]
  rfl

theorem words_filter_succ (items : List (Numbered Item)) (k : Nat) : words (items.filter (·.line ≤ k + 1)) =
    words (items.filter (·.line ≤ k)) + words (items.filter (·.line = k + 1)) := by
  induction items with
  | nil => rfl
  | cons x xs ih =>
    rcases Nat.lt_trichotomy x.line (k + 1) with h | h | h
    · rw [List.filter_cons_of_pos (by simp; omega), List.filter_cons_of_pos (by simp; omega),
        List.filter_cons_of_neg (by simp; omega), words_cons, words_cons, ih, Nat.add_assoc]
    · rw [List.filter_cons_of_pos (by simp; omega), List.filter_cons_of_neg (by simp; omega),
        List.filter_cons_of_pos (by simp; omega), words_cons, words_cons, ih, Nat.add_left_comm]
    · rw [List.filter_cons_of_neg (by simp; omega), List.filter_cons_of_neg (by simp; omega),
        List.filter_cons_of_neg (by simp; omega), ih]

theorem filter_line_eq {n : Nat} {own : List Item} {pre post : List (Numbered Item)} (hpre : ∀ x ∈ pre, x.line < n)
    (hpost : ∀ x ∈ post, n < x.line) :
    (pre ++ (own.map (Numbered.mk n) ++ post)).filter (·.line = n) = own.map (Numbered.mk n) := by
  have hp : pre.filter (·.line = n) = [] :=
    List.filter_eq_nil_iff.2 fun x hx => by simpa using Nat.ne_of_lt (hpre x hx)
  have hq : post.filter (·.line = n) = [] :=
    List.filter_eq_nil_iff.2 fun x hx => by simpa using (Nat.ne_of_lt (hpost x hx)).symm
  have hm : (own.map (Numbered.mk n)).filter (·.line = n) = own.map (Numbered.mk n) := by
    refine List.filter_eq_self.2 fun x hx => ?_
    obtain ⟨_, -, rfl⟩ := List.mem_map.1 hx
    exact decide_eq_true rfl
  rw [List.filter_append, List.filter_append, hp, hq, hm, List.append_nil, List.nil_append]

section

variable {source : String} {items : List (Numbered Item)} (hitems : itemsOf source = .ok items)

include hitems

/-- The logical lines of a line are as wide as the line. -/
theorem words_at (n : Nat) : words (items.filter (·.line = n)) = sizeOfLine source n := by
  cases hl : Source.line? source n with
  | none =>
    have hnone : items.filter (·.line = n) = [] := by
      refine List.filter_eq_nil_iff.2 fun x hx hn => ?_
      obtain ⟨_, _, ⟨line, hline, -⟩, -⟩ := origin_of_item hitems hx
      rw [of_decide_eq_true hn, hl] at hline
      cases hline
    rw [hnone, sizeOfLine, hl]
    rfl
  | some line =>
    obtain ⟨s, hs⟩ := holds_of_line hitems hl
    rw [Source.sizeOfLine_of_holds hs]
    by_cases hne : line = []
    · -- an empty line may have no logical line, and has notes only
      subst hne
      cases hs.unique ⟨[], hl, .note (by decide)⟩
      refine List.sum_eq_zero fun w hw => ?_
      obtain ⟨x, hx, rfl⟩ := List.mem_map.1 hw
      obtain ⟨hmem, hn⟩ := List.mem_filter.1 hx
      obtain ⟨text, htext⟩ := note_of_empty_line hitems hmem (of_decide_eq_true hn ▸ hl)
      rw [htext]
      rfl
    · obtain ⟨_, hl', hsays⟩ := hs
      rw [hl] at hl'
      cases hl'
      obtain ⟨own, pre, post, hown, rfl, hpre, hpost⟩ := items_at hitems hl hne hsays
      rw [filter_line_eq hpre hpost, words, List.map_map]
      exact leastWidth_expand hown

/-- The instructions of the first lines are those of their logical lines. -/
theorem emitted_eq_filter (k : Nat) : emitted source k = words (items.filter (·.line ≤ k)) := by
  induction k with
  | zero =>
    have hnone : items.filter (·.line ≤ 0) = [] := by
      refine List.filter_eq_nil_iff.2 fun x hx h => ?_
      have hpos := line_pos_of_item hitems hx
      have hle := of_decide_eq_true h
      omega
    rw [hnone]
    rfl
  | succ k ih =>
    rw [emitted, ih, words_filter_succ, words_at hitems]

theorem emitted_of_cut {pre post : List (Numbered Item)} {k : Nat} (hcut : items = pre ++ post)
    (hpre : ∀ x ∈ pre, x.line ≤ k) (hpost : ∀ x ∈ post, k < x.line) : emitted source k = words pre := by
  have hp : pre.filter (·.line ≤ k) = pre := List.filter_eq_self.2 fun x hx => decide_eq_true (hpre x hx)
  have hq : post.filter (·.line ≤ k) = [] :=
    List.filter_eq_nil_iff.2 fun x hx => by simpa using hpost x hx
  rw [emitted_eq_filter hitems, hcut, List.filter_append, hp, hq, List.append_nil]

end

/-! ## Where there is no room -/

/-- A logical line at an address ends behind the last one, or is a label there. -/
def NoRoom (x : Nat × Numbered Item) : Prop :=
  65536 < x.1 + x.2.val.leastWidth ∨ 65536 ≤ x.1 ∧ ∃ name, x.2.val = .line (.label name)

theorem mem_addressed {items pre post : List (Numbered Item)} {x : Numbered Item} (h : items = pre ++ x :: post) :
    (words pre, x) ∈ addressed (·.val.leastWidth) 0 items := by
  rw [h, addressed_append, addressed_cons, Nat.zero_add]
  exact List.mem_append_right _ List.mem_cons_self

section

variable {source : String} {items : List (Numbered Item)} (hitems : itemsOf source = .ok items)

include hitems

/-- Where there is no room for a logical line, its line overflows. -/
theorem overflows_of_noRoom {pre post : List (Numbered Item)} {x : Numbered Item} (hsplit : items = pre ++ x :: post)
    (hfit : words pre ≤ 65536) (h : NoRoom (words pre, x)) : Overflows source x.line := by
  have hsorted := items_sorted hitems
  rw [hsplit] at hsorted
  rcases h with hend | ⟨hstart, name, hname⟩
  · left
    have hpre : pre.filter (·.line ≤ x.line) = pre :=
      List.filter_eq_self.2 fun y hy =>
        decide_eq_true ((List.pairwise_append.1 hsorted).2.2 y hy x List.mem_cons_self)
    rw [emitted_eq_filter hitems, hsplit, List.filter_append, hpre, List.filter_cons_of_pos (by simp), words_append,
      words_cons]
    dsimp only at hend
    omega
  · right
    have hlt := line_lt_of_label hitems
    rw [hsplit, List.pairwise_append] at hlt
    have hmem : x ∈ items := by simp [hsplit]
    have hpos := line_pos_of_item hitems hmem
    refine ⟨⟨name, hasLabel_of_mem hitems hmem hname⟩, ?_⟩
    have hemitted := emitted_of_cut hitems hsplit (k := x.line - 1) (fun y hy => ?_) (fun y hy => ?_)
    · rw [hemitted]
      exact Nat.le_antisymm hfit hstart
    · have := hlt.2.2 y hy x List.mem_cons_self name (.inr hname)
      omega
    · have := line_le_of_behind hsorted hy
      omega

/-- No line overflows as long as there is room. -/
theorem not_overflows {k : Nat}
    (h : ∀ x ∈ addressed (·.val.leastWidth) 0 items, x.2.line ≤ k → ¬ NoRoom x) : ¬ Overflows source k := by
  rintro (hend | ⟨⟨name, hlabel⟩, hfull⟩)
  · -- lines up to `k` are as wide as their logical lines, and each of these ends in time
    obtain ⟨front, back, hcut, hfront, hback⟩ := exists_cut (items_sorted hitems) k
    rw [emitted_of_cut hitems hcut hfront hback] at hend
    have hfit : 0 + (front.map (·.val.leastWidth)).sum ≤ 65536 := by
      refine width_le_of_addressed (Nat.zero_le _) fun x hx => Nat.not_lt.1 fun hlt => ?_
      refine h x ?_ (hfront _ (addressed_bounds x hx).1) (.inl hlt)
      rw [hcut, addressed_append]
      exact List.mem_append_left _ hx
    rw [Nat.zero_add] at hfit
    exact Nat.not_lt.2 hfit hend
  · -- the label stands behind exactly the logical lines of earlier lines
    obtain ⟨pre, post, hsplit, hpre, hpost⟩ := items_of_hasLabel hitems hlabel
    have hpos := line_pos_of_item hitems (mem_items_of_hasLabel hitems hlabel)
    have hemitted := emitted_of_cut hitems hsplit (k := k - 1) (fun y hy => ?_) (fun y hy => ?_)
    · refine h _ (mem_addressed hsplit) (Nat.le_refl _) (.inr ⟨?_, name, rfl⟩)
      rw [← hemitted, hfull]
    · have := hpre y hy
      omega
    · rcases List.mem_cons.1 hy with rfl | hy
      · exact Nat.sub_lt hpos Nat.one_pos
      · have := hpost y hy
        omega

/-- The first logical line that has no room is on the first line that overflows. -/
theorem firstOverflow_of_split {pre post : List (Nat × Numbered Item)} {x : Nat × Numbered Item}
    (hsplit : addressed (·.val.leastWidth) 0 items = pre ++ x :: post) (hpre : ∀ y ∈ pre, ¬ NoRoom y)
    (hroom : NoRoom x) : FirstOverflow source x.2.line := by
  obtain ⟨hplace, hfront, haddr⟩ := addressed_split hsplit
  have hfit : 0 + words (pre.map (·.2)) ≤ 65536 := by
    refine width_le_of_addressed (Nat.zero_le _) fun y hy => Nat.not_lt.1 fun hlt => ?_
    exact hpre y (hfront ▸ hy) (.inl hlt)
  rw [Nat.zero_add] at haddr hfit
  refine ⟨overflows_of_noRoom hitems hplace hfit ?_, fun k hk => not_overflows hitems fun y hy hyk => ?_⟩
  · rwa [words, ← haddr]
  · -- What is on earlier lines stands before the first that has no room.
    have hsorted := items_sorted hitems
    rw [← map_snd_addressed (fun x : Numbered Item => x.val.leastWidth) 0 items, List.pairwise_map, hsplit] at hsorted
    exact hpre y (mem_front hsorted (hsplit ▸ hy) (Nat.lt_of_le_of_lt hyk hk))

end

/-! ## Binding labels -/

theorem bindCell_of_noRoom {t : SymbolTable} {x : Nat × Numbered Item} (h : NoRoom x) :
    bindCell t (x.1, Cell.start x.2) = .error ⟨x.2.line, .programTooLarge⟩ := by
  obtain ⟨addr, n, item⟩ := x
  by_cases hlabel : ∃ name, item = .line (.label name)
  · obtain ⟨name, rfl⟩ := hlabel
    have hfull : addr ≥ 65536 := by
      rcases h with h | ⟨h, -⟩
      · exact Nat.le_of_lt h
      · exact h
    simp only [bindCell, Cell.start, if_pos hfull]
    rfl
  · have hend : addr + item.leastWidth > 65536 := h.resolve_right fun h => hlabel h.2
    unfold bindCell
    dsimp only [Cell.start]
    split
    · exact absurd ⟨_, rfl⟩ hlabel
    · exact if_pos hend

theorem bindCell_of_room {t : SymbolTable} {x : Nat × Numbered Item} (h : ¬ NoRoom x)
    (hnew : ∀ name, x.2.val = .line (.label name) → name ∉ t) :
    ∃ t', bindCell t (x.1, Cell.start x.2) = .ok t' ∧
      ∀ name, name ∈ t' → name ∈ t ∨ x.2.val = .line (.label name) := by
  simp only [NoRoom, not_or, not_and, Nat.not_lt] at h
  obtain ⟨hend, hlabel⟩ := h
  by_cases hname : ∃ name, x.2.val = .line (.label name)
  · have hlt : x.1 < 65536 := Nat.not_le.1 fun hle => hlabel hle hname
    obtain ⟨name, hname⟩ := hname
    refine ⟨_, bindCell_of_label hname hlt (hnew name hname) hend, fun other hmem => ?_⟩
    rcases Std.TreeMap.mem_insert.1 hmem with hsame | hmem
    · rw [Std.LawfulEqCmp.compare_eq_iff_eq] at hsame
      exact .inr (hsame ▸ hname)
    · exact .inl hmem
  · exact ⟨t, bindCell_of_not_label (not_exists.1 hname) hend, fun _ => .inl⟩

/-- Where no label is twice, a walk over logical lines is refused at the first that has no room. -/
theorem foldlM_bindCell_start {xs : List (Nat × Numbered Item)} {t : SymbolTable} {d : Diagnostic}
    (hnew : ∀ x ∈ xs, ∀ name, x.2.val = .line (.label name) → name ∉ t)
    (hpair : xs.Pairwise fun x y => ∀ name, x.2.val = .line (.label name) → y.2.val ≠ .line (.label name)) :
    xs.foldlM (fun t x => bindCell t (x.1, Cell.start x.2)) t = .error d ↔
      FirstFault (fun x => ¬ NoRoom x) (fun x d => NoRoom x ∧ d = ⟨x.2.line, .programTooLarge⟩) xs d := by
  induction xs generalizing t with
  | nil =>
    constructor
    · intro h
      cases h
    · rintro ⟨⟩
  | cons x xs ih =>
    obtain ⟨hx, hxs⟩ := List.forall_mem_cons.1 hnew
    obtain ⟨hfirst, hpair⟩ := List.pairwise_cons.1 hpair
    rw [List.foldlM_cons]
    by_cases hroom : NoRoom x
    · rw [bindCell_of_noRoom hroom]
      constructor
      · intro h
        cases h
        exact .here ⟨hroom, rfl⟩
      · intro h
        cases h with
        | here hx =>
          rw [hx.2]
          rfl
        | there hx _ => exact absurd hroom hx
    · obtain ⟨t', ht', hold⟩ := bindCell_of_room hroom hx
      have hfresh : ∀ y ∈ xs, ∀ name, y.2.val = .line (.label name) → name ∉ t' := by
        intro y hy name hname hmem
        rcases hold name hmem with hmem | hlabel
        · exact hxs y hy name hname hmem
        · exact hfirst y hy name hlabel hname
      rw [ht']
      refine (ih hfresh hpair).trans ⟨.there hroom, fun h => ?_⟩
      cases h with
      | here hx => exact absurd hx.1 hroom
      | there _ rest => exact rest

theorem bindLabels_start (items : List (Numbered Item)) : bindLabels (items.map Cell.start) =
    (addressed (·.val.leastWidth) 0 items).foldlM (fun t x => bindCell t (x.1, Cell.start x.2)) ∅ := by
  rw [bindLabels, addressed_map, List.foldlM_map]
  rfl

section

variable {source : String} {items : List (Numbered Item)} (hitems : itemsOf source = .ok items)

include hitems

/-- Where no label is on two lines, none is on two logical lines. -/
theorem labels_distinct_of_source (hdistinct : ∀ n name, ¬ Redefines source n name) :
    items.Pairwise fun x y => ∀ name, x.val = .line (.label name) → y.val ≠ .line (.label name) := by
  refine List.Pairwise.imp_of_mem (fun {x y} hx hy hlt name hxn hyn => ?_) (line_lt_of_label hitems)
  have hfirst := hasLabel_of_mem hitems hx hxn
  exact hdistinct y.line name ⟨hasLabel_of_mem hitems hy hyn, x.line, hlt name (.inl hxn), hfirst⟩

/-- Binding labels for the first time is refused for the first overflow, and for nothing else. -/
theorem firstOverflow_of_bindLabels (hdistinct : ∀ n name, ¬ Redefines source n name) :
    match bindLabels (items.map Cell.start) with
    | .ok _ => ∀ n, ¬ Overflows source n
    | .error d => d.cause = .programTooLarge ∧ FirstOverflow source d.line := by
  have hpair : (addressed (·.val.leastWidth) 0 items).Pairwise fun x y =>
      ∀ name, x.2.val = .line (.label name) → y.2.val ≠ .line (.label name) := by
    have hlabels := labels_distinct_of_source hitems hdistinct
    rwa [← map_snd_addressed (fun x : Numbered Item => x.val.leastWidth) 0 items, List.pairwise_map] at hlabels
  split
  · rename_i t ht
    refine fun n => not_overflows hitems fun x hx _ hroom => ?_
    obtain ⟨-, hfit, hlabel, -⟩ := foldlM_bindCell ht
    have hcell : (x.1, Cell.start x.2) ∈ addressed Cell.width 0 (items.map Cell.start) := by
      rw [addressed_map]
      exact List.mem_map.2 ⟨x, hx, rfl⟩
    rcases hroom with hend | ⟨hstart, name, hname⟩
    · exact Nat.not_lt.2 (hfit _ hcell) hend
    · exact Nat.not_lt.2 hstart (hlabel _ hcell name hname).1
  · rename_i d hd
    rw [bindLabels_start, foldlM_bindCell_start (by simp) hpair] at hd
    obtain ⟨pre, x, post, hsplit, hpre, hroom, rfl⟩ := hd.exists_split
    exact ⟨rfl, firstOverflow_of_split hitems hsplit hpre hroom⟩

/-- A source of fixed size is laid out in one round, or refused for its first overflow. -/
theorem ofItems_of_fixedSize (h : FixedSize source) :
    (∃ l, Layout.ofItems items = .ok l ∧ ∀ n, ¬ Overflows source n) ∨
      ∃ n, Layout.ofItems items = .error ⟨n, .programTooLarge⟩ ∧ FirstOverflow source n := by
  have hfirst := firstOverflow_of_bindLabels hitems h.distinct
  split at hfirst
  · rename_i t ht
    -- without loads of addresses all cells are lines, and the first round widens none of them
    obtain ⟨lines, rfl⟩ := exists_lineItems hitems h.no_call h.no_loadSymbol
    have hcells : (lines.map lineItem).map Cell.start = lines.map lineCell := List.map_map
    have hsettle : settle ((lines.map lineItem).map Cell.start) = .ok (t, lines.map lineCell) := by
      rw [hcells] at ht ⊢
      exact settle_of_rounds (.last (relax_eq_ok_iff.2 ⟨ht, widened_lineCells t 0 lines⟩))
    exact .inl ⟨⟨(lines.map ([·])).flatten, t⟩,
      ofItems_eq_ok_iff.2 ⟨_, _, hsettle, blocks_lineCells t 0 lines, rfl⟩, hfirst⟩
  · rename_i d hd
    obtain ⟨hcause, hfirst⟩ := hfirst
    have hrelax : relax (items.map Cell.start) = .error d := bind_eq_error_iff.2 (.inl hd)
    obtain ⟨n, _⟩ := d
    obtain rfl := hcause
    exact .inr ⟨n, bind_eq_error_iff.2 (.inl (settle_of_relax_error hrelax)), hfirst⟩

end

/-- The code of lines that have been laid out is not refused for its size. -/
theorem cause_of_ofLayout {items : List (Numbered Item)} {l : Layout} (hlayout : Layout.ofItems items = .ok l)
    {d : Diagnostic} (h : Code.ofLayout l = .error d) : d.cause ≠ .programTooLarge := by
  obtain ⟨_, text, _, is, -, -, hread⟩ := exists_unread hlayout h
  intro hlarge
  rw [hlarge] at hread
  rcases cause_of_readInstruction hread with h | ⟨_, h, -⟩
  · exact h
  · cases h

/-- A source of fixed size is refused for its size exactly where it overflows first. -/
theorem tooLarge_iff {source : String} (h : FixedSize source) (n : Nat) :
    assemble source = .error ⟨n, .programTooLarge⟩ ↔ FirstOverflow source n := by
  obtain ⟨items, hitems⟩ := exists_itemsOf h.macros h.labels
  have hassemble : assemble source = Layout.ofItems items >>= fun l => (Code.ofLayout l).map (⟨l, ·⟩) := by
    rw [assemble, hitems]
    rfl
  rw [hassemble]
  rcases ofItems_of_fixedSize hitems h with ⟨l, hl, hnone⟩ | ⟨k, hk, hfirst⟩
  · rw [hl]
    constructor
    · intro hcode
      exact absurd rfl (cause_of_ofLayout hl (map_eq_error_iff.1 hcode))
    · intro hfirst
      exact absurd hfirst.1 (hnone n)
  · rw [hk]
    constructor
    · intro herror
      cases herror
      exact hfirst
    · intro hn
      rw [hn.unique hfirst]
      rfl

/-- Labels are where the instructions of earlier lines end, and the program reaches as far. -/
theorem symbol_le {source : String} {a : Assembly} (h : assemble source = .ok a) {name : String} {addr : UInt16}
    (haddr : a.symbols[name]? = some addr) :
    ∃ n, HasLabel source n name ∧ addr.toNat = a.addressOf n ∧ a.addressOf n ≤ 65535 ∧
      a.addressOf n ≤ a.program.words.size := by
  obtain ⟨n, hlabel⟩ := (mem_symbols_iff h name).1 (Std.TreeMap.mem_iff_isSome_getElem?.2 (by rw [haddr]; rfl))
  obtain ⟨addr', haddr', hat⟩ := symbol_of_label h hlabel
  rw [haddr] at haddr'
  cases haddr'
  refine ⟨n, hlabel, hat, ?_, ?_⟩
  · have hlt := addr.toNat_lt
    omega
  · rw [a.size_words, ← a.size_lineMap]
    exact Array.countP_le_size

end Assembly

open Assembly Source in
/-- What the limit of 65536 words does to a source. -/
structure WithinLimit (source : String) : Prop where
  /-- A source of fixed size is refused for its size on the line of its first overflow. -/
  reported : FixedSize source → ∀ n, assemble source = .error ⟨n, .programTooLarge⟩ ↔ FirstOverflow source n
  refused : FixedSize source → ((∃ n, assemble source = .error ⟨n, .programTooLarge⟩) ↔ ∃ n, Overflows source n)
  /-- The limit is never met behind the layout. -/
  coded : ∀ items l, itemsOf source = .ok items → Layout.ofItems items = .ok l →
    ∀ d, Code.ofLayout l = .error d → d.cause ≠ .programTooLarge
  size_le : ∀ a, assemble source = .ok a →
    a.program.words.size = (a.layout.lines.map (·.val.width)).sum ∧ a.program.words.size ≤ 65536
  symbol_le : ∀ a, assemble source = .ok a → ∀ name addr, a.symbols[name]? = some addr →
    ∃ n, HasLabel source n name ∧ addr.toNat = a.addressOf n ∧ a.addressOf n ≤ 65535 ∧
      a.addressOf n ≤ a.program.words.size

open Assembly in
theorem withinLimit (source : String) : WithinLimit source where
  reported h := tooLarge_iff h
  refused h := by
    simp only [tooLarge_iff h]
    exact ⟨fun ⟨n, hn⟩ => ⟨n, hn.1⟩, Source.exists_firstOverflow⟩
  coded _ _ _ hlayout _ := cause_of_ofLayout hlayout
  size_le a h := by
    obtain ⟨items, _, hlayout, -⟩ := assemble_eq_ok_iff.1 h
    have hsize : a.program.words.size = (a.layout.lines.map (·.val.width)).sum :=
      a.size_words.trans (size_of_assemble h)
    exact ⟨hsize, hsize ▸ width_lines_le hlayout⟩
  symbol_le _ h _ _ haddr := symbol_le h haddr

/-! ## Sources of one instruction -/

namespace Source

/-- A source with the same instruction on each of `n` lines. -/
def repeated (n : Nat) : String :=
  String.ofList (['\n'].intercalate (List.replicate n "inc r0,r0".toList) ++ ['\n'])

section

variable {n : Nat} (hn : 0 < n)

include hn

theorem line?_repeated (k : Nat) :
    line? (repeated n) (k + 1) = if k < n then some "inc r0,r0".toList else none := by
  have hnewline : ∀ line ∈ List.replicate n "inc r0,r0".toList, '\n' ∉ line := by
    intro line hline
    rw [List.eq_of_mem_replicate hline]
    decide
  have hne : List.replicate n "inc r0,r0".toList ≠ [] := by simpa using Nat.ne_of_gt hn
  have hnormal : normalLine "inc r0,r0".toList = "inc r0,r0".toList := by decide
  rw [line?, repeated, String.toList_ofList, Text.lines_joined_newline hnewline hne, List.getElem?_replicate]
  split
  · exact congrArg some hnormal
  · rfl

theorem eq_of_line?_repeated {k : Nat} {line : List Char} (h : line? (repeated n) k = some line) :
    line = "inc r0,r0".toList := by
  cases k with
  | zero => cases h
  | succ k =>
    rw [line?_repeated hn] at h
    split at h <;> cases h
    rfl

theorem holds_repeated {k : Nat} {s : Statement} (h : Holds (repeated n) k s) : s = .instruction "inc r0,r0" := by
  obtain ⟨line, hline, hs⟩ := h
  rw [eq_of_line?_repeated hn hline] at hs
  have hread : Statement.read "inc r0,r0".toList = .ok (.instruction "inc r0,r0") := by decide
  exact hs.unique (Statement.read_eq_ok_iff.1 hread)

theorem fixedSize_repeated : FixedSize (repeated n) := by
  have hcode : Text.code "inc r0,r0".toList = "inc r0,r0".toList := by decide
  refine ⟨?_, ?_, ?_, fun k r hs => ?_, fun k r name hs => ?_⟩
  · rintro k body ⟨line, hline, hbody, -⟩
    rw [eq_of_line?_repeated hn hline, hcode] at hbody
    exact absurd (List.cons.inj hbody).1 (by decide)
  · rintro k code ⟨line, hline, hbody, -⟩
    rw [eq_of_line?_repeated hn hline, hcode] at hbody
    exact absurd (List.cons.inj hbody).1 (by decide)
  · rintro k name ⟨⟨code, hs, -⟩, -⟩
    cases holds_repeated hn hs
  · cases holds_repeated hn hs
  · cases holds_repeated hn hs

theorem emitted_repeated (k : Nat) : emitted (repeated n) k = min k n := by
  induction k with
  | zero => exact (Nat.zero_min n).symm
  | succ k ih =>
    have hread : Statement.read "inc r0,r0".toList = .ok (.instruction "inc r0,r0") := by decide
    have hsize : sizeOfLine (repeated n) (k + 1) = if k < n then 1 else 0 := by
      rw [sizeOfLine, line?_repeated hn]
      by_cases hk : k < n
      · rw [if_pos hk, if_pos hk, Option.map_some, hread]
        rfl
      · rw [if_neg hk, if_neg hk]
        rfl
    rw [emitted, ih, hsize]
    split <;> omega

theorem overflows_repeated_iff (k : Nat) : Overflows (repeated n) k ↔ 65536 < k ∧ 65536 < n := by
  rw [Overflows, emitted_repeated hn]
  constructor
  · rintro (h | ⟨⟨name, code, hs, -⟩, -⟩)
    · omega
    · cases holds_repeated hn hs
  · intro h
    exact .inl (by omega)

end

end Source

open Assembly Source in
/-- One line more than there are addresses is refused, and the last line is reported. -/
theorem withinLimit_of_repeated : FixedSize (repeated 65537) ∧
    assemble (repeated 65537) = .error ⟨65537, .programTooLarge⟩ := by
  have hfixed : FixedSize (repeated 65537) := fixedSize_repeated (by decide)
  refine ⟨hfixed, ((withinLimit (repeated 65537)).reported hfixed 65537).2 ⟨?_, fun k hk => ?_⟩⟩
  · rw [overflows_repeated_iff (by decide)]
    omega
  · rw [overflows_repeated_iff (by decide)]
    omega

end Isa16
