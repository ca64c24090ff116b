import Isa16.Proofs.Assembly.Extent
/-!
# How widening loads comes to an end

Each load of a source has a slot, the words set aside for it. A round takes the
value of every slot from the present layout and widens the slots that are too
narrow for theirs (`Round.of_relax`). A constant can get shorter when its value
grows, so a round may ask less of a slot than the one before. What carries the
argument is that a slot keeps the words it has: the words that slots can still
get are `room`, and every round but the last takes from it. So there are at most
`18 * d + 1` rounds for `d` loads, and the last one leaves a layout in which each
load fits the slot whose addresses it was computed from (`relaxes_ofItems`).
-/

namespace Isa16.Assembly

/-! ## Slots -/

/-- A load and the words set aside for it: the address of the first, and how many they are. -/
structure Slot where
  addr : Nat
  width : Nat
  load : Load

namespace Slot

def ofCell? : Nat × Cell → Option Slot
  | (addr, ⟨_, .load load, width⟩) => some ⟨addr, width, load⟩
  | (_, ⟨_, .line _, _⟩) => none

/-- The address that the load of a slot puts into its register. -/
def value (symbols : SymbolTable) (s : Slot) : Except Cause UInt16 :=
  s.load.target.value symbols (s.addr + s.width)

end Slot

/-- The slots of cells of which the first is at `start`. -/
def slots (start : Nat) (cells : List Cell) : List Slot :=
  (addressed Cell.width start cells).filterMap Slot.ofCell?

/-- How wide the slots are, wherever the cells begin. -/
def slotWidths : List Cell → List Nat
  | [] => []
  | ⟨_, .load _, width⟩ :: cells => width :: slotWidths cells
  | ⟨_, .line _, _⟩ :: cells => slotWidths cells

/-- The loads of logical lines. -/
def loads : List (Numbered Item) → List Load
  | [] => []
  | ⟨_, .load load⟩ :: items => load :: loads items
  | ⟨_, .line _⟩ :: items => loads items

@[simp] theorem slots_nil (start : Nat) : slots start [] = [] := by
  simp [slots]

@[simp] theorem slots_load (start n width : Nat) (load : Load) (cells : List Cell) :
    slots start (⟨n, .load load, width⟩ :: cells) = ⟨start, width, load⟩ :: slots (start + width) cells := by
  simp [slots, Slot.ofCell?]

@[simp] theorem slots_line (start n width : Nat) (l : Line) (cells : List Cell) :
    slots start (⟨n, .line l, width⟩ :: cells) = slots (start + width) cells := by
  rw [slots, addressed_cons]
  rfl

theorem map_width_slots (start : Nat) (cells : List Cell) :
    (slots start cells).map Slot.width = slotWidths cells := by
  induction cells generalizing start with
  | nil => simp [slotWidths]
  | cons c cells ih =>
    obtain ⟨n, item, width⟩ := c
    cases item <;> simp [slotWidths, ih]

theorem map_load_slots (start : Nat) (cells : List Cell) :
    (slots start cells).map Slot.load = loads (cells.map Cell.numbered) := by
  induction cells generalizing start with
  | nil => simp [loads]
  | cons c cells ih =>
    obtain ⟨n, item, width⟩ := c
    cases item <;> simp [loads, Cell.numbered, ih]

theorem mem_slots {start : Nat} {cells : List Cell} {s : Slot} (h : s ∈ slots start cells) :
    ∃ c ∈ cells, c.item = .load s.load ∧ c.width = s.width := by
  obtain ⟨⟨addr, c⟩, hx, hs⟩ := List.mem_filterMap.1 h
  obtain ⟨n, item, width⟩ := c
  cases item with
  | line l => cases hs
  | load load =>
    cases hs
    exact ⟨_, (addressed_bounds _ hx).1, rfl, rfl⟩

/-- The words that slots can still get. -/
def room (widths : List Nat) : Nat := (widths.map (19 - ·)).sum

/-- Slots that start with one word have eighteen left. -/
theorem room_start (items : List (Numbered Item)) :
    room (slotWidths (items.map Cell.start)) = 18 * (loads items).length := by
  induction items with
  | nil => rfl
  | cons x items ih =>
    obtain ⟨n, item⟩ := x
    cases item with
    | line l => simpa [Cell.start, slotWidths, loads] using ih
    | load load =>
      have hcons : room (slotWidths (⟨n, .load load⟩ :: items |>.map Cell.start)) =
          18 + room (slotWidths (items.map Cell.start)) := by
        simp [room, slotWidths, Cell.start, Item.leastWidth]
      rw [hcons, ih, loads, List.length_cons]
      omega

/-- Slots that got wider, not all of them by nothing, have less room. -/
theorem room_lt {us vs : List Nat} (hle : List.Forall₂ (· ≤ ·) us vs) (hv : ∀ v ∈ vs, v ≤ 19) (hne : vs ≠ us) :
    room vs < room us := by
  have hsum : room vs + vs.sum = room us + us.sum := by
    clear hne
    induction hle with
    | nil => rfl
    | cons hx _ ih =>
      obtain ⟨hv, hvs⟩ := List.forall_mem_cons.1 hv
      have := ih hvs
      simp only [room, List.map_cons, List.sum_cons] at this ⊢
      omega
  have hle' := hle.sum_le_sum
  have hne' : vs.sum ≠ us.sum := fun h => hne (eq_of_sum_eq hle h)
  omega

/-- Lists that shrink nowhere and are not the same have a place where one is less. -/
theorem exists_lt_of_ne {us vs : List Nat} (hle : List.Forall₂ (· ≤ ·) us vs) (hne : vs ≠ us) :
    ∃ (k u v : Nat), us[k]? = some u ∧ vs[k]? = some v ∧ u < v := by
  induction hle with
  | nil => exact absurd rfl hne
  | @cons u v us vs hx _ ih =>
    by_cases heq : v = u
    · obtain ⟨k, hk⟩ := ih fun h => hne (by rw [heq, h])
      exact ⟨k + 1, hk⟩
    · exact ⟨0, u, v, rfl, rfl, Nat.lt_of_le_of_ne hx (Ne.symm heq)⟩

/-! ## One round -/

/-- The words that slots get: each what it has, or what its value needs if that is more. -/
def widen (widths : List Nat) (values : List UInt16) : List Nat :=
  List.zipWith (fun width value => max width (constant value).length) widths values

/-- What a round does with slots: it takes the value of each from the present layout, and widens
them. It changes nothing else. -/
theorem widen_slots {t : SymbolTable} {start : Nat} {cells widened : List Cell}
    (h : List.Forall₂ (fun x c => widenCell t x = .ok c) (addressed Cell.width start cells) widened) :
    ∃ values, List.Forall₂ (fun s value => s.value t = .ok value) (slots start cells) values ∧
      slotWidths widened = widen (slotWidths cells) values ∧
      (slotWidths widened = slotWidths cells → widened = cells) := by
  induction cells generalizing start widened with
  | nil =>
    obtain rfl : widened = [] := by simpa using h
    exact ⟨[], by simp, rfl, fun _ => rfl⟩
  | cons c cells ih =>
    rw [addressed_cons] at h
    obtain ⟨c', rest, hc, hrest, rfl⟩ := List.forall₂_cons_left_iff.1 h
    obtain ⟨values, hvalues, hwiden, hsame⟩ := ih hrest
    obtain ⟨n, item, width⟩ := c
    cases item with
    | line l =>
      cases hc
      exact ⟨values, by simpa using hvalues, hwiden, fun hw => by rw [hsame hw]⟩
    | load load =>
      obtain ⟨value, hv, hc⟩ := bind_eq_ok_iff.1 hc
      cases hc
      refine ⟨value :: values, ?_, ?_, fun hw => ?_⟩
      · rw [slots_load]
        exact .cons (atLine_eq_ok_iff.1 hv) hvalues
      · simp only [slotWidths, hwiden, widen, List.zipWith_cons_cons]
      · obtain ⟨hw, hws⟩ := List.cons.inj hw
        rw [hsame hws, hw]

theorem le_widen {widths : List Nat} {values : List UInt16} (h : widths.length = values.length) :
    List.Forall₂ (· ≤ ·) widths (widen widths values) := by
  induction widths generalizing values with
  | nil => simp [widen]
  | cons width widths ih =>
    cases values with
    | nil => cases h
    | cons value values => exact .cons (Nat.le_max_left ..) (ih (Nat.succ.inj h))

/-- Slots that do not get wider hold their values. -/
theorem fits_of_widen_eq {R : Slot → UInt16 → Prop} {ss : List Slot} {values : List UInt16}
    (h : List.Forall₂ R ss values) (hw : widen (ss.map Slot.width) values = ss.map Slot.width) :
    List.Forall₂ (fun s value => R s value ∧ (constant value).length ≤ s.width) ss values := by
  induction h with
  | nil => exact .nil
  | cons hx _ ih =>
    obtain ⟨hw, hws⟩ := List.cons.inj hw
    exact .cons ⟨hx, max_eq_left_iff.1 hw⟩ (ih hws)

/-- A round that is not the last: each slot has a value in the present layout and keeps its words
or gets those that the value needs, and some slot gets wider. -/
structure Grown (cells widened : List Cell) : Prop where
  relaxed : ∃ symbols values, relax cells = .ok (symbols, widened) ∧
    List.Forall₂ (fun s value => s.value symbols = .ok value) (slots 0 cells) values ∧
    slotWidths widened = widen (slotWidths cells) values
  le : List.Forall₂ (· ≤ ·) (slotWidths cells) (slotWidths widened)
  lt : ∃ (k u v : Nat), (slotWidths cells)[k]? = some u ∧ (slotWidths widened)[k]? = some v ∧ u < v

theorem slotWidths_le {cells : List Cell} (h : ∀ c ∈ cells, c.WidthOk) : ∀ width ∈ slotWidths cells, width ≤ 19 := by
  rw [← map_width_slots 0]
  intro width hw
  obtain ⟨s, hs, rfl⟩ := List.mem_map.1 hw
  obtain ⟨c, hc, hitem, hwidth⟩ := mem_slots hs
  have := h c hc
  rw [Cell.WidthOk, hitem] at this
  exact hwidth ▸ this.2

section

variable {cells widened : List Cell} {t : SymbolTable} (h : relax cells = .ok (t, widened))

include h

theorem Grown.of_relax (hne : widened ≠ cells) : Grown cells widened := by
  obtain ⟨values, hvalues, hwiden, hsame⟩ := widen_slots (relax_eq_ok_iff.1 h).2
  have hlen : (slotWidths cells).length = values.length := by
    rw [← map_width_slots 0, List.length_map, hvalues.length_eq]
  have hle := hwiden ▸ le_widen hlen
  exact ⟨⟨t, values, h, hvalues, hwiden⟩, hle, exists_lt_of_ne hle fun heq => hne (hsame heq)⟩

theorem room_lt_of_relax (hne : widened ≠ cells) (hw : ∀ c ∈ cells, c.WidthOk) :
    room (slotWidths widened) < room (slotWidths cells) := by
  obtain ⟨-, -, hok⟩ := widened_cells (relax_eq_ok_iff.1 h).2
  obtain ⟨-, -, -, hsame⟩ := widen_slots (relax_eq_ok_iff.1 h).2
  exact room_lt (Grown.of_relax h hne).le (slotWidths_le (hok hw)) fun heq => hne (hsame heq)

end

/-- In the last round each slot holds the value it has in the present layout. -/
theorem fits_of_relax {cells : List Cell} {t : SymbolTable} (h : relax cells = .ok (t, cells)) :
    ∃ values, List.Forall₂ (fun s value => s.value t = .ok value ∧ (constant value).length ≤ s.width)
      (slots 0 cells) values := by
  obtain ⟨values, hvalues, hwiden, -⟩ := widen_slots (relax_eq_ok_iff.1 h).2
  exact ⟨values, fits_of_widen_eq hvalues (by rw [map_width_slots, ← hwiden])⟩

/-! ## All rounds -/

/-- The cells of the rounds of a relaxation, in their order. -/
structure Relaxes (items : List (Numbered Item)) (start : List Cell) (most : Nat) (rounds : List (List Cell)) :
    Prop where
  first : rounds.head? = some start
  length_le : rounds.length ≤ most
  items_eq : ∀ cells ∈ rounds, cells.map Cell.numbered = items
  widthOk : ∀ cells ∈ rounds, ∀ c ∈ cells, c.WidthOk
  grown : rounds.IsChain Grown

/-- One more round in front. -/
theorem Relaxes.cons {items : List (Numbered Item)} {start widened : List Cell} {most : Nat}
    {rounds : List (List Cell)} (h : Relaxes items widened most rounds) (hi : start.map Cell.numbered = items)
    (hw : ∀ c ∈ start, c.WidthOk) (hg : Grown start widened) : Relaxes items start (most + 1) (start :: rounds) where
  first := rfl
  length_le := Nat.succ_le_succ h.length_le
  items_eq := List.forall_mem_cons.2 ⟨hi, h.items_eq⟩
  widthOk := List.forall_mem_cons.2 ⟨hw, h.widthOk⟩
  grown := List.isChain_cons.2 ⟨fun c hc => by
    obtain rfl := Option.some.inj (h.first.symm.trans hc)
    exact hg, h.grown⟩

theorem Relaxes.mono {items : List (Numbered Item)} {start : List Cell} {most more : Nat} {rounds : List (List Cell)}
    (h : Relaxes items start most rounds) (hle : most ≤ more) : Relaxes items start more rounds :=
  ⟨h.first, h.length_le.trans hle, h.items_eq, h.widthOk, h.grown⟩

/-- The rounds come to an end, and that is what settling cells comes to. -/
theorem relaxes_settle {items : List (Numbered Item)} (start : List Cell) (hi : start.map Cell.numbered = items)
    (hw : ∀ c ∈ start, c.WidthOk) : ∃ rounds last,
      Relaxes items start (room (slotWidths start) + 1) (rounds ++ [last]) ∧
        ((∃ d, relax last = .error d ∧ settle start = .error d) ∨
          ∃ symbols, relax last = .ok (symbols, last) ∧ settle start = .ok (symbols, last)) := by
  have one : Relaxes items start (room (slotWidths start) + 1) ([] ++ [start]) :=
    ⟨rfl, by simp, by simpa using hi, by simpa using hw, .singleton start⟩
  induction start using settle_induction with
  | refused start d hr => exact ⟨[], start, one, .inl ⟨d, hr, settle_of_relax_error hr⟩⟩
  | last cells t hr => exact ⟨[], cells, one, .inr ⟨t, hr, by rw [settle_of_relax hr, if_pos rfl]⟩⟩
  | round start t widened hr hne ih =>
    obtain ⟨hnum, -, hok⟩ := widened_cells (relax_eq_ok_iff.1 hr).2
    have hi' := hnum.trans hi
    obtain ⟨rounds, last, hrounds, hend⟩ := ih hi' (hok hw)
      ⟨rfl, by simp, by simpa using hi', by simpa using hok hw, .singleton widened⟩
    have hroom := room_lt_of_relax hr hne hw
    rw [settle_of_relax hr, if_neg hne]
    exact ⟨start :: rounds, last, (hrounds.cons hi hw (.of_relax hr hne)).mono (by omega), hend⟩

/-! ## The layout that rounds lead to -/

/-- What a cell at its address is laid out as: a line as itself, and a load as instructions that
fill its words, idle ones first, between two notes. -/
inductive Laid (symbols : SymbolTable) : Nat × Cell → List (Numbered Line) → Prop
  | line {addr n width : Nat} {l : Line} : Laid symbols (addr, ⟨n, .line l, width⟩) [⟨n, l⟩]
  | load {addr n width : Nat} {load : Load} {value : UInt16} {code : List Instruction}
      (hv : load.target.value symbols (addr + width) = .ok value) (hfit : (constant value).length ≤ width)
      (hcode : code = List.replicate (width - (constant value).length) ⟨.mova, load.reg, load.reg, 0⟩
        ++ (constant value).map (·.instruction load.reg))
      (hlen : code.length = width) :
      Laid symbols (addr, ⟨n, .load load, width⟩)
        ((Line.note (beginNote (load.caption value)) :: code.map Line.made ++ [Line.note endNote]).map (⟨n, ·⟩))

/-- How rounds end. The last is refused and so is the source, or it widens no slot and its cells are
laid out: every slot holds the value that it has by the addresses of these very cells. -/
inductive Ends (last : List Cell) : Except Diagnostic Layout → Prop
  | refused {d : Diagnostic} (h : relax last = .error d) : Ends last (.error d)
  | settled {l : Layout} {values : List UInt16} {blocks : List (List (Numbered Line))}
      (h : relax last = .ok (l.symbols, last))
      (hlabels : ∀ name addr, l.symbols[name]? = some addr ↔
        ∃ x ∈ addressed Cell.width 0 last, x.2.item = .line (.label name) ∧ x.1 = addr.toNat)
      (hvalues : List.Forall₂ (fun s value => s.value l.symbols = .ok value ∧ (constant value).length ≤ s.width)
        (slots 0 last) values)
      (hblocks : List.Forall₂ (Laid l.symbols) (addressed Cell.width 0 last) blocks)
      (hlines : l.lines = blocks.flatten) : Ends last (.ok l)

theorem Placed.laid {symbols : SymbolTable} {x : Nat × Cell} (h : Placed symbols x) :
    ∃ block, LaysOut symbols x block ∧ Laid symbols x block := by
  obtain ⟨addr, n, item, width⟩ := x
  cases item with
  | line l => exact ⟨_, ⟨[l], rfl, rfl⟩, .line⟩
  | load load =>
    obtain ⟨-, value, hv, hfit⟩ := h.load rfl
    refine ⟨_, ⟨_, ?_, rfl⟩, .load hv hfit rfl (length_loadCode hfit)⟩
    simp only [cellLines, hv, loadLines_eq]
    rfl

/-- The labels of settled cells have the addresses of these cells. -/
theorem label_iff_toNat {cells : List Cell} {symbols : SymbolTable} (h : bindLabels cells = .ok symbols)
    (name : String) (addr : UInt16) : symbols[name]? = some addr ↔
      ∃ x ∈ addressed Cell.width 0 cells, x.2.item = .line (.label name) ∧ x.1 = addr.toNat := by
  obtain ⟨-, -, hreach, -⟩ := foldlM_bindCell h
  rw [label_iff h]
  refine exists_congr fun x => and_congr_right fun hx => and_congr_right fun hname => ?_
  have hlt := (hreach x hx name hname).1
  rw [← UInt16.toNat_inj, UInt16.toNat_ofNat', Nat.mod_eq_of_lt hlt, eq_comm]

/-- Cells that settle have a layout. -/
theorem Settled.ends {items : List (Numbered Item)} {symbols : SymbolTable} {cells : List Cell}
    (h : Settled items symbols cells) (hs : settle (items.map Cell.start) = .ok (symbols, cells)) :
    Ends cells (Layout.ofItems items) := by
  obtain ⟨values, hvalues⟩ := fits_of_relax h.stable
  choose! block hblock using fun x hx => (h.placed x hx).laid
  have hblocks : List.Forall₂ (fun x b => LaysOut symbols x b ∧ Laid symbols x b) (addressed Cell.width 0 cells)
      ((addressed Cell.width 0 cells).map block) :=
    List.forall₂_map_right_iff.2 (List.forall₂_same.2 hblock)
  have hl : Layout.ofItems items = .ok ⟨((addressed Cell.width 0 cells).map block).flatten, symbols⟩ :=
    ofItems_eq_ok_iff.2 ⟨cells, _, hs, hblocks.imp fun _ _ h => h.1, rfl⟩
  rw [hl]
  exact .settled h.stable (label_iff_toNat h.bindLabels_eq) hvalues (hblocks.imp fun _ _ h => h.2) rfl

/-- Slots of logical lines are those of their loads, one each and in their order, and have one word
to nineteen. -/
theorem Relaxes.slots_ok {items : List (Numbered Item)} {start cells : List Cell} {most : Nat}
    {rounds : List (List Cell)} (h : Relaxes items start most rounds) (hc : cells ∈ rounds) :
    (slots 0 cells).map Slot.load = loads items ∧ ∀ s ∈ slots 0 cells, 1 ≤ s.width ∧ s.width ≤ 19 := by
  refine ⟨by rw [map_load_slots, h.items_eq cells hc], fun s hs => ?_⟩
  obtain ⟨c, hmem, hitem, hwidth⟩ := mem_slots hs
  have := h.widthOk cells hc c hmem
  rwa [Cell.WidthOk, hitem, hwidth] at this

/-- Laying out logical lines takes at most `18 * d + 1` rounds for `d` loads. All of them are about
the same loads, in slots of one word to nineteen that never shrink, and every round but the last
widens a slot. If the last is refused, there is no layout. If not, each load fits its slot, and is
laid out as as many instructions as the slot has words. -/
theorem relaxes_ofItems (items : List (Numbered Item)) : ∃ rounds last,
    Relaxes items (items.map Cell.start) (18 * (loads items).length + 1) (rounds ++ [last]) ∧
      (∀ cells ∈ rounds ++ [last], (slots 0 cells).map Slot.load = loads items ∧
        ∀ s ∈ slots 0 cells, 1 ≤ s.width ∧ s.width ≤ 19) ∧
      Ends last (Layout.ofItems items) := by
  obtain ⟨rounds, last, hrounds, hend⟩ := relaxes_settle (items.map Cell.start)
    (Cell.map_numbered_start items) (List.forall_mem_map.2 fun x _ => Cell.widthOk_start x)
  rw [room_start] at hrounds
  refine ⟨rounds, last, hrounds, fun cells hc => hrounds.slots_ok hc, ?_⟩
  obtain ⟨d, hr, hs⟩ | ⟨symbols, -, hs⟩ := hend
  · have hrefused : Layout.ofItems items = .error d := by
      rw [Layout.ofItems, hs]
      rfl
    rw [hrefused]
    exact .refused hr
  · exact (settled_start hs).ends hs

end Isa16.Assembly
