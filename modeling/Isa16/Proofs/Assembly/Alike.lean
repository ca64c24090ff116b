import Isa16.Proofs.Alignment
import Isa16.Proofs.Assembly.Extent
import Isa16.Proofs.Assembly.Items
/-!
# Sources that say the same

What a source is assembled to depends on what its lines say, and neither on
their notes nor on the numbers they have. Two sources with the same lines but
for notes, the lines of the one having other numbers in the other, go through
every stage side by side: their logical lines, their cells in every round,
their laid out lines and their code are alike, and where the one is refused so
is the other, for the same cause (`agrees_assemble`).
-/

namespace Isa16

namespace Assembly

open Isa16.Source (Statement)

/-! ## Lines that are alike -/

/-- The texts read as the same instruction, or are refused for the same cause, at every address. -/
def ReadAlike (text text' : String) : Prop := ∀ symbols pc,
  readInstruction symbols pc (Text.code text'.toList) = readInstruction symbols pc (Text.code text.toList)

inductive StatementAlike : Statement → Statement → Prop
  | label (code : String) : StatementAlike (.label code) (.label code)
  | call (c : Source.MacroCall) : StatementAlike (.call c) (.call c)
  | instruction {text text' : String} (h : ReadAlike text text') :
      StatementAlike (.instruction text) (.instruction text')

inductive Line.Alike : Line → Line → Prop
  | refl (l : Line) : Alike l l
  | written {text text' : String} (h : ReadAlike text text') : Alike (.written text) (.written text')

inductive Item.Alike : Item → Item → Prop
  | line {l l' : Line} (h : l.Alike l') : Alike (.line l) (.line l')
  | load (load : Load) : Alike (.load load) (.load load)

theorem Line.Alike.width_eq {l l' : Line} (h : l.Alike l') : l'.width = l.width := by
  cases h <;> rfl

theorem Item.Alike.leastWidth_eq {i j : Item} (h : i.Alike j) : j.leastWidth = i.leastWidth := by
  cases h with
  | line h => exact h.width_eq
  | load => rfl

theorem Item.Alike.refl (i : Item) : i.Alike i := by
  cases i with
  | line l => exact .line (.refl l)
  | load load => exact .load load

section

variable (r : Nat → Nat)

/-- The same thing on the line that `r` gives. -/
def Numbered.Alike {α β : Type} (R : α → β → Prop) (x : Numbered α) (y : Numbered β) : Prop :=
  y.line = r x.line ∧ R x.val y.val

/-- The same cause on the line that `r` gives. -/
def Diagnostic.Moved (d d' : Diagnostic) : Prop := d' = ⟨r d.line, d.cause⟩

inductive Cell.Alike : Cell → Cell → Prop
  | intro {n width : Nat} {i j : Item} (h : i.Alike j) : Alike ⟨n, i, width⟩ ⟨r n, j, width⟩

end

theorem Cell.Alike.width_eq {r : Nat → Nat} {c c' : Cell} (h : c.Alike r c') : c'.width = c.width := by
  cases h
  rfl

def Numbered.IsNote (x : Numbered Item) : Prop := ∃ text, x.val = .note text

def Cell.IsNote (c : Cell) : Prop := (∃ text, c.item = .note text) ∧ c.width = 0

/-- The line is a note. -/
def Line.IsNote (x : Numbered Line) : Prop := ∃ text, x.val = .note text

/-- Logical lines that are alike but for notes. -/
abbrev AlikeItems (r : Nat → Nat) : List (Numbered Item) → List (Numbered Item) → Prop :=
  Aligned Numbered.IsNote Numbered.IsNote (Numbered.Alike r Item.Alike)

/-- Cells that are alike but for notes. -/
abbrev AlikeCells (r : Nat → Nat) : List Cell → List Cell → Prop := Aligned Cell.IsNote Cell.IsNote (Cell.Alike r)

/-- Laid out lines that are alike but for notes. -/
abbrev AlikeLines (r : Nat → Nat) : List (Numbered Line) → List (Numbered Line) → Prop :=
  Aligned Line.IsNote Line.IsNote (Numbered.Alike r Line.Alike)

variable {r : Nat → Nat}

theorem agrees_atLine {α β : Type} {R : α → β → Prop} {n m : Nat} {x : Except Cause α} {y : Except Cause β}
    (h : Agrees Eq R x y) (hm : m = r n) : Agrees (Diagnostic.Moved r) R (atLine n x) (atLine m y) := by
  subst hm
  cases h with
  | ok hab => exact .ok hab
  | error he =>
    subst he
    exact .error rfl

/-! ## Logical lines -/

/-- Readings of lines that are alike. -/
theorem agrees_readEach {α β γ δ : Type} {read : α → Except Cause γ} {read' : β → Except Cause δ}
    {pass : γ → Prop} {pass' : δ → Prop} {R : α → β → Prop} {S : γ → δ → Prop} {xs : List (Numbered α)}
    {ys : List (Numbered β)} (idle : α → Prop) (idle' : β → Prop)
    (h : Aligned (fun x => idle x.val) (fun y => idle' y.val) (Numbered.Alike r R) xs ys)
    (hleft : ∀ x, idle x → ∃ u, read x = .ok u ∧ pass u) (hright : ∀ y, idle' y → ∃ v, read' y = .ok v ∧ pass' v)
    (hboth : ∀ x y, R x y → Agrees Eq S (read x) (read' y)) :
    Agrees (Diagnostic.Moved r) (Aligned (fun u => pass u.val) (fun v => pass' v.val) (Numbered.Alike r S))
      (readEach read xs) (readEach read' ys) := by
  refine h.mapM (fun x hx => ?_) (fun y hy => ?_) fun x y hxy => ?_
  · obtain ⟨u, hu, hpass⟩ := hleft x.val hx
    exact ⟨⟨x.line, u⟩, by rw [hu]; rfl, hpass⟩
  · obtain ⟨v, hv, hpass⟩ := hright y.val hy
    exact ⟨⟨y.line, v⟩, by rw [hv]; rfl, hpass⟩
  · exact agrees_atLine ((hboth _ _ hxy.2).map fun _ _ huv => ⟨hxy.1, huv⟩) hxy.1

theorem agrees_expand {s s' : Statement} (h : StatementAlike s s') :
    Agrees Eq (List.Forall₂ Item.Alike) (expand s) (expand s') := by
  cases h with
  | label code => exact (Agrees.refl _).imp fun _ _ h => h ▸ List.forall₂_same.2 fun i _ => .refl i
  | call c => exact .ok (List.forall₂_same.2 fun i _ => .refl i)
  | instruction h => exact .ok (.cons (.line (.written h)) .nil)

/-- Lines that say the same, but for notes. -/
abbrev AlikeTexts (r : Nat → Nat) : List (Numbered (List Char)) → List (Numbered (List Char)) → Prop :=
  Aligned (fun x => Text.code x.val = []) (fun y => Text.code y.val = [])
    (Numbered.Alike r fun line line' => Agrees Eq StatementAlike (Statement.read line) (Statement.read line'))

theorem agrees_itemsOf {source source' : String}
    (h : AlikeTexts r (numberedLines (Source.normalizeText source.toList))
      (numberedLines (Source.normalizeText source'.toList))) :
    Agrees (Diagnostic.Moved r) (AlikeItems r) (itemsOf source) (itemsOf source') := by
  have note {line : List Char} (hline : Text.code line = []) :
      ∃ s, Statement.read line = .ok s ∧ ∃ text, s = .note text :=
    ⟨_, Statement.read_eq_ok_iff.2 (.note hline), _, rfl⟩
  have expandNote {s : Statement} (hs : ∃ text, s = .note text) :
      ∃ own, expand s = .ok own ∧ ∃ text, own = [.note text] := by
    obtain ⟨text, rfl⟩ := hs
    exact ⟨_, rfl, text, rfl⟩
  have notes {b : Numbered (List Item)} (hb : ∃ text, b.val = [.note text]) :
      ∀ x ∈ b.val.map (Numbered.mk b.line), Numbered.IsNote x := by
    obtain ⟨text, hb⟩ := hb
    simp [hb, Numbered.IsNote]
  refine (agrees_readEach (Text.code · = []) (Text.code · = []) h (fun _ => note) (fun _ => note)
    fun _ _ => id).bind fun statements statements' hs => ?_
  have hexpand := agrees_readEach (fun s : Statement => ∃ text, s = .note text)
    (fun s : Statement => ∃ text, s = .note text) hs (fun _ => expandNote) (fun _ => expandNote)
    fun _ _ => agrees_expand
  refine hexpand.bind fun blocks blocks' hb => .ok ?_
  refine hb.flatMap (fun _ => notes) (fun _ => notes) fun b b' hbb => .of_forall₂ ?_
  rw [List.forall₂_map_left_iff, List.forall₂_map_right_iff]
  exact hbb.2.imp fun _ _ hi => ⟨hbb.1, hi⟩

theorem alikeCells_start {items items' : List (Numbered Item)} (h : AlikeItems r items items') :
    AlikeCells r (items.map Cell.start) (items'.map Cell.start) := by
  have note {x : Numbered Item} (hx : x.IsNote) : (Cell.start x).IsNote := by
    obtain ⟨text, hx⟩ := hx
    exact ⟨⟨text, hx⟩, by rw [Cell.start, hx]; rfl⟩
  refine h.map (fun _ => note) (fun _ => note) fun x y hxy => ?_
  obtain ⟨n, i⟩ := x
  obtain ⟨m, j⟩ := y
  obtain ⟨rfl, hij⟩ : m = r n ∧ i.Alike j := hxy
  rw [Cell.start, Cell.start, hij.leastWidth_eq]
  exact .intro hij

/-! ## Rounds -/

section

variable {cells cells' : List Cell}

theorem AlikeCells.width_eq (h : AlikeCells r cells cells') :
    (cells'.map Cell.width).sum = (cells.map Cell.width).sum := by
  induction h with
  | nil => rfl
  | left hx _ ih => rw [ih, List.map_cons, List.sum_cons, hx.2, Nat.zero_add]
  | right hy _ ih => rw [List.map_cons, List.sum_cons, hy.2, Nat.zero_add, ih]
  | both hxy _ ih => rw [List.map_cons, List.sum_cons, ih, hxy.width_eq, List.map_cons, List.sum_cons]

/-- Alike cells stand at the same addresses. -/
theorem AlikeCells.addressed (h : AlikeCells r cells cells') (start : Nat) :
    Aligned (fun x => x.2.IsNote) (fun y => y.2.IsNote) (fun x y => y.1 = x.1 ∧ Cell.Alike r x.2 y.2)
      (addressed Cell.width start cells) (addressed Cell.width start cells') := by
  induction h generalizing start with
  | nil => exact .nil
  | left hx _ ih =>
    rw [addressed_cons, hx.2]
    exact .left hx (ih start)
  | right hy _ ih =>
    rw [addressed_cons, hy.2]
    exact .right hy (ih start)
  | both hxy _ ih =>
    rw [addressed_cons, addressed_cons, hxy.width_eq]
    exact .both ⟨rfl, hxy⟩ (ih _)

theorem bindCell_note {t : SymbolTable} {addr : Nat} {c : Cell} (hc : c.IsNote) (haddr : addr ≤ 65536) :
    bindCell t (addr, c) = .ok t := by
  obtain ⟨⟨text, hitem⟩, hw⟩ := hc
  refine bindCell_of_not_label (fun name hname => ?_) (by simpa [hw] using haddr)
  rw [hitem] at hname
  cases hname

theorem agrees_bindCell {c c' : Cell} (h : c.Alike r c') (t : SymbolTable) (addr : Nat) :
    Agrees (Diagnostic.Moved r) Eq (bindCell t (addr, c)) (bindCell t (addr, c')) := by
  obtain @⟨n, width, i, j, hij⟩ := h
  have reach : ∀ u : SymbolTable, Agrees (Diagnostic.Moved r) Eq
      (if addr + width > 65536 then throw ⟨n, .programTooLarge⟩ else pure u : Except Diagnostic SymbolTable)
      (if addr + width > 65536 then throw ⟨r n, .programTooLarge⟩ else pure u) := by
    intro u
    split
    · exact .error rfl
    · exact .ok rfl
  cases hij with
  | load => exact reach t
  | line hl =>
    cases hl with
    | written => exact reach t
    | refl =>
      rename_i l
      cases l with
      | note | written | made => exact reach t
      | label name =>
        simp only [bindCell]
        split
        · exact .error rfl
        · split
          · exact .error rfl
          · exact reach _

/-- Notes bind nothing, and cannot be out of reach where a cell before them is not. -/
theorem agrees_foldlM_bindCell (h : AlikeCells r cells cells') {start : Nat} (hstart : start ≤ 65536)
    (t : SymbolTable) : Agrees (Diagnostic.Moved r) Eq ((addressed Cell.width start cells).foldlM bindCell t)
      ((addressed Cell.width start cells').foldlM bindCell t) := by
  induction h generalizing start t with
  | nil => exact .ok rfl
  | left hx _ ih =>
    rw [addressed_cons, List.foldlM_cons, bindCell_note hx hstart, hx.2]
    exact ih hstart t
  | right hy _ ih =>
    rw [addressed_cons, List.foldlM_cons, bindCell_note hy hstart, hy.2]
    exact ih hstart t
  | @both x y xs ys hxy _ ih =>
    rw [addressed_cons, addressed_cons, List.foldlM_cons, List.foldlM_cons, hxy.width_eq]
    have hagree := agrees_bindCell hxy t start
    cases hb : bindCell t (start, x) with
    | error d =>
      obtain ⟨d', hb', hd⟩ := hagree.exists_error hb
      rw [hb']
      exact .error hd
    | ok u =>
      obtain ⟨_, hb', rfl⟩ := hagree.exists_ok hb
      rw [hb']
      exact ih (bindCell_eq_ok hb).1 _

theorem agrees_widenCell {c c' : Cell} (h : c.Alike r c') (t : SymbolTable) (addr : Nat) :
    Agrees (Diagnostic.Moved r) (Cell.Alike r) (widenCell t (addr, c)) (widenCell t (addr, c')) := by
  obtain @⟨n, width, i, j, hij⟩ := h
  cases hij with
  | line hl => exact .ok (.intro (.line hl))
  | load load =>
    refine (agrees_atLine (Agrees.refl (load.target.value t (addr + width))) rfl).bind fun value _ hv => ?_
    subst hv
    exact .ok (.intro (.load load))

theorem agrees_relax (h : AlikeCells r cells cells') :
    Agrees (Diagnostic.Moved r) (fun a b => b.1 = a.1 ∧ AlikeCells r a.2 b.2) (relax cells) (relax cells') := by
  refine (agrees_foldlM_bindCell h (Nat.zero_le _) ∅).bind fun t t' ht => ?_
  subst ht
  have note {x : Nat × Cell} (hx : x.2.IsNote) : ∃ c, widenCell t x = .ok c ∧ c.IsNote := by
    obtain ⟨addr, n, item, width⟩ := x
    obtain ⟨⟨text, rfl⟩, hw⟩ := hx
    exact ⟨_, rfl, ⟨text, rfl⟩, hw⟩
  refine ((h.addressed 0).mapM (fun _ => note) (fun _ => note) fun x y hxy => ?_).bind fun w w' hw => .ok ⟨rfl, hw⟩
  obtain ⟨addr, c⟩ := x
  obtain ⟨_, c'⟩ := y
  obtain ⟨rfl, hc⟩ := hxy
  exact agrees_widenCell hc t _

/-- A round is the last one for both or for none, as it makes both longer by as much. -/
theorem agrees_settle (h : AlikeCells r cells cells') :
    Agrees (Diagnostic.Moved r) (fun a b => b.1 = a.1 ∧ AlikeCells r a.2 b.2) (settle cells) (settle cells') := by
  induction cells using settle_induction generalizing cells' with
  | refused cells d hr =>
    obtain ⟨d', hr', hd⟩ := (agrees_relax h).exists_error hr
    rw [settle_of_relax_error hr, settle_of_relax_error hr']
    exact .error hd
  | last cells t hr =>
    obtain ⟨⟨_, widened'⟩, hr', rfl, hw⟩ := (agrees_relax h).exists_ok hr
    have hsame' : widened' = cells' := eq_of_width_eq hr' (hw.width_eq.trans h.width_eq.symm)
    rw [settle_of_relax hr, settle_of_relax hr', if_pos rfl, if_pos hsame']
    exact .ok ⟨rfl, h⟩
  | round cells t widened hr hne ih =>
    obtain ⟨⟨_, widened'⟩, hr', rfl, hw⟩ := (agrees_relax h).exists_ok hr
    have hne' : widened' ≠ cells' := by
      rintro rfl
      exact hne (eq_of_width_eq hr (hw.width_eq.symm.trans h.width_eq))
    rw [settle_of_relax hr, settle_of_relax hr', if_neg hne, if_neg hne']
    exact ih hw

end

/-! ## Laid out lines -/

theorem agrees_cellLines {c c' : Cell} (h : c.Alike r c') (t : SymbolTable) (addr : Nat) :
    Agrees Eq (List.Forall₂ Line.Alike) (cellLines t addr c) (cellLines t addr c') := by
  obtain @⟨n, width, i, j, hij⟩ := h
  cases hij with
  | line hl => exact .ok (.cons hl .nil)
  | load load => exact (Agrees.refl _).imp fun _ _ h => h ▸ List.forall₂_same.2 fun l _ => .refl l

theorem agrees_ofItems {items items' : List (Numbered Item)} (h : AlikeItems r items items') :
    Agrees (Diagnostic.Moved r) (fun l l' => l'.symbols = l.symbols ∧ AlikeLines r l.lines l'.lines)
      (Layout.ofItems items) (Layout.ofItems items') := by
  refine (agrees_settle (alikeCells_start h)).bind fun settled settled' hs => ?_
  obtain ⟨t, cells⟩ := settled
  obtain ⟨t', cells'⟩ := settled'
  obtain ⟨rfl, hcells⟩ : t' = t ∧ AlikeCells r cells cells' := hs
  have note {x : Nat × Cell} (hx : x.2.IsNote) : ∃ block,
      atLine x.2.line ((cellLines t' x.1 x.2).map (List.map (Numbered.mk x.2.line))) = .ok block ∧
        ∀ y ∈ block, Line.IsNote y := by
    obtain ⟨addr, n, item, width⟩ := x
    obtain ⟨⟨text, rfl⟩, -⟩ := hx
    exact ⟨_, rfl, by simp [Line.IsNote]⟩
  have alike {x y : Nat × Cell} (hxy : y.1 = x.1 ∧ Cell.Alike r x.2 y.2) :
      Agrees (Diagnostic.Moved r) (List.Forall₂ (Numbered.Alike r Line.Alike))
        (atLine x.2.line ((cellLines t' x.1 x.2).map (List.map (Numbered.mk x.2.line))))
        (atLine y.2.line ((cellLines t' y.1 y.2).map (List.map (Numbered.mk y.2.line)))) := by
    obtain ⟨addr, c⟩ := x
    obtain ⟨_, c'⟩ := y
    obtain ⟨rfl, hc⟩ := hxy
    have hline : c'.line = r c.line := by
      cases hc
      rfl
    refine agrees_atLine ((agrees_cellLines hc t' _).map fun lines lines' hl => ?_) hline
    rw [List.forall₂_map_left_iff, List.forall₂_map_right_iff]
    exact hl.imp fun _ _ h => ⟨hline, h⟩
  refine ((hcells.addressed 0).mapM (fun _ => note) (fun _ => note) fun _ _ => alike).bind
    fun blocks blocks' hb => .ok ⟨rfl, ?_⟩
  have hflat : AlikeLines r (blocks.flatMap id) (blocks'.flatMap id) :=
    hb.flatMap (fun _ => id) (fun _ => id) fun _ _ => .of_forall₂
  simpa only [List.flatMap_id] using hflat

/-! ## Code -/

/-- The same instructions, on the lines that `r` gives. -/
def Code.Moved (r : Nat → Nat) (c c' : Code) : Prop :=
  c'.entries.toList = c.entries.toList.map fun e => ⟨r e.line, e.val⟩

theorem Code.Moved.size_eq {c c' : Code} (h : c.Moved r c') : c'.size = c.size := by
  rw [Code.size, ← Array.length_toList, h, List.length_map, Array.length_toList, Code.size]

theorem append_of_full {c : Code} {n : Nat} {read : Nat → Except Cause Instruction} (h : ¬ c.size < 65536) :
    c.append n read = .error ⟨n, .programTooLarge⟩ := by
  unfold Code.append
  rw [dif_neg (show ¬ c.entries.size < 65536 from h)]
  rfl

theorem agrees_append {c c' : Code} (h : c.Moved r c') (n : Nat) {read read' : Nat → Except Cause Instruction}
    (hread : ∀ pc, read' pc = read pc) :
    Agrees (Diagnostic.Moved r) (Code.Moved r) (c.append n read) (c'.append (r n) read') := by
  by_cases hlt : c.size < 65536
  · have hlt' : c'.size < 65536 := by rwa [h.size_eq]
    cases hi : read c.size with
    | error cause =>
      rw [append_error hlt hi, append_error hlt' (by rw [hread, h.size_eq, hi])]
      exact .error rfl
    | ok i =>
      obtain ⟨d, hd, hentries⟩ := append_of_read (n := n) hlt hi
      obtain ⟨d', hd', hentries'⟩ := append_of_read (n := r n) hlt' (show read' c'.size = .ok i by
        rw [hread, h.size_eq, hi])
      rw [hd, hd']
      refine .ok ?_
      rw [Code.Moved, hentries', hentries, h, List.map_append]
      rfl
  · rw [append_of_full hlt, append_of_full (by rwa [h.size_eq])]
    exact .error rfl

theorem agrees_appendLine {t : SymbolTable} {c c' : Code} (h : c.Moved r c') {x y : Numbered Line}
    (hxy : Numbered.Alike r Line.Alike x y) :
    Agrees (Diagnostic.Moved r) (Code.Moved r) (c.appendLine t x) (c'.appendLine t y) := by
  obtain ⟨n, l⟩ := x
  obtain ⟨m, l'⟩ := y
  obtain ⟨rfl, hl⟩ := hxy
  cases hl with
  | written hread =>
    rw [Code.appendLine, Code.appendLine]
    exact agrees_append h n fun pc => hread t pc
  | refl =>
    cases l with
    | note | label => exact .ok h
    | made | written =>
      rw [Code.appendLine, Code.appendLine]
      exact agrees_append h n fun _ => rfl

theorem agrees_foldlM_appendLine {t : SymbolTable} {lines lines' : List (Numbered Line)} (h : AlikeLines r lines lines')
    {c c' : Code} (hc : c.Moved r c') : Agrees (Diagnostic.Moved r) (Code.Moved r)
      (lines.foldlM (Code.appendLine t) c) (lines'.foldlM (Code.appendLine t) c') := by
  have note {x : Numbered Line} (hx : Line.IsNote x) : x.val.width = 0 := by
    obtain ⟨text, hx⟩ := hx
    rw [hx]
    rfl
  induction h generalizing c c' with
  | nil => exact .ok hc
  | left hx _ ih =>
    rw [List.foldlM_cons, appendLine_of_silent (note hx)]
    exact ih hc
  | right hy _ ih =>
    rw [List.foldlM_cons, appendLine_of_silent (note hy)]
    exact ih hc
  | both hxy _ ih =>
    rw [List.foldlM_cons, List.foldlM_cons]
    exact (agrees_appendLine hc hxy).bind fun _ _ => ih

/-! ## Sources -/

/-- The same machine code and labels, with the lines renumbered by `r`. -/
structure Moved (r : Nat → Nat) (a b : Assembly) : Prop where
  hex_eq : b.hex = a.hex
  symbols_eq : b.symbols = a.symbols
  lineMap_eq : b.lineMap.toList = a.lineMap.toList.map r

theorem agrees_assemble {source source' : String}
    (h : AlikeTexts r (numberedLines (Source.normalizeText source.toList))
      (numberedLines (Source.normalizeText source'.toList))) :
    Agrees (Diagnostic.Moved r) (Moved r) (assemble source) (assemble source') := by
  refine (agrees_itemsOf h).bind fun items items' hitems => (agrees_ofItems hitems).bind fun l l' ⟨ht, hlines⟩ => ?_
  have hcode : Agrees (Diagnostic.Moved r) (Code.Moved r) (Code.ofLayout l) (Code.ofLayout l') := by
    rw [Code.ofLayout, Code.ofLayout, ht]
    exact agrees_foldlM_appendLine hlines rfl
  refine hcode.bind fun c c' hc => .ok ⟨?_, ht, ?_⟩
  · have hwords : c'.words.toList = c.words.toList := by
      rw [Code.words, Array.toList_map, hc, List.map_map, Code.words, Array.toList_map]
      rfl
    have hprogram : c'.program = c.program := by
      unfold Code.program
      congr 1
      exact Array.toList_inj.1 hwords
    rw [hex, hex, program, program, hprogram]
  · rw [lineMap, Code.lineMap, Array.toList_map, hc, List.map_map, lineMap, Code.lineMap, Array.toList_map,
      List.map_map]
    rfl

end Assembly

end Isa16
