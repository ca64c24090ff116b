import Mathlib.Data.List.Pairwise
import Isa16.Proofs.Assembly.Sections
import Isa16.Proofs.Machine.Run
/-!
# Addresses, labels and line numbers agree

Several walks over a source count addresses: for the labels, for the widths of
loads, for the laid out lines and for the words. `Consistent` says that they
all count the same, in terms of the line map, and this is so for every source
that is accepted.
-/

namespace Isa16

open Isa16.Assembly (constant)
open Isa16.Source (Statement MacroCall)

/-- How many instructions a line can have, by what it says. -/
def Source.Statement.CanFill : Statement → Nat → Prop
  | .note _, count | .label _, count => count = 0
  | .instruction _, count => count = 1
  | .call (.load _ value), count => count = (constant value).length
  | .call (.loadSymbol _ _), count => 1 ≤ count ∧ count ≤ 19
  | .call .initStack, count => count = 1
  | .call (.call _), count => 4 ≤ count ∧ count ≤ 22
  | .call .ret, count => count = 3

/-- Line `n` of a source is the label `name`. -/
def Source.HasLabel (source : String) (n : Nat) (name : String) : Prop :=
  ∃ code : String, Source.Holds source n (.label code) ∧ Source.labelName? code.toList = some name

namespace Assembly

/-! ## Labels of a source -/

theorem hasLabel_of_mem {source : String} {items : List (Numbered Item)} (hitems : itemsOf source = .ok items)
    {x : Numbered Item} (hx : x ∈ items) {name : String} (hname : x.val = .line (.label name)) :
    Source.HasLabel source x.line name := by
  obtain ⟨s, hs, hstems⟩ := stems_of_item hitems hx
  rw [hname] at hstems
  cases hstems with
  | label hlabel => exact ⟨_, hs, hlabel⟩

/-- The logical line of a label stands between those of smaller and of larger numbers. -/
theorem items_of_hasLabel {source : String} {items : List (Numbered Item)} (hitems : itemsOf source = .ok items)
    {n : Nat} {name : String} (hl : Source.HasLabel source n name) :
    ∃ pre post, items = pre ++ ⟨n, .line (.label name)⟩ :: post ∧ (∀ x ∈ pre, x.line < n) ∧
      ∀ x ∈ post, n < x.line := by
  obtain ⟨code, ⟨line, hline, hs⟩, hname⟩ := hl
  have hne : line ≠ [] := by
    rintro rfl
    cases hs with
    | label hc => cases hc
  obtain ⟨own, pre, post, hown, hitems, hpre, hpost⟩ := items_at hitems hline hne hs
  simp only [expand, hname] at hown
  cases hown
  exact ⟨pre, post, hitems, hpre, hpost⟩

theorem mem_items_of_hasLabel {source : String} {items : List (Numbered Item)} (hitems : itemsOf source = .ok items)
    {n : Nat} {name : String} (hl : Source.HasLabel source n name) : ⟨n, .line (.label name)⟩ ∈ items := by
  obtain ⟨pre, post, rfl, -, -⟩ := items_of_hasLabel hitems hl
  simp

/-- Where no label is twice, it is on one line. -/
theorem line_unique {xs : List (Numbered Item)}
    (h : xs.Pairwise fun x y => ∀ name, x.val = .line (.label name) → y.val ≠ .line (.label name)) {n k : Nat}
    {name : String} (hn : ⟨n, .line (.label name)⟩ ∈ xs) (hk : ⟨k, .line (.label name)⟩ ∈ xs) : n = k := by
  have : Std.Symm fun x y : Numbered Item =>
      ∀ name, x.val = .line (.label name) → y.val ≠ .line (.label name) := ⟨fun _ _ h name hy hx => h name hx hy⟩
  by_contra hne
  exact h.forall hn hk (fun e => hne (congrArg Numbered.line e)) name rfl rfl

/-- A label that two lines have is that of one line. -/
theorem eq_of_hasLabel {source : String} {items : List (Numbered Item)} {symbols : SymbolTable} {cells : List Cell}
    (hitems : itemsOf source = .ok items) (hsettled : Settled items symbols cells) {n k : Nat} {name : String}
    (hn : Source.HasLabel source n name) (hk : Source.HasLabel source k name) : n = k :=
  line_unique hsettled.labels_distinct (mem_items_of_hasLabel hitems hn) (mem_items_of_hasLabel hitems hk)

/-! ## Lines -/

section

variable {source : String} {a : Assembly} (h : assemble source = .ok a) {n : Nat}

include h

theorem canFill_count {s : Statement} (hs : Source.Holds source n s) : s.CanFill (a.lineMap.count n) := by
  match s, hs with
  | .note _, hs => exact (code_of_note h hs).count
  | .label _, hs =>
    obtain ⟨_, _, hcode, _⟩ := code_of_label h hs
    exact hcode.count
  | .instruction _, hs =>
    obtain ⟨i, -, hcode⟩ := code_of_instruction h hs
    exact hcode.count
  | .call (.load _ _), hs => exact (code_of_load h hs).count.trans (List.length_map ..)
  | .call (.loadSymbol _ _), hs =>
    obtain ⟨value, width, -, hfit, hw, hcode⟩ := code_of_loadSymbol h hs
    have hpos := List.length_pos_of_ne_nil (constant_ne_nil value)
    rw [hcode.count, length_loadCode hfit]
    exact ⟨by omega, hw⟩
  | .call .initStack, hs => exact (code_of_initStack h hs).count
  | .call (.call _), hs =>
    obtain ⟨value, width, -, hfit, hw, hcode⟩ := code_of_call h hs
    have hpos := List.length_pos_of_ne_nil (constant_ne_nil value)
    rw [hcode.count, List.length_append, length_loadCode hfit]
    exact ⟨by change 4 ≤ width + 3; omega, by change width + 3 ≤ 22; omega⟩
  | .call .ret, hs => exact (code_of_ret h hs).count

theorem lineMap_sorted : a.lineMap.toList.Pairwise (· ≤ ·) := by
  obtain ⟨items, _, hitems, -, henc⟩ := encodes_of_assemble h
  rw [toList_lineMap]
  exact List.pairwise_map.2 (henc.sorted (items_sorted hitems))

theorem line_of_mem_lineMap (hn : n ∈ a.lineMap) : 1 ≤ n ∧ n ≤ (Text.lines source.toList).length := by
  obtain ⟨items, _, hitems, -, henc⟩ := encodes_of_assemble h
  rw [← Array.mem_toList_iff, toList_lineMap] at hn
  obtain ⟨e, he, rfl⟩ := List.mem_map.1 hn
  obtain ⟨x, hx, hline, -⟩ := henc.origin he
  obtain ⟨_, _, ⟨line, hl, -⟩, -⟩ := origin_of_item hitems hx
  exact Source.bounds_of_line? (hline ▸ hl)

/-! ## The table of labels -/

theorem symbol_of_label {name : String} (hl : Source.HasLabel source n name) :
    ∃ addr, a.symbols[name]? = some addr ∧ addr.toNat = a.addressOf n := by
  obtain ⟨code, hs, hname⟩ := hl
  obtain ⟨other, hother, -, hlt, haddr⟩ := code_of_label h hs
  rw [hname] at hother
  cases hother
  exact ⟨_, haddr, UInt16.toNat_ofNat_of_lt' hlt⟩

theorem mem_symbols_iff (name : String) : name ∈ a.symbols ↔ ∃ n, Source.HasLabel source n name := by
  constructor
  · intro hname
    obtain ⟨items, _, hitems, hsettled, -⟩ := encodes_of_assemble h
    obtain ⟨x, hx, hval⟩ := (hsettled.mem_symbols_iff name).1 hname
    exact ⟨x.line, hasLabel_of_mem hitems hx hval⟩
  · rintro ⟨n, hl⟩
    obtain ⟨addr, haddr, -⟩ := symbol_of_label h hl
    rw [Std.TreeMap.mem_iff_isSome_getElem?, haddr]
    rfl

end

end Assembly

/-! ## Agreement -/

/-- What an assembled source says of itself fits together. -/
structure Consistent (source : String) (a : Assembly) : Prop where
  length_hex : a.hex.length = 4 * a.lineMap.size
  ofHex_hex : Program.ofHex a.hex = a.program
  size_words : a.program.words.size = a.lineMap.size
  sorted : a.lineMap.toList.Pairwise (· ≤ ·)
  line_exists : ∀ n, n ∈ a.lineMap → 1 ≤ n ∧ n ≤ (Text.lines source.toList).length
  /-- Every line says something, and that tells how many entries of the line map it has. -/
  line_holds : ∀ n, 1 ≤ n → n ≤ (Text.lines source.toList).length → ∃ s, Source.Holds source n s
  count_line : ∀ n s, Source.Holds source n s → s.CanFill (a.lineMap.count n)
  /-- The table has the names of all lines that are labels, and no others. -/
  label_named : ∀ n code, Source.Holds source n (.label code) → ∃ name, Source.HasLabel source n name
  mem_symbols_iff : ∀ name, name ∈ a.symbols ↔ ∃ n, Source.HasLabel source n name
  label_unique : ∀ n k name, Source.HasLabel source n name → Source.HasLabel source k name → n = k
  label_address : ∀ n name, Source.HasLabel source n name →
    ∃ addr, a.symbols[name]? = some addr ∧ addr.toNat = a.lineMap.countP (· < n)
  sourceLine_isSome_iff : ∀ pc, (a.sourceLine? pc).isSome ↔ pc.toNat < a.lineMap.size
  /-- A machine that runs the program never carries out an instruction without a source line. -/
  traced : ∀ m : Machine, m.program = a.program → ∀ n t, (m.stepAt n).trace? = some t → (a.sourceLine? t.pc).isSome

theorem consistent_of_assemble {source : String} {a : Assembly} (h : assemble source = .ok a) :
    Consistent source a := by
  obtain ⟨items, _, hitems, hsettled, -⟩ := Assembly.encodes_of_assemble h
  have hsize : a.program.words.size = a.lineMap.size := by rw [a.size_words, a.size_lineMap]
  have hsome : ∀ pc, (a.sourceLine? pc).isSome ↔ pc.toNat < a.lineMap.size := by
    intro pc
    simp [Assembly.sourceLine?]
  refine ⟨?_, Program.ofHex_toHex _, hsize, Assembly.lineMap_sorted h, fun n => Assembly.line_of_mem_lineMap h,
    fun n hn hle => ?_, fun n s => Assembly.canFill_count h, fun n code hs => ?_, Assembly.mem_symbols_iff h,
    fun n k name => Assembly.eq_of_hasLabel hitems hsettled, fun n name => Assembly.symbol_of_label h, hsome,
    fun m hm n t ht => ?_⟩
  · rw [Assembly.hex, Program.length_toHex, hsize]
  · obtain ⟨k, rfl⟩ := Nat.exists_eq_add_of_le' hn
    exact Assembly.holds_of_line hitems (n := k + 1) (by rw [Source.line?, List.getElem?_eq_getElem hle]; rfl)
  · obtain ⟨name, hname, -⟩ := Assembly.code_of_label h hs
    exact ⟨name, code, hs, hname⟩
  · have hlt := (Machine.pc_of_trace ht).2
    rw [Machine.program_after, hm, Program.size, hsize] at hlt
    exact (hsome t.pc).2 hlt

/-- A source with a line of every kind. -/
theorem consistent_of_every_kind :
    ∃ a, assemble "// sum\n.a:\n%ISTK\n%SLDI r1,700\n%SLDI r2,.a\n%CALL r2\nadd r1,r1,r2\n%RET" = .ok a ∧
      Consistent "// sum\n.a:\n%ISTK\n%SLDI r1,700\n%SLDI r2,.a\n%CALL r2\nadd r1,r1,r2\n%RET" a := by
  obtain ⟨a, ha, -⟩ := exists_ok_of_any
    (x := assemble "// sum\n.a:\n%ISTK\n%SLDI r1,700\n%SLDI r2,.a\n%CALL r2\nadd r1,r1,r2\n%RET")
    (p := fun _ => true) (by decide +kernel)
  exact ⟨a, ha, consistent_of_assemble ha⟩

end Isa16
