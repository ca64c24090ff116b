import Isa16.Memory.Image
import Isa16.Proofs.Program
import Isa16.Proofs.Text
/-!
# What an image stores

The lines of an image come to a list of words with their addresses
(`ImageLine.stores`), which does not depend on the memory, and loading the image
stores these one after the other, whether it ends at a fault or not
(`loadImage_eq_stores`). A comment stores nothing and a word in four digits
stores itself, so an image of words behind comments has them from the cursor on
(`follow_words`).
-/

namespace Isa16

/-! ## Lines -/

theorem Text.startsComment_trim {line : List Char} (h : startsComment line) : startsComment (trim line) := by
  obtain ⟨rest, rfl⟩ := startsComment_iff.1 h
  have hslash : isBlank '/' = false := by decide
  refine startsComment_iff.2 ⟨trimEnd rest, ?_⟩
  rw [trim, trimStart_cons_of_not_blank hslash]
  by_cases hrest : rest.reverse.dropWhile isBlank = [] <;>
    simp [trimEnd, List.dropWhile_append, hrest, hslash]

namespace ImageLine

theorem read_of_comment {line : List Char} (h : Text.startsComment line) : read line = .nothing := by
  simp only [read, Text.startsComment_trim h, if_true]

/-- The digits of a word are two pairs. -/
theorem groups_two (w : UInt16) : (Text.Hex.groups 2 (Text.Hex.fixed Text.Hex.upperDigit 4 w.toNat)).toList =
    [w.toNat / 256, w.toNat % 256] := by
  have hlt := w.toNat_lt
  have hdigit : ∀ n, Text.digit? 16 (Text.Hex.upperDigit (n % 16)) = some (n % 16) := fun n =>
    Text.Hex.digit?_upperDigit (Nat.mod_lt n (by decide))
  simp only [Text.Hex.groups, Text.Hex.Scan.start, Text.Hex.fixed, List.nil_append, List.cons_append, List.foldl_cons,
    List.foldl_nil, Text.Hex.Scan.next, hdigit, Nat.reduceAdd, Nat.reduceEqDiff, if_false, if_true]
  simp only [List.push_toArray, List.nil_append, List.cons_append, List.cons.injEq, and_true]
  omega

theorem read_word (w : UInt16) : read (Text.Hex.fixed Text.Hex.upperDigit 4 w.toNat) = .store w := by
  have hall : ∀ d : Fin 16, Text.isBlank (Text.Hex.upperDigit d) = false ∧ Text.Hex.upperDigit d ≠ '/' ∧
      Text.Hex.upperDigit d ≠ '@' := by decide
  have hdigit {c : Char} (hc : c ∈ Text.Hex.fixed Text.Hex.upperDigit 4 w.toNat) :
      Text.isBlank c = false ∧ c ≠ '/' ∧ c ≠ '@' := by
    obtain ⟨d, rfl⟩ := Text.Hex.mem_fixed hc
    exact hall d
  have hgroups := groups_two w
  have hlength : (Text.Hex.fixed Text.Hex.upperDigit 4 w.toNat).length = 4 := Text.Hex.length_fixed ..
  generalize Text.Hex.fixed Text.Hex.upperDigit 4 w.toNat = line at hdigit hgroups hlength
  have htrim : Text.trim line = line :=
    Text.trim_of_not_blank (fun c hc => (hdigit (List.mem_of_mem_head? hc)).1)
      fun c hc => (hdigit (List.mem_of_mem_getLast? hc)).1
  have hcomment : Text.startsComment line = false := by
    rw [Bool.eq_false_iff]
    intro hs
    obtain ⟨rest, rfl⟩ := Text.startsComment_iff.1 hs
    exact (hdigit (List.mem_cons_self ..)).2.1 rfl
  simp only [read, htrim, hcomment, Bool.false_eq_true, if_false]
  split
  · exact absurd rfl (hdigit (List.mem_cons_self ..)).2.2
  · rw [hgroups, ofPairs, Nat.div_add_mod, UInt16.ofNat_toNat]

/-! ## Stores -/

/-- The words that lines store and their addresses, in order, up to the first line that is wrong. -/
def stores (cursor : Nat) : List ImageLine → List (UInt16 × UInt16)
  | [] | .badAddress _ :: _ => []
  | .nothing :: rest => stores cursor rest
  | .seek addr :: rest => stores addr.toNat rest
  | .store word :: rest =>
    if cursor < 65536 then (UInt16.ofNat cursor, word) :: stores (cursor + 1) rest else []

end ImageLine

namespace DataMemory

/-- Stores words one after the other. -/
def setWords (m : DataMemory) (words : List (UInt16 × UInt16)) : DataMemory :=
  words.foldl (fun m (addr, value) => m.setWord addr value) m

theorem follow_eq_stores (m : DataMemory) (cursor number : Nat) (lines : List ImageLine) :
    (m.follow cursor number lines).1 = m.setWords (ImageLine.stores cursor lines) := by
  induction lines generalizing m cursor number with
  | nil => rfl
  | cons line lines ih =>
    cases line with
    | nothing => exact ih ..
    | seek addr => exact ih ..
    | badAddress text => rfl
    | store word =>
      rw [follow, ImageLine.stores]
      split
      · exact ih ..
      · rfl

/-- Loading an image leaves what its lines store, in a memory that was cleared. -/
theorem loadImage_eq_stores (m : DataMemory) (text : String) :
    (m.loadImage text).1 = empty.setWords (ImageLine.stores 0 ((Text.lines text.toList).map ImageLine.read)) := by
  rw [loadImage, follow_eq_stores, clear_eq_empty]

theorem follow_nothing (m : DataMemory) (cursor number : Nat) {notes : List ImageLine}
    (h : ∀ l ∈ notes, l = .nothing) (rest : List ImageLine) :
    m.follow cursor number (notes ++ rest) = m.follow cursor (number + notes.length) rest := by
  induction notes generalizing number with
  | nil => rfl
  | cons note notes ih =>
    obtain ⟨rfl, hnotes⟩ := List.forall_mem_cons.1 h
    rw [List.cons_append, follow, ih _ hnotes, List.length_cons, Nat.add_right_comm, Nat.add_assoc]

/-- Words that fit are stored from the cursor on, and the other words stay. -/
theorem follow_words (m : DataMemory) {cursor : Nat} (number : Nat) {ws : List UInt16}
    (h : cursor + ws.length ≤ 65536) :
    ∃ m', m.follow cursor number (ws.map .store) = (m', none) ∧ ∀ addr, m'.word addr =
      if cursor ≤ addr.toNat then ws[addr.toNat - cursor]?.getD (m.word addr) else m.word addr := by
  induction ws generalizing m cursor number with
  | nil => exact ⟨m, rfl, fun addr => by simp⟩
  | cons w ws ih =>
    rw [List.length_cons] at h
    have hlt : cursor < 65536 := by omega
    have hrest : cursor + 1 + ws.length ≤ 65536 := by omega
    obtain ⟨m', hm', hword⟩ := ih (m.setWord (UInt16.ofNat cursor) w) (number + 1) hrest
    refine ⟨m', by rw [List.map_cons, follow, if_pos hlt, hm'], fun addr => ?_⟩
    have haddr : addr = UInt16.ofNat cursor ↔ addr.toNat = cursor := by
      rw [← UInt16.toNat_inj, UInt16.toNat_ofNat_of_lt' hlt]
    rw [hword, word_setWord]
    rcases Nat.lt_trichotomy addr.toNat cursor with hbefore | hsame | hbehind
    · rw [if_neg (by omega), if_neg (mt haddr.1 (by omega)), if_neg (by omega)]
    · rw [if_neg (by omega), if_pos (haddr.2 hsame), if_pos (by omega), hsame, Nat.sub_self]
      rfl
    · have hnext : addr.toNat - cursor = addr.toNat - (cursor + 1) + 1 := by omega
      rw [if_pos (by omega), if_neg (mt haddr.1 (by omega)), if_pos (by omega), hnext, List.getElem?_cons_succ]

end DataMemory

end Isa16
