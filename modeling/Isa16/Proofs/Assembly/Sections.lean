import Isa16.Proofs.Assembly.Code
import Isa16.Proofs.Program
/-!
# Where lines stand in the program

The instructions of a source line stand together in the program. They begin at
the number of instructions that belong to earlier lines (`addressOf`) and end
at the number that belong to lines up to this one (`addressBehind`), so the
line map alone tells where a line is. `CodeOf` names the instructions of a
line, and the lemmas below say what they are for each kind of statement.
-/

namespace Isa16.Assembly

open Isa16.Source (Statement MacroCall)

/-- How many instructions belong to lines before line `n`. -/
def addressOf (a : Assembly) (n : Nat) : Nat := a.lineMap.countP (· < n)

/-- How many instructions belong to lines up to line `n`. -/
def addressBehind (a : Assembly) (n : Nat) : Nat := a.lineMap.countP (· ≤ n)

/-- The instructions of line `n`, which stand at the address of the line. -/
structure CodeOf (a : Assembly) (n : Nat) (code : List Instruction) : Prop where
  hasCode : a.program.HasCode (a.addressOf n) code
  count : a.lineMap.count n = code.length

/-! ## Counting lines -/

theorem toList_lineMap (a : Assembly) : a.lineMap.toList = a.code.entries.toList.map (·.line) := by
  simp [lineMap, Code.lineMap]

theorem size_lineMap (a : Assembly) : a.lineMap.size = a.size := by
  simp [lineMap, Code.lineMap, size, Code.size]

theorem size_words (a : Assembly) : a.program.words.size = a.size := by
  simp [program, Code.program, Code.words, size, Code.size]

theorem size_le (a : Assembly) : a.size ≤ 65536 := a.code.size_le

theorem countP_le_eq (xs : List Nat) (n : Nat) : xs.countP (· ≤ n) = xs.countP (· < n) + xs.count n := by
  induction xs with
  | nil => rfl
  | cons x xs ih =>
    simp only [List.countP_cons, List.count_cons, decide_eq_true_eq, beq_iff_eq, ih]
    split <;> split <;> split <;> omega

theorem addressBehind_eq (a : Assembly) (n : Nat) : a.addressBehind n = a.addressOf n + a.lineMap.count n := by
  simp only [addressBehind, addressOf, ← Array.countP_toList, ← Array.count_toList]
  exact countP_le_eq ..

theorem addressBehind_le_size (a : Assembly) (n : Nat) : a.addressBehind n ≤ a.size := by
  rw [← size_lineMap]
  exact Array.countP_le_size

theorem CodeOf.behind {a : Assembly} {n : Nat} {code : List Instruction} (h : a.CodeOf n code) :
    a.addressBehind n = a.addressOf n + code.length := by
  rw [addressBehind_eq, h.count]

/-- Where the entries of line `n` stand, given those of the lines before and behind it. -/
theorem codeOf_of_entries {a : Assembly} {n : Nat} {pre post : List (Numbered Instruction)}
    {code : List Instruction} (h : a.code.entries.toList = pre ++ (code.map (⟨n, ·⟩) ++ post))
    (hpre : ∀ e ∈ pre, e.line < n) (hpost : ∀ e ∈ post, n < e.line) :
    a.addressOf n = pre.length ∧ a.CodeOf n code := by
  have hlines : a.lineMap.toList = pre.map (·.line) ++ (List.replicate code.length n ++ post.map (·.line)) := by
    rw [toList_lineMap, h]
    simp [Function.comp_def]
  have haddr : a.addressOf n = pre.length := by
    have hp : pre.countP (·.line < n) = pre.length := List.countP_eq_length.2 (by simpa using hpre)
    have hq : post.countP (·.line < n) = 0 :=
      List.countP_eq_zero.2 fun e he => by simpa using Nat.le_of_lt (hpost e he)
    rw [addressOf, ← Array.countP_toList, hlines]
    simp only [List.countP_append, List.countP_map, Function.comp_def, List.countP_replicate, hp, hq]
    simp
  refine ⟨haddr, ?_, ?_⟩
  · intro k i hi
    have hk := (List.getElem?_eq_some_iff.1 hi).1
    have hwords : a.program.words.toList = a.code.entries.toList.map (·.val.word) := by
      simp [program, Code.program, Code.words]
    rw [haddr, ← Array.getElem?_toList, hwords, h, List.getElem?_map, List.getElem?_append_right (by omega),
      Nat.add_sub_cancel_left, List.getElem?_append_left (by simpa using hk), List.getElem?_map, hi]
    rfl
  · have hp : pre.countP (·.line == n) = 0 :=
      List.countP_eq_zero.2 fun e he => by simpa using Nat.ne_of_lt (hpre e he)
    have hq : post.countP (·.line == n) = 0 :=
      List.countP_eq_zero.2 fun e he => by simpa using (Nat.ne_of_lt (hpost e he)).symm
    rw [← Array.count_toList, hlines]
    simp only [List.count_append, List.count_replicate_self]
    rw [List.count_eq_countP, List.count_eq_countP, List.countP_map, List.countP_map]
    simp only [Function.comp_def, hp, hq]
    omega

/-! ## The code of a line -/

/-- Every line of an assembled source has code, and it is what its statement comes to there. -/
theorem code_of_line {source : String} {a : Assembly} (h : assemble source = .ok a) {n : Nat} {s : Statement}
    (hs : Source.Holds source n s) :
    ∃ own es, expand s = .ok own ∧ Encodes a.symbols (a.addressOf n) (own.map (⟨n, ·⟩)) es ∧
      a.CodeOf n (es.map (·.val)) := by
  obtain ⟨items, _, hitems, -, henc⟩ := encodes_of_assemble h
  obtain ⟨line, hl, hs⟩ := hs
  by_cases hne : line = []
  · -- The normal form may lack an empty line, so it is only known that no entry has its number.
    subst hne
    cases hs with
    | note _ =>
      refine ⟨_, [], rfl, .note .nil, fun _ _ hi => by simp at hi, ?_⟩
      rw [← Array.count_toList, toList_lineMap, List.map_nil, List.length_nil, List.count_eq_zero]
      intro hn
      obtain ⟨e, he, rfl⟩ := List.mem_map.1 hn
      obtain ⟨x, hx, hline, hnote, -⟩ := henc.origin he
      obtain ⟨text, htext⟩ := note_of_empty_line hitems hx (hline ▸ hl)
      exact hnote text htext
    | label hc | call hc _ | instruction hc _ _ => cases hc
  · obtain ⟨own, pre, post, hown, rfl, hpre, hpost⟩ := items_at hitems hl hne hs
    -- The code falls into three parts as the logical lines do, each with the numbers of its lines.
    obtain ⟨us, _, hes, hus, hrest⟩ := henc.split
    obtain ⟨mid, vs, rfl, hmid, hvs⟩ := hrest.split
    have hmidLine : ∀ e ∈ mid, e.line = n := by
      intro e he
      obtain ⟨x, hx, hline, -⟩ := hmid.origin he
      obtain ⟨_, -, rfl⟩ := List.mem_map.1 hx
      exact hline.symm
    have hmidEq : (mid.map (·.val)).map (⟨n, ·⟩) = mid := by
      rw [List.map_map]
      exact (List.map_congr_left fun e he => by simp [← hmidLine e he]).trans (List.map_id mid)
    obtain ⟨haddr, hcode⟩ := @codeOf_of_entries a n us vs (mid.map (·.val)) (by rw [hes, hmidEq])
      (fun e he => by obtain ⟨x, hx, hline, -⟩ := hus.origin he; exact hline ▸ hpre x hx)
      (fun e he => by obtain ⟨x, hx, hline, -⟩ := hvs.origin he; exact hline ▸ hpost x hx)
    rw [Nat.zero_add, ← haddr] at hmid
    exact ⟨own, mid, hown, hmid, hcode⟩

/-! ## The code of each kind of line -/

/-- Made lines between two notes come to their instructions. -/
theorem Encodes.bracket_made {symbols : SymbolTable} {addr n : Nat} {call : String} {is : List Instruction}
    {es : List (Numbered Instruction)}
    (h : Encodes symbols addr ((bracket call (is.map .made)).map (⟨n, ·⟩)) es) : es.map (·.val) = is := by
  simp only [bracket, Item.note, List.cons_append, List.map_cons, List.map_append, List.map_map] at h
  cases h with
  | note h =>
    induction is generalizing addr es with
    | nil =>
      cases h with
      | note h => cases h; rfl
    | cons i is ih =>
      cases h with
      | made h => rw [List.map_cons, ih h]

section

variable {source : String} {a : Assembly} (h : assemble source = .ok a) {n : Nat}

include h

theorem code_of_load {r : Reg} {value : UInt16} (hs : Source.Holds source n (.call (.load r value))) :
    a.CodeOf n ((constant value).map (·.instruction r)) := by
  obtain ⟨own, es, hown, henc, hcode⟩ := code_of_line h hs
  cases hown
  rw [expandCall, show (constant value).map (fun s => Item.made (s.instruction r)) =
    ((constant value).map (·.instruction r)).map .made by simp] at henc
  rwa [henc.bracket_made] at hcode

theorem code_of_initStack (hs : Source.Holds source n (.call .initStack)) :
    a.CodeOf n [⟨.xor, stackReg, stackReg, stackReg⟩] := by
  obtain ⟨own, es, hown, henc, hcode⟩ := code_of_line h hs
  cases hown
  rwa [show es.map (·.val) = [_] from henc.bracket_made] at hcode

theorem code_of_ret (hs : Source.Holds source n (.call .ret)) : a.CodeOf n returnSequence := by
  obtain ⟨own, es, hown, henc, hcode⟩ := code_of_line h hs
  cases hown
  rwa [henc.bracket_made] at hcode

/-- A load of a label fills a width with the address that the label has in the end. -/
theorem code_of_loadSymbol {r : Reg} {name : String} (hs : Source.Holds source n (.call (.loadSymbol r name))) :
    ∃ value width, a.symbols[name]? = some value ∧ (constant value).length ≤ width ∧ width ≤ 19 ∧
      a.CodeOf n (loadCode r value width) := by
  obtain ⟨own, es, hown, henc, hcode⟩ := code_of_line h hs
  cases hown
  cases henc with
  | @load _ _ width _ value _ _ hw hv hfit hrest =>
    cases hrest
    have hsymbol : a.symbols[name]? = some value := by
      simp only [Target.value] at hv
      split at hv
      · cases hv; assumption
      · cases hv
    exact ⟨value, width, hsymbol, hfit, hw, by simpa [Function.comp_def] using hcode⟩

/-- A call loads the address behind all of its own code, pushes it and jumps. -/
theorem code_of_call {r : Reg} (hs : Source.Holds source n (.call (.call r))) :
    ∃ value width, value.toNat = a.addressOf n + width + 3 ∧ (constant value).length ≤ width ∧ width ≤ 19 ∧
      a.CodeOf n (loadCode linkReg value width ++ callTail r) := by
  obtain ⟨own, es, hown, henc, hcode⟩ := code_of_line h hs
  cases hown
  -- One layer for each logical line: the notes, the load and the three instructions behind it.
  cases henc with
  | note henc =>
  cases henc with
  | @load _ _ width _ value _ _ hw hv hfit hrest =>
  cases hrest with
  | made hrest =>
  cases hrest with
  | made hrest =>
  cases hrest with
  | made hrest =>
  cases hrest with
  | note hrest =>
  cases hrest
  have hvalue : value.toNat = a.addressOf n + width + 3 := by
    simp only [Target.value] at hv
    split at hv
    · rename_i hlt
      cases hv
      exact UInt16.toNat_ofNat_of_lt' hlt
    · cases hv
  exact ⟨value, width, hvalue, hfit, hw, by simpa [Function.comp_def, callTail] using hcode⟩

theorem code_of_instruction {text : String} (hs : Source.Holds source n (.instruction text)) :
    ∃ i, readInstruction a.symbols (a.addressOf n) (Text.code text.toList) = .ok i ∧ a.CodeOf n [i] := by
  obtain ⟨own, es, hown, henc, hcode⟩ := code_of_line h hs
  cases hown
  cases henc with
  | @written _ _ _ i _ _ hi hrest =>
    cases hrest
    exact ⟨i, hi, hcode⟩

theorem code_of_note {text : String} (hs : Source.Holds source n (.note text)) : a.CodeOf n [] := by
  obtain ⟨own, es, hown, henc, hcode⟩ := code_of_line h hs
  cases hown
  cases henc with
  | note hrest =>
    cases hrest
    exact hcode

/-- A label has no code, and is bound to where its line stands. -/
theorem code_of_label {text : String} (hs : Source.Holds source n (.label text)) :
    ∃ name, Source.labelName? text.toList = some name ∧ a.CodeOf n [] ∧ a.addressOf n < 65536 ∧
      a.symbols[name]? = some (UInt16.ofNat (a.addressOf n)) := by
  obtain ⟨own, es, hown, henc, hcode⟩ := code_of_line h hs
  simp only [expand] at hown
  split at hown
  · rename_i name hname
    cases hown
    cases henc with
    | label hlt hl hrest =>
      cases hrest
      exact ⟨name, hname, hcode, hlt, hl⟩
  · cases hown

end

end Isa16.Assembly
