import Isa16.Program
import Isa16.Instruction.Basic
/-!
# Programs as text and as code

The hexadecimal text of a program has four digits a word and reads back as the
program (`ofHex_toHex`). `HasCode` says which instructions stand where, and
`Decodes` that there is nothing but instructions.
-/

namespace Isa16

/-! ## Digits -/

namespace Text.Hex

theorem digit?_upperDigit {n : Nat} (h : n < 16) : digit? 16 (upperDigit n) = some n := by
  have all : ∀ d : Fin 16, digit? 16 (upperDigit d) = some d.val := by decide
  exact all ⟨n, h⟩

theorem mem_fixed {width n : Nat} {c : Char} (h : c ∈ fixed upperDigit width n) : ∃ d : Fin 16, c = upperDigit d := by
  induction width generalizing n with
  | zero => cases h
  | succ width ih =>
    rcases List.mem_append.1 h with h | h
    · exact ih h
    · exact ⟨⟨n % 16, Nat.mod_lt n (by decide)⟩, List.mem_singleton.1 h⟩

theorem toList_word (w : UInt16) : (word w).toList = fixed upperDigit 4 w.toNat := String.toList_ofList

/-- The digits of a word are a whole group. -/
theorem foldl_next_word (w : UInt16) (gs : Array Nat) :
    (fixed upperDigit 4 w.toNat).foldl (Scan.next 4) ⟨gs, 0, 0⟩ = ⟨gs.push w.toNat, 0, 0⟩ := by
  have hlt := w.toNat_lt
  have hdigit : ∀ n, digit? 16 (upperDigit (n % 16)) = some (n % 16) := fun n =>
    digit?_upperDigit (Nat.mod_lt n (by decide))
  simp only [fixed, List.nil_append, List.cons_append, List.foldl_cons, List.foldl_nil, Scan.next, hdigit,
    Nat.reduceAdd, Nat.reduceEqDiff, if_false, if_true]
  congr 2
  omega

theorem foldl_next_words (ws : List UInt16) (gs : Array Nat) :
    (ws.flatMap fun w => fixed upperDigit 4 w.toNat).foldl (Scan.next 4) ⟨gs, 0, 0⟩ =
      ⟨gs ++ (ws.map UInt16.toNat).toArray, 0, 0⟩ := by
  induction ws generalizing gs with
  | nil => simp
  | cons w ws ih =>
    rw [List.flatMap_cons, List.foldl_append, foldl_next_word, ih]
    simp

end Text.Hex

namespace Program

/-! ## Text -/

theorem toList_toHex (p : Program) :
    p.toHex.toList = p.words.toList.flatMap fun w => Text.Hex.fixed Text.Hex.upperDigit 4 w.toNat := by
  simp [toHex, String.toList_join, Text.Hex.toList_word, List.flatMap_map]

theorem length_toHex (p : Program) : p.toHex.length = 4 * p.words.size := by
  rw [← String.length_toList, toList_toHex, List.length_flatMap]
  simp only [Text.Hex.length_fixed, List.map_const', List.sum_replicate_nat, Array.length_toList]
  exact Nat.mul_comm ..

/-- A text in which the words of a program are found is read as the program. -/
theorem ofHex_of_groups {text : String} {p : Program} (h : Text.Hex.groups 4 text.toList = p.words.map UInt16.toNat) :
    ofHex text = p := by
  rw [ofHex, h, Array.map_map]
  simp only [Function.comp_def, UInt16.ofNat_toNat, Array.map_id']
  exact ofWords_words p

theorem ofHex_toHex (p : Program) : ofHex p.toHex = p := by
  apply ofHex_of_groups
  rw [Text.Hex.groups, toList_toHex, Text.Hex.Scan.start, Text.Hex.foldl_next_words]
  simp [← Array.toList_map]

theorem mem_toHex {p : Program} {c : Char} (h : c ∈ p.toHex.toList) : ∃ d : Fin 16, c = Text.Hex.upperDigit d := by
  rw [toList_toHex] at h
  obtain ⟨w, -, h⟩ := List.mem_flatMap.1 h
  exact Text.Hex.mem_fixed h

/-- The text of a program is one line and no comment, so it can be read as a listing as well. -/
theorem ofListing_toHex (p : Program) : ofListing p.toHex = p := by
  have hall : ∀ d : Fin 16, Text.Hex.upperDigit d ≠ '\n' ∧ Text.isBlank (Text.Hex.upperDigit d) = false ∧
      Text.Hex.upperDigit d ≠ '/' := by decide
  have hsplit : p.toHex.toList.splitOn '\n' = [p.toHex.toList] := by
    have hone : (['\n'].intercalate [p.toHex.toList]).splitOn '\n' = [p.toHex.toList] := by
      refine List.splitOn_intercalate '\n' (fun l hl hc => ?_) (by simp)
      rw [List.mem_singleton.1 hl] at hc
      obtain ⟨d, hd⟩ := mem_toHex hc
      exact (hall d).1 hd.symm
    rwa [List.intercalate_singleton] at hone
  have hkept : ['\n'].intercalate ((Text.lines p.toHex.toList).filter fun line =>
      ! Text.startsComment (Text.trimStart line)) = p.toHex.toList := by
    simp only [Text.lines, hsplit]
    cases htext : p.toHex.toList with
    | nil => rfl
    | cons c text =>
      obtain ⟨d, rfl⟩ := mem_toHex (p := p) (c := c) (by simp [htext])
      obtain ⟨-, hblank, hslash⟩ := hall d
      have hstart : Text.startsComment (Text.Hex.upperDigit d :: text) = false := by
        simp [Text.startsComment, List.isPrefixOf, Ne.symm hslash]
      simp [Text.trimStart_cons_of_not_blank hblank, hstart]
  rw [ofListing, hkept, String.ofList_toList, ofHex_toHex]

/-! ## Code -/

/-- The instructions stand in the program from an address on. -/
def HasCode (p : Program) (addr : Nat) (code : List Instruction) : Prop :=
  ∀ k i, code[k]? = some i → p.words[addr + k]? = some i.word

namespace HasCode

variable {p : Program} {addr : Nat} {i : Instruction} {code : List Instruction}

theorem lt (h : p.HasCode addr (i :: code)) : addr < 65536 := by
  have hlt := (Array.getElem?_eq_some_iff.1 (h 0 i rfl)).1
  have hle := p.size_le
  omega

theorem fetch {pc : UInt16} (h : p.HasCode pc.toNat (i :: code)) : p.fetch pc = some i.word := h 0 i rfl

theorem tail (h : p.HasCode addr (i :: code)) : p.HasCode (addr + 1) code := by
  intro k j hj
  rw [Nat.add_assoc, Nat.add_comm 1 k]
  exact h (k + 1) j hj

theorem of_append {us vs : List Instruction} (h : p.HasCode addr (us ++ vs)) :
    p.HasCode addr us ∧ p.HasCode (addr + us.length) vs := by
  refine ⟨fun k j hj => h k j ?_, fun k j hj => ?_⟩
  · rw [List.getElem?_append_left (List.getElem?_eq_some_iff.1 hj).1, hj]
  · rw [Nat.add_assoc]
    refine h (us.length + k) j ?_
    rw [List.getElem?_append_right (Nat.le_add_right ..), Nat.add_sub_cancel_left, hj]

end HasCode

/-- Every word of the program is an instruction. -/
def Decodes (p : Program) : Prop := ∀ w ∈ p.words, (Instruction.ofWord? w).isSome

instance (p : Program) : Decidable p.Decodes :=
  decidable_of_iff (p.words.toList.all fun w => (Instruction.ofWord? w).isSome) <| by
    simp only [List.all_eq_true, Array.mem_toList_iff, Decodes]

theorem Decodes.fetch {p : Program} (h : p.Decodes) (pc : UInt16) :
    p.fetch pc = none ∨ ∃ i : Instruction, p.fetch pc = some i.word := by
  cases hf : p.fetch pc with
  | none => exact .inl rfl
  | some w =>
    obtain ⟨i, hi⟩ := Option.isSome_iff_exists.1 (h w (Array.mem_of_getElem? hf))
    exact .inr ⟨i, by rw [Instruction.ofWord?_eq_some_iff.1 hi]⟩

end Program

end Isa16
