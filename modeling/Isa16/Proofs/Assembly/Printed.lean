import Mathlib.Data.Bool.AllAny
import Isa16.Proofs.Source.Form
import Isa16.Proofs.Assembly.Plain
import Isa16.Proofs.Assembly.Operands
/-!
# Reading printed instructions

An instruction is printed as its name, spaces, and its operands between
commas. Such a line is in normal form and plain, and it is read as the
instruction that was printed, with zeros in the fields that are not shown
(`readInstruction_printedLine`).
-/

namespace Isa16.Assembly

open Isa16.Source (IsNormal Unmarked markRadix?)

/-! ## Operands -/

/-- The characters that operands are printed with. -/
def operandChars : List Char := "rR-0123456789".toList

theorem operandChars_spec : ∀ c ∈ operandChars,
    Text.isBlank c = false ∧ markRadix? c = none ∧ c ∉ [',', '/', '\n', '\r'] :=
  List.all_iff_forall_prop.1 (by decide)

/-- An operand as it can be printed. -/
structure IsToken (token : List Char) : Prop where
  ne_nil : token ≠ []
  chars : ∀ c ∈ token, c ∈ operandChars

theorem mem_operandChars_of_isDigit {c : Char} (h : c.isDigit) : c ∈ operandChars := by
  have hrange : 48 ≤ c.toNat ∧ c.toNat ≤ 57 := by
    simpa [Char.isDigit, UInt32.le_iff_toNat_le] using h
  have hc : c = Nat.digitChar (c.toNat - 48) := by
    apply Char.toNat_inj.1
    rw [Nat.toNat_digitChar_of_lt_ten (by omega)]
    omega
  have hall : ∀ n : Fin 10, Nat.digitChar n ∈ operandChars := by decide
  rw [hc]
  exact hall ⟨c.toNat - 48, by omega⟩

theorem isToken_toString (n : Int) : IsToken (toString n).toList := by
  rw [Text.toList_toString]
  split
  · exact ⟨Nat.toDigits_ne_nil, fun c hc => mem_operandChars_of_isDigit (Text.isDigit_of_mem_toDigits hc)⟩
  · refine ⟨by simp, List.forall_mem_cons.2 ⟨by decide, fun c hc => ?_⟩⟩
    exact mem_operandChars_of_isDigit (Text.isDigit_of_mem_toDigits hc)

theorem isToken_of_register {r : Reg} {token : List Char} (h : Source.register? token = some r) : IsToken token := by
  obtain ⟨c, hc, rfl⟩ := Source.register?_eq_some_iff.1 h
  have hall : ∀ r : Reg, Nat.digitChar r ∈ operandChars := by decide
  refine ⟨by simp, List.forall_mem_cons.2 ⟨?_, List.forall_mem_singleton.2 (hall r)⟩⟩
  rcases hc with rfl | rfl <;> decide

theorem register?_regText (r : Reg) : Source.register? (regText r).toList = some r := by
  revert r
  decide

theorem head_toString {n : Int} {c : Char} (h : c ∈ (toString n).toList.head?) : c = '-' ∨ c.isDigit := by
  rw [Text.toList_toString] at h
  split at h
  · exact .inr (Text.isDigit_of_mem_toDigits (List.mem_of_mem_head? h))
  · exact .inl (Option.some.inj h).symm

/-- A printed number is read as the number. -/
theorem read_toString {symbols : SymbolTable} {n : Int} (hl : -0x80000000 ≤ n) (hu : n < 0x80000000) :
    Argument.read symbols (toString n).toList = .ok (.number n) := by
  have hint : Text.integer? 0x80000000 (toString n).toList = some n := Text.integer?_toString hl hu
  have hhead := @head_toString n
  generalize (toString n).toList = token at hint hhead
  have hreg : Source.register? token = none := by
    by_contra hr
    obtain ⟨r, hr⟩ := Option.ne_none_iff_exists'.1 hr
    obtain ⟨c, hc, rfl⟩ := Source.register?_eq_some_iff.1 hr
    rcases hc with rfl | rfl <;> exact absurd (hhead rfl) (by decide)
  unfold Argument.read
  rw [hreg]
  dsimp only
  split
  · exact absurd (hhead rfl) (by decide)
  · rw [hint]

/-- What an instruction has at an operand position, as an argument. -/
def argumentOf (i : Instruction) : Operand → Argument
  | .da => .register i.da
  | .aa => .register i.aa
  | .ba => .register i.ba
  | .imm => .number i.ba
  | .offset => .number i.offset

theorem read_regText {symbols : SymbolTable} (r : Reg) :
    Argument.read symbols (regText r).toList = .ok (.register r) := by
  unfold Argument.read
  rw [register?_regText]

theorem isToken_operandText (i : Instruction) (operand : Operand) : IsToken (i.operandText operand).toList := by
  cases operand with
  | da | aa | ba => exact isToken_of_register (register?_regText _)
  | imm => exact isToken_toString (i.ba : Nat)
  | offset => exact isToken_toString i.offset

theorem read_operandText {symbols : SymbolTable} (i : Instruction) (operand : Operand) :
    Argument.read symbols (i.operandText operand).toList = .ok (argumentOf i operand) := by
  cases operand with
  | da | aa | ba => exact read_regText _
  | imm =>
    have hlt := i.ba.isLt
    exact read_toString (n := (i.ba : Nat)) (by omega) (by omega)
  | offset =>
    obtain ⟨hl, hu⟩ := displacement_bounds i.da i.ba
    exact read_toString (n := i.offset) (by rw [Instruction.offset]; omega) (by rw [Instruction.offset]; omega)

/-! ## Fields -/

theorem carries_argumentOf (pc : Nat) (i : Instruction) (operand : Operand) :
    Carries pc i operand (argumentOf i operand) := by
  cases operand with
  | da => exact .da
  | aa => exact .aa
  | ba => exact .ba
  | imm => exact .number rfl
  | offset =>
    obtain ⟨hl, hu⟩ := displacement_bounds i.da i.ba
    have hbits := bits_splitDisplacement i.offset
    rw [Instruction.offset, split_displacement] at hbits
    exact .offset rfl hl hu hbits

/-- The arguments of an instruction make it again, but for the fields it does not use. -/
theorem fill_argumentOf (pc : Nat) (i : Instruction) :
    fill pc i.opcode (i.opcode.operands.map (argumentOf i)) = .ok i.canonical := by
  refine fill_of_carries ?_
  rw [List.forall₂_map_right_iff, List.forall₂_same]
  exact fun operand _ => carries_argumentOf pc i operand

/-! ## Lines -/

/-- A name, spaces, and operands between commas. -/
def printed (op : Opcode) (gap : Nat) (tokens : List (List Char)) : List Char :=
  op.mnemonic.toList ++ (' ' :: List.replicate gap ' ' ++ [','].intercalate tokens)

theorem mnemonic_spec (op : Opcode) : op.mnemonic.toList ≠ [] ∧ ∀ c ∈ op.mnemonic.toList,
    Text.isBlank c = false ∧ c ∉ ['0', '/', '%', '.', '\n', '\r'] := by
  refine ⟨?_, List.all_iff_forall_prop.1 ?_⟩ <;> cases op <;> decide

theorem ofMnemonic?_mnemonic (op : Opcode) : Opcode.ofMnemonic? op.mnemonic = some op := by
  cases op <;> decide

theorem mem_intercalate {sep c : Char} {tokens : List (List Char)} (h : c ∈ [sep].intercalate tokens) :
    c = sep ∨ ∃ token ∈ tokens, c ∈ token := by
  induction tokens with
  | nil => cases h
  | cons token tokens ih =>
    cases tokens with
    | nil => exact .inr ⟨token, by simp, by simpa using h⟩
    | cons next tokens =>
      rw [List.intercalate_cons_cons, List.append_assoc, List.mem_append, List.singleton_append, List.mem_cons] at h
      rcases h with h | rfl | h
      · exact .inr ⟨token, by simp, h⟩
      · exact .inl rfl
      · obtain h | ⟨t, ht, hc⟩ := ih h
        · exact .inl h
        · exact .inr ⟨t, by simp [ht], hc⟩

section

variable {op : Opcode} {gap : Nat} {tokens : List (List Char)} (ht : ∀ token ∈ tokens, IsToken token)

include ht

theorem mem_joined {c : Char} (h : c ∈ [','].intercalate tokens) : c ∈ ',' :: operandChars := by
  obtain rfl | ⟨token, htoken, hc⟩ := mem_intercalate h
  · simp
  · exact List.mem_cons_of_mem _ ((ht token htoken).chars c hc)

theorem not_blank_of_mem_joined {c : Char} (h : c ∈ [','].intercalate tokens) : Text.isBlank c = false := by
  rcases List.mem_cons.1 (mem_joined ht h) with rfl | hc
  · decide
  · exact (operandChars_spec c hc).1

theorem joined_ne_nil (hne : tokens ≠ []) : [','].intercalate tokens ≠ [] := by
  cases tokens with
  | nil => exact absurd rfl hne
  | cons token tokens =>
    have htoken := (ht token (by simp)).ne_nil
    cases tokens with
    | nil => simpa using htoken
    | cons next tokens => simp [htoken]

/-- What stands behind the name. -/
theorem mem_behind {c : Char} (h : c ∈ ' ' :: List.replicate gap ' ' ++ [','].intercalate tokens) :
    c ∈ ' ' :: ',' :: operandChars := by
  rcases List.mem_append.1 h with h | h
  · rcases List.mem_cons.1 h with rfl | h
    · simp
    · rw [List.eq_of_mem_replicate h]
      simp
  · exact List.mem_cons_of_mem _ (mem_joined ht h)

/-- An instruction is printed without comments and on one line. -/
theorem notMem_printed {c : Char} (hc : c ∈ ['/', '\n', '\r']) : c ∉ printed op gap tokens := by
  intro h
  rcases List.mem_append.1 h with h | h
  · have := ((mnemonic_spec op).2 c h).2
    simp only [List.mem_cons, List.not_mem_nil, or_false, not_or] at this hc
    tauto
  · have hall : ∀ d ∈ ' ' :: ',' :: operandChars, d ∉ ['/', '\n', '\r'] :=
      List.all_iff_forall_prop.1 (by decide)
    exact hall c (mem_behind ht h) hc

theorem unmarked_printed {rest : List Char} (hrest : ∀ d ∈ rest, markRadix? d = none) :
    (printed op gap tokens ++ rest).IsChain Unmarked := by
  rw [printed, List.append_assoc]
  refine Source.unmarked_append (fun h => ?_) fun d hd => ?_
  · exact ((mnemonic_spec op).2 _ h).2 (by simp)
  · rcases List.mem_append.1 hd with hd | hd
    · have hall : ∀ d ∈ ' ' :: ',' :: operandChars, markRadix? d = none := List.all_iff_forall_prop.1 (by decide)
      exact hall d (mem_behind ht hd)
    · exact hrest d hd

theorem trim_printed (hne : tokens ≠ []) : Text.trim (printed op gap tokens) = printed op gap tokens := by
  have hjoined := joined_ne_nil ht hne
  refine Text.trim_of_not_blank (fun c hc => ?_) fun c hc => ?_
  · rw [printed, List.head?_append_of_ne_nil _ (mnemonic_spec op).1] at hc
    exact ((mnemonic_spec op).2 c (List.mem_of_mem_head? hc)).1
  · rw [printed, ← List.append_assoc, List.getLast?_append_of_ne_nil _ hjoined] at hc
    exact not_blank_of_mem_joined ht (List.mem_of_mem_getLast? hc)

theorem cutInstruction_printed (hne : tokens ≠ []) :
    cutInstruction (printed op gap tokens) = (op.mnemonic.toList, tokens) := by
  have hjoined := joined_ne_nil ht hne
  have hcut : Text.cutWord (printed op gap tokens) =
      (op.mnemonic.toList, List.replicate gap ' ' ++ [','].intercalate tokens) :=
    Text.cutWord_eq_iff.2 ⟨fun c hc => ((mnemonic_spec op).2 c hc).1, .inr ⟨' ', by decide, rfl⟩⟩
  have hfilter : (List.replicate gap ' ' ++ [','].intercalate tokens).filter (fun c => ! Text.isBlank c) =
      [','].intercalate tokens := by
    have hspaces : (List.replicate gap ' ').filter (fun c => ! Text.isBlank c) = [] :=
      List.filter_eq_nil_iff.2 fun c hc => by rw [List.eq_of_mem_replicate hc]; decide
    rw [List.filter_append, hspaces, List.nil_append, List.filter_eq_self]
    exact fun c hc => by simp [not_blank_of_mem_joined ht hc]
  have hsplit : ([','].intercalate tokens).splitOn ',' = tokens := by
    refine List.splitOn_intercalate ',' (fun token htoken hc => ?_) hne
    exact (operandChars_spec _ ((ht token htoken).chars _ hc)).2.2 (by simp)
  simp only [cutInstruction, hcut, hfilter, List.isEmpty_iff, hjoined, if_false, hsplit]

/-- A printed instruction is read by its arguments. -/
theorem readInstruction_printed {symbols : SymbolTable} {pc : Nat} {args : List Argument} (hne : tokens ≠ [])
    (hargs : tokens.mapM (Argument.read symbols) = .ok args) :
    readInstruction symbols pc (printed op gap tokens) = fill pc op args := by
  simp only [readInstruction, cutInstruction_printed ht hne, String.ofList_toList, ofMnemonic?_mnemonic, hargs, bind,
    Except.bind]

end

/-! ## Remarks -/

/-- Nothing, or a comment behind a space. -/
def IsRemark (remark : List Char) : Prop := remark = [] ∨ ∃ rest, remark = ' ' :: '/' :: '/' :: rest

theorem IsRemark.parts {remark : List Char} (h : IsRemark remark) :
    ∃ space comment, remark = space ++ comment ∧ (space = [] ∨ space = [' ']) ∧
      (comment = [] ∨ Text.startsComment comment) := by
  obtain rfl | ⟨rest, rfl⟩ := h
  · exact ⟨[], [], rfl, .inl rfl, .inl rfl⟩
  · exact ⟨[' '], '/' :: '/' :: rest, rfl, .inr rfl, .inr rfl⟩

theorem slash_notMem_printed {op : Opcode} {gap : Nat} {tokens : List (List Char)} {space : List Char}
    (ht : ∀ token ∈ tokens, IsToken token) (hspace : space = [] ∨ space = [' ']) :
    '/' ∉ printed op gap tokens ++ space := by
  rw [List.mem_append, not_or]
  refine ⟨notMem_printed ht (by simp), ?_⟩
  rcases hspace with rfl | rfl <;> decide

section

variable {op : Opcode} {gap : Nat} {tokens : List (List Char)} {remark : List Char}
  (ht : ∀ token ∈ tokens, IsToken token) (hr : IsRemark remark)

include ht hr

/-- The code of a printed line is its instruction. -/
theorem code_printed (hne : tokens ≠ []) : Text.code (printed op gap tokens ++ remark) = printed op gap tokens := by
  obtain ⟨space, comment, rfl, hspace, hcomment⟩ := hr.parts
  rw [← List.append_assoc, Text.code, Source.splitComment_of_parts (slash_notMem_printed ht hspace) hcomment]
  rcases hspace with rfl | rfl
  · rw [List.append_nil, trim_printed ht hne]
  · rw [Text.trim_append_singleton (by decide), trim_printed ht hne]

theorem isNormal_printed (hn : '\n' ∉ remark) (hc : '\r' ∉ remark) : IsNormal (printed op gap tokens ++ remark) := by
  obtain ⟨space, comment, rfl, hspace, hcomment⟩ := hr.parts
  rw [← List.append_assoc]
  refine Source.isNormal_of_parts (slash_notMem_printed ht hspace) hcomment (unmarked_printed ht ?_) ?_ ?_
  · obtain rfl | rfl := hspace
    · exact List.forall_mem_nil _
    · exact List.forall_mem_singleton.2 rfl
  · rw [List.append_assoc, List.mem_append, not_or]
    exact ⟨notMem_printed ht (by simp), hn⟩
  · rw [List.append_assoc, List.mem_append, not_or]
    exact ⟨notMem_printed ht (by simp), hc⟩

theorem isPlain_printed (hne : tokens ≠ []) : IsPlain (printed op gap tokens ++ remark) := by
  intro c hc
  rw [code_printed ht hr hne, printed, List.head?_append_of_ne_nil _ (mnemonic_spec op).1] at hc
  have hchar := ((mnemonic_spec op).2 c (List.mem_of_mem_head? hc)).2
  simp only [List.mem_cons, not_or] at hchar
  exact ⟨hchar.2.2.1, hchar.2.2.2.1⟩

end

/-! ## Printed instructions -/

/-- The operands of an instruction as they are printed. -/
def tokensOf (i : Instruction) : List (List Char) := i.operands.map String.toList

theorem isToken_of_mem_tokensOf {i : Instruction} : ∀ token ∈ tokensOf i, IsToken token := by
  intro token h
  simp only [tokensOf, Instruction.operands, List.map_map, List.mem_map] at h
  obtain ⟨operand, -, rfl⟩ := h
  exact isToken_operandText i operand

theorem tokensOf_ne_nil (i : Instruction) : tokensOf i ≠ [] := by
  have hoperands : i.opcode.operands ≠ [] := by cases i.opcode <;> decide
  simpa [tokensOf, Instruction.operands] using hoperands

/-- An instruction on a line of its own. -/
def printedLine (gap : Nat) (i : Instruction) : List Char := printed i.opcode gap (tokensOf i)

theorem toList_text (i : Instruction) : i.text.toList = printedLine 0 i := by
  simp [Instruction.text, Opcode.text, printedLine, printed, tokensOf, String.toList_intercalate]

theorem toList_column (i : Instruction) : i.column.toList = printedLine (4 - i.opcode.mnemonic.length) i := by
  rw [printedLine, printed, ← List.replicate_succ, List.replicate_succ']
  simp [Instruction.column, Text.padEnd, Text.spaces, tokensOf, String.toList_intercalate]

section

variable (gap : Nat) (i : Instruction)

theorem code_printedLine : Text.code (printedLine gap i) = printedLine gap i := by
  have hcode : Text.code (printedLine gap i ++ []) = printedLine gap i :=
    code_printed isToken_of_mem_tokensOf (.inl rfl) (tokensOf_ne_nil i)
  rwa [List.append_nil] at hcode

theorem isNormal_printedLine : IsNormal (printedLine gap i) := by
  have hnormal : IsNormal (printedLine gap i ++ []) :=
    isNormal_printed isToken_of_mem_tokensOf (.inl rfl) List.not_mem_nil List.not_mem_nil
  rwa [List.append_nil] at hnormal

theorem isPlain_printedLine : IsPlain (printedLine gap i) := by
  have hplain : IsPlain (printedLine gap i ++ []) :=
    isPlain_printed isToken_of_mem_tokensOf (.inl rfl) (tokensOf_ne_nil i)
  rwa [List.append_nil] at hplain

theorem printedLine_ne_nil : printedLine gap i ≠ [] := by
  simp [printedLine, printed]

/-- A printed instruction is read as it was, but for the fields that are not shown. -/
theorem readInstruction_printedLine (symbols : SymbolTable) (pc : Nat) :
    readInstruction symbols pc (printedLine gap i) = .ok i.canonical := by
  have hargs : (tokensOf i).mapM (Argument.read symbols) = .ok (i.opcode.operands.map (argumentOf i)) := by
    rw [mapM_eq_ok_iff, tokensOf, Instruction.operands, List.map_map, List.forall₂_map_left_iff,
      List.forall₂_map_right_iff, List.forall₂_same]
    exact fun operand _ => read_operandText i operand
  rw [printedLine, readInstruction_printed isToken_of_mem_tokensOf (tokensOf_ne_nil i) hargs, fill_argumentOf]

theorem printedLine_reads (symbols : SymbolTable) (pc : Nat) :
    (plainLine (printedLine gap i)).Reads symbols pc i.canonical := by
  have hcode := code_printedLine gap i
  refine plainLine_reads ?_ ?_
  · rw [hcode]
    exact printedLine_ne_nil gap i
  · rw [hcode, readInstruction_printedLine]

end

end Isa16.Assembly
