import Isa16.Assembly.Printer
import Isa16.Proofs.Assembly.Printed
import Isa16.Proofs.Assembly.Layout
import Isa16.Proofs.Assembly.Sections
/-!
# The expanded source means the same

The expanded source shows a branch to a symbol with its displacement, and has
no labels. Every line but one that puts a symbol where a number is wanted is
read there as it was read in the source (`readInstruction_display`), so the
expanded source assembles to the same code if there is no such line, and is
refused for an undefined symbol if there is one (`assemble_intermediate`).
-/

namespace Isa16

namespace Assembly

/-! ## Reading without symbols -/

/-- Arguments are read without a table as with one, or the first symbol is undefined. -/
theorem mapM_read_empty {symbols : SymbolTable} {tokens : List (List Char)} {args : List Argument}
    (h : tokens.mapM (Argument.read symbols) = .ok args) :
    ((∀ name, '.' :: name ∉ tokens) ∧ tokens.mapM (Argument.read ∅) = .ok args) ∨
      ((∃ name, '.' :: name ∈ tokens) ∧
        ∃ name, tokens.mapM (Argument.read ∅) = .error (.undefinedSymbol name)) := by
  induction tokens generalizing args with
  | nil =>
    cases h
    exact .inl ⟨by simp, rfl⟩
  | cons token tokens ih =>
    rw [List.mapM_cons] at h
    obtain ⟨arg, harg, h⟩ := bind_eq_ok_iff.1 h
    obtain ⟨rest, hrest, h⟩ := bind_eq_ok_iff.1 h
    cases h
    by_cases hdot : ∃ name, token = '.' :: name
    · obtain ⟨name, rfl⟩ := hdot
      refine .inr ⟨⟨name, by simp⟩, String.ofList name, ?_⟩
      rw [List.mapM_cons, read_of_dot]
      rfl
    · simp only [not_exists] at hdot
      rw [read_of_not_dot hdot] at harg
      obtain ⟨hno, hread⟩ | ⟨⟨name, hname⟩, undefined, herror⟩ := ih hrest
      · refine .inl ⟨fun name hm => ?_, ?_⟩
        · rcases List.mem_cons.1 hm with hm | hm
          · exact hdot name hm.symm
          · exact hno name hm
        · rw [List.mapM_cons, harg, hread]
          rfl
      · refine .inr ⟨⟨name, by simp [hname]⟩, undefined, ?_⟩
        rw [List.mapM_cons, harg, herror]
        rfl

/-! ## Symbols as immediates -/

/-- The instruction puts a symbol where a number is wanted. -/
def SymbolicImmediate (text : String) : Prop :=
  ∃ (op : Opcode) (k : Nat) (symbol : List Char),
    Opcode.ofMnemonic? (String.ofList (cutInstruction (Text.code text.toList)).1) = some op ∧
      op.operands[k]? = some .imm ∧ (cutInstruction (Text.code text.toList)).2[k]? = some ('.' :: symbol)

/-- What reading an instruction takes. -/
theorem readInstruction_eq_ok_iff {symbols : SymbolTable} {pc : Nat} {code : List Char} {i : Instruction} :
    readInstruction symbols pc code = .ok i ↔ ∃ op args,
      Opcode.ofMnemonic? (String.ofList (cutInstruction code).1) = some op ∧
      (cutInstruction code).2.mapM (Argument.read symbols) = .ok args ∧ fill pc op args = .ok i := by
  simp only [readInstruction]
  constructor
  · intro h
    split at h
    · cases h
    · rename_i op hop
      obtain ⟨args, hargs, h⟩ := bind_eq_ok_iff.1 h
      exact ⟨op, args, hop, hargs, h⟩
  · rintro ⟨op, args, hop, hargs, h⟩
    rw [hop]
    exact bind_eq_ok_iff.2 ⟨args, hargs, h⟩

/-- Operations with a displacement are the branches, which have no immediate. -/
theorem branch_of_offset {op : Opcode} {k : Nat} (h : op.operands[k]? = some .offset) :
    (op = .brz ∨ op = .brn) ∧ op.operands = [.aa, .offset] ∧ k = 1 := by
  have hmem := List.mem_of_getElem? h
  have hop : op = .brz ∨ op = .brn := by
    revert hmem
    cases op <;> decide
  have hoperands : op.operands = [.aa, .offset] := by rcases hop with rfl | rfl <;> rfl
  refine ⟨hop, hoperands, ?_⟩
  rw [hoperands] at h
  have hlt : k < 2 := (List.getElem?_eq_some_iff.1 h).1
  obtain rfl | hk : k = 0 ∨ k = 1 := by omega
  · cases h
  · exact hk

theorem fill_branch (pc : Nat) {op : Opcode} (hop : op = .brz ∨ op = .brn) (r : Reg) (target : Argument) :
    fill pc op [.register r, target] = place pc ⟨op, 0, r, 0⟩ .offset target := by
  rcases hop with rfl | rfl <;> exact bind_pure (place pc _ .offset target)

theorem offset_range {i j : Instruction} {d : Int} (h : placeOffset i d = .ok j) : -32 ≤ d ∧ d ≤ 31 := by
  unfold placeOffset at h
  split at h
  · assumption
  · cases h

/-- A symbolic branch is shown with its displacement, and is read as it was. -/
theorem branchText?_of_offset {symbols : SymbolTable} {pc : Nat} {text : String} {op : Opcode} {args : List Argument}
    {i : Instruction} {k : Nat} {symbol : List Char}
    (hop : Opcode.ofMnemonic? (String.ofList (cutInstruction (Text.code text.toList)).1) = some op)
    (hargs : (cutInstruction (Text.code text.toList)).2.mapM (Argument.read symbols) = .ok args)
    (hfill : fill pc op args = .ok i) (hk : op.operands[k]? = some .offset)
    (htoken : (cutInstruction (Text.code text.toList)).2[k]? = some ('.' :: symbol)) :
    ∃ tokens, (∀ token ∈ tokens, IsToken token) ∧ tokens ≠ [] ∧
      (branchText? symbols pc text).map String.toList = some (printed op 0 tokens ++ ' ' :: '/' :: '/' :: text.toList) ∧
      readInstruction ∅ pc (printed op 0 tokens) = .ok i := by
  obtain ⟨hbranch, hoperands, rfl⟩ := branch_of_offset hk
  have hlen : args.length = 2 := by rw [length_of_fill hfill, hoperands]; rfl
  obtain ⟨arg, arg', rfl⟩ := List.length_eq_two.1 hlen
  rcases hcut : cutInstruction (Text.code text.toList) with ⟨name, tokens⟩
  simp only [hcut] at hop hargs htoken
  -- The instruction has two arguments, of which the second is the symbol.
  obtain ⟨reg, _, hreg, hrest, rfl⟩ := List.forall₂_cons_right_iff.1 (mapM_eq_ok_iff.1 hargs)
  obtain ⟨target, _, htarget, hnil, rfl⟩ := List.forall₂_cons_right_iff.1 hrest
  obtain rfl := List.forall₂_nil_right_iff.1 hnil
  obtain rfl : target = '.' :: symbol := Option.some.inj htoken
  obtain ⟨addr, haddr, rfl⟩ := exists_address_of_read htarget
  obtain ⟨r, rfl⟩ := register_of_fill hfill
  rw [fill_branch pc hbranch] at hfill
  obtain ⟨hl, hu⟩ := offset_range hfill
  have htokens : ∀ token ∈ [reg, (toString ((addr.toNat : Int) - pc)).toList], IsToken token := by
    simp only [List.forall_mem_cons, List.not_mem_nil, false_implies, implies_true, and_true]
    exact ⟨isToken_of_register (register?_of_read hreg), isToken_toString _⟩
  refine ⟨_, htokens, by simp, ?_, ?_⟩
  · simp only [branchText?, hcut, hop, hbranch, if_true, haddr, Option.map_some]
    simp [Opcode.text, printed]
  · have hread : [reg, (toString ((addr.toNat : Int) - pc)).toList].mapM (Argument.read ∅) =
        .ok [.register r, .number (addr.toNat - pc)] := by
      rw [mapM_eq_ok_iff]
      refine .cons ?_ (.cons (read_toString (by omega) (by omega)) .nil)
      unfold Argument.read
      rw [register?_of_read hreg]
    rw [readInstruction_printed htokens (by simp) hread, fill_branch pc hbranch]
    exact hfill

theorem branchText?_of_not_dot {symbols : SymbolTable} {pc : Nat} {text : String}
    (h : ∀ name, '.' :: name ∉ (cutInstruction (Text.code text.toList)).2) : branchText? symbols pc text = none := by
  simp only [branchText?]
  split
  · rename_i target _ htokens
    refine absurd ?_ (h target)
    rw [htokens]
    simp
  · rfl

theorem branchText?_of_immediate {symbols : SymbolTable} {pc : Nat} {text : String} {op : Opcode} {k : Nat}
    (hop : Opcode.ofMnemonic? (String.ofList (cutInstruction (Text.code text.toList)).1) = some op)
    (hk : op.operands[k]? = some .imm) : branchText? symbols pc text = none := by
  have hno : ¬ (op = .brz ∨ op = .brn) := by
    rintro (rfl | rfl) <;> exact absurd (List.mem_of_getElem? hk) (by decide)
  simp only [branchText?, hop]
  split
  · rename_i hop' _
    cases hop'
    exact if_neg hno
  · rfl

/-! ## Lines of the expanded source -/

/-- The line puts a symbol where a number is wanted. -/
def Line.Symbolic : Line → Prop
  | .written text => SymbolicImmediate text
  | .note _ | .label _ | .made _ => False

/-- A laid out line as a line of the expanded source. -/
def displayLine (symbols : SymbolTable) (x : Nat × Line) : List Char := (x.2.display symbols x.1).toList

/-- A line of the expanded source that shows an instruction. -/
structure Displays (symbols : SymbolTable) (x : Nat × Line) (i : Instruction) : Prop where
  isNormal : Source.IsNormal (displayLine symbols x)
  isPlain : IsPlain (displayLine symbols x)
  code_ne_nil : Text.code (displayLine symbols x) ≠ []
  read : ¬ x.2.Symbolic → readInstruction ∅ x.1 (Text.code (displayLine symbols x)) = .ok i
  undefined : x.2.Symbolic →
    ∃ name, readInstruction ∅ x.1 (Text.code (displayLine symbols x)) = .error (.undefinedSymbol name)

/-- An instruction of the source is one line in normal form. -/
theorem line_of_instruction {source : String} {n : Nat} {text : String}
    (h : Source.Holds source n (.instruction text)) :
    Source.IsNormal text.toList ∧ IsPlain text.toList ∧ Text.code text.toList ≠ [] := by
  obtain ⟨line, hline, hs⟩ := h
  cases hs with
  | @instruction c code hcode hp hd =>
    rw [IsPlain, String.toList_ofList, Text.code_trim, hcode]
    exact ⟨(isNormal_of_line? hline).trim, by simpa using ⟨hp, hd⟩, by simp⟩

/-- A symbolic argument of an instruction is an immediate or a displacement. -/
theorem operand_of_symbol {symbols : SymbolTable} {pc : Nat} {op : Opcode} {tokens : List (List Char)}
    {args : List Argument} {i : Instruction} (hargs : tokens.mapM (Argument.read symbols) = .ok args)
    (hfill : fill pc op args = .ok i) {symbol : List Char} (h : '.' :: symbol ∈ tokens) :
    ∃ k : Nat, tokens[k]? = some ('.' :: symbol) ∧
      (op.operands[k]? = some .imm ∨ op.operands[k]? = some .offset) := by
  obtain ⟨k, hk⟩ := List.getElem?_of_mem h
  rw [mapM_eq_ok_iff] at hargs
  obtain ⟨hlt, htoken⟩ := List.getElem?_eq_some_iff.1 hk
  have hlt' : k < args.length := hargs.length_eq ▸ hlt
  have hread := hargs.get hlt hlt'
  simp only [List.get_eq_getElem, htoken] at hread
  obtain ⟨addr, -, haddr⟩ := exists_address_of_read hread
  obtain ⟨operand, hoperand, hcarries⟩ := carries_of_fill hfill (k := k) (List.getElem?_eq_getElem hlt')
  rw [haddr] at hcarries
  cases hcarries with
  | lowBits => exact ⟨k, hk, .inl hoperand⟩
  | offset => exact ⟨k, hk, .inr hoperand⟩

/-- An instruction of the source is shown as it was read, unless it has a symbol as an immediate. -/
theorem displays_written {symbols : SymbolTable} {source : String} {n pc : Nat} {text : String} {i : Instruction}
    (hs : Source.Holds source n (.instruction text))
    (h : readInstruction symbols pc (Text.code text.toList) = .ok i) : Displays symbols (pc, .written text) i := by
  obtain ⟨hnormal, hplain, hne⟩ := line_of_instruction hs
  obtain ⟨op, args, hop, hargs, hfill⟩ := readInstruction_eq_ok_iff.1 h
  have shown (hnone : branchText? symbols pc text = none) :
      displayLine symbols (pc, .written text) = text.toList := by
    simp only [displayLine, Line.display, hnone, Option.getD_none]
  obtain ⟨hno, hempty⟩ | ⟨⟨symbol, hsymbol⟩, undefined, herror⟩ := mapM_read_empty hargs
  · have hline := shown (branchText?_of_not_dot hno)
    refine ⟨hline ▸ hnormal, hline ▸ hplain, hline ▸ hne, fun _ => ?_, ?_⟩
    · rw [hline]
      exact readInstruction_eq_ok_iff.2 ⟨op, args, hop, hempty, hfill⟩
    · rintro ⟨_, _, _, -, -, htoken⟩
      exact absurd (List.mem_of_getElem? htoken) (hno _)
  · obtain ⟨k, hk, himm | hoffset⟩ := operand_of_symbol hargs hfill hsymbol
    · have hline := shown (branchText?_of_immediate hop himm)
      refine ⟨hline ▸ hnormal, hline ▸ hplain, hline ▸ hne, fun hno => absurd ⟨op, k, _, hop, himm, hk⟩ hno,
        fun _ => ⟨undefined, ?_⟩⟩
      rw [hline]
      simp only [readInstruction, hop, herror, bind, Except.bind]
    · obtain ⟨tokens, htokens, htne, htext, hread⟩ := branchText?_of_offset hop hargs hfill hoffset hk
      obtain ⟨shownText, hsome, hshown⟩ := Option.map_eq_some_iff.1 htext
      have hline : displayLine symbols (pc, .written text) =
          printed op 0 tokens ++ ' ' :: '/' :: '/' :: text.toList := by
        simp only [displayLine, Line.display, hsome, Option.getD_some, hshown]
      have hremark : IsRemark (' ' :: '/' :: '/' :: text.toList) := .inr ⟨_, rfl⟩
      have hcode : Text.code (printed op 0 tokens ++ ' ' :: '/' :: '/' :: text.toList) = printed op 0 tokens :=
        code_printed htokens hremark htne
      refine ⟨?_, ?_, ?_, fun _ => ?_, ?_⟩
      · rw [hline]
        exact isNormal_printed htokens hremark (by simpa using hnormal.newline_notMem)
          (by simpa using hnormal.return_notMem)
      · rw [hline]
        exact isPlain_printed htokens hremark htne
      · rw [hline, hcode]
        simp [printed]
      · rw [hline, hcode, hread]
      · rintro ⟨op', k', _, hop', himm, -⟩
        rw [hop] at hop'
        cases hop'
        rw [(branch_of_offset hoffset).2.1] at himm
        exact absurd (List.mem_of_getElem? himm) (by decide)

/-- A line without an instruction is shown as a note. -/
theorem isNote_display {symbols : SymbolTable} {source : String} {x : Nat × Line} (hl : LaidOut source x.2)
    (hw : x.2.width = 0) : IsNote (displayLine symbols x) := by
  obtain ⟨pc, l⟩ := x
  cases hl with
  | note h => exact h
  | @label name h =>
    have hline : OneLine ("//." ++ name ++ ":") :=
      (OneLine.append (by decide) (oneLine_name h)).append (by decide)
    refine isNote_of_oneLine ?_ hline
    simp only [Line.display, String.toList_append]
    rfl
  | made _ | written _ => cases hw

theorem displays_of_reads {symbols : SymbolTable} {source : String} {x : Nat × Line} {i : Instruction}
    (hl : LaidOut source x.2) (h : x.2.Reads symbols x.1 i) : Displays symbols x i := by
  obtain ⟨pc, l⟩ := x
  cases hl with
  | note _ | label _ => exact h.elim
  | @made j hj =>
    obtain rfl : j = i := h
    have hline : displayLine symbols (pc, .made j) = printedLine 0 j := toList_text j
    refine ⟨hline ▸ isNormal_printedLine 0 j, hline ▸ isPlain_printedLine 0 j, ?_, fun _ => ?_, fun hs => hs.elim⟩
    · rw [hline, code_printedLine]
      exact printedLine_ne_nil 0 j
    · rw [hline, code_printedLine, readInstruction_printedLine, Instruction.canonical_eq_iff.2 hj]
  | written hs => exact displays_written hs h

theorem Displays.reads {symbols : SymbolTable} {x : Nat × Line} {i : Instruction} (h : Displays symbols x i)
    (hs : ¬ x.2.Symbolic) : (plainLine (displayLine symbols x)).Reads ∅ x.1 i :=
  plainLine_reads h.code_ne_nil (h.read hs)

/-! ## The expanded source -/

/-- The lines of the expanded source, from laid out lines at an address. -/
def displayLines (symbols : SymbolTable) (addr : Nat) (lines : List Line) : List (List Char) :=
  (addressed Line.width addr lines).map (displayLine symbols)

section

variable {symbols : SymbolTable} {source : String} {addr : Nat} {lines : List Line} {is : List Instruction}
  (he : Emits symbols addr lines is) (hl : ∀ l ∈ lines, LaidOut source l)

theorem mem_of_addressed {x : Nat × Line} (hx : x ∈ addressed Line.width addr lines) : x.2 ∈ lines := by
  rw [← map_snd_addressed Line.width addr lines]
  exact List.mem_map_of_mem hx

include he hl

theorem display_cases {x : Nat × Line} (hx : x ∈ addressed Line.width addr lines) :
    x.2.width = 0 ∧ IsNote (displayLine symbols x) ∨ ∃ i, x.2.Reads symbols x.1 i ∧ Displays symbols x i := by
  obtain hw | ⟨-, i, -, hi⟩ := he.cases_of_mem hx
  · exact .inl ⟨hw, isNote_display (hl _ (mem_of_addressed hx)) hw⟩
  · exact .inr ⟨i, hi, displays_of_reads (hl _ (mem_of_addressed hx)) hi⟩

theorem isNormal_displayLines : ∀ line ∈ displayLines symbols addr lines, Source.IsNormal line ∧ IsPlain line := by
  intro line hline
  obtain ⟨x, hx, rfl⟩ := List.mem_map.1 hline
  obtain ⟨-, hnote⟩ | ⟨i, -, hi⟩ := display_cases he hl hx
  · exact ⟨hnote.isNormal, hnote.isPlain⟩
  · exact ⟨hi.isNormal, hi.isPlain⟩

/-- The lines of the expanded source fill as many words as the laid out lines. -/
theorem width_displayLines : (((displayLines symbols addr lines).map plainLine).map Line.width).sum = is.length := by
  have hwidth : ∀ x ∈ addressed Line.width addr lines, (plainLine (displayLine symbols x)).width = x.2.width := by
    intro x hx
    obtain ⟨hw, hnote⟩ | ⟨i, hread, hi⟩ := display_cases he hl hx
    · rw [hw, plainLine_width_of_note hnote.code_eq]
    · rw [hread.width_eq, plainLine_of_code hi.code_ne_nil]
      rfl
  have hlines : (addressed Line.width addr lines).map (fun x => x.2.width) = lines.map Line.width := by
    have hsnd := congrArg (List.map Line.width) (map_snd_addressed Line.width addr lines)
    rwa [List.map_map] at hsnd
  rw [he.length_eq, ← hlines, displayLines, List.map_map, List.map_map]
  exact congrArg List.sum (List.map_congr_left hwidth)

/-- Without symbols as immediates the expanded source reads as the source. -/
theorem emits_displayLines (hs : ∀ l ∈ lines, ¬ l.Symbolic) :
    Emits ∅ addr ((displayLines symbols addr lines).map plainLine) is := by
  rw [displayLines, List.map_map]
  refine he.map (fun x hx hw => ?_) fun x hx i hi => ?_
  · exact plainLine_width_of_note (isNote_display (hl _ (mem_of_addressed hx)) hw).code_eq
  · exact (displays_of_reads (hl _ (mem_of_addressed hx)) hi).reads (hs _ (mem_of_addressed hx))

/-- The first symbol that is an immediate is undefined in the expanded source. -/
theorem displayLines_undefined (hs : ∃ l ∈ lines, l.Symbolic) :
    ∃ pre line post us name, displayLines symbols addr lines = pre ++ line :: post ∧
      Emits ∅ addr (pre.map plainLine) us ∧ Text.code line ≠ [] ∧
      readInstruction ∅ (addr + us.length) (Text.code line) = .error (.undefinedSymbol name) := by
  induction he with
  | nil => simp at hs
  | @silent addr l lines is hw rest ih =>
    obtain ⟨hl, hlines⟩ := List.forall_mem_cons.1 hl
    have hsilent : ¬ l.Symbolic := by
      cases l with
      | written _ => cases hw
      | note _ | label _ | made _ => exact id
    obtain ⟨pre, line, post, us, name, hsplit, hemits, hne, herror⟩ := ih hlines (by simpa [hsilent] using hs)
    refine ⟨displayLine symbols (addr, l) :: pre, line, post, us, name, ?_, ?_, hne, herror⟩
    · rw [displayLines, addressed_cons, hw]
      exact congrArg _ hsplit
    · exact .silent (plainLine_width_of_note (isNote_display (x := (addr, l)) hl hw).code_eq) hemits
  | @read addr l i lines is hi rest ih =>
    obtain ⟨hl, hlines⟩ := List.forall_mem_cons.1 hl
    have hshown := displays_of_reads (x := (addr, l)) hl hi
    by_cases hsymbolic : l.Symbolic
    · obtain ⟨name, herror⟩ := hshown.undefined hsymbolic
      refine ⟨[], displayLine symbols (addr, l), displayLines symbols (addr + l.width) lines, [], name, ?_, .nil,
        hshown.code_ne_nil, herror⟩
      rw [displayLines, addressed_cons]
      rfl
    · obtain ⟨pre, line, post, us, name, hsplit, hemits, hne, herror⟩ := ih hlines (by simpa [hsymbolic] using hs)
      refine ⟨displayLine symbols (addr, l) :: pre, line, post, i :: us, name, ?_, ?_, hne, ?_⟩
      · rw [displayLines, addressed_cons, hi.width_eq]
        exact congrArg _ hsplit
      · exact .read (hshown.reads hsymbolic) hemits
      · rwa [List.length_cons, Nat.add_comm us.length, ← Nat.add_assoc]

end

/-! ## Assembling the expanded source -/

theorem toList_intermediate (a : Assembly) :
    a.intermediate.toList = ['\n'].intercalate (displayLines a.symbols 0 (a.layout.lines.map (·.val))) := by
  rw [displayLines, addressed_map, List.map_map, intermediate, String.toList_intercalate, List.map_map]
  rfl

section

variable {source : String} {a : Assembly} (h : assemble source = .ok a)

include h

theorem laidOut_of_mem_lines : ∀ l ∈ a.layout.lines.map (·.val), LaidOut source l := by
  intro l hl
  obtain ⟨x, hx, rfl⟩ := List.mem_map.1 hl
  exact laidOut_of_assemble h x hx

/-- An instruction that is no symbol's immediate is shown as it is encoded. -/
theorem encoded_of_display {pc : Nat} {x : Numbered Line}
    (hx : (pc, x) ∈ addressed (fun x : Numbered Line => x.val.width) 0 a.layout.lines) (hw : x.val.width ≠ 0)
    (hs : ¬ x.val.Symbolic) : ∃ i : Instruction, a.program.words[pc]? = some i.word ∧
      readInstruction ∅ pc (Text.code (x.val.display a.symbols pc).toList) = .ok i := by
  have he := emits_of_assemble h
  have hl := laidOut_of_mem_lines h
  have hmem : (pc, x.val) ∈ addressed Line.width 0 (a.layout.lines.map (·.val)) := by
    rw [addressed_map]
    exact List.mem_map.2 ⟨_, hx, rfl⟩
  obtain ⟨-, i, hi, hread⟩ := (he.cases_of_mem hmem).resolve_left hw
  refine ⟨i, ?_, (displays_of_reads (hl _ (mem_of_addressed hmem)) hread).read hs⟩
  rw [← Array.getElem?_toList, show a.program.words.toList = a.code.instructions.map (·.word) from a.code.words_eq,
    List.getElem?_map, show a.code.instructions[pc]? = some i from hi]
  rfl

end

end Assembly

/-- Some instruction of the source puts a symbol where a number is wanted. -/
def Source.HasSymbolicImmediate (source : String) : Prop :=
  ∃ n text, Source.Holds source n (.instruction text) ∧ Assembly.SymbolicImmediate text

open Assembly in
/-- The expanded source assembles to the same code, if no symbol is an immediate, and has an
undefined symbol otherwise. All it shows of other instructions is as they are encoded. -/
theorem assemble_intermediate {source : String} {a : Assembly} (h : assemble source = .ok a) :
    (¬ Source.HasSymbolicImmediate source →
      ∃ b, assemble a.intermediate = .ok b ∧ b.hex = a.hex ∧ b.symbols = ∅) ∧
    (Source.HasSymbolicImmediate source →
      ∃ line name, assemble a.intermediate = .error ⟨line, .undefinedSymbol name⟩) ∧
    ∀ pc (x : Numbered Line), (pc, x) ∈ addressed (fun x : Numbered Line => x.val.width) 0 a.layout.lines →
      x.val.width ≠ 0 → ¬ x.val.Symbolic → ∃ i : Instruction, a.program.words[pc]? = some i.word ∧
        readInstruction ∅ pc (Text.code (x.val.display a.symbols pc).toList) = .ok i := by
  have he := emits_of_assemble h
  have hl := laidOut_of_mem_lines h
  have hlines := isNormal_displayLines he hl
  have hle : a.code.instructions.length ≤ 65536 := by
    rw [Code.length_instructions]
    exact a.code.size_le
  refine ⟨fun hno => ?_, fun ⟨n, text, hs, hsymbolic⟩ => ?_, fun pc x => encoded_of_display h⟩
  · have hplain : ∀ l ∈ a.layout.lines.map (·.val), ¬ l.Symbolic := by
      intro l hmem hsymbolic
      cases hl l hmem with
      | written hs => exact hno ⟨_, _, hs, hsymbolic⟩
      | note _ | label _ | made _ => exact hsymbolic
    obtain ⟨b, hb, hsymbols, hwords⟩ := assemble_of_emits (toList_intermediate a) (fun line hm => (hlines line hm).1)
      (fun line hm => (hlines line hm).2) (emits_displayLines he hl hplain) hle
    refine ⟨b, hb, ?_, hsymbols⟩
    rw [hex, hex, Program.toHex, Program.toHex, hwords]
    exact congrArg (fun ws => String.join (List.map Text.Hex.word ws)) a.code.words_eq.symm
  · have hmem : Line.written text ∈ a.layout.lines.map (·.val) := List.mem_map.2 ⟨_, written_mem_layout h hs, rfl⟩
    obtain ⟨pre, line, post, us, name, hsplit, hemits, hne, herror⟩ :=
      displayLines_undefined he hl ⟨_, hmem, hsymbolic⟩
    have hsource := toList_intermediate a
    have hwidth := width_displayLines he hl
    rw [hsplit] at hsource hlines hwidth
    rw [Nat.zero_add] at herror
    exact ⟨_, name, assemble_error_of_emits hsource (fun l hm => (hlines l hm).1) (fun l hm => (hlines l hm).2)
      (hwidth ▸ hle) hemits hne herror⟩

/-- A branch to a symbol is shown with its displacement. A symbol as an immediate is shown as it
is, and is undefined then. -/
theorem intermediate_of_branch_and_immediate :
    (∃ a b, assemble "brz r1,.a\n.a:" = .ok a ∧ assemble a.intermediate = .ok b ∧ b.hex = a.hex) ∧
      ∃ a line name, assemble "ldi r1,.a\n.a:" = .ok a ∧
        assemble a.intermediate = .error ⟨line, .undefinedSymbol name⟩ := by
  constructor
  · obtain ⟨a, ha, -⟩ := exists_ok_of_any (x := assemble "brz r1,.a\n.a:") (p := fun _ => true) (by decide +kernel)
    have hbranch : Source.Holds "brz r1,.a\n.a:" 1 (.instruction "brz r1,.a") :=
      ⟨_, rfl, Source.Statement.read_eq_ok_iff.1 rfl⟩
    have hlabel : Source.Holds "brz r1,.a\n.a:" 2 (.label ".a:") :=
      ⟨_, rfl, Source.Statement.read_eq_ok_iff.1 rfl⟩
    have hno : ¬ Source.HasSymbolicImmediate "brz r1,.a\n.a:" := by
      rintro ⟨n, text, hs, op, k, symbol, hop, hk, -⟩
      match n, hs with
      | 0, ⟨_, hline, _⟩ => cases hline
      | 1, hs =>
        cases hs.unique hbranch
        cases hop
        exact absurd (List.mem_of_getElem? hk) (by decide)
      | 2, hs => cases hs.unique hlabel
      | _ + 3, ⟨_, hline, _⟩ => cases hline
    obtain ⟨b, hb, hhex, -⟩ := (assemble_intermediate ha).1 hno
    exact ⟨a, b, ha, hb, hhex⟩
  · obtain ⟨a, ha, -⟩ := exists_ok_of_any (x := assemble "ldi r1,.a\n.a:") (p := fun _ => true) (by decide +kernel)
    have hload : Source.Holds "ldi r1,.a\n.a:" 1 (.instruction "ldi r1,.a") :=
      ⟨_, rfl, Source.Statement.read_eq_ok_iff.1 rfl⟩
    obtain ⟨line, name, herror⟩ := (assemble_intermediate ha).2.1 ⟨1, _, hload, .ldi, 1, ['a'], rfl, rfl, rfl⟩
    exact ⟨a, line, name, ha, herror⟩

end Isa16
