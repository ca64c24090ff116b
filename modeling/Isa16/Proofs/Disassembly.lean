import Isa16.Tool.Disassemble
import Isa16.Proofs.Program
import Isa16.Proofs.Assembly.Printed
/-!
# Assembling a disassembly

A disassembly shows a program up to the first word whose operation code is not
in the table, and assembles to the instructions it shows, with zeros in the
fields that they do not use (`reassembly_of_disassemble`). The text that the
tool writes has comments around the instructions and assembles to the same.
-/

namespace Isa16

/-! ## The words of a disassembly -/

/-- The operation code of the word is in the table. -/
def isInstruction (w : UInt16) : Bool := (Opcode.ofCode? (Fields.unpack w).op).isSome

namespace Program

/-- The index of the first word whose operation code is not in the table, or the size of the
program if there is none. -/
def codeLength (p : Program) : Nat := p.words.toList.findIdx (! isInstruction ·)

theorem isSome_ofWord? (w : UInt16) : (Instruction.ofWord? w).isSome = isInstruction w := by
  simp [Instruction.ofWord?, isInstruction]

theorem map_word_takeWhile (ws : List UInt16) :
    (((ws.map Instruction.ofWord?).takeWhile Option.isSome).filterMap id).map (·.word) =
      ws.take (ws.findIdx (! isInstruction ·)) := by
  induction ws with
  | nil => rfl
  | cons w ws ih =>
    rw [List.map_cons, List.findIdx_cons, ← isSome_ofWord?]
    cases hw : Instruction.ofWord? w with
    | none => simp
    | some i => simpa [Instruction.ofWord?_eq_some_iff.1 hw] using ih

theorem map_word_instructions (p : Program) : p.instructions.map (·.word) = p.words.toList.take p.codeLength :=
  map_word_takeWhile p.words.toList

theorem codeLength_le (p : Program) : p.codeLength ≤ p.words.size := List.findIdx_le_length

theorem codeLength_of_decodes {p : Program} (h : p.Decodes) : p.codeLength = p.words.size := by
  refine List.findIdx_eq_length.2 fun w hw => ?_
  rw [← isSome_ofWord?, h w (Array.mem_toList_iff.1 hw)]
  rfl

theorem length_instructions (p : Program) : p.instructions.length = p.codeLength := by
  have hlen := congrArg List.length p.map_word_instructions
  rwa [List.length_map, List.length_take, Nat.min_eq_left (show _ ≤ p.words.toList.length from p.codeLength_le)] at hlen

theorem getElem?_instructions {p : Program} {k : Nat} {i : Instruction} :
    p.instructions[k]? = some i ↔ k < p.codeLength ∧ p.words[k]? = some i.word := by
  have hword : ∀ {k j}, p.instructions[k]? = some j → k < p.codeLength ∧ p.words[k]? = some j.word := by
    intro k j hj
    have hk : k < p.codeLength := p.length_instructions ▸ (List.getElem?_eq_some_iff.1 hj).1
    have hmap : (p.instructions.map (·.word))[k]? = some j.word := by rw [List.getElem?_map, hj]; rfl
    rw [map_word_instructions, List.getElem?_take_of_lt hk, Array.getElem?_toList] at hmap
    exact ⟨hk, hmap⟩
  refine ⟨hword, fun ⟨hk, hi⟩ => ?_⟩
  rw [← length_instructions] at hk
  have hj := List.getElem?_eq_getElem hk
  rw [(hword hj).2, Option.some.injEq] at hi
  rw [hj, Instruction.word_injective hi]

/-- What a disassembly shows. -/
structure Shows (p : Program) (d : Disassembly) : Prop where
  length_lines : d.lines.length = p.codeLength
  line_at : ∀ k (l : DisassemblyLine), d.lines[k]? = some l → l.addr.toNat = k ∧ p.words[k]? = some l.word
  /-- It stops at a word if there is one behind its lines, and names its operation code. -/
  stoppedAt_iff : ∀ addr op, d.stoppedAt = some (addr, op) ↔
    ∃ w, p.words[p.codeLength]? = some w ∧ addr.toNat = p.codeLength ∧ op = (Fields.unpack w).op

theorem shows_disassemble (p : Program) : p.Shows p.disassemble := by
  have hle := p.size_le
  have hlen := p.codeLength_le
  refine ⟨by simp [disassemble, length_instructions], fun k l hl => ?_, fun addr op => ?_⟩
  · simp only [disassemble, List.getElem?_mapIdx] at hl
    obtain ⟨i, hi, rfl⟩ := Option.map_eq_some_iff.1 hl
    obtain ⟨hk, hword⟩ := getElem?_instructions.1 hi
    exact ⟨UInt16.toNat_ofNat_of_lt' (by change k < 65536; omega), hword⟩
  · simp only [disassemble, length_instructions, Option.map_eq_some_iff, Prod.mk.injEq]
    constructor
    · rintro ⟨w, hw, rfl, rfl⟩
      have hlt := (Array.getElem?_eq_some_iff.1 hw).1
      exact ⟨w, hw, UInt16.toNat_ofNat_of_lt' (by change p.codeLength < 65536; omega), rfl⟩
    · rintro ⟨w, hw, haddr, rfl⟩
      exact ⟨w, hw, by rw [← haddr, UInt16.ofNat_toNat], rfl⟩

end Program

/-! ## Showing instructions -/

namespace Assembly

/-- The line that shows an instruction. -/
def columnLine (i : Instruction) : List Char := printedLine (4 - i.opcode.mnemonic.length) i

/-- The lines that show instructions come to them, but for the fields that are not shown. -/
theorem emits_columnLines (addr : Nat) (is : List Instruction) :
    Emits ∅ addr ((is.map columnLine).map plainLine) (is.map Instruction.canonical) := by
  induction is generalizing addr with
  | nil => exact .nil
  | cons i is ih => exact .read (printedLine_reads _ i ∅ addr) (ih (addr + 1))

theorem flatMap_newline (lines : List (List Char)) :
    (lines.flatMap fun line => line ++ ['\n']) = ['\n'].intercalate (lines ++ [[]]) := by
  induction lines with
  | nil => rfl
  | cons line lines ih =>
    rw [List.flatMap_cons, ih, List.cons_append, List.intercalate_cons_of_ne_nil (by simp)]

/-- Instructions between notes assemble to the instructions. -/
theorem assemble_columnLines {source : String} {front back : List (List Char)} {is : List Instruction}
    (hsource : source.toList = (front ++ (is.map columnLine ++ back)).flatMap fun line => line ++ ['\n'])
    (hf : ∀ line ∈ front, IsNote line) (hb : ∀ line ∈ back, IsNote line) (hle : is.length ≤ 65536) :
    ∃ a, assemble source = .ok a ∧ a.symbols = ∅ ∧ a.program.words.toList = is.map (·.canonical.word) := by
  -- The text ends in a newline, so there is an empty line behind all others.
  rw [flatMap_newline, List.append_assoc, List.append_assoc] at hsource
  have hback : ∀ line ∈ back ++ [[]], IsNote line :=
    List.forall_mem_append.2 ⟨hb, by simpa using isNote_nil⟩
  have hlines : ∀ line ∈ front ++ (is.map columnLine ++ (back ++ [[]])), Source.IsNormal line ∧ IsPlain line := by
    intro line hl
    rcases List.mem_append.1 hl with hl | hl
    · exact ⟨(hf line hl).isNormal, (hf line hl).isPlain⟩
    rcases List.mem_append.1 hl with hl | hl
    · obtain ⟨i, -, rfl⟩ := List.mem_map.1 hl
      exact ⟨isNormal_printedLine _ i, isPlain_printedLine _ i⟩
    · exact ⟨(hback line hl).isNormal, (hback line hl).isPlain⟩
  have hemits : Emits ∅ 0 ((front ++ (is.map columnLine ++ (back ++ [[]]))).map plainLine)
      (is.map Instruction.canonical) := by
    have hfront : Emits ∅ 0 (front.map plainLine) [] := emits_notes hf
    have hall := hfront.append ((emits_columnLines 0 is).append (emits_notes hback))
    rwa [List.append_nil, List.nil_append, ← List.map_append, ← List.map_append] at hall
  obtain ⟨a, ha, hsymbols, hwords⟩ := assemble_of_emits hsource (fun line hl => (hlines line hl).1)
    (fun line hl => (hlines line hl).2) hemits (by simpa using hle)
  exact ⟨a, ha, hsymbols, by rw [hwords, List.map_map]; rfl⟩

theorem map_text_disassemble (p : Program) :
    p.disassemble.lines.map (·.text.toList) = p.instructions.map columnLine := by
  have hcolumn : (fun i : Instruction => i.column.toList) = columnLine := funext toList_column
  refine List.ext_getElem? fun k => ?_
  simp [Program.disassemble, DisassemblyLine.text, Function.comp_def, hcolumn]

theorem toList_text_disassemble (p : Program) :
    p.disassemble.text.toList = (p.instructions.map columnLine).flatMap fun line => line ++ ['\n'] := by
  rw [← map_text_disassemble]
  simp [Disassembly.text, String.toList_join, List.flatMap_map]

end Assembly

/-! ## The tool -/

namespace Tool

/-- The comment in front of a disassembly. -/
def headLine : List Char := "// Disassembled with sc16-disasm".toList

/-- The comment about where a disassembly stopped. -/
def stopLine (stop : UInt16 × Fin 128) : List Char := ("// " ++ (Trap.invalidOpcode stop.1 stop.2).message).toList

theorem isNote_headLine : Assembly.IsNote headLine := Assembly.isNote_of_oneLine (by decide) (by decide)

theorem isNote_stopLine (stop : UInt16 × Fin 128) : Assembly.IsNote (stopLine stop) := by
  have hopcode : Assembly.OneLine ("HALT: bad opcode " ++ Text.Hex.byte stop.2) :=
    .append (by decide) (Assembly.oneLine_fixed 2 _)
  have hmessage : Assembly.OneLine (Trap.invalidOpcode stop.1 stop.2).message :=
    (hopcode.append (by decide)).append (Assembly.oneLine_fixed 4 _)
  refine Assembly.isNote_of_oneLine ?_ (.append (by decide) hmessage)
  rw [String.toList_append]
  rfl

theorem toList_stopText (stop : UInt16 × Fin 128) : (stopText stop).toList = stopLine stop ++ ['\n'] := by
  have hparts : stopText stop = "// " ++ (Trap.invalidOpcode stop.1 stop.2).message ++ "\n" := rfl
  rw [hparts, String.toList_append]
  rfl

theorem toList_disassemblyText (p : Program) :
    (disassemblyText false p.disassemble).toList =
      ([headLine] ++ (p.instructions.map Assembly.columnLine ++
        p.disassemble.stoppedAt.toList.map stopLine)).flatMap fun line => line ++ ['\n'] := by
  have hparts : disassemblyText false p.disassemble = "// Disassembled with sc16-disasm\n" ++
      String.join (p.disassemble.lines.map (disassemblyLineText false)) ++
      (p.disassemble.stoppedAt.map stopText).getD "" := rfl
  have hhead : "// Disassembled with sc16-disasm\n".toList = headLine ++ ['\n'] := rfl
  have hlines : (String.join (p.disassemble.lines.map (disassemblyLineText false))).toList =
      (p.instructions.map Assembly.columnLine).flatMap fun line => line ++ ['\n'] := by
    rw [← Assembly.map_text_disassemble]
    simp [disassemblyLineText, String.toList_join, List.flatMap_map]
  have hstop : ((p.disassemble.stoppedAt.map stopText).getD "").toList =
      (p.disassemble.stoppedAt.toList.map stopLine).flatMap fun line => line ++ ['\n'] := by
    cases p.disassemble.stoppedAt with
    | none => rfl
    | some stop => simp [toList_stopText]
  rw [hparts, String.toList_append, String.toList_append, hhead, hlines, hstop, List.flatMap_append,
    List.flatMap_append, List.flatMap_singleton, List.append_assoc]

/-- The report puts out a text, to a file if there is a path for it. -/
def PutsOut (r : Report) (path? : Option String) (text : String) : Prop :=
  r = match path? with
    | none => { output := text }
    | some path => { writes := [(path, text)] }

theorem loadProgram_of_size {files : Files} {path text : String} (hfile : files path = .ok text)
    (hsize : (Program.ofListing text).size ≠ 0) : loadProgram files path = .ok (Program.ofListing text) := by
  simp only [loadProgram, readSource, hfile, bind, Except.bind, hsize, if_false, pure, Except.pure]

/-- The tool puts out the text of the disassembly. -/
theorem disassembleFile_puts {o : DisassembleOptions} {files : Files} {text : String} (hwords : o.showWords = false)
    (hformat : o.format = .text) (hfile : files o.program = .ok text) (hsize : (Program.ofListing text).size ≠ 0) :
    PutsOut (disassembleFile o files) o.out? (disassemblyText false (Program.ofListing text).disassemble) := by
  have hload := loadProgram_of_size hfile hsize
  simp only [PutsOut, disassembleFile, hload, hwords, hformat, bind, Except.bind]
  cases o.out? <;> rfl

end Tool

/-! ## Programs that were disassembled and assembled again -/

namespace Program

/-- What is assembled is the program up to the end of its disassembly, but for fields that the
instructions do not use. -/
structure Reassembled (p : Program) (a : Assembly) : Prop where
  symbols_eq : a.symbols = ∅
  size_eq : a.program.words.size = p.codeLength
  word_at : ∀ k, k < p.codeLength → ∃ i : Instruction, p.words[k]? = some i.word ∧
    a.program.words[k]? = some i.canonical.word
  same_iff : a.program.words.toList = p.words.toList.take p.codeLength ↔
    ∀ k (i : Instruction), k < p.codeLength → p.words[k]? = some i.word → i.IsCanonical

theorem reassembled_of_words {p : Program} {a : Assembly} (hs : a.symbols = ∅)
    (h : a.program.words.toList = p.instructions.map (·.canonical.word)) : p.Reassembled a := by
  refine ⟨hs, ?_, fun k hk => ?_, ?_⟩
  · rw [← Array.length_toList, h, List.length_map, length_instructions]
  · rw [← length_instructions] at hk
    have hi := List.getElem?_eq_getElem hk
    refine ⟨_, (getElem?_instructions.1 hi).2, ?_⟩
    rw [← Array.getElem?_toList, h, List.getElem?_map, hi]
    rfl
  · rw [h, ← map_word_instructions, List.map_inj_left]
    constructor
    · intro hall k i hk hword
      have hi := List.mem_of_getElem? (getElem?_instructions.2 ⟨hk, hword⟩)
      exact Instruction.canonical_eq_iff.1 (Instruction.word_injective (hall i hi))
    · intro hall i hi
      obtain ⟨k, hk⟩ := List.getElem?_of_mem hi
      obtain ⟨hlt, hword⟩ := getElem?_instructions.1 hk
      rw [Instruction.canonical_eq_iff.2 (hall k i hlt hword)]

theorem length_instructions_le (p : Program) : p.instructions.length ≤ 65536 := by
  rw [length_instructions]
  exact Nat.le_trans p.codeLength_le p.size_le

theorem assemble_disassemble (p : Program) : ∃ a, assemble p.disassemble.text = .ok a ∧ a.symbols = ∅ ∧
    a.program.words.toList = p.instructions.map (·.canonical.word) := by
  have hsource : p.disassemble.text.toList =
      ([] ++ (p.instructions.map Assembly.columnLine ++ [])).flatMap fun line => line ++ ['\n'] := by
    rw [Assembly.toList_text_disassemble, List.nil_append, List.append_nil]
  exact Assembly.assemble_columnLines hsource (by simp) (by simp) p.length_instructions_le

end Program

/-- A disassembly shows the instructions a program begins with, and assembles to them, with or
without the comments that the tool puts around it. -/
theorem disassembly_reassembles (p : Program) :
    p.Shows p.disassemble ∧ ∃ a, assemble p.disassemble.text = .ok a ∧ p.Reassembled a ∧
      (∃ b, assemble (Tool.disassemblyText false p.disassemble) = .ok b ∧ b.symbols = ∅ ∧
        b.program.words = a.program.words) ∧
      ∀ (o : Tool.DisassembleOptions) (files : Tool.Files) (text : String), o.showWords = false → o.format = .text →
        files o.program = .ok text → Program.ofListing text = p → p.size ≠ 0 →
        Tool.PutsOut (Tool.disassembleFile o files) o.out? (Tool.disassemblyText false p.disassemble) := by
  obtain ⟨a, ha, hsymbols, hwords⟩ := p.assemble_disassemble
  obtain ⟨b, hb, hsymbols', hwords'⟩ := Assembly.assemble_columnLines (Tool.toList_disassemblyText p)
    (by simpa using Tool.isNote_headLine)
    (by
      intro line hl
      obtain ⟨stop, -, rfl⟩ := List.mem_map.1 hl
      exact Tool.isNote_stopLine stop)
    p.length_instructions_le
  refine ⟨p.shows_disassemble, a, ha, Program.reassembled_of_words hsymbols hwords,
    ⟨b, hb, hsymbols', Array.toList_inj.1 (hwords'.trans hwords.symm)⟩, ?_⟩
  rintro o files text hshow hformat hfile rfl hsize
  exact Tool.disassembleFile_puts hshow hformat hfile hsize

/-- A move with a number in the field that it does not use, and a word behind it that is no
instruction. -/
theorem reassembly_of_unused_field :
    let p := Program.ofListing "0047FFFF"
    p.codeLength = 1 ∧ p.words[0]? = some 0x0047 ∧
      Tool.PutsOut (Tool.disassembleFile ⟨"a.hex", false, .text, none⟩ fun _ => .ok "0047FFFF") none
        (Tool.disassemblyText false p.disassemble) ∧
      ∃ a, assemble p.disassemble.text = .ok a ∧ a.program.words.size = 1 ∧ a.program.words[0]? = some 0x0040 := by
  intro p
  have hlength : p.codeLength = 1 := by decide +kernel
  have hword : p.words[0]? = some 0x0047 := by decide +kernel
  obtain ⟨-, a, ha, hsame, -, htool⟩ := disassembly_reassembles p
  refine ⟨hlength, hword, htool ⟨"a.hex", false, .text, none⟩ (fun _ => .ok "0047FFFF") "0047FFFF" rfl rfl rfl rfl
    (by decide +kernel), a, ha, hsame.size_eq.trans hlength, ?_⟩
  obtain ⟨i, hi, hcanonical⟩ := hsame.word_at 0 (by omega)
  obtain rfl : ⟨.mova, 1, 0, 7⟩ = i := Instruction.word_injective (Option.some.inj (hword.symm.trans hi))
  exact hcanonical

end Isa16
