import Isa16.Proofs.Disassembly
import Isa16.Proofs.Assembly.Layout
import Isa16.Proofs.Assembly.Sections
import Isa16.Proofs.Machine.Session
/-!
# What the assembler emits

The code of an assembled source is canonical instructions only. So it is
disassembled to its end and assembled again to the same, and no machine traps
on it (`executable_of_assemble`).
-/

namespace Isa16

namespace Assembly

/-- The code can be run, and shown and read back without a loss. -/
structure Executable (a : Assembly) : Prop where
  canonical : ∀ w ∈ a.program.words, ∃ i : Instruction, Instruction.ofWord? w = some i ∧ i.IsCanonical
  length_lines : a.program.disassemble.lines.length = a.size
  not_stopped : a.program.disassemble.stoppedAt = none
  reassembles : ∃ b, assemble (disassemble a.hex) = .ok b ∧ b.hex = a.hex
  /-- Whatever is done to the processor and to data memory, no step traps. -/
  not_trapped : ∀ m k : Machine, m.program = a.program → m.Session k → ∀ t, k.step.1 ≠ .trapped t
  run_eq_ok : ∀ m k : Machine, m.program = a.program → m.Session k → ∀ limit, ∃ n, (k.run limit).1 = .ok n

theorem words_eq_instructions (a : Assembly) : a.program.words.toList = a.code.instructions.map (·.word) :=
  a.code.words_eq

section

variable {source : String} {a : Assembly} (h : assemble source = .ok a)

include h

theorem canonical_of_mem_words :
    ∀ w ∈ a.program.words, ∃ i : Instruction, Instruction.ofWord? w = some i ∧ i.IsCanonical := by
  intro w hw
  rw [← Array.mem_toList_iff, words_eq_instructions] at hw
  obtain ⟨i, hi, rfl⟩ := List.mem_map.1 hw
  exact ⟨i, Instruction.ofWord?_word i, isCanonical_of_mem_instructions h i hi⟩

theorem decodes_of_assemble : a.program.Decodes := fun w hw => by
  obtain ⟨i, hi, -⟩ := canonical_of_mem_words h w hw
  rw [hi]
  rfl

theorem hex_of_reassembly : ∃ b, assemble (disassemble a.hex) = .ok b ∧ b.hex = a.hex := by
  obtain ⟨b, hb, hsymbols, hwords⟩ := a.program.assemble_disassemble
  refine ⟨b, ?_, ?_⟩
  · rw [disassemble, hex, Program.ofListing_toHex, hb]
  · have hsame := (Program.reassembled_of_words hsymbols hwords).same_iff.2 fun k i _ hi => by
      obtain ⟨j, hj, hcanonical⟩ := canonical_of_mem_words h i.word (Array.mem_of_getElem? hi)
      rw [Instruction.ofWord?_word, Option.some.injEq] at hj
      exact hj ▸ hcanonical
    rw [Program.codeLength_of_decodes (decodes_of_assemble h), ← Array.length_toList, List.take_length] at hsame
    rw [hex, hex, Program.toHex, Program.toHex, hsame]

end

end Assembly

/-- What the assembler emits is executable. -/
theorem executable_of_assemble {source : String} {a : Assembly} (h : assemble source = .ok a) : a.Executable := by
  have hdecodes := Assembly.decodes_of_assemble h
  have hlength := Program.codeLength_of_decodes hdecodes
  have hshows := a.program.shows_disassemble
  refine ⟨Assembly.canonical_of_mem_words h, ?_, ?_, Assembly.hex_of_reassembly h, fun m k hm hs => ?_,
    fun m k hm hs => ?_⟩
  · rw [hshows.length_lines, hlength, a.size_words]
  · cases hstop : a.program.disassemble.stoppedAt with
    | none => rfl
    | some stop =>
      obtain ⟨w, hw, -⟩ := (hshows.stoppedAt_iff stop.1 stop.2).1 hstop
      rw [hlength] at hw
      simp at hw
  · exact hs.not_trapped (hm ▸ hdecodes)
  · exact hs.run_eq_ok (hm ▸ hdecodes)

/-- A source whose code comes from macro calls, a label that is loaded, a branch and a symbol as
an immediate. -/
theorem executable_of_macro_calls :
    ∃ a, assemble "%ISTK\n%SLDI r2,.a\n%CALL r2\n.a:\nldi r3,.a\nbrz r3,.a\n%RET" = .ok a ∧ a.Executable := by
  obtain ⟨a, ha, -⟩ := exists_ok_of_any
    (x := assemble "%ISTK\n%SLDI r2,.a\n%CALL r2\n.a:\nldi r3,.a\nbrz r3,.a\n%RET")
    (p := fun _ => true) (by decide +kernel)
  exact ⟨a, ha, executable_of_assemble ha⟩

end Isa16
