import Isa16.Proofs.Disassembly
import Isa16.Proofs.Machine.Run
/-!
# Runs in lockstep

The fields that an operation does not use reach nothing: neither what an
instruction does (`execute_canonical`) nor how it is printed
(`operands_canonical`). So machines whose programs differ in such fields alone
make the same steps (`Agrees.step`), however many (`Agrees.after`), and a
program behaves as before when its disassembly is assembled
(`lockstep_of_reassembly`).
-/

namespace Isa16

/-! ## Fields that are not used -/

namespace Instruction

/-- An operand is printed from the fields its operation uses. -/
theorem operandText_canonical {i : Instruction} {operand : Operand} (h : operand ∈ i.opcode.operands) :
    i.canonical.operandText operand = i.operandText operand := by
  have kept (f : Field) (hf : f ∈ operand.fields) : i.canonical.field f = i.field f :=
    field_canonical_of_mem (List.mem_flatMap.2 ⟨operand, h, hf⟩)
  cases operand with
  | da => exact congrArg (fun r : Fin 8 => regText r) (kept .da (by decide))
  | aa => exact congrArg (fun r : Fin 8 => regText r) (kept .aa (by decide))
  | ba => exact congrArg (fun r : Fin 8 => regText r) (kept .ba (by decide))
  | imm => exact congrArg (fun n : Fin 8 => toString n.val) (kept .ba (by decide))
  | offset =>
    have hda : i.canonical.da = i.da := kept .da (by decide)
    have hba : i.canonical.ba = i.ba := kept .ba (by decide)
    rw [operandText, operandText, offset, offset, hda, hba]

theorem operands_canonical (i : Instruction) : i.canonical.operands = i.operands :=
  List.map_congr_left fun _ h => operandText_canonical h

end Instruction

namespace Cpu

/-- An instruction does the same without the fields that it does not use. -/
theorem execute_canonical {β : Type} [Bus β] (cpu : Cpu) (bus : β) (i : Instruction) :
    cpu.execute bus i.canonical = cpu.execute bus i := by
  -- The operation says which fields are kept, and these are all that it reads or writes.
  obtain ⟨op, da, aa, ba⟩ := i
  cases op <;> rfl

/-- Data memory refuses nothing. -/
theorem execute_eq_ok (cpu : Cpu) (data : DataMemory) (i : Instruction) :
    ∃ target next data', cpu.execute data i = (.ok target, next, data') := by
  unfold execute
  cases cpu.effect i with
  | write | load | store | branch => exact ⟨_, _, _, rfl⟩

end Cpu

/-! ## Agreement -/

/-- The programs have the same instructions at the same addresses, the second with zeros in the
fields that these do not use. -/
def Program.HasCanonical (p q : Program) : Prop :=
  ∀ pc, p.fetch pc = none ∧ q.fetch pc = none ∨
    ∃ i : Instruction, p.fetch pc = some i.word ∧ q.fetch pc = some i.canonical.word

/-- The traces differ in nothing but fields that their operation does not use. -/
structure Trace.Agrees (t u : Trace) : Prop where
  pc_eq : u.pc = t.pc
  opcode_eq : u.instruction.opcode = t.instruction.opcode
  operands_eq : u.instruction.operands = t.instruction.operands
  field_eq : ∀ f ∈ t.instruction.opcode.fields, u.instruction.field f = t.instruction.field f
  regs_eq : u.regs = t.regs
  flags_eq : u.flags = t.flags
  nextPc_eq : u.nextPc = t.nextPc

/-- The steps did not trap and are of the same kind, with traces that agree. -/
inductive Step.Agrees : Step → Step → Prop
  | ended : Agrees .ended .ended
  | retired {t u : Trace} (h : t.Agrees u) : Agrees (.retired t) (.retired u)
  | halted {t u : Trace} (h : t.Agrees u) : Agrees (.halted t) (.halted u)

namespace Machine

/-- The machines differ in nothing but their programs. -/
structure Agrees (m k : Machine) : Prop where
  program : m.program.HasCanonical k.program
  cpu_eq : k.cpu = m.cpu
  data_eq : k.data = m.data
  state_eq : k.state = m.state

namespace Agrees

variable {m k : Machine} (h : m.Agrees k)

include h

theorem step : m.step.1.Agrees k.step.1 ∧ m.step.2.Agrees k.step.2 := by
  obtain ⟨_, p, _, _⟩ := m
  obtain ⟨cpu, q, data, state⟩ := k
  obtain ⟨hprogram, rfl, rfl, rfl⟩ := h
  dsimp only at hprogram
  obtain ⟨hp, hq⟩ | ⟨i, hp, hq⟩ := hprogram cpu.pc
  · simp only [Machine.step, Cpu.step, hp, hq, report]
    exact ⟨.ended, hprogram, rfl, rfl, rfl⟩
  · obtain ⟨target, next, data', he⟩ := cpu.execute_eq_ok data i
    simp only [Machine.step, Cpu.step, hp, hq, Instruction.ofWord?_word, Cpu.execute_canonical, he, report]
    have htrace (regs : Vector UInt16 8) (flags : Flags) (nextPc : UInt16) :
        Trace.Agrees ⟨cpu.pc, i, regs, flags, nextPc⟩ ⟨cpu.pc, i.canonical, regs, flags, nextPc⟩ :=
      ⟨rfl, rfl, i.operands_canonical, fun _ hf => Instruction.field_canonical_of_mem hf, rfl, rfl, rfl⟩
    split
    · exact ⟨.halted (htrace ..), hprogram, rfl, rfl, rfl⟩
    · exact ⟨.retired (htrace ..), hprogram, rfl, rfl, rfl⟩

theorem after (n : Nat) : (m.after n).Agrees (k.after n) := by
  induction n generalizing m k with
  | zero => exact h
  | succ n ih => exact ih h.step.2

theorem stepAt (n : Nat) : (m.stepAt n).Agrees (k.stepAt n) := (h.after n).step.1

end Agrees

end Machine

/-! ## Assembling a disassembly -/

/-- What is assembled from the disassembly of a program of instructions is the program, but for
fields that are not used. -/
theorem Program.Reassembled.hasCanonical {p : Program} {a : Assembly} (h : p.Reassembled a) (hp : p.Decodes) :
    p.HasCanonical a.program := by
  have hlength := codeLength_of_decodes hp
  intro pc
  by_cases hpc : pc.toNat < p.words.size
  · exact .inr (h.word_at pc.toNat (hlength ▸ hpc))
  · refine .inl ⟨Array.getElem?_eq_none (by omega), Array.getElem?_eq_none ?_⟩
    rw [h.size_eq, hlength]
    omega

/-- Machines with the two programs that start alike go on alike, for any number of steps. -/
structure Program.Lockstep (p q : Program) (cpu : Cpu) (data : DataMemory) (state : RunState) (n : Nat) : Prop where
  step_agrees : (Machine.stepAt ⟨cpu, p, data, state⟩ n).Agrees (Machine.stepAt ⟨cpu, q, data, state⟩ n)
  cpu_eq : (Machine.after ⟨cpu, q, data, state⟩ n).cpu = (Machine.after ⟨cpu, p, data, state⟩ n).cpu
  data_eq : (Machine.after ⟨cpu, q, data, state⟩ n).data = (Machine.after ⟨cpu, p, data, state⟩ n).data
  state_eq : (Machine.after ⟨cpu, q, data, state⟩ n).state = (Machine.after ⟨cpu, p, data, state⟩ n).state

/-- A program of instructions behaves as what its disassembly assembles to. -/
theorem lockstep_of_reassembly {p : Program} (h : p.Decodes) :
    ∃ a, assemble p.disassemble.text = .ok a ∧ ∀ cpu data state n, p.Lockstep a.program cpu data state n := by
  obtain ⟨a, ha, hsymbols, hwords⟩ := p.assemble_disassemble
  refine ⟨a, ha, fun cpu data state n => ?_⟩
  have hstart : Machine.Agrees ⟨cpu, p, data, state⟩ ⟨cpu, a.program, data, state⟩ :=
    ⟨(Program.reassembled_of_words hsymbols hwords).hasCanonical h, rfl, rfl, rfl⟩
  have hafter := hstart.after n
  exact ⟨hstart.stepAt n, hafter.cpu_eq, hafter.data_eq, hafter.state_eq⟩

/-- A move and a jump with numbers in the fields that they do not use. -/
theorem lockstep_of_unused_fields :
    let p : Program := ⟨#[0x0047, 0xE1C7], by decide⟩
    p.instructions = [⟨.mova, 1, 0, 7⟩, ⟨.jmp, 7, 0, 7⟩] ∧
      ∃ a, assemble p.disassemble.text = .ok a ∧ ∀ n, p.Lockstep a.program .zero .empty .idle n := by
  intro p
  obtain ⟨a, ha, hlockstep⟩ := lockstep_of_reassembly (p := p) (by decide)
  exact ⟨by decide, a, ha, hlockstep .zero .empty .idle⟩

end Isa16
