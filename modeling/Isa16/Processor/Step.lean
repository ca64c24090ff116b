import Isa16.Processor.Effect
import Isa16.Program
/-!
# Steps

A step fetches a word, decodes it, carries the instruction out and moves on. A
step that traps leaves processor and program counter as they were, so it can be
made again.
-/

namespace Isa16

/-- An instruction that was carried out. -/
structure Retired where
  pc : UInt16
  instruction : Instruction
  /-- The target of the branch or jump that was taken. -/
  target : Option UInt16
  halted : Bool

/-- What came of a step. -/
inductive Outcome
  /-- The program counter was past the program, and nothing was done. -/
  | ended
  | retired (r : Retired)
  | trapped (t : Trap)

namespace Cpu

/-- Where the processor goes from `pc`, and whether it halts there: at a branch to itself, and at
the last address, which has no successor. -/
def advance (pc : UInt16) : Option UInt16 → UInt16 × Bool
  | some target => (target, target = pc)
  | none => if pc = 0xFFFF then (pc, true) else (pc + 1, false)

/-- Carries out the instruction at the program counter and moves on. -/
def step {β : Type} [Bus β] (cpu : Cpu) (program : Program) (bus : β) : Outcome × Cpu × β :=
  match program.fetch cpu.pc with
  | none => (.ended, cpu, bus)
  | some word =>
    match Instruction.ofWord? word with
    | none => (.trapped (.invalidOpcode cpu.pc (Fields.unpack word).op), cpu, bus)
    | some i =>
      match cpu.execute bus i with
      | (.error trap, cpu, bus) => (.trapped trap, cpu, bus)
      | (.ok target, next, bus) =>
        let (pc, halted) := advance cpu.pc target
        (.retired ⟨cpu.pc, i, target, halted⟩, { next with pc }, bus)

end Cpu

end Isa16
