import Isa16.Processor.State
import Isa16.Instruction.Basic
import Isa16.Memory.Bus
/-!
# What instructions do

What an instruction asks for is an `Effect`, which depends on the processor
alone; carrying it out is the only place where the processor meets the bus. A
refused access leaves the processor as it was before the instruction.
-/

namespace Isa16

/-- What an instruction asks for. -/
inductive Effect
  /-- Register `da` gets the value. -/
  | write (value : UInt16)
  /-- Register `da` gets the word at the address. -/
  | load (addr : UInt16)
  | store (addr value : UInt16)
  /-- The next instruction is at `target`, if there is one. -/
  | branch (target : Option UInt16)
deriving DecidableEq

namespace Cpu

/-- The address of a taken branch. -/
def branchTarget (cpu : Cpu) (i : Instruction) : UInt16 := cpu.pc + UInt16.ofInt i.offset

def effect (cpu : Cpu) (i : Instruction) : Effect :=
  let a := cpu.reg i.aa
  let b := cpu.reg i.ba
  match i.opcode with
  | .mova => .write a
  | .inc => .write (a + 1)
  | .add => .write (a + b)
  | .sub => .write (a - b)
  | .dec => .write (a - 1)
  | .and => .write (a &&& b)
  | .or => .write (a ||| b)
  | .xor => .write (a ^^^ b)
  | .not => .write (~~~a)
  | .movb => .write b
  | .shr => .write (b >>> 1)
  | .shl => .write (b <<< 1)
  | .ldi => .write (UInt16.ofNat i.ba)
  | .adi => .write (a + UInt16.ofNat i.ba)
  | .ld => .load a
  | .st => .store a b
  | .brz => .branch (if a = 0 then some (cpu.branchTarget i) else none)
  | .brn => .branch (if 0x8000 ≤ a then some (cpu.branchTarget i) else none)
  | .jmp => .branch (some a)

/-- The processor after an instruction that wrote `value` to its register. -/
def written (cpu : Cpu) (i : Instruction) (value : UInt16) : Cpu :=
  { cpu.setReg i.da value with
    flags := match i.opcode.row.flags with
      | .result => .ofResult value
      | .clear => .empty }

/-- The processor after an instruction that wrote no register. -/
def cleared (cpu : Cpu) : Cpu := { cpu with flags := .empty }

/-- Carries out an instruction, without moving on to the next one. The answer is the target of
the branch or jump, if one was taken. -/
def execute {β : Type} [Bus β] (cpu : Cpu) (bus : β) (i : Instruction) :
    Except Trap (Option UInt16) × Cpu × β :=
  match cpu.effect i with
  | .write value => (.ok none, cpu.written i value, bus)
  | .load addr =>
    match Bus.read bus addr with
    | (.ok value, bus) => (.ok none, cpu.written i value, bus)
    | (.error reason, bus) => (.error (.bus addr reason), cpu, bus)
  | .store addr value =>
    match Bus.write bus addr value with
    | (.ok (), bus) => (.ok none, cpu.cleared, bus)
    | (.error reason, bus) => (.error (.bus addr reason), cpu, bus)
  | .branch target => (.ok target, cpu.cleared, bus)

end Cpu

end Isa16
