import Isa16.Instruction.Fields
import Isa16.Text.Hex
/-!
# The processor

Eight registers, a program counter and four flags, and the traps that can stop
the processor at an instruction.
-/

namespace Isa16

structure Flags where
  /-- Overflow, which no instruction sets. -/
  v : Bool
  /-- Carry, which no instruction sets. -/
  c : Bool
  n : Bool
  z : Bool
deriving DecidableEq

namespace Flags

def empty : Flags := ⟨false, false, false, false⟩

/-- N is the sign of a value and Z tells whether it is zero. -/
def ofResult (value : UInt16) : Flags := ⟨false, false, 0x8000 ≤ value, value = 0⟩

/-- The flags that are set. -/
def names (f : Flags) : List String :=
  [(f.v, "V"), (f.c, "C"), (f.n, "N"), (f.z, "Z")].filterMap fun (set, name) =>
    if set then some name else none

def text (f : Flags) : String := " | ".intercalate f.names

/-- The flags as a report shows them. -/
def report (f : Flags) : String := if f = empty then "Flags(0x0)" else s!"Flags({f.text})"

end Flags

structure Cpu where
  pc : UInt16
  flags : Flags
  regs : Vector UInt16 8
deriving DecidableEq

namespace Cpu

def zero : Cpu := ⟨0, .empty, Vector.replicate 8 0⟩

def reg (cpu : Cpu) (r : Reg) : UInt16 := cpu.regs[r]

def setReg (cpu : Cpu) (r : Reg) (value : UInt16) : Cpu := { cpu with regs := cpu.regs.set r value }

end Cpu

/-- Why an instruction could not be carried out. -/
inductive Trap
  /-- The word at `pc` has an operation code that is not in the table. -/
  | invalidOpcode (pc : UInt16) (opcode : Fin 128)
  /-- The bus refused an access. -/
  | bus (addr : UInt16) (reason : String)
deriving DecidableEq

namespace Trap

def message : Trap → String
  | .invalidOpcode pc opcode => "HALT: bad opcode " ++ Text.Hex.byte opcode ++ " at " ++ Text.Hex.word pc
  | .bus addr reason => "Bus error at 0x" ++ Text.Hex.lowerWord addr ++ ": " ++ reason

end Trap

end Isa16
