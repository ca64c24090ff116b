import Isa16.Processor.State
import Isa16.Instruction.Printer
/-!
# Traces

The record of an instruction that was carried out, and its line of columns in
the log of a run.
-/

namespace Isa16

/-- An instruction that was carried out and the state it left behind. -/
structure Trace where
  pc : UInt16
  instruction : Instruction
  regs : Vector UInt16 8
  flags : Flags
  nextPc : UInt16
deriving DecidableEq

namespace Trace

/-- The letters of the flags, with a space for each that is not set. -/
def flagColumns (f : Flags) : String :=
  String.ofList ([(f.v, 'V'), (f.c, 'C'), (f.n, 'N'), (f.z, 'Z')].map fun (set, c) => if set then c else ' ')

def regColumns (regs : Vector UInt16 8) : String :=
  String.join (regs.toList.mapIdx fun r value => " " ++ regText r ++ ": " ++ Text.Hex.word value)

/-- The trace as one line of columns. -/
def text (t : Trace) : String :=
  Text.Hex.word t.pc ++ ": " ++ Text.Hex.word t.instruction.word ++ " "
    ++ Text.padEnd 4 t.instruction.opcode.mnemonic ++ " "
    ++ Text.padEnd 8 (",".intercalate t.instruction.operands)
    ++ regColumns t.regs ++ " " ++ flagColumns t.flags

end Trace

end Isa16
