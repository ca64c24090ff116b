import Isa16.Program
import Isa16.Instruction.Printer
/-!
# Disassembly

A program as instructions, front to back, up to the first word whose operation
code is not in the table. Branches are shown and never followed.
-/

namespace Isa16

/-- An instruction at an address. -/
structure DisassemblyLine where
  addr : UInt16
  instruction : Instruction
deriving DecidableEq

namespace DisassemblyLine

def word (l : DisassemblyLine) : UInt16 := l.instruction.word

def text (l : DisassemblyLine) : String := l.instruction.column

end DisassemblyLine

structure Disassembly where
  lines : List DisassemblyLine
  /-- The address and the operation code of the word that is no instruction. -/
  stoppedAt : Option (UInt16 × Fin 128)

/-- The instructions a program begins with. -/
def Program.instructions (p : Program) : List Instruction :=
  ((p.words.toList.map Instruction.ofWord?).takeWhile Option.isSome).filterMap id

/-- Disassembles a program. -/
def Program.disassemble (p : Program) : Disassembly :=
  let instructions := p.instructions
  let stop := UInt16.ofNat instructions.length
  { lines := instructions.mapIdx fun addr i => ⟨UInt16.ofNat addr, i⟩
    stoppedAt := p.words[instructions.length]?.map fun word => (stop, (Fields.unpack word).op) }

namespace Disassembly

/-- The instructions one a line. -/
def text (d : Disassembly) : String := String.join (d.lines.map fun l => l.text ++ "\n")

end Disassembly

/-- Hexadecimal text as instructions one a line; lines that begin with `//` are comments. -/
def disassemble (text : String) : String := (Program.ofListing text).disassemble.text

end Isa16
