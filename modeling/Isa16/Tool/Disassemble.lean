import Isa16.Tool.Report
import Isa16.Disassembly
import Isa16.Processor.State
import Isa16.Json
/-!
# Disassembling a file

The tool that shows a program as instructions. Its text form assembles again,
as everything but the instructions is a comment.
-/

namespace Isa16.Tool

structure DisassembleOptions where
  program : String
  /-- Shows the address and the word in front of each instruction. -/
  showWords : Bool := false
  format : Format := .text
  out? : Option String := none

def disassemblyLineText (showWords : Bool) (l : DisassemblyLine) : String :=
  let words := if showWords then s!"{Text.Hex.word l.addr}: {Text.Hex.word l.word}  " else ""
  words ++ l.text ++ "\n"

/-- A comment about the word that ended a disassembly. -/
def stopText (stop : UInt16 × Fin 128) : String :=
  "// " ++ (Trap.invalidOpcode stop.1 stop.2).message ++ "\n"

def disassemblyText (showWords : Bool) (d : Disassembly) : String :=
  "// Disassembled with sc16-disasm\n" ++ String.join (d.lines.map (disassemblyLineText showWords))
    ++ (d.stoppedAt.map stopText).getD ""

def disassemblyJson (d : Disassembly) : Json :=
  .object
    [("lines", .array (d.lines.map fun l =>
        .object [("addr", .number l.addr.toNat), ("word", .number l.word.toNat), ("text", .string l.text)])),
      ("stopped_at", match d.stoppedAt with
        | none => .null
        | some (addr, opcode) => .array [.number addr.toNat, .number opcode])]

/-- Disassembles a program file. -/
def disassembleFile (o : DisassembleOptions) (files : Files) : Report :=
  Report.ofExcept do
    let d := (← loadProgram files o.program).disassemble
    let text := match o.format with
      | .text => disassemblyText o.showWords d
      | .json => (disassemblyJson d).render
    match o.out? with
    | none => return { output := text }
    | some path => return { writes := [(path, text)] }

end Isa16.Tool
