import Isa16.Tool.Run
import Isa16.Tool.Disassemble
import Isa16.Tool.Assemble
/-!
# Command lines

The three tools and the arguments they take. An option and its value are two
arguments; where an option is repeated, the last one counts.
-/

namespace Isa16.Tool

/-- A tool with its options. -/
inductive Command
  | run (o : RunOptions)
  | disassemble (o : DisassembleOptions)
  | assemble (o : AssembleOptions)

/-- Reads the arguments of `sc16-run`; the program is the argument that is no option. -/
def RunOptions.read (o : RunOptions) (program? : Option String) : List String → Option RunOptions
  | [] => program?.map fun program => { o with program }
  | "--asm" :: rest => RunOptions.read { o with source := true } program? rest
  | "--trace" :: rest => RunOptions.read { o with trace := true } program? rest
  | "--data" :: path :: rest => RunOptions.read { o with data? := some path } program? rest
  | "--max-steps" :: number :: rest => do
    RunOptions.read { o with maxSteps := ← Text.natural? 10 0x10000000000000000 number.toList } program? rest
  | "--format" :: name :: rest => do
    RunOptions.read { o with format := ← Format.ofName? name } program? rest
  | path :: rest => if program?.isSome then none else RunOptions.read o (some path) rest

/-- Reads the arguments of `sc16-disasm`. -/
def DisassembleOptions.read (o : DisassembleOptions) (program? : Option String) :
    List String → Option DisassembleOptions
  | [] => program?.map fun program => { o with program }
  | "--show-words" :: rest => DisassembleOptions.read { o with showWords := true } program? rest
  | "--out" :: path :: rest => DisassembleOptions.read { o with out? := some path } program? rest
  | "--format" :: name :: rest => do
    DisassembleOptions.read { o with format := ← Format.ofName? name } program? rest
  | path :: rest => if program?.isSome then none else DisassembleOptions.read o (some path) rest

/-- Reads the arguments of `asm`, which are all options. -/
def AssembleOptions.read (o : AssembleOptions) (input? output? : Option String) :
    List String → Option AssembleOptions
  | [] => do return { o with input := ← input?, output := ← output? }
  | "--listing" :: rest => AssembleOptions.read { o with listing := true } input? output? rest
  | "--intermediate" :: path :: rest =>
    AssembleOptions.read { o with intermediate? := some path } input? output? rest
  | "--symbols-out" :: path :: rest =>
    AssembleOptions.read { o with symbols? := some path } input? output? rest
  | "--json" :: path :: rest => AssembleOptions.read { o with json? := some path } input? output? rest
  | option :: path :: rest =>
    if option = "-i" ∨ option = "--input" then AssembleOptions.read o (some path) output? rest
    else if option = "-o" ∨ option = "--output" then AssembleOptions.read o input? (some path) rest
    else none
  | _ => none

namespace Command

/-- Reads the name of a tool and its arguments. -/
def read (tool : String) (args : List String) : Option Command :=
  match tool with
  | "sc16-run" => (RunOptions.read ⟨"", false, none, 10000000, false, .text⟩ none args).map .run
  | "sc16-disasm" => (DisassembleOptions.read ⟨"", false, .text, none⟩ none args).map .disassemble
  | "asm" => (AssembleOptions.read ⟨"", "", false, none, none, none⟩ none none args).map .assemble
  | _ => none

/-- The files that a command may read. -/
def inputs : Command → List String
  | .run o => o.program :: o.data?.toList
  | .disassemble o => [o.program]
  | .assemble o => [o.input]

def report (files : Files) : Command → Report
  | .run o => Tool.run o files
  | .disassemble o => disassembleFile o files
  | .assemble o => assembleFile o files

end Command

/-- The arguments that the tools take. -/
def usage : String :=
  "usage:\n"
    ++ "  sc16-run [--asm] [--data FILE] [--max-steps N] [--trace] [--format text|json] PROGRAM\n"
    ++ "  sc16-disasm [--show-words] [--format text|json] [--out FILE] PROGRAM\n"
    ++ "  asm -i FILE -o FILE [--listing] [--intermediate FILE] [--symbols-out FILE] [--json FILE]\n"

end Isa16.Tool
