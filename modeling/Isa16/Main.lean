import Isa16.Tool.Command
/-!
# The program

Runs a tool, whose name is the first argument, on the files of the system.
-/

namespace Isa16.Main

open Isa16.Tool

/-- Why an access to a file failed. -/
def reason (e : IO.Error) : String :=
  match e with
  | .noFileOrDirectory .. => "No such file or directory (os error 2)"
  | e => toString e

/-- Reads files ahead of the tool that asks for them. -/
def readAll (paths : List String) : IO Files := do
  let contents ← paths.mapM fun (path : String) => do
    match ← (IO.FS.readFile path).toBaseIO with
    | .ok text => return (path, Except.ok text)
    | .error e => return (path, Except.error (reason e))
  return fun path => (contents.lookup path).getD (.error "not an input of this tool")

/-- Writes a file, and answers with the reason if that fails. -/
def write (path text : String) : IO (Option String) := do
  match ← (IO.FS.writeFile path text).toBaseIO with
  | .ok () => return none
  | .error e => return some (reason e)

/-- Does what a report says. -/
def perform (r : Report) : IO UInt32 := do
  IO.print r.output
  IO.eprint r.errors
  match ← writeAll write r.writes with
  | none => return if r.failed then 1 else 0
  | some f =>
    IO.eprint f.report
    return 1

end Isa16.Main

def main (args : List String) : IO UInt32 := do
  match args with
  | tool :: rest =>
    match Isa16.Tool.Command.read tool rest with
    | some command =>
      let files ← Isa16.Main.readAll command.inputs
      Isa16.Main.perform (command.report files)
    | none =>
      IO.eprint Isa16.Tool.usage
      return 2
  | [] =>
    IO.eprint Isa16.Tool.usage
    return 2
