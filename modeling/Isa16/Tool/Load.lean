import Isa16.Program
import Isa16.Memory.Image
/-!
# Files

Reading sources, programs and data images from files. The tools see the file
system as a function that gives a file's contents, or the reason why there are
none.
-/

namespace Isa16.Tool

/-- The contents of the file at a path, or why it cannot be read. -/
abbrev Files := String → Except String String

/-- Why a tool gives up: what it tried, and what stopped it if that is not the whole story. -/
structure Failure where
  message : String
  cause? : Option String
deriving DecidableEq

namespace Failure

/-- The failure on one line. -/
def chain (f : Failure) : String :=
  match f.cause? with
  | none => f.message
  | some cause => f.message ++ ": " ++ cause

/-- The failure as a tool reports it. -/
def report (f : Failure) : String :=
  match f.cause? with
  | none => "Error: " ++ f.message ++ "\n"
  | some cause => "Error: " ++ f.message ++ "\n\nCaused by:\n    " ++ cause ++ "\n"

end Failure

def readSource (files : Files) (path : String) : Except Failure String :=
  match files path with
  | .ok text => .ok text
  | .error reason => .error ⟨"reading " ++ path, some reason⟩

/-- Reads a program of at least one word; listings are read too. -/
def loadProgram (files : Files) (path : String) : Except Failure Program := do
  let program := Program.ofListing (← readSource files path)
  if program.size = 0 then throw ⟨path ++ ": no program words found", none⟩ else return program

/-- Reads a data image. -/
def loadData (files : Files) (path : String) : Except Failure DataMemory := do
  match DataMemory.ofImage (← readSource files path) with
  | .ok data => return data
  | .error e => throw ⟨"loading " ++ path, some e.message⟩

end Isa16.Tool
