import Isa16.Tool.Load
/-!
# Reports

What a tool does to the world, as a value: texts for its two output channels,
files to write in order, and whether it failed.
-/

namespace Isa16.Tool

structure Report where
  output : String := ""
  errors : String := ""
  /-- Paths and contents of the files to write. -/
  writes : List (String × String) := []
  failed : Bool := false

namespace Report

def ofFailure (f : Failure) : Report := { errors := f.report, failed := true }

def ofExcept : Except Failure Report → Report
  | .ok r => r
  | .error f => ofFailure f

end Report

/-- Writes files in order, up to the first that is refused; `write` answers with the reason if it
refuses. -/
def writeAll {m : Type → Type} [Monad m] (write : String → String → m (Option String)) :
    List (String × String) → m (Option Failure)
  | [] => return none
  | (path, text) :: rest => do
    match ← write path text with
    | none => writeAll write rest
    | some reason => return some ⟨reason, none⟩

/-- How a result is written. -/
inductive Format
  | text
  | json
deriving DecidableEq

namespace Format

def ofName? : String → Option Format
  | "text" => some .text
  | "json" => some .json
  | _ => none

end Format

end Isa16.Tool
