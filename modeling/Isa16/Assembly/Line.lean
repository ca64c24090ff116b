import Isa16.Source.Statement
import Isa16.Assembly.Constant
/-!
# Logical lines

What the statements of a source come to once macro calls are expanded: notes,
labels, instructions, and loads of addresses that are not known yet. A line
takes part in addressing by its width, the number of words it fills.
-/

namespace Isa16.Assembly

open Isa16.Source (MacroCall Statement)

/-- Something on a line of the source. -/
structure Numbered (α : Type) where
  line : Nat
  val : α
deriving DecidableEq

/-- A logical line that needs no address to be known. -/
inductive Line
  | note (text : String)
  | label (name : String)
  /-- An instruction as the source has it, with its comment. -/
  | written (text : String)
  /-- An instruction that stands for a part of a macro call. -/
  | made (i : Instruction)
deriving DecidableEq

/-- What a load puts into its register. -/
inductive Target
  | symbol (name : String)
  /-- The address of the word that follows the load after `tail` more words. -/
  | returnAddress (tail : Nat)
deriving DecidableEq

structure Load where
  reg : Reg
  target : Target
deriving DecidableEq

inductive Item
  | line (l : Line)
  | load (l : Load)
deriving DecidableEq

namespace Line

def width : Line → Nat
  | .note _ | .label _ => 0
  | .written _ | .made _ => 1

end Line

namespace Item

/-- The width of a line, and for a load the least width it can have. -/
def leastWidth : Item → Nat
  | .line l => l.width
  | .load _ => 1

def note (text : String) : Item := .line (.note text)

def made (i : Instruction) : Item := .line (.made i)

end Item

/-! ## Expansion -/

/-- The register that points to the top of the call stack. -/
def stackReg : Reg := 7

/-- The register that holds a return address. -/
def linkReg : Reg := 6

/-- The note behind the lines of a macro call. -/
def endNote : String := "//%ENDM"

/-- The note in front of the lines of a macro call. -/
def beginNote (call : String) : String := "//%M " ++ call

/-- A call pushes the return address and jumps. -/
def callTail (routine : Reg) : List Instruction :=
  [⟨.inc, stackReg, stackReg, 0⟩, ⟨.st, 0, stackReg, linkReg⟩, ⟨.jmp, 0, routine, 0⟩]

/-- A return pops the return address and jumps there. -/
def returnSequence : List Instruction :=
  [⟨.ld, linkReg, stackReg, 0⟩, ⟨.dec, stackReg, stackReg, 0⟩, ⟨.jmp, 0, linkReg, 0⟩]

/-- The lines between two notes. -/
def bracket (call : String) (items : List Item) : List Item :=
  .note (beginNote call) :: items ++ [.note endNote]

/-- The lines that a macro call stands for. -/
def expandCall : MacroCall → List Item
  | .load reg value =>
    bracket s!"SLDI {regText reg},{value}" ((constant value).map fun s => .made (s.instruction reg))
  | .loadSymbol reg name => [.load ⟨reg, .symbol name⟩]
  | .initStack => bracket "ISTK" [.made ⟨.xor, stackReg, stackReg, stackReg⟩]
  | .call routine =>
    let tail := callTail routine
    bracket s!"CALL {regText routine}" (.load ⟨linkReg, .returnAddress tail.length⟩ :: tail.map .made)
  | .ret => bracket "RET" (returnSequence.map .made)

/-- The lines that a statement stands for; a label is checked here. -/
def expand : Statement → Except Cause (List Item)
  | .note text => .ok [.note text]
  | .label code =>
    match Source.labelName? code.toList with
    | some name => .ok [.line (.label name)]
    | none => .error (.invalidLabel code)
  | .call c => .ok (expandCall c)
  | .instruction text => .ok [.line (.written text)]

/-! ## Whole sources -/

/-- Applies a reading to each numbered thing, up to the first that it refuses. -/
def readEach {α β : Type} (read : α → Except Cause β) (xs : List (Numbered α)) :
    Except Diagnostic (List (Numbered β)) :=
  xs.mapM fun x => atLine x.line ((read x.val).map (⟨x.line, ·⟩))

/-- The lines of a text, numbered from 1. -/
def numberedLines (text : List Char) : List (Numbered (List Char)) :=
  ((Text.lines text).zipIdx 1).map fun (line, n) => ⟨n, line⟩

/-- The logical lines of a source. A wrong macro call anywhere is reported before a wrong label. -/
def itemsOf (source : String) : Except Diagnostic (List (Numbered Item)) := do
  let lines := numberedLines (Source.normalizeText source.toList)
  let statements ← readEach Statement.read lines
  let expanded ← readEach expand statements
  return expanded.flatMap fun x => x.val.map (⟨x.line, ·⟩)

end Isa16.Assembly
