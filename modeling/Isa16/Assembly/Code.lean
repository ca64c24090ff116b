import Isa16.Assembly.Argument
import Isa16.Program
/-!
# Machine code

The words of laid out lines, each with the source line it belongs to. Code has
at most 65536 words, so it is a program.
-/

namespace Isa16.Assembly

/-- Instructions in the order of their addresses, each with its source line. -/
structure Code where
  entries : Array (Numbered Instruction)
  size_le : entries.size ≤ 65536

namespace Code

def empty : Code := ⟨#[], by simp⟩

def size (c : Code) : Nat := c.entries.size

def words (c : Code) : Array UInt16 := c.entries.map (·.val.word)

/-- The source line of each word. -/
def lineMap (c : Code) : Array Nat := c.entries.map (·.line)

def program (c : Code) : Program := ⟨c.words, by simpa [words] using c.size_le⟩

/-- Adds the instruction that `read` makes of the next address. -/
def append (c : Code) (line : Nat) (read : Nat → Except Cause Instruction) : Except Diagnostic Code :=
  if h : c.entries.size < 65536 then do
    let i ← atLine line (read c.entries.size)
    return ⟨c.entries.push ⟨line, i⟩, by simp only [Array.size_push]; omega⟩
  else throw ⟨line, .programTooLarge⟩

/-- Adds what a line comes to. -/
def appendLine (symbols : SymbolTable) (c : Code) (x : Numbered Line) : Except Diagnostic Code :=
  match x.val with
  | .note _ | .label _ => .ok c
  | .made i => c.append x.line fun _ => .ok i
  | .written text => c.append x.line fun pc => readInstruction symbols pc (Text.code text.toList)

/-- The code of laid out lines. -/
def ofLayout (l : Layout) : Except Diagnostic Code := l.lines.foldlM (appendLine l.symbols) empty

end Code

end Isa16.Assembly
