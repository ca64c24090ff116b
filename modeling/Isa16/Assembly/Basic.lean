import Isa16.Assembly.Code
/-!
# Assembling

`assemble` takes a source to its machine code, in four stages with a type
each: logical lines, layout, code, and the result that holds all of them. The
first diagnostic of the first stage that has one is the answer for a source
that is refused.
-/

namespace Isa16

/-- A source that was assembled. -/
structure Assembly where
  layout : Assembly.Layout
  code : Assembly.Code

/-- Assembles a source. -/
def assemble (source : String) : Except Assembly.Diagnostic Assembly := do
  let items ← Assembly.itemsOf source
  let layout ← Assembly.Layout.ofItems items
  let code ← Assembly.Code.ofLayout layout
  return ⟨layout, code⟩

namespace Assembly

def symbols (a : Assembly) : SymbolTable := a.layout.symbols

def program (a : Assembly) : Program := a.code.program

/-- All words as four digits each. -/
def hex (a : Assembly) : String := a.program.toHex

/-- The number of instructions. -/
def size (a : Assembly) : Nat := a.code.size

/-- The source line of each instruction. -/
def lineMap (a : Assembly) : Array Nat := a.code.lineMap

/-- The source line of the instruction at an address. -/
def sourceLine? (a : Assembly) (pc : UInt16) : Option Nat := a.lineMap[pc.toNat]?

/-- Labels by address, and by name where addresses are equal. -/
def symbolList (a : Assembly) : List (UInt16 × String) :=
  (a.symbols.toList.map fun (name, addr) => (addr, name)).mergeSort fun x y => x.1 ≤ y.1

end Assembly

end Isa16
