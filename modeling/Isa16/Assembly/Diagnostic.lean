import Isa16.Instruction.Opcode
/-!
# Diagnostics

Why a source is refused: a cause and the number of the source line it was met
on. An instruction that a macro call makes belongs to the line of the call.
-/

namespace Isa16.Assembly

inductive Cause
  /-- A line begins like a label and is none. -/
  | invalidLabel (label : String)
  | duplicateSymbol (name : String)
  | undefinedSymbol (name : String)
  /-- An operand is neither a register, a symbol nor a number. -/
  | unknownOperand (operand : String)
  | unknownMnemonic (mnemonic : String)
  /-- The operands of a known operation do not fit it. -/
  | wrongOperands (opcode : Opcode)
  /-- A displacement has more than six bits. -/
  | branchTooFar (offset : Int)
  | malformedMacro (text : String)
  | valueOutOfRange (value : String)
  | programTooLarge
deriving DecidableEq

namespace Cause

def message : Cause → String
  | .invalidLabel label => "invalid label name `" ++ label ++ "`"
  | .duplicateSymbol name => "duplicate symbol definition ." ++ name
  | .undefinedSymbol name => "undefined symbol ." ++ name
  | .unknownOperand operand => "unknown argument `" ++ operand ++ "`"
  | .unknownMnemonic mnemonic => "unknown instruction `" ++ mnemonic ++ "`"
  | .wrongOperands opcode => "invalid args for " ++ opcode.mnemonic
  | .branchTooFar offset => s!"branch too far (tried to branch {offset})"
  | .malformedMacro text => "malformed macro `" ++ text ++ "`"
  | .valueOutOfRange value => s!"value {value} does not fit in 16 bits"
  | .programTooLarge => "program does not fit in 65536 words"

end Cause

structure Diagnostic where
  line : Nat
  cause : Cause
deriving DecidableEq

namespace Diagnostic

def message (d : Diagnostic) : String := s!"line {d.line}: {d.cause.message}"

end Diagnostic

/-- Adds the line to a cause. -/
def atLine {α : Type} (line : Nat) : Except Cause α → Except Diagnostic α
  | .ok a => .ok a
  | .error cause => .error ⟨line, cause⟩

end Isa16.Assembly
