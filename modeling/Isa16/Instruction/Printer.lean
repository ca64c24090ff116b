import Isa16.Instruction.Basic
import Isa16.Text.Column
/-!
# Instructions as text

Operands in the order of assembly source: `r` and a number for a register, a
decimal number for anything else. `text` writes an instruction as source code,
`column` with the name padded so that operands line up.
-/

namespace Isa16

def regText (r : Nat) : String := "r" ++ toString r

/-- An operation with its operands already written. -/
def Opcode.text (op : Opcode) (operands : List String) : String :=
  op.mnemonic ++ " " ++ ",".intercalate operands

namespace Instruction

/-- What stands at an operand position. -/
def operandText (i : Instruction) : Operand → String
  | .da => regText i.da
  | .aa => regText i.aa
  | .ba => regText i.ba
  | .imm => toString i.ba.val
  | .offset => toString i.offset

def operands (i : Instruction) : List String := i.opcode.operands.map i.operandText

def text (i : Instruction) : String := i.opcode.text i.operands

def column (i : Instruction) : String :=
  Text.padEnd 4 i.opcode.mnemonic ++ " " ++ ",".intercalate i.operands

end Instruction

end Isa16
