import Isa16.Instruction.Fields
/-!
# The operations

Nineteen operations and the table that describes them. The assembler, the
decoder, the printer and the processor all take an operation's code, name,
operands and flag rule from its row.
-/

namespace Isa16

inductive Opcode
  | mova | inc | add | sub | dec | and | or | xor | not | movb | shr | shl | ld | st | adi | ldi
  | brz | brn | jmp
deriving DecidableEq

/-- An operand position: what is written there, and the field that holds it. -/
inductive Operand
  /-- A register in field `da`, which most operations write. -/
  | da
  /-- A register in field `aa`. -/
  | aa
  /-- A register in field `ba`. -/
  | ba
  /-- A number in field `ba`. -/
  | imm
  /-- A displacement in fields `da` and `ba`. -/
  | offset
deriving DecidableEq

/-- What an operation does to the flags. -/
inductive FlagRule
  /-- N and Z tell about the written value, V and C are cleared. -/
  | result
  /-- All four are cleared. -/
  | clear
deriving DecidableEq

/-- A row of the table. -/
structure OpcodeRow where
  code : Fin 128
  mnemonic : String
  operands : List Operand
  flags : FlagRule

namespace Opcode

/-- All operations, in the order of their codes. -/
def all : List Opcode :=
  [.mova, .inc, .add, .sub, .dec, .and, .or, .xor, .not, .movb, .shr, .shl, .ld, .st, .adi, .ldi,
    .brz, .brn, .jmp]

def row : Opcode → OpcodeRow
  | .mova => ⟨0x00, "mova", [.da, .aa], .result⟩
  | .inc => ⟨0x01, "inc", [.da, .aa], .result⟩
  | .add => ⟨0x02, "add", [.da, .aa, .ba], .result⟩
  | .sub => ⟨0x05, "sub", [.da, .aa, .ba], .result⟩
  | .dec => ⟨0x06, "dec", [.da, .aa], .result⟩
  | .and => ⟨0x08, "and", [.da, .aa, .ba], .result⟩
  | .or => ⟨0x09, "or", [.da, .aa, .ba], .result⟩
  | .xor => ⟨0x0A, "xor", [.da, .aa, .ba], .result⟩
  | .not => ⟨0x0B, "not", [.da, .aa], .result⟩
  | .movb => ⟨0x0C, "movb", [.da, .ba], .result⟩
  | .shr => ⟨0x0D, "shr", [.da, .ba], .clear⟩
  | .shl => ⟨0x0E, "shl", [.da, .ba], .clear⟩
  | .ld => ⟨0x10, "ld", [.da, .aa], .clear⟩
  | .st => ⟨0x20, "st", [.aa, .ba], .clear⟩
  | .adi => ⟨0x42, "adi", [.da, .aa, .imm], .result⟩
  | .ldi => ⟨0x4C, "ldi", [.da, .imm], .clear⟩
  | .brz => ⟨0x60, "brz", [.aa, .offset], .clear⟩
  | .brn => ⟨0x61, "brn", [.aa, .offset], .clear⟩
  | .jmp => ⟨0x70, "jmp", [.aa], .clear⟩

def code (op : Opcode) : Fin 128 := op.row.code

def mnemonic (op : Opcode) : String := op.row.mnemonic

def operands (op : Opcode) : List Operand := op.row.operands

/-- Whether the operation can name the next instruction. -/
def isBranch : Opcode → Bool
  | .brz | .brn | .jmp => true
  | _ => false

/-- The operation with a given code. -/
def ofCode? (code : Fin 128) : Option Opcode := all.find? (·.code = code)

/-- The operation with a given name; the case of letters `A` to `Z` does not matter. -/
def ofMnemonic? (name : String) : Option Opcode :=
  all.find? fun op => op.mnemonic.toList = name.toList.map Char.toLower

@[simp] theorem ofCode?_code (op : Opcode) : ofCode? op.code = some op := by
  cases op <;> decide

theorem code_of_ofCode? {code : Fin 128} {op : Opcode} (h : ofCode? code = some op) : op.code = code := by
  simpa using List.find?_some h

theorem ofCode?_eq_some_iff {code : Fin 128} {op : Opcode} : ofCode? code = some op ↔ op.code = code :=
  ⟨code_of_ofCode?, fun h => h ▸ ofCode?_code op⟩

end Opcode

end Isa16
