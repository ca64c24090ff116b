import Isa16.Assembly.Layout
/-!
# Instructions as the source writes them

The text of an instruction is cut into a name and arguments. An argument is a
register, a symbol or a number, whatever the operation is; only then is each
one put into the field of its operand, if it fits there. Fields without an
operand stay zero.
-/

namespace Isa16.Assembly

inductive Argument
  | register (r : Reg)
  /-- A symbol, as its address. -/
  | address (addr : UInt16)
  | number (n : Int)
deriving DecidableEq

namespace Argument

/-- Reads an argument; a number has 32 bits. -/
def read (symbols : SymbolTable) (token : List Char) : Except Cause Argument :=
  match Source.register? token with
  | some r => .ok (.register r)
  | none =>
    match token with
    | '.' :: name =>
      match symbols[String.ofList name]? with
      | some addr => .ok (.address addr)
      | none => .error (.undefinedSymbol (String.ofList name))
    | _ =>
      match Text.integer? 0x80000000 token with
      | some n => .ok (.number n)
      | none => .error (.unknownOperand (String.ofList token))

end Argument

/-- The name of an instruction and its arguments, which are separated by commas. Blanks in and
around arguments do not count. -/
def cutInstruction (code : List Char) : List Char × List (List Char) :=
  let (name, rest) := Text.cutWord code
  let rest := rest.filter fun c => ! Text.isBlank c
  (name, if rest.isEmpty then [] else rest.splitOn ',')

/-- Puts a displacement into its two fields. -/
def placeOffset (i : Instruction) (d : Int) : Except Cause Instruction :=
  if -32 ≤ d ∧ d ≤ 31 then
    .ok { i with da := (splitDisplacement d).1, ba := (splitDisplacement d).2 }
  else .error (.branchTooFar d)

/-- Puts an argument into the field of an operand, in an instruction at address `pc`. A symbol is
an immediate by the low three bits of its address, and a displacement by its distance. -/
def place (pc : Nat) (i : Instruction) : Operand → Argument → Except Cause Instruction
  | .da, .register r => .ok { i with da := r }
  | .aa, .register r => .ok { i with aa := r }
  | .ba, .register r => .ok { i with ba := r }
  | .imm, .number n =>
    if 0 ≤ n ∧ n < 8 then .ok { i with ba := Fin.ofNat 8 n.toNat } else .error (.wrongOperands i.opcode)
  | .imm, .address addr => .ok { i with ba := Fin.ofNat 8 addr.toNat }
  | .offset, .number n => placeOffset i n
  | .offset, .address addr => placeOffset i (addr.toNat - pc)
  | _, _ => .error (.wrongOperands i.opcode)

/-- An operation without operands. -/
def blank (op : Opcode) : Instruction := ⟨op, 0, 0, 0⟩

/-- The instruction that an operation at address `pc` is with its arguments. -/
def fill (pc : Nat) (op : Opcode) (args : List Argument) : Except Cause Instruction :=
  if args.length = op.operands.length then
    (op.operands.zip args).foldlM (fun i (operand, arg) => place pc i operand arg) (blank op)
  else .error (.wrongOperands op)

/-- Reads the instruction at address `pc`; `code` is its text without a comment. -/
def readInstruction (symbols : SymbolTable) (pc : Nat) (code : List Char) : Except Cause Instruction := do
  let (name, tokens) := cutInstruction code
  match Opcode.ofMnemonic? (String.ofList name) with
  | none => throw (.unknownMnemonic (String.ofList name))
  | some op => fill pc op (← tokens.mapM (Argument.read symbols))

end Isa16.Assembly
