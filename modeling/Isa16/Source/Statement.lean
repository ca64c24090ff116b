import Isa16.Source.Normal
import Isa16.Assembly.Diagnostic
/-!
# Statements

What a line of a source in normal form is: a note (a blank line or a comment),
a label, a macro call or an instruction. A macro call is read completely here;
a label is checked and an instruction is read later, when every macro call of
the source is known to be well formed.
-/

namespace Isa16.Source

open Isa16.Assembly (Cause)

/-! ## Names and registers -/

def isNameStart (c : Char) : Bool := c.isAlpha || c == '_'

def isNameChar (c : Char) : Bool := c.isAlphanum || c == '_'

/-- A letter or `_`, then letters, digits and `_`. -/
def isName : List Char → Bool
  | [] => false
  | c :: rest => isNameStart c && rest.all isNameChar

/-- The name that a label `.name:` defines. -/
def labelName? : List Char → Option String
  | '.' :: rest =>
    if rest.getLast? = some ':' && isName rest.dropLast then some (String.ofList rest.dropLast) else none
  | _ => none

/-- `r` or `R` and a digit below 8. -/
def register? : List Char → Option Reg
  | [r, d] =>
    if r = 'r' ∨ r = 'R' then
      (Text.digit? 10 d).bind fun n => if h : n < 8 then some ⟨n, h⟩ else none
    else none
  | _ => none

/-! ## Macro calls -/

inductive MacroCall
  /-- Loads a number into a register. -/
  | load (reg : Reg) (value : UInt16)
  /-- Loads the address of a label into a register. -/
  | loadSymbol (reg : Reg) (name : String)
  /-- Empties the call stack. -/
  | initStack
  /-- Calls the routine that a register points to. -/
  | call (routine : Reg)
  /-- Goes back to where the routine was called. -/
  | ret
deriving DecidableEq

namespace MacroCall

/-- A value for a load: the name of a label behind `.`, or a number below 65536. Larger numbers
have a refusal of their own, as long as they are below 2³². -/
def readLoad (malformed : Cause) (reg : Reg) : List Char → Except Cause MacroCall
  | '.' :: name => if isName name then .ok (.loadSymbol reg (String.ofList name)) else .error malformed
  | value =>
    match Text.natural? 10 0x100000000 value with
    | none => .error malformed
    | some n =>
      if n < 65536 then .ok (.load reg (UInt16.ofNat n))
      else .error (.valueOutOfRange (String.ofList value))

/-- Reads what follows `%`: the name of a macro, in letters of either case, and its arguments. -/
def read (body : List Char) : Except Cause MacroCall :=
  let malformed := Cause.malformedMacro (String.ofList ('%' :: body))
  let (name, rest) := Text.cutWord body
  let arguments := Text.trim rest
  match String.ofList (name.map Char.toUpper) with
  | "SLDI" =>
    match Text.cutAt? (· = ',') arguments with
    | none => .error malformed
    | some (reg, value) =>
      match register? (Text.trim reg) with
      | none => .error malformed
      | some reg => readLoad malformed reg (Text.trim value)
  | "ISTK" => if arguments.isEmpty then .ok .initStack else .error malformed
  | "CALL" =>
    match register? arguments with
    | none => .error malformed
    | some routine => .ok (.call routine)
  | "RET" => if arguments.isEmpty then .ok .ret else .error malformed
  | _ => .error malformed

end MacroCall

/-! ## Lines -/

inductive Statement
  | note (text : String)
  /-- A line that begins with `.`, without its comment. -/
  | label (code : String)
  | call (c : MacroCall)
  /-- A line with an instruction, and with its comment. -/
  | instruction (text : String)
deriving DecidableEq

namespace Statement

def read (line : List Char) : Except Cause Statement :=
  let text := Text.trim line
  match Text.code text with
  | [] => .ok (.note (String.ofList text))
  | '%' :: body => (MacroCall.read body).map .call
  | '.' :: rest => .ok (.label (String.ofList ('.' :: rest)))
  | _ => .ok (.instruction (String.ofList text))

end Statement

end Isa16.Source
