import Isa16.Text.Hex
import Isa16.Text.Column
/-!
# JSON text

The values that the tools write, in indented form: two spaces a level, one item
or member a line, and empty arrays and objects closed at once.
-/

namespace Isa16

inductive Json
  | null
  | number (n : Nat)
  | string (s : String)
  | array (items : List Json)
  | object (members : List (String × Json))

namespace Json

/-- A character inside a quoted text. -/
def escape (c : Char) : String :=
  match c with
  | '"' => "\\\""
  | '\\' => "\\\\"
  | '\n' => "\\n"
  | '\r' => "\\r"
  | '\t' => "\\t"
  | '\x08' => "\\b"
  | '\x0c' => "\\f"
  | c => if c.toNat < 32 then "\\u00" ++ String.ofList (Text.Hex.fixed Text.Hex.lowerDigit 2 c.toNat) else c.toString

def quote (s : String) : String := "\"" ++ String.join (s.toList.map escape) ++ "\""

/-- A line break in front of something at a depth. -/
def newline (depth : Nat) : String := "\n" ++ Text.spaces (2 * depth)

/-- Items between brackets, which are at a depth. -/
def block (opening closing : String) (depth : Nat) (items : List String) : String :=
  if items.isEmpty then opening ++ closing
  else
    opening ++ newline (depth + 1) ++ ("," ++ newline (depth + 1)).intercalate items
      ++ newline depth ++ closing

/-- The text of a value at a depth. -/
def renderAt (depth : Nat) : Json → String
  | .null => "null"
  | .number n => toString n
  | .string s => quote s
  | .array items => block "[" "]" depth (items.map (renderAt (depth + 1)))
  | .object members =>
    block "\x7b" "\x7d" depth (members.map fun member => quote member.1 ++ ": " ++ renderAt (depth + 1) member.2)
termination_by value => value
decreasing_by
  · decreasing_tactic
  · have := List.sizeOf_lt_of_mem ‹_›
    cases member
    simp only [Prod.mk.sizeOf_spec, object.sizeOf_spec] at *
    omega

def render (value : Json) : String := renderAt 0 value

end Json

end Isa16
