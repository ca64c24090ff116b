import Isa16.Memory.Data
import Isa16.Text.Line
import Isa16.Text.Hex
/-!
# Data images

A text that fills data memory, line by line. `//` starts a comment line, `@`
and a hexadecimal number move the cursor to that word, and any other line
stores its first two pairs of hexadecimal digits at the cursor and moves it to
the next word. Loading ends at the first line that is wrong, and what the lines
before it stored stays.
-/

namespace Isa16

inductive ImageError
  /-- No word address after `@`; `text` is the line without the blanks around it. -/
  | badAddress (line : Nat) (text : String)
  /-- A word to store, with the cursor behind the last word of memory. -/
  | pastEnd (line : Nat)
deriving DecidableEq

namespace ImageError

def message : ImageError → String
  | .badAddress line text => s!"line {line}: bad address `" ++ text ++ "`"
  | .pastEnd line => s!"line {line}: data image runs past the end of memory"

end ImageError

/-- What a line of an image asks for. -/
inductive ImageLine
  | nothing
  | seek (addr : UInt16)
  | store (word : UInt16)
  | badAddress (text : String)
deriving DecidableEq

namespace ImageLine

/-- The word that a line's pairs of digits store: the high byte first, and zero for a low byte
that is missing. -/
def ofPairs : List Nat → ImageLine
  | [] => .nothing
  | [high] => .store (UInt16.ofNat (256 * high))
  | high :: low :: _ => .store (UInt16.ofNat (256 * high + low))

def read (line : List Char) : ImageLine :=
  let line := Text.trim line
  if Text.startsComment line then .nothing
  else match line with
    | '@' :: rest =>
      match Text.natural? 16 65536 (Text.trim rest) with
      | some addr => .seek (UInt16.ofNat addr)
      | none => .badAddress (String.ofList line)
    | _ => ofPairs (Text.Hex.groups 2 line).toList

end ImageLine

namespace DataMemory

/-- Does what the lines ask for, the first of them having the number `number`. The cursor is a
word address, or 65536 behind the last word. -/
def follow (m : DataMemory) (cursor number : Nat) : List ImageLine → DataMemory × Option ImageError
  | [] => (m, none)
  | .nothing :: rest => m.follow cursor (number + 1) rest
  | .seek addr :: rest => m.follow addr.toNat (number + 1) rest
  | .badAddress text :: _ => (m, some (.badAddress number text))
  | .store word :: rest =>
    if cursor < 65536 then
      (m.setWord (UInt16.ofNat cursor) word).follow (cursor + 1) (number + 1) rest
    else (m, some (.pastEnd number))

/-- Replaces the contents by those of an image. -/
def loadImage (m : DataMemory) (text : String) : DataMemory × Option ImageError :=
  m.clear.follow 0 1 ((Text.lines text.toList).map ImageLine.read)

/-- A memory with the contents of an image. -/
def ofImage (text : String) : Except ImageError DataMemory :=
  match empty.loadImage text with
  | (m, none) => .ok m
  | (_, some e) => .error e

end DataMemory

end Isa16
