import Isa16.Text.Line
import Isa16.Text.Numeral
/-!
# Normal form of a source text

A source may write numbers in base 2, 8 and 16, with the marks `0b`, `0o` and
`0x`. The normal form has decimal numbers only, so that later readers know one
notation. It is made word by word: a word is a maximal run of letters, digits,
`_` and `.`, and is replaced where the whole of it is a marked number. Comments
keep their words, and carriage returns are dropped everywhere.
-/

namespace Isa16.Source

def isWordChar (c : Char) : Bool := c.isAlphanum || c == '_' || c == '.'

/-- The base that the letter of a mark stands for. -/
def markRadix? : Char → Option Nat
  | 'b' | 'B' => some 2
  | 'o' | 'O' => some 8
  | 'x' | 'X' => some 16
  | _ => none

/-- The value of a marked number below 2³². -/
def markedNumber? : List Char → Option Nat
  | '0' :: mark :: digits => (markRadix? mark).bind fun radix => Text.digits? radix 0x100000000 digits
  | _ => none

def normalizeWord (word : List Char) : List Char :=
  match markedNumber? word with
  | some n => Nat.toDigits 10 n
  | none => word

/-- The words of a text, and one piece for each character between them. -/
def words (s : List Char) : List (List Char) := s.splitBy fun c d => isWordChar c && isWordChar d

def normalizeLine (line : List Char) : List Char :=
  let (code, comment) := Text.splitComment line
  (words code).flatMap normalizeWord ++ comment

def normalizeText (s : List Char) : List Char :=
  ['\n'].intercalate (((s.filter (· ≠ '\r')).splitOn '\n').map normalizeLine)

/-- The normal form of a source. -/
def normalize (source : String) : String := String.ofList (normalizeText source.toList)

end Isa16.Source
