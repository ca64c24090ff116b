import Isa16.Text.Line
import Isa16.Text.Hex
/-!
# Programs

Program memory: up to 65536 words, addressed from zero and never written while
the processor runs. A program is read from hexadecimal text, plain or as a
listing with comment lines.
-/

namespace Isa16

structure Program where
  words : Array UInt16
  size_le : words.size ≤ 65536

namespace Program

/-- The first 65536 of the given words. -/
def ofWords (words : Array UInt16) : Program :=
  ⟨words.extract 0 65536, by simp only [Array.size_extract]; omega⟩

def empty : Program := ⟨#[], by simp⟩

def size (p : Program) : Nat := p.words.size

def fetch (p : Program) (pc : UInt16) : Option UInt16 := p.words[pc.toNat]?

/-- Reads a stream of hexadecimal digits: each run of digits is cut into words of four, and
digits left over at its end are dropped. -/
def ofHex (text : String) : Program :=
  ofWords ((Text.Hex.groups 4 text.toList).map UInt16.ofNat)

/-- Reads a stream of hexadecimal digits in which lines that begin with `//` are comments. -/
def ofListing (text : String) : Program :=
  let kept := (Text.lines text.toList).filter fun line => ! Text.startsComment (Text.trimStart line)
  ofHex (String.ofList (['\n'].intercalate kept))

/-- All words as four digits each, without separators. -/
def toHex (p : Program) : String := String.join (p.words.toList.map Text.Hex.word)

theorem ofWords_words (p : Program) : ofWords p.words = p := by
  have h := p.size_le
  cases p with
  | mk words size_le => simp only [ofWords, mk.injEq]; exact Array.extract_eq_self_of_le h

end Program

end Isa16
