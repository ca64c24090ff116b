import Isa16.Text.Blank
/-!
# Lines and pieces of lines

Cutting a text into lines, a line into code and comment, and a piece at a
character. Every cut keeps all characters but the separator it removes.
-/

namespace Isa16.Text

/-- A newline ends a line, so a text that ends in one has no empty last line. -/
def lines (s : List Char) : List (List Char) :=
  let pieces := s.splitOn '\n'
  if pieces.getLast? = some [] then pieces.dropLast else pieces

/-! ## Comments -/

def startsComment (s : List Char) : Bool := ['/', '/'].isPrefixOf s

/-- Cuts a text before its first suffix with the property `p`. -/
def cutBefore (p : List Char → Bool) (s : List Char) : List Char × List Char := go [] s
where
  /-- The cut of what is left, the characters already passed being kept in reverse. -/
  go (passed : List Char) : List Char → List Char × List Char
    | [] => (passed.reverse, [])
    | c :: rest => if p (c :: rest) then (passed.reverse, c :: rest) else go (c :: passed) rest

theorem cutBefore_go (p : List Char → Bool) (passed s : List Char) :
    cutBefore.go p passed s = (passed.reverse ++ (cutBefore p s).1, (cutBefore p s).2) := by
  induction s generalizing passed with
  | nil => simp [cutBefore, cutBefore.go]
  | cons c rest ih =>
    by_cases h : p (c :: rest)
    · simp [cutBefore, cutBefore.go, h]
    · simp [cutBefore, cutBefore.go, h, ih (c :: passed), ih [c]]

@[simp] theorem cutBefore_nil (p : List Char → Bool) : cutBefore p [] = ([], []) := rfl

theorem cutBefore_cons (p : List Char → Bool) (c : Char) (s : List Char) :
    cutBefore p (c :: s) =
      if p (c :: s) then ([], c :: s) else (c :: (cutBefore p s).1, (cutBefore p s).2) := by
  by_cases h : p (c :: s)
  · simp [cutBefore, cutBefore.go, h]
  · simp [cutBefore, cutBefore.go, h, cutBefore_go p [c]]

theorem cutBefore_append (p : List Char → Bool) (s : List Char) :
    (cutBefore p s).1 ++ (cutBefore p s).2 = s := by
  induction s with
  | nil => rfl
  | cons c s ih => rw [cutBefore_cons]; split <;> simp [ih]

/-- Code and comment of a line: the comment runs from the first `//` to the end. -/
def splitComment (s : List Char) : List Char × List Char := cutBefore startsComment s

/-- What a line says to the assembler: all before `//`, without blanks around it. -/
def code (s : List Char) : List Char := trim (splitComment s).1

/-! ## Separators -/

/-- The two sides of the first character with the property `p`, if there is one. -/
def cutAt? (p : Char → Bool) (s : List Char) : Option (List Char × List Char) :=
  match s.span (! p ·) with
  | (_, []) => none
  | (before, _ :: after) => some (before, after)

/-- The first word of a text and what follows the blank after it. -/
def cutWord (s : List Char) : List Char × List Char := (cutAt? isBlank s).getD (s, [])

end Isa16.Text
