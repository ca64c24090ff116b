/-!
# Columns

Texts filled up with spaces to a width; a text that is longer stays as it is.
-/

namespace Isa16.Text

def spaces (n : Nat) : String := String.ofList (List.replicate n ' ')

/-- Spaces behind a text. -/
def padEnd (width : Nat) (s : String) : String := s ++ spaces (width - s.length)

/-- Spaces in front of a text. -/
def padStart (width : Nat) (s : String) : String := spaces (width - s.length) ++ s

end Isa16.Text
