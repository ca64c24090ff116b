/-!
# Blank characters

The characters with Unicode's `White_Space` property, and cutting them off the
ends of a text. Texts are lists of characters here; `String` appears where a
text enters or leaves the library.
-/

namespace Isa16.Text

/-- First and last code points of the ranges that make up `White_Space`. -/
def blankRanges : List (Nat × Nat) :=
  [(0x09, 0x0D), (0x20, 0x20), (0x85, 0x85), (0xA0, 0xA0), (0x1680, 0x1680), (0x2000, 0x200A),
    (0x2028, 0x2029), (0x202F, 0x202F), (0x205F, 0x205F), (0x3000, 0x3000)]

def isBlank (c : Char) : Bool :=
  blankRanges.any fun (first, last) => first ≤ c.toNat && c.toNat ≤ last

def trimStart (s : List Char) : List Char := s.dropWhile isBlank

def trimEnd (s : List Char) : List Char := (s.reverse.dropWhile isBlank).reverse

/-- The text without the blanks at its ends. -/
def trim (s : List Char) : List Char := trimEnd (trimStart s)

theorem trimStart_cons_of_not_blank {c : Char} (h : isBlank c = false) (s : List Char) :
    trimStart (c :: s) = c :: s := by
  simp [trimStart, h]

theorem trimStart_append_of_blank {b : List Char} (h : ∀ c ∈ b, isBlank c) (s : List Char) :
    trimStart (b ++ s) = trimStart s := by
  induction b with
  | nil => rfl
  | cons c b ih =>
    have hc : isBlank c := h c (by simp)
    have ih := ih fun d hd => h d (by simp [hd])
    simpa [trimStart, hc] using ih

theorem trimEnd_append_of_blank {b : List Char} (h : ∀ c ∈ b, isBlank c) (s : List Char) :
    trimEnd (s ++ b) = trimEnd s := by
  have hb : ∀ c ∈ b.reverse, isBlank c := fun c hc => h c (by simpa using hc)
  have := trimStart_append_of_blank hb s.reverse
  simp only [trimStart] at this
  simp [trimEnd, this]

end Isa16.Text
