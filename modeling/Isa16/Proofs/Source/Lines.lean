import Mathlib.Data.List.SplitBy
import Isa16.Source.Normal
import Isa16.Proofs.Text
/-!
# The lines of a source

Line `n` of a source is a piece of its text as it was written, brought to
normal form by itself (`Source.line?`). The assembler takes the normal form of
the whole text first and cuts it into lines then; `lines_normalizeText` says
that these are the same lines. A carriage return behind the last newline is
the one exception: it makes a line of the text which the normal form lacks, and
that line is empty.
-/

namespace Isa16.Source

/-- The normal form of one line. -/
def normalLine (line : List Char) : List Char := normalizeLine (line.filter (· ≠ '\r'))

/-- Line `n` of a source, counted from 1, in normal form. -/
def line? (source : String) : Nat → Option (List Char)
  | 0 => none
  | n + 1 => (Text.lines source.toList)[n]?.map normalLine

theorem bounds_of_line? {source : String} {n : Nat} {line : List Char} (h : line? source n = some line) :
    1 ≤ n ∧ n ≤ (Text.lines source.toList).length := by
  cases n with
  | zero => cases h
  | succ n =>
    obtain ⟨_, hn, -⟩ := Option.map_eq_some_iff.1 h
    exact ⟨Nat.succ_pos n, (List.getElem?_eq_some_iff.1 hn).1⟩

/-! ## The normal form of a line -/

/-- Normal form brings in no characters but digits. -/
theorem not_mem_normalizeLine {c : Char} (hc : c.isDigit = false) {line : List Char} (h : c ∉ line) :
    c ∉ normalizeLine line := by
  have hcut : ∀ d ∈ line, d ≠ c := fun d hd e => h (e ▸ hd)
  rw [← Text.cutBefore_append Text.startsComment line] at hcut
  simp only [normalizeLine, List.mem_append, List.mem_flatMap, not_or, not_exists, not_and]
  refine ⟨fun word hword hn => ?_, fun hn => hcut _ (List.mem_append_right _ hn) rfl⟩
  unfold normalizeWord at hn
  -- A word that is replaced becomes digits, and any other is a piece of the line.
  split at hn
  · simp [Nat.isDigit_of_mem_toDigits (by decide) (by decide) hn] at hc
  · refine hcut _ (List.mem_append_left _ ?_) rfl
    rw [← List.flatten_splitBy (fun c d => isWordChar c && isWordChar d) (Text.cutBefore Text.startsComment line).1]
    exact List.mem_flatten.2 ⟨word, hword, hn⟩

/-! ## Lines before and after -/

theorem splitOn_normalizeText (s : List Char) :
    (normalizeText s).splitOn '\n' = (s.splitOn '\n').map normalLine := by
  have hs : (s.filter (· ≠ '\r')).splitOn '\n' = (s.splitOn '\n').map (List.filter (· ≠ '\r')) :=
    Text.splitOn_filter (by decide) s
  rw [normalizeText, hs, List.map_map, List.splitOn_intercalate]
  · rfl
  · intro l hl
    obtain ⟨piece, hpiece, rfl⟩ := List.mem_map.1 hl
    exact not_mem_normalizeLine (by decide) fun h => Text.not_mem_of_mem_splitOn hpiece (List.mem_of_mem_filter h)
  · simp [List.splitOn_ne_nil]

/-- The lines of the normal form are the normal forms of the lines, but for an empty last one. -/
theorem lines_normalizeText (s : List Char) :
    ∃ rest, (rest = [] ∨ rest = [[]]) ∧
      (Text.lines s).map normalLine = Text.lines (normalizeText s) ++ rest := by
  simp only [Text.lines, splitOn_normalizeText]
  have hlast : ((s.splitOn '\n').map normalLine).getLast? = (s.splitOn '\n').getLast?.map normalLine := by
    simp
  by_cases h : (s.splitOn '\n').getLast? = some []
  · have h' : ((s.splitOn '\n').map normalLine).getLast? = some [] := by rw [hlast, h]; rfl
    exact ⟨[], .inl rfl, by rw [if_pos h, if_pos h', List.map_dropLast, List.append_nil]⟩
  · by_cases h' : ((s.splitOn '\n').map normalLine).getLast? = some []
    · -- The last line is carriage returns only, so the normal form ends in a newline and lacks it.
      refine ⟨[[]], .inr rfl, ?_⟩
      rw [if_neg h, if_pos h', List.dropLast_append_getLast? _ h']
    · exact ⟨[], .inl rfl, by rw [if_neg h, if_neg h', List.append_nil]⟩

end Isa16.Source
