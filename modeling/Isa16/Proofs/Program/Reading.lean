import Isa16.Proofs.Memory.Image
import Isa16.Proofs.Program
import Isa16.Proofs.Text.Digits
/-!
# Programs read from text

What a text has to be to hold a program, said without the reader. Its words are
those of its runs of hexadecimal digits (`wordsIn`). A listing is read as the
text that is left without its comment lines. So words may be written with digits
in either case and with anything between them that has no digit (`Writes`), and
comment lines may stand between any other lines (`Commented`).
-/

namespace Isa16

namespace Text

/-! ## Words -/

namespace Hex

/-- The maximal runs of hexadecimal digits in a text. -/
def digitRuns (s : List Char) : List (List Char) :=
  (s.splitOnP fun c => ¬ IsDigitOf 16 c).filter (· ≠ [])

/-- The words in a text: each run of digits is cut from its start into groups of four, and each
group is a number, its highest digit first. Digits left over at the end of a run are dropped. -/
def wordsIn (s : List Char) : List UInt16 :=
  (digitRuns s).flatMap fun run => (cut 4 run).map fun group => UInt16.ofNat (valueOf 16 group)

/-- A run that is cut short leaves its last digits, and the next one begins a new group. -/
example : wordsIn "@0 98039aB1f;0057-12345".toList = [0x9803, 0x9AB1, 0x0057, 0x1234] := by decide

theorem isDigit_eq (c : Char) : isDigit c = decide (IsDigitOf 16 c) := by
  rw [Bool.eq_iff_iff, isDigit, isSome_digit?_iff (Nat.le_refl 16), decide_eq_true_eq]

theorem mem_of_mem_cut {size : Nat} {run group : List Char} (h : group ∈ cut size run) {c : Char} (hc : c ∈ group) :
    c ∈ run := by
  obtain ⟨k, -, rfl⟩ := List.mem_map.1 h
  exact List.mem_of_mem_drop (List.mem_of_mem_take hc)

theorem isDigit_of_mem_runs {s run : List Char} (h : run ∈ runs s) : ∀ c ∈ run, isDigit c := by
  induction s generalizing run with
  | nil =>
    obtain rfl : run = [] := List.mem_singleton.1 h
    simp
  | cons c s ih =>
    rw [runs, List.splitOnP_cons_eq_if_modifyHead, ← runs] at h
    split at h
    · rcases List.mem_cons.1 h with rfl | h
      · simp
      · exact ih h
    · -- a digit goes to the front of the run that is first behind it
      rename_i hc
      have hc : isDigit c := by simpa using hc
      cases hruns : runs s with
      | nil => exact absurd hruns (List.splitOnP_ne_nil _ _)
      | cons first rest =>
        rw [hruns] at h ih
        rcases List.mem_cons.1 h with rfl | h
        · exact List.forall_mem_cons.2 ⟨hc, ih (List.mem_cons_self ..)⟩
        · exact ih (List.mem_cons_of_mem _ h)

/-- The groups of four digits in a text are its words. -/
theorem words_groups (s : List Char) : ((groups 4 s).map UInt16.ofNat).toList = wordsIn s := by
  have hruns : digitRuns s = (runs s).filter (· ≠ []) := by
    unfold digitRuns runs
    simp only [isDigit_eq, decide_not]
  rw [Array.toList_map, groups_eq (by decide), wordsIn, hruns, List.map_flatMap]
  -- An empty run has no groups, so it does not count.
  have hfilter : ∀ rs : List (List Char), (rs.filter (· ≠ [])).flatMap (cut 4) = rs.flatMap (cut 4) := by
    intro rs
    induction rs with
    | nil => rfl
    | cons run rs ih => cases run <;> simp_all [cut]
  have hvalue : ∀ run ∈ runs s, ((cut 4 run).map (digitsValue 16)).map UInt16.ofNat =
      (cut 4 run).map fun group => UInt16.ofNat (valueOf 16 group) := by
    intro run hrun
    rw [List.map_map]
    refine List.map_congr_left fun group hgroup => ?_
    have hdigits : ∀ c ∈ group, IsDigitOf 16 c := fun c hc =>
      (isSome_digit?_iff (Nat.le_refl 16)).1 (isDigit_of_mem_runs hrun c (mem_of_mem_cut hgroup hc))
    rw [Function.comp_apply, digitsValue_eq (Nat.le_refl 16) hdigits]
  rw [List.flatMap_congr hvalue, ← List.map_flatMap, ← hfilter, List.map_flatMap]

/-! ## Written words -/

/-- The text has the words, each as four hexadecimal digits in either case, with anything that is no
such digit between them. -/
inductive Writes : List UInt16 → List Char → Prop
  | stop {gap : List Char} (hgap : ∀ c ∈ gap, ¬ IsDigitOf 16 c) : Writes [] gap
  | word {w : UInt16} {ws : List UInt16} {gap digits rest : List Char} (hgap : ∀ c ∈ gap, ¬ IsDigitOf 16 c)
      (hlength : digits.length = 4) (hdigits : ∀ c ∈ digits, IsDigitOf 16 c) (hvalue : valueOf 16 digits = w.toNat)
      (h : Writes ws rest) : Writes (w :: ws) (gap ++ digits ++ rest)

theorem next_of_not_digit {c : Char} (h : ¬ IsDigitOf 16 c) (size : Nat) (scan : Scan) :
    scan.next size c = ⟨scan.groups, 0, 0⟩ := by
  have hnone : digit? 16 c = none := by rw [digit?_eq_ite (Nat.le_refl 16), if_neg h]
  simp only [Scan.next, hnone]

theorem foldl_next_gap {gap : List Char} (h : ∀ c ∈ gap, ¬ IsDigitOf 16 c) (size : Nat) (gs : Array Nat) :
    gap.foldl (Scan.next size) ⟨gs, 0, 0⟩ = ⟨gs, 0, 0⟩ := by
  induction gap with
  | nil => rfl
  | cons c gap ih =>
    obtain ⟨hc, hgap⟩ := List.forall_mem_cons.1 h
    rw [List.foldl_cons, next_of_not_digit hc, ih hgap]

/-- Four digits are a whole group. -/
theorem foldl_next_digits {digits : List Char} (hlength : digits.length = 4) (h : ∀ c ∈ digits, IsDigitOf 16 c)
    (gs : Array Nat) : digits.foldl (Scan.next 4) ⟨gs, 0, 0⟩ = ⟨gs.push (valueOf 16 digits), 0, 0⟩ := by
  obtain ⟨a, b, c, d, rfl⟩ : ∃ a b c d, digits = [a, b, c, d] := by
    match digits, hlength with
    | [a, b, c, d], _ => exact ⟨a, b, c, d, rfl⟩
  have hread : ∀ x ∈ [a, b, c, d], digit? 16 x = some (digitChars.idxOf x.toLower) := fun x hx => by
    rw [digit?_eq_ite (Nat.le_refl 16), if_pos (h x hx)]
  simp only [List.forall_mem_cons] at hread
  obtain ⟨ha, hb, hc, hd, -⟩ := hread
  simp [Scan.next, ha, hb, hc, hd, valueOf]

theorem foldl_next_writes {ws : List UInt16} {s : List Char} (h : Writes ws s) (gs : Array Nat) :
    (s.foldl (Scan.next 4) ⟨gs, 0, 0⟩).groups = gs ++ (ws.map UInt16.toNat).toArray := by
  induction h generalizing gs with
  | stop hgap => simp [foldl_next_gap hgap]
  | word hgap hlength hdigits hvalue _ ih =>
    rw [List.foldl_append, List.foldl_append, foldl_next_gap hgap, foldl_next_digits hlength hdigits, hvalue, ih]
    simp

/-- A newline ends a group, so one at the end of a text changes nothing. -/
theorem groups_append_newline (size : Nat) (s : List Char) : groups size (s ++ ['\n']) = groups size s := by
  rw [groups, List.foldl_append, List.foldl_cons, next_of_not_digit (by decide)]
  rfl

end Hex

/-! ## Comment lines -/

/-- The first characters of the line that are not blank are `//`. -/
def IsCommentLine (line : List Char) : Prop :=
  ∃ blanks rest, line = blanks ++ '/' :: '/' :: rest ∧ ∀ c ∈ blanks, isBlank c

theorem isCommentLine_iff {line : List Char} : IsCommentLine line ↔ startsComment (trimStart line) := by
  unfold IsCommentLine
  constructor
  · rintro ⟨blanks, rest, rfl, hblanks⟩
    rw [trimStart_append_of_blank hblanks, trimStart_cons_of_not_blank (by decide)]
    exact startsComment_iff.2 ⟨rest, rfl⟩
  · intro h
    obtain ⟨rest, hrest⟩ := startsComment_iff.1 h
    refine ⟨line.takeWhile isBlank, rest, ?_, fun c => List.mem_takeWhile_imp⟩
    rw [← hrest, trimStart, List.takeWhile_append_dropWhile]

instance : DecidablePred IsCommentLine := fun _ => decidable_of_iff _ isCommentLine_iff.symm

/-- A text without its comment lines. -/
def withoutComments (s : List Char) : List Char := ['\n'].intercalate ((s.splitOn '\n').filter (¬ IsCommentLine ·))

/-- The second lines are the first ones with comment lines put in, at any places. -/
inductive Commented : List (List Char) → List (List Char) → Prop
  | nil : Commented [] []
  | line {lines more : List (List Char)} (l : List Char) (h : Commented lines more) : Commented (l :: lines) (l :: more)
  | comment {lines more : List (List Char)} {l : List Char} (hl : IsCommentLine l) (hn : '\n' ∉ l)
      (h : Commented lines more) : Commented lines (l :: more)

theorem Commented.filter_eq {lines more : List (List Char)} (h : Commented lines more) :
    more.filter (¬ IsCommentLine ·) = lines.filter (¬ IsCommentLine ·) := by
  induction h with
  | nil => rfl
  | line l _ ih => rw [List.filter_cons, List.filter_cons, ih]
  | comment hl _ _ ih => rw [List.filter_cons_of_neg (by simpa using hl), ih]

theorem Commented.newline_notMem {lines more : List (List Char)} (h : Commented lines more)
    (hlines : ∀ l ∈ lines, '\n' ∉ l) : ∀ l ∈ more, '\n' ∉ l := by
  induction h with
  | nil => exact hlines
  | line l _ ih =>
    obtain ⟨hl, hlines⟩ := List.forall_mem_cons.1 hlines
    exact List.forall_mem_cons.2 ⟨hl, ih hlines⟩
  | comment _ hn _ ih => exact List.forall_mem_cons.2 ⟨hn, ih hlines⟩

theorem Commented.ne_nil {lines more : List (List Char)} (h : Commented lines more) (hne : lines ≠ []) : more ≠ [] := by
  cases h with
  | nil => exact hne
  | line | comment => simp

theorem withoutComments_commented {s : List Char} {more : List (List Char)} (h : Commented (s.splitOn '\n') more) :
    withoutComments (['\n'].intercalate more) = withoutComments s := by
  have hlines : ∀ l ∈ s.splitOn '\n', '\n' ∉ l := fun l => not_mem_of_mem_splitOn
  have hsplit := List.splitOn_intercalate '\n' (h.newline_notMem hlines) (h.ne_nil (List.splitOn_ne_nil '\n' s))
  rw [withoutComments, hsplit, h.filter_eq, withoutComments]

/-- The lines that are kept of a text are those of the text without its comment lines, but for a
newline at the end. -/
theorem withoutComments_eq (s : List Char) : withoutComments s =
      ['\n'].intercalate ((lines s).filter fun line => ! startsComment (trimStart line)) ∨
    withoutComments s =
      ['\n'].intercalate ((lines s).filter fun line => ! startsComment (trimStart line)) ++ ['\n'] := by
  have hkeep : (fun line => ! startsComment (trimStart line)) = fun line => decide (¬ IsCommentLine line) := by
    funext line
    simp [isCommentLine_iff]
  have hjoin (xs : List (List Char)) : ['\n'].intercalate (xs ++ [[]]) = ['\n'].intercalate xs ∨
      ['\n'].intercalate (xs ++ [[]]) = ['\n'].intercalate xs ++ ['\n'] := by
    cases xs with
    | nil => exact .inl rfl
    | cons x xs => exact .inr (by simp [intercalate_newline])
  rw [hkeep, withoutComments]
  unfold lines
  dsimp only
  split
  · -- behind a newline at the end, `splitOn` has an empty line more
    rename_i hlast
    rw [← List.dropLast_append_getLast? _ hlast, List.filter_append, List.dropLast_concat]
    exact hjoin _
  · exact .inl rfl

end Text

namespace Program

open Text.Hex (wordsIn Writes)

/-- What the readers of programs make of a text, and of the text of a program. -/
structure ReadsText (text : String) (p : Program) : Prop where
  words_ofHex : (ofHex text).words.toList = (wordsIn text.toList).take 65536
  ofListing_eq : ofListing text = ofHex (String.ofList (Text.withoutComments text.toList))
  ofHex_toHex : ofHex p.toHex = p
  ofHex_of_writes : Writes p.words.toList text.toList → ofHex text = p
  ofListing_commented : ∀ more, Text.Commented (text.toList.splitOn '\n') more →
    ofListing (String.ofList (['\n'].intercalate more)) = ofListing text

theorem ofListing_eq_ofHex (text : String) :
    ofListing text = ofHex (String.ofList (Text.withoutComments text.toList)) := by
  simp only [ofListing, ofHex, String.toList_ofList]
  rcases Text.withoutComments_eq text.toList with h | h
  · rw [h]
  · rw [h, Text.Hex.groups_append_newline]

theorem readsText (text : String) (p : Program) : ReadsText text p := by
  refine ⟨?_, ofListing_eq_ofHex text, p.ofHex_toHex, fun h => ?_, fun more h => ?_⟩
  · rw [ofHex, ofWords, Array.toList_extract, Text.Hex.words_groups, List.extract_eq_take_drop]
    rfl
  · apply ofHex_of_groups
    rw [Text.Hex.groups, Text.Hex.Scan.start, Text.Hex.foldl_next_writes h]
    simp [← Array.toList_map]
  · rw [ofListing_eq_ofHex, ofListing_eq_ofHex text, String.toList_ofList, Text.withoutComments_commented h]

end Program

end Isa16
