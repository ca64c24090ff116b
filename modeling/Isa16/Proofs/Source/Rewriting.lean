import Isa16.Assembly.Basic
import Isa16.Proofs.Source.Recase
import Isa16.Proofs.Text.Digits
/-!
# Normal form, word by word and character by character

What normal form does to a text, said in two more ways. `Rewritten` is a relation
between a piece of code and what becomes of it: the code falls into its longest
words and the characters between them, and only a word that is a marked number
as a whole is replaced. `scan` is the walk over the code that finds these words
by looking one character back and, at a zero, ahead to the end of the digits.
Both come to the normal form (`rewritten_iff`, `scan_eq_normalizeCode`).
-/

namespace Isa16.Source

open Text (splitComment startsComment IsDigitOf valueOf)

/-! ## Marked numbers -/

/-- The letter of a mark, in either case, and the base that it stands for. -/
def Marks (mark : Char) (radix : Nat) : Prop := (mark.toLower, radix) ∈ [('b', 2), ('o', 8), ('x', 16)]

instance (mark : Char) (radix : Nat) : Decidable (Marks mark radix) :=
  inferInstanceAs (Decidable ((mark.toLower, radix) ∈ [('b', 2), ('o', 8), ('x', 16)]))

/-- The word is, as a whole, a marked number below 2³² with the value `n`. -/
def IsMarked (n : Nat) (word : List Char) : Prop :=
  ∃ mark radix digits, word = '0' :: mark :: digits ∧ Marks mark radix ∧ digits ≠ [] ∧
    (∀ c ∈ digits, IsDigitOf radix c) ∧ valueOf radix digits = n ∧ n < 0x100000000

theorem markRadix?_eq_some_iff {mark : Char} {radix : Nat} : markRadix? mark = some radix ↔ Marks mark radix := by
  constructor
  · intro h
    unfold markRadix? at h
    split at h <;> cases h <;> decide
  · intro h
    simp only [Marks, List.mem_cons, Prod.mk.injEq, List.not_mem_nil, or_false] at h
    rw [← markRadix?_toLower]
    rcases h with ⟨hc, rfl⟩ | ⟨hc, rfl⟩ | ⟨hc, rfl⟩ <;> rw [hc] <;> rfl

theorem Marks.isWordChar {mark : Char} {radix : Nat} (h : Marks mark radix) : isWordChar mark := by
  simp only [Marks, List.mem_cons, Prod.mk.injEq, List.not_mem_nil, or_false] at h
  rw [← isWordChar_toLower]
  rcases h with ⟨hc, -⟩ | ⟨hc, -⟩ | ⟨hc, -⟩ <;> rw [hc] <;> decide

theorem Marks.radix_le {mark : Char} {radix : Nat} (h : Marks mark radix) : 0 < radix ∧ radix ≤ 16 := by
  simp only [Marks, List.mem_cons, Prod.mk.injEq, List.not_mem_nil, or_false] at h
  omega

theorem markedNumber?_eq_some_iff {n : Nat} {word : List Char} : markedNumber? word = some n ↔ IsMarked n word := by
  unfold IsMarked
  constructor
  · intro h
    unfold markedNumber? at h
    split at h
    · rename_i mark digits
      obtain ⟨radix, hmark, hdigits⟩ := Option.bind_eq_some_iff.1 h
      have hmark := markRadix?_eq_some_iff.1 hmark
      obtain ⟨hpos, hle⟩ := hmark.radix_le
      obtain ⟨⟨hne, hall, hvalue⟩, hlt⟩ := (Text.digits?_iff hpos (by decide)).1 hdigits
      have hall : ∀ c ∈ digits, IsDigitOf radix c := fun c hc => (Text.isSome_digit?_iff hle).1 (hall c hc)
      exact ⟨mark, radix, digits, rfl, hmark, hne, hall, Text.digitsValue_eq hle hall ▸ hvalue, hlt⟩
    · cases h
  · rintro ⟨mark, radix, digits, rfl, hmark, hne, hall, hvalue, hlt⟩
    obtain ⟨hpos, hle⟩ := hmark.radix_le
    have hread : Text.digits? radix 0x100000000 digits = some n := by
      refine (Text.digits?_iff hpos (by decide)).2 ⟨⟨hne, fun c hc => ?_, ?_⟩, hlt⟩
      · exact (Text.isSome_digit?_iff hle).2 (hall c hc)
      · rw [Text.digitsValue_eq hle hall, hvalue]
    simp [markedNumber?, markRadix?_eq_some_iff.2 hmark, hread]

/-! ## Words -/

/-- A word in front of a text that does not go on with it. -/
structure IsWord (word rest : List Char) : Prop where
  ne_nil : word ≠ []
  chars : ∀ c ∈ word, isWordChar c
  ends : ∀ c ∈ rest.head?, isWordChar c = false

/-- Code is empty, or begins with a character that is in no word, or with a word. -/
theorem words_induction {motive : List Char → Prop} (nil : motive [])
    (other : ∀ c s, isWordChar c = false → motive s → motive (c :: s))
    (word : ∀ w s, IsWord w s → motive s → motive (w ++ s)) (code : List Char) : motive code := by
  match code with
  | [] => exact nil
  | c :: s =>
    by_cases hc : isWordChar c
    · have hsplit : c :: s = (c :: s.takeWhile isWordChar) ++ s.dropWhile isWordChar := by
        rw [List.cons_append, List.takeWhile_append_dropWhile]
      have hlen : (s.dropWhile isWordChar).length ≤ s.length := List.length_dropWhile_le ..
      rw [hsplit]
      refine word _ _ ⟨by simp, ?_, ?_⟩ (words_induction nil other word _)
      · exact List.forall_mem_cons.2 ⟨hc, fun d => List.mem_takeWhile_imp⟩
      · intro d hd
        have := List.head?_dropWhile_not isWordChar s
        rw [hd] at this
        simpa using this
    · exact other c s (by simpa using hc) (words_induction nil other word s)
termination_by code.length

/-- What becomes of code: words that are marked numbers are replaced, and everything else stays. -/
inductive Rewritten : List Char → List Char → Prop
  | nil : Rewritten [] []
  | other {c : Char} {s t : List Char} (hc : isWordChar c = false) (h : Rewritten s t) : Rewritten (c :: s) (c :: t)
  | number {n : Nat} {word s t : List Char} (hword : IsWord word s) (hn : IsMarked n word) (h : Rewritten s t) :
      Rewritten (word ++ s) ((toString n).toList ++ t)
  | word {word s t : List Char} (hword : IsWord word s) (hn : ∀ n, ¬ IsMarked n word) (h : Rewritten s t) :
      Rewritten (word ++ s) (word ++ t)

theorem normalizeCode_cons_of_not_word {c : Char} (h : isWordChar c = false) (s : List Char) :
    normalizeCode (c :: s) = c :: normalizeCode s :=
  normalizeCode_append_cons h [] s

theorem IsWord.words_append {word s : List Char} (h : IsWord word s) : words (word ++ s) = word :: words s := by
  have hchain : word.IsChain fun c d => isWordChar c && isWordChar d :=
    List.Pairwise.isChain (List.pairwise_of_forall_mem_list fun c hc d hd => by simp [h.chars c hc, h.chars d hd])
  have happend : words (word ++ s) = words word ++ words s :=
    List.splitBy_append fun c _ d hd => by simp [h.ends d hd]
  have hone : words word = [word] := List.splitBy_of_isChain h.ne_nil hchain
  rw [happend, hone]
  rfl

theorem IsWord.normalizeCode_append {word s : List Char} (h : IsWord word s) :
    normalizeCode (word ++ s) = normalizeWord word ++ normalizeCode s := by
  rw [normalizeCode, h.words_append, List.flatMap_cons]
  rfl

theorem rewritten_normalizeCode (code : List Char) : Rewritten code (normalizeCode code) := by
  induction code using words_induction with
  | nil => exact .nil
  | other c s hc ih =>
    rw [normalizeCode_cons_of_not_word hc]
    exact .other hc ih
  | word w s hw ih =>
    rw [hw.normalizeCode_append, normalizeWord]
    cases hn : markedNumber? w with
    | some n =>
      have hdigits : Nat.toDigits 10 n = (toString n).toList := Nat.toList_repr.symm
      dsimp only
      rw [hdigits]
      exact .number hw (markedNumber?_eq_some_iff.1 hn) ih
    | none =>
      refine .word hw (fun n hmarked => ?_) ih
      rw [markedNumber?_eq_some_iff.2 hmarked] at hn
      cases hn

/-- Nothing else becomes of code. -/
theorem rewritten_iff {code out : List Char} : Rewritten code out ↔ normalizeCode code = out := by
  constructor
  · intro h
    induction h with
    | nil => rfl
    | other hc _ ih => rw [normalizeCode_cons_of_not_word hc, ih]
    | number hword hn _ ih =>
      rw [hword.normalizeCode_append, normalizeWord, markedNumber?_eq_some_iff.2 hn, ih]
      exact congrArg (· ++ _) Nat.toList_repr.symm
    | @word word _ _ hword hn _ ih =>
      have hnone : markedNumber? word = none :=
        Option.eq_none_iff_forall_ne_some.2 fun n h => hn n (markedNumber?_eq_some_iff.1 h)
      rw [hword.normalizeCode_append, normalizeWord, hnone, ih]
  · rintro rfl
    exact rewritten_normalizeCode code

example : Rewritten "0X1f,.a0x1 0b12".toList "31,.a0x1 0b12".toList := rewritten_iff.2 (by decide)

/-! ## Characters -/

/-- The value of the digits in front of a text, and the text behind them. The digits go as far as they
can, and no word may go on behind them. -/
def scanDigits? (radix : Nat) (s : List Char) : Option (Nat × List Char) :=
  let digits := s.takeWhile fun c => (Text.digit? radix c).isSome
  let rest := s.dropWhile fun c => (Text.digit? radix c).isSome
  if rest.head?.any isWordChar then none else (Text.digits? radix 0x100000000 digits).map (·, rest)

/-- A marked number in front of a text, and the text behind it. -/
def scanNumber? : List Char → Option (Nat × List Char)
  | '0' :: mark :: s => (markRadix? mark).bind fun radix => scanDigits? radix s
  | _ => none

theorem length_of_scanDigits? {radix n : Nat} {s rest : List Char} (h : scanDigits? radix s = some (n, rest)) :
    rest.length ≤ s.length := by
  unfold scanDigits? at h
  dsimp only at h
  split at h
  · cases h
  · obtain ⟨_, -, h⟩ := Option.map_eq_some_iff.1 h
    cases h
    exact List.length_dropWhile_le ..

theorem length_of_scanNumber? {s rest : List Char} {n : Nat} (h : scanNumber? s = some (n, rest)) :
    rest.length < s.length := by
  unfold scanNumber? at h
  split at h
  · rename_i mark s
    obtain ⟨radix, -, h⟩ := Option.bind_eq_some_iff.1 h
    have hlen := length_of_scanDigits? h
    simp only [List.length_cons]
    omega
  · cases h

/-- The walk over code. A number is looked for where the character before is in no word, and what is
no number is kept, one character at a time. -/
def scan (inWord : Bool) (code : List Char) : List Char :=
  match code with
  | [] => []
  | c :: s =>
    match _h : if inWord then none else scanNumber? (c :: s) with
    | some (n, rest) => (toString n).toList ++ scan true rest
    | none => c :: scan (isWordChar c) s
termination_by code.length
decreasing_by
  · split at _h
    · cases _h
    · exact length_of_scanNumber? _h
  · simp

theorem scanNumber?_cons_of_ne {c : Char} (h : c ≠ '0') (s : List Char) : scanNumber? (c :: s) = none := by
  unfold scanNumber?
  split
  · rename_i heq
    exact absurd (List.cons.inj heq).1 h
  · rfl

theorem isWordChar_of_digit? {radix : Nat} (hr : radix ≤ 16) {c : Char} (h : (Text.digit? radix c).isSome) :
    isWordChar c := by
  have hall : Text.digitChars.all isWordChar := by decide
  rw [← isWordChar_toLower]
  exact List.all_eq_true.1 hall _ (List.mem_of_mem_take ((Text.isSome_digit?_iff hr).1 h))

/-- Digits that a word follows up to its end leave behind what is behind the word. -/
theorem takeWhile_digits {radix : Nat} (hr : radix ≤ 16) {s : List Char} (hs : ∀ c ∈ s.head?, isWordChar c = false)
    {digits : List Char} (hall : ∀ c ∈ digits, (Text.digit? radix c).isSome) :
    (digits ++ s).takeWhile (fun c => (Text.digit? radix c).isSome) = digits ∧
      (digits ++ s).dropWhile (fun c => (Text.digit? radix c).isSome) = s := by
  rw [List.takeWhile_append_of_pos hall, List.dropWhile_append_of_pos hall]
  cases s with
  | nil => simp
  | cons c s =>
    have hc : ¬ (Text.digit? radix c).isSome := by
      intro hdigit
      have hword := isWordChar_of_digit? hr hdigit
      rw [hs c rfl] at hword
      cases hword
    simp [hc]

/-- A word that has something else among the digits goes on behind the first of them. -/
theorem head?_dropWhile_digits {radix : Nat} {word : List Char} (hword : ∀ c ∈ word, isWordChar c)
    (hnot : ¬ ∀ c ∈ word, (Text.digit? radix c).isSome) (s : List Char) :
    ((word ++ s).dropWhile fun c => (Text.digit? radix c).isSome).head?.any isWordChar := by
  have hne : word.dropWhile (fun c => (Text.digit? radix c).isSome) ≠ [] := by
    rwa [Ne, List.dropWhile_eq_nil_iff]
  obtain ⟨e, rest, hrest⟩ := List.exists_cons_of_ne_nil hne
  have he : e ∈ word := List.dropWhile_subset _ (hrest ▸ List.mem_cons_self)
  rw [List.dropWhile_append, hrest]
  simpa using hword e he

/-- Digits are found in front of a text exactly when the word there has nothing else. -/
theorem scanDigits?_append {radix : Nat} (hr : 0 < radix ∧ radix ≤ 16) {digits s : List Char}
    (hdigits : ∀ c ∈ digits, isWordChar c) (hs : ∀ c ∈ s.head?, isWordChar c = false) :
    scanDigits? radix (digits ++ s) = (Text.digits? radix 0x100000000 digits).map (·, s) := by
  unfold scanDigits?
  dsimp only
  by_cases hall : ∀ d ∈ digits, (Text.digit? radix d).isSome
  · obtain ⟨htake, hdrop⟩ := takeWhile_digits hr.2 hs hall
    have hend : s.head?.any isWordChar = false := by
      cases s with
      | nil => rfl
      | cons c s => exact hs c rfl
    rw [htake, hdrop, hend]
    rfl
  · have hnone : Text.digits? radix 0x100000000 digits = none := by
      refine Option.eq_none_iff_forall_ne_some.2 fun n hn => hall ?_
      exact ((Text.digits?_iff hr.1 (by decide)).1 hn).1.2.1
    rw [if_pos (head?_dropWhile_digits hdigits hall s), hnone]
    rfl

/-- A number is found in front of a text exactly when the word there is one. -/
theorem IsWord.scanNumber?_append {word s : List Char} (h : IsWord word s) :
    scanNumber? (word ++ s) = (markedNumber? word).map (·, s) := by
  obtain ⟨hne, hchars, hends⟩ := h
  match word, hne with
  | [c], _ =>
    -- a mark would be a character of the word
    unfold scanNumber?
    split
    · rename_i mark rest heq
      obtain ⟨rfl, rfl⟩ := List.cons.inj heq
      have hmark : markRadix? mark = none := by
        refine Option.eq_none_iff_forall_ne_some.2 fun radix hradix => ?_
        have hword := (markRadix?_eq_some_iff.1 hradix).isWordChar
        rw [hends mark rfl] at hword
        cases hword
      rw [hmark]
      rfl
    · simp [markedNumber?]
  | c :: mark :: digits, _ =>
    by_cases hc : c = '0'
    · subst hc
      have hdigits : ∀ d ∈ digits, isWordChar d := fun d hd => hchars d (by simp [hd])
      rw [List.cons_append, List.cons_append, scanNumber?, markedNumber?]
      cases hradix : markRadix? mark with
      | none => rfl
      | some radix => exact scanDigits?_append (markRadix?_eq_some_iff.1 hradix).radix_le hdigits hends
    · rw [List.cons_append, scanNumber?_cons_of_ne hc]
      unfold markedNumber?
      split
      · rename_i heq
        exact absurd (List.cons.inj heq).1 hc
      · rfl

theorem scan_true_cons (c : Char) (s : List Char) : scan true (c :: s) = c :: scan (isWordChar c) s := by
  rw [scan]
  split
  · rename_i heq
    cases heq
  · rfl

theorem scan_of_none {c : Char} {s : List Char} (h : scanNumber? (c :: s) = none) :
    scan false (c :: s) = c :: scan (isWordChar c) s := by
  rw [scan]
  split
  · rename_i heq
    rw [if_neg Bool.false_ne_true, h] at heq
    cases heq
  · rfl

theorem scan_of_some {c : Char} {s rest : List Char} {n : Nat} (h : scanNumber? (c :: s) = some (n, rest)) :
    scan false (c :: s) = (toString n).toList ++ scan true rest := by
  rw [scan]
  split
  · rename_i heq
    rw [if_neg Bool.false_ne_true, h] at heq
    cases heq
    rfl
  · rename_i heq
    rw [if_neg Bool.false_ne_true, h] at heq
    cases heq

/-- Within a word nothing is looked for. -/
theorem scan_true {word : List Char} (h : ∀ c ∈ word, isWordChar c) (s : List Char) :
    scan true (word ++ s) = word ++ scan true s := by
  induction word with
  | nil => rfl
  | cons c word ih =>
    obtain ⟨hc, hword⟩ := List.forall_mem_cons.1 h
    rw [List.cons_append, scan_true_cons, hc, ih hword, List.cons_append]

/-- A character that is in no word begins no number, so it does not matter what is before it. -/
theorem scan_eq_of_ends {s : List Char} (h : ∀ c ∈ s.head?, isWordChar c = false) : scan true s = scan false s := by
  cases s with
  | nil => rw [scan, scan]
  | cons c s =>
    have hc : c ≠ '0' := by
      rintro rfl
      exact absurd (h '0' rfl) (by decide)
    rw [scan_true_cons, scan_of_none (scanNumber?_cons_of_ne hc s)]

/-- The walk comes to the normal form. -/
theorem scan_eq_normalizeCode (code : List Char) : scan false code = normalizeCode code := by
  induction code using words_induction with
  | nil => rw [scan]; rfl
  | other c s hc ih =>
    have hzero : c ≠ '0' := by
      rintro rfl
      exact absurd hc (by decide)
    rw [scan_of_none (scanNumber?_cons_of_ne hzero s), hc, ih, normalizeCode_cons_of_not_word hc]
  | word w s hw ih =>
    -- a number is found at the first character of the word or not at all
    have hfound := hw.scanNumber?_append
    have hbehind := scan_eq_of_ends hw.ends
    have hchars := hw.chars
    rw [hw.normalizeCode_append, normalizeWord]
    obtain ⟨c, w, rfl⟩ := List.exists_cons_of_ne_nil hw.ne_nil
    obtain ⟨hc, hw⟩ := List.forall_mem_cons.1 hchars
    cases hn : markedNumber? (c :: w) with
    | some n =>
      rw [hn, List.cons_append] at hfound
      rw [List.cons_append, scan_of_some hfound, hbehind, ih]
      exact congrArg (· ++ _) Nat.toList_repr
    | none =>
      rw [hn, List.cons_append] at hfound
      rw [List.cons_append, scan_of_none hfound, hc, scan_true hw, hbehind, ih]
      rfl

/-! ## Lines -/

/-- The code and the comment of a line. The comment is all from the first `//` on. -/
structure CutsComment (line code comment : List Char) : Prop where
  parts : line = code ++ comment
  starts : comment = [] ∨ startsComment comment
  first : ∀ front rest, line = front ++ '/' :: '/' :: rest → code.length ≤ front.length

theorem cutsComment_splitComment (line : List Char) : CutsComment line (splitComment line).1 (splitComment line).2 := by
  refine ⟨(Text.cutBefore_append startsComment line).symm, ?_, ?_⟩
  · induction line with
    | nil => exact .inl rfl
    | cons c line ih =>
      rw [splitComment, Text.cutBefore_cons]
      split
      · exact .inr ‹_›
      · exact ih
  · induction line with
    | nil => simp
    | cons c line ih =>
      intro front rest h
      rw [splitComment, Text.cutBefore_cons]
      split
      · exact Nat.zero_le _
      · rename_i hstart
        cases front with
        | nil => exact absurd (Text.startsComment_iff.2 ⟨rest, h⟩) hstart
        | cons d front => exact Nat.succ_le_succ (ih front rest (List.cons.inj h).2)

theorem CutsComment.length_le {line code comment code' comment' : List Char} (h : CutsComment line code comment)
    (h' : CutsComment line code' comment') : code.length ≤ code'.length := by
  rcases h'.starts with hnil | hstart
  · have hlen : code.length ≤ line.length := by simp [h.parts]
    have hline := h'.parts
    rwa [hline, hnil, List.append_nil] at hlen
  · obtain ⟨rest, hrest⟩ := Text.startsComment_iff.1 hstart
    exact h.first code' rest (hrest ▸ h'.parts)

/-- There is one way to cut a line. -/
theorem cutsComment_iff {line code comment : List Char} :
    CutsComment line code comment ↔ splitComment line = (code, comment) := by
  have hcut := cutsComment_splitComment line
  constructor
  · intro h
    have hlen := Nat.le_antisymm (hcut.length_le h) (h.length_le hcut)
    obtain ⟨hcode, hcomment⟩ := List.append_inj (hcut.parts.symm.trans h.parts) hlen
    exact Prod.ext hcode hcomment
  · intro h
    rwa [h] at hcut

/-- What becomes of a line: its code is rewritten, and its comment stays. -/
inductive RewrittenLine : List Char → List Char → Prop
  | parts {line code comment code' : List Char} (hcut : CutsComment line code comment) (hcode : Rewritten code code') :
      RewrittenLine line (code' ++ comment)

theorem rewrittenLine_iff {line out : List Char} : RewrittenLine line out ↔ normalizeLine line = out := by
  constructor
  · rintro ⟨hcut, hcode⟩
    rw [normalizeLine_eq, cutsComment_iff.1 hcut, rewritten_iff.1 hcode]
  · rintro rfl
    exact .parts (cutsComment_splitComment line) (rewritten_normalizeCode _)

/-- The walk over the code of a line, with its comment behind. -/
def scanLine (line : List Char) : List Char := scan false (splitComment line).1 ++ (splitComment line).2

theorem scanLine_eq_normalizeLine (line : List Char) : scanLine line = normalizeLine line := by
  rw [scanLine, scan_eq_normalizeCode, normalizeLine_eq]

/-! ## Texts -/

/-- The lines of a text without its carriage returns. -/
def plainLines (text : String) : List (List Char) := (text.toList.filter (· ≠ '\r')).splitOn '\n'

theorem splitOn_normalize (text : String) :
    (normalize text).toList.splitOn '\n' = (plainLines text).map normalizeLine := by
  have hplain : plainLines text = (text.toList.splitOn '\n').map (List.filter (· ≠ '\r')) :=
    Text.splitOn_filter (by decide) _
  rw [normalize, String.toList_ofList, splitOn_normalizeText, hplain, List.map_map]
  rfl

theorem eq_of_splitOn_eq {sep : Char} {s t : List Char} (h : s.splitOn sep = t.splitOn sep) : s = t := by
  calc s = [sep].intercalate (s.splitOn sep) := (List.intercalate_splitOn sep).symm
    _ = [sep].intercalate (t.splitOn sep) := by rw [h]
    _ = t := List.intercalate_splitOn sep

theorem normalizeText_normalizeText (s : List Char) : normalizeText (normalizeText s) = normalizeText s := by
  have hjoin : ['\n'].intercalate ((normalizeText s).splitOn '\n') = normalizeText s := List.intercalate_splitOn '\n'
  rw [← hjoin]
  exact normalizeText_intercalate fun line hl => isNormal_of_mem_splitOn hl

/-- What the normal form of a text is, and what it keeps. -/
structure HasNormalForm (text : String) : Prop where
  /-- It is the one text whose lines are the rewritten lines of the text. -/
  rewritten : ∀ out, normalize text = out ↔ List.Forall₂ RewrittenLine (plainLines text) (out.toList.splitOn '\n')
  /-- The walk over each line comes to it. -/
  scanned : (normalize text).toList = ['\n'].intercalate ((plainLines text).map scanLine)
  /-- It has as many lines as the text. -/
  length_eq : ((normalize text).toList.splitOn '\n').length = (text.toList.splitOn '\n').length
  /-- It is its own normal form. -/
  idem : normalize (normalize text) = normalize text
  /-- It assembles to what the text assembles to, or is refused for the same cause on the same line. -/
  assemble_eq : assemble (normalize text) = assemble text

theorem hasNormalForm (text : String) : HasNormalForm text where
  rewritten out := by
    have hrel : RewrittenLine = fun line out => normalizeLine line = out := by
      funext line out
      exact propext rewrittenLine_iff
    rw [hrel, ← List.forall₂_map_left_iff (f := normalizeLine) (R := Eq), List.forall₂_eq_eq_eq, ← splitOn_normalize]
    constructor
    · rintro rfl
      rfl
    · intro h
      exact String.toList_injective (eq_of_splitOn_eq h)
  scanned := by
    have hwalk : scanLine = normalizeLine := funext scanLine_eq_normalizeLine
    rw [hwalk, normalize, String.toList_ofList]
    rfl
  length_eq := by
    rw [normalize, String.toList_ofList, splitOn_normalizeText, List.length_map]
  idem := by
    rw [normalize, normalize, String.toList_ofList, normalizeText_normalizeText]
  assemble_eq := by
    have hitems : Assembly.itemsOf (normalize text) = Assembly.itemsOf text := by
      unfold Assembly.itemsOf normalize
      rw [String.toList_ofList, normalizeText_normalizeText]
    rw [assemble, hitems]
    rfl

end Isa16.Source
