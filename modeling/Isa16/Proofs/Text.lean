import Mathlib.Data.List.Basic
import Mathlib.Data.List.TakeDrop
import Mathlib.Data.List.TakeWhile
import Isa16.Text.Line
import Isa16.Text.Numeral
/-!
# Cuts and numerals

What the readers of text accept, said without the readers: a cut at a character
is a splitting of the text, the pieces between separators are what is left of it
(`pieces_induction`), and a decimal number is a run of digits with its value
(`digits?_eq_some_iff`).
-/

namespace Isa16.Text

/-! ## Cuts -/

theorem cutAt?_eq_some_iff {p : Char → Bool} {s before after : List Char} :
    cutAt? p s = some (before, after) ↔
      ∃ c, p c ∧ s = before ++ c :: after ∧ ∀ d ∈ before, p d = false := by
  have hspan : s.span (! p ·) = (s.takeWhile (! p ·), s.dropWhile (! p ·)) := List.span_eq_takeWhile_dropWhile ..
  simp only [cutAt?, hspan]
  constructor
  · intro h
    cases hd : s.dropWhile (! p ·) with
    | nil => rw [hd] at h; cases h
    | cons c rest =>
      rw [hd] at h
      obtain ⟨rfl, rfl⟩ : s.takeWhile (! p ·) = before ∧ rest = after := by simpa using h
      refine ⟨c, ?_, ?_, fun d hm => by simpa using List.mem_takeWhile_imp hm⟩
      · have := List.head?_dropWhile_not (! p ·) s
        rw [hd] at this
        simpa using this
      · rw [← hd, List.takeWhile_append_dropWhile]
  · rintro ⟨c, hc, rfl, hb⟩
    have hb' : ∀ d ∈ before, (! p d) = true := fun d hm => by simp [hb d hm]
    rw [List.dropWhile_append_of_pos hb', List.takeWhile_append_of_pos hb']
    simp [hc]

theorem cutAt?_eq_none_iff {p : Char → Bool} {s : List Char} :
    cutAt? p s = none ↔ ∀ d ∈ s, p d = false := by
  have hspan : s.span (! p ·) = (s.takeWhile (! p ·), s.dropWhile (! p ·)) := List.span_eq_takeWhile_dropWhile ..
  simp only [cutAt?, hspan]
  constructor
  · intro h
    cases hd : s.dropWhile (! p ·) with
    | nil => simpa [List.dropWhile_eq_nil_iff] using hd
    | cons c rest => rw [hd] at h; cases h
  · intro h
    have : s.dropWhile (! p ·) = [] := by simpa [List.dropWhile_eq_nil_iff] using h
    rw [this]

/-- A text is its first word and what follows, which is empty or begins with the blank that was cut. -/
theorem cutWord_eq_iff {s word rest : List Char} :
    cutWord s = (word, rest) ↔ (∀ c ∈ word, isBlank c = false) ∧
      ((s = word ∧ rest = []) ∨ ∃ b, isBlank b ∧ s = word ++ b :: rest) := by
  unfold cutWord
  cases h : cutAt? isBlank s with
  | none =>
    have hs := cutAt?_eq_none_iff.1 h
    constructor
    · rintro ⟨⟩
      exact ⟨hs, .inl ⟨rfl, rfl⟩⟩
    · rintro ⟨-, ⟨rfl, rfl⟩ | ⟨b, hb, rfl⟩⟩
      · rfl
      · simp [hs b (by simp)] at hb
  | some cut =>
    obtain ⟨w, r⟩ := cut
    have hs := cutAt?_eq_some_iff.1 h
    simp only [Option.getD_some, Prod.mk.injEq]
    constructor
    · rintro ⟨rfl, rfl⟩
      obtain ⟨c, hc, rfl, hw⟩ := hs
      exact ⟨hw, .inr ⟨c, hc, rfl⟩⟩
    · rintro ⟨hw, ⟨rfl, rfl⟩ | ⟨b, hb, rfl⟩⟩
      · obtain ⟨c, hc, rfl, -⟩ := hs
        simp [hw c (by simp)] at hc
      · have hcut : cutAt? isBlank (word ++ b :: rest) = some (word, rest) :=
          cutAt?_eq_some_iff.2 ⟨b, hb, rfl, hw⟩
        rw [hcut] at h
        cases h
        exact ⟨rfl, rfl⟩

theorem trim_cons_of_blank {c : Char} (h : isBlank c) (s : List Char) : trim (c :: s) = trim s := by
  have : trimStart ([c] ++ s) = trimStart s := trimStart_append_of_blank (by simpa using h) s
  simpa [trim] using congrArg trimEnd this

/-! ## Pieces -/

/-- A text is one piece, or a piece, a separator and what is behind it. -/
theorem pieces_induction (sep : Char) {motive : List Char → Prop} (piece : ∀ u, sep ∉ u → motive u)
    (cut : ∀ u v, sep ∉ u → motive v → motive (u ++ sep :: v)) (s : List Char) : motive s := by
  by_cases h : sep ∈ s
  · obtain ⟨u, v, hs, hu⟩ := List.eq_append_cons_of_mem h
    rw [hs]
    exact cut u v hu (pieces_induction sep piece cut v)
  · exact piece s h
termination_by s.length
decreasing_by simp [hs]; omega

theorem not_mem_of_mem_splitOn {sep : Char} {s piece : List Char} (h : piece ∈ s.splitOn sep) : sep ∉ piece := by
  induction s using pieces_induction sep with
  | piece u hu =>
    rw [List.splitOn_eq_singleton hu, List.mem_singleton] at h
    exact h ▸ hu
  | cut u v hu ih =>
    rw [List.splitOn_append_cons_self_of_not_mem hu] at h
    rcases List.mem_cons.1 h with rfl | h
    · exact hu
    · exact ih h

/-- What is done to the parts of a text by themselves is done to its pieces. -/
theorem splitOn_of_cut {sep : Char} {f : List Char → List Char} (hcut : ∀ u v, f (u ++ sep :: v) = f u ++ sep :: f v)
    (hf : ∀ u, sep ∉ u → sep ∉ f u) (s : List Char) : (f s).splitOn sep = (s.splitOn sep).map f := by
  induction s using pieces_induction sep with
  | piece u hu => rw [List.splitOn_eq_singleton hu, List.splitOn_eq_singleton (hf u hu), List.map_singleton]
  | cut u v hu ih =>
    rw [hcut, List.splitOn_append_cons_self_of_not_mem hu, List.splitOn_append_cons_self_of_not_mem (hf u hu), ih,
      List.map_cons]

/-- Characters other than the separator can be dropped before or after a text is cut. -/
theorem splitOn_filter {sep : Char} {p : Char → Bool} (hp : p sep) (s : List Char) :
    (s.filter p).splitOn sep = (s.splitOn sep).map (List.filter p) :=
  splitOn_of_cut (fun u v => by rw [List.filter_append, List.filter_cons_of_pos hp])
    (fun _ hu hm => hu (List.mem_filter.1 hm).1) s

/-- What is in front of the first separator does not count for the pieces behind it. -/
theorem tail_splitOn_append {sep : Char} {u : List Char} (hu : sep ∉ u) (v : List Char) :
    ((u ++ v).splitOn sep).tail = (v.splitOn sep).tail := by
  by_cases hv : sep ∈ v
  · obtain ⟨w, x, rfl, hw⟩ := List.eq_append_cons_of_mem hv
    rw [← List.append_assoc, List.splitOn_append_cons_self_of_not_mem (by simp [hu, hw]),
      List.splitOn_append_cons_self_of_not_mem hw, List.tail_cons, List.tail_cons]
  · rw [List.splitOn_eq_singleton (by simp [hu, hv]), List.splitOn_eq_singleton hv]
    rfl

/-- A newline ends the lines in front of it, and those behind it begin anew. -/
theorem lines_append_newline (s t : List Char) : lines (s ++ '\n' :: t) = s.splitOn '\n' ++ lines t := by
  have hne : t.splitOn '\n' ≠ [] := List.splitOn_ne_nil '\n' t
  simp only [lines, List.splitOn_append_cons_self, List.getLast?_append_of_ne_nil _ hne]
  split
  · exact List.dropLast_append_of_ne_nil hne
  · rfl

/-- A joined text has a newline in front of each of its lines but the first. -/
theorem intercalate_newline (line : List Char) (xs : List (List Char)) :
    ['\n'].intercalate (line :: xs) = line ++ xs.flatMap ('\n' :: ·) := by
  induction xs generalizing line with
  | nil => simp
  | cons next xs ih =>
    rw [List.intercalate_cons_cons, ih, List.flatMap_cons, List.append_assoc]
    rfl

/-! ## Blanks around code -/

/-- Trimming takes blanks off both ends, and nothing else. -/
theorem exists_blanks (s : List Char) : ∃ front back, s = front ++ trim s ++ back ∧ (∀ c ∈ front, isBlank c) ∧
    ∀ c ∈ back, isBlank c := by
  refine ⟨s.takeWhile isBlank, ((trimStart s).reverse.takeWhile isBlank).reverse, ?_, fun c => List.mem_takeWhile_imp,
    fun c hc => List.mem_takeWhile_imp (List.mem_reverse.1 hc)⟩
  rw [trim, trimEnd, List.append_assoc, ← List.reverse_append, List.takeWhile_append_dropWhile, List.reverse_reverse,
    trimStart, List.takeWhile_append_dropWhile]

/-- All that counts where blanks do not is inside the blanks. -/
theorem filter_trim (s : List Char) : (trim s).filter (! isBlank ·) = s.filter (! isBlank ·) := by
  obtain ⟨front, back, hs, hfront, hback⟩ := exists_blanks s
  have hnone {t : List Char} (ht : ∀ c ∈ t, isBlank c) : t.filter (! isBlank ·) = [] :=
    List.filter_eq_nil_iff.2 fun c hc => by simp [ht c hc]
  conv_rhs => rw [hs, List.filter_append, List.filter_append, hnone hfront, hnone hback, List.append_nil]
  rfl

/-- Between the first word of a text and what follows it there is at most a blank. -/
theorem cutWord_parts (s : List Char) :
    ∃ gap, s = (cutWord s).1 ++ gap ++ (cutWord s).2 ∧ ∀ c ∈ gap, isBlank c := by
  obtain ⟨-, ⟨hs, hrest⟩ | ⟨b, hb, hs⟩⟩ := cutWord_eq_iff.1 (Prod.eta (cutWord s)).symm
  · exact ⟨[], by rw [hrest, List.append_nil, List.append_nil]; exact hs, by simp⟩
  · exact ⟨[b], by rw [List.append_assoc]; exact hs, by simpa using hb⟩

theorem ne_slash_of_blank {c : Char} (h : isBlank c) : c ≠ '/' := by
  rintro rfl
  exact absurd h (by decide)

theorem trim_append_singleton {c : Char} (h : isBlank c) (s : List Char) : trim (s ++ [c]) = trim s := by
  induction s with
  | nil => exact trim_cons_of_blank h []
  | cons d s ih =>
    by_cases hd : isBlank d
    · rw [List.cons_append, trim_cons_of_blank hd, trim_cons_of_blank hd, ih]
    · have hd : isBlank d = false := by simpa using hd
      simp only [trim, List.cons_append, trimStart_cons_of_not_blank hd]
      rw [← List.cons_append, trimEnd_append_of_blank (by simpa using h)]

theorem startsComment_iff {line : List Char} : startsComment line ↔ ∃ rest, line = '/' :: '/' :: rest := by
  rw [startsComment, List.isPrefixOf_iff_prefix]
  exact exists_congr fun _ => eq_comm

/-- A comment stays one when blanks are cut off. -/
theorem startsComment_append_blank {b c : Char} (h : isBlank b) (s rest : List Char) :
    startsComment (c :: (s ++ b :: rest)) = startsComment (c :: s) := by
  have hb := (ne_slash_of_blank h).symm
  cases s <;> simp [startsComment, List.isPrefixOf, hb]

/-- A blank in front of a line or behind it changes nothing in its code. -/
theorem code_cons_of_blank {b : Char} (h : isBlank b) (s : List Char) : code (b :: s) = code s := by
  have hs : startsComment (b :: s) = false := by
    simp [startsComment, List.isPrefixOf, (ne_slash_of_blank h).symm]
  simp only [code, splitComment, cutBefore_cons, hs]
  exact trim_cons_of_blank h _

/-- A blank and what is behind it are part of the comment if there is one. Otherwise the blank is
part of the code, and a comment is all behind it. -/
theorem splitComment_append_blank {b : Char} (h : isBlank b) (s rest : List Char) :
    splitComment (s ++ b :: rest) =
      if (splitComment s).2 = [] then ((splitComment s).1 ++ b :: (splitComment rest).1, (splitComment rest).2)
      else ((splitComment s).1, (splitComment s).2 ++ b :: rest) := by
  induction s with
  | nil =>
    have hb : startsComment (b :: rest) = false := by
      simp [startsComment, List.isPrefixOf, (ne_slash_of_blank h).symm]
    simp [splitComment, cutBefore_cons, hb]
  | cons c s ih =>
    simp only [splitComment] at ih
    simp only [splitComment, List.cons_append, cutBefore_cons, startsComment_append_blank h]
    by_cases hc : startsComment (c :: s)
    · simp [hc]
    · by_cases hs : (cutBefore startsComment s).2 = [] <;> simp [hc, ih, hs]

theorem splitComment_append_singleton {b : Char} (h : isBlank b) (s : List Char) :
    splitComment (s ++ [b]) =
      if (splitComment s).2 = [] then ((splitComment s).1 ++ [b], [])
      else ((splitComment s).1, (splitComment s).2 ++ [b]) :=
  splitComment_append_blank h s []

theorem code_append_singleton {b : Char} (h : isBlank b) (s : List Char) : code (s ++ [b]) = code s := by
  unfold code
  rw [splitComment_append_singleton h]
  split
  · rw [trim_append_singleton h]
  · rfl

theorem code_trimStart (s : List Char) : code (trimStart s) = code s := by
  induction s with
  | nil => rfl
  | cons c s ih =>
    by_cases hc : isBlank c
    · rw [code_cons_of_blank hc, ← ih]
      simp [trimStart, hc]
    · rw [trimStart_cons_of_not_blank (by simpa using hc)]

theorem code_trimEnd (s : List Char) : code (trimEnd s) = code s := by
  -- The end is trimmed from the head of the reversed text, so that is what the induction is on.
  have key : ∀ r : List Char, code (r.dropWhile isBlank).reverse = code r.reverse := by
    intro r
    induction r with
    | nil => rfl
    | cons c r ih =>
      by_cases hc : isBlank c
      · rw [List.dropWhile_cons_of_pos hc, ih, List.reverse_cons, code_append_singleton hc]
      · rw [List.dropWhile_cons_of_neg hc]
  simpa [trimEnd] using key s.reverse

theorem code_trim (s : List Char) : code (trim s) = code s := by
  rw [trim, code_trimEnd, code_trimStart]

theorem trim_of_not_blank {s : List Char} (hhead : ∀ c ∈ s.head?, isBlank c = false)
    (hlast : ∀ c ∈ s.getLast?, isBlank c = false) : trim s = s := by
  have hkeep : ∀ t : List Char, (∀ c ∈ t.head?, isBlank c = false) → t.dropWhile isBlank = t := by
    intro t ht
    cases t with
    | nil => rfl
    | cons c t => exact trimStart_cons_of_not_blank (ht c rfl) t
  rw [trim, trimStart, hkeep s hhead, trimEnd, hkeep s.reverse (by rwa [List.head?_reverse]), List.reverse_reverse]

/-! ## Letters -/

/-- No letter that has another case is blank. -/
theorem not_letter_of_blank {c : Char} (h : isBlank c) :
    ¬ (65 ≤ c.toNat ∧ c.toNat ≤ 90) ∧ ¬ (97 ≤ c.toNat ∧ c.toNat ≤ 122) := by
  simp only [isBlank, blankRanges, List.any_cons, List.any_nil, Bool.or_eq_true, Bool.and_eq_true, decide_eq_true_eq,
    Bool.false_eq_true, or_false] at h
  omega

theorem toUpper_of_blank {c : Char} (h : isBlank c) : c.toUpper = c := by
  unfold Char.toUpper
  rw [dif_neg]
  intro hrange
  simp only [UInt32.le_iff_toNat_le] at hrange
  exact (not_letter_of_blank h).2 hrange

theorem toLower_of_blank {c : Char} (h : isBlank c) : c.toLower = c := by
  unfold Char.toLower
  rw [dif_neg]
  intro hrange
  simp only [UInt32.le_iff_toNat_le] at hrange
  exact (not_letter_of_blank h).1 hrange

/-! ## Decimal numbers -/

theorem digit?_ten (c : Char) : digit? 10 c = if c.isDigit then some (c.toNat - 48) else none := by
  have hle : ∀ a b : Char, a ≤ b ↔ a.toNat ≤ b.toNat := fun a b => UInt32.le_iff_toNat_le
  have hd : c.isDigit ↔ 48 ≤ c.toNat ∧ c.toNat ≤ 57 := by
    simp only [Char.isDigit, Bool.and_eq_true, decide_eq_true_eq, ge_iff_le, UInt32.le_iff_toNat_le]
    rfl
  simp only [digit?, hle, hd, show '0'.toNat = 48 from rfl, show '9'.toNat = 57 from rfl,
    show 'a'.toNat = 97 from rfl, show 'z'.toNat = 122 from rfl, show 'A'.toNat = 65 from rfl,
    show 'Z'.toNat = 90 from rfl]
  split
  · simp [Option.filter]; omega
  · split
    · simp [Option.filter]; omega
    · split
      · simp [Option.filter]; omega
      · rfl

theorem le_ofDigitChars (s : List Char) (m : Nat) : m ≤ Nat.ofDigitChars 10 s m := by
  induction s generalizing m with
  | nil => simp
  | cons c s ih =>
    rw [Nat.ofDigitChars_cons]
    exact Nat.le_trans (by omega) (ih _)

theorem appendDigit?_ten {limit m n : Nat} {c : Char} :
    appendDigit? 10 limit m c = some n ↔ c.isDigit ∧ 10 * m + (c.toNat - '0'.toNat) = n ∧ n < limit := by
  rw [appendDigit?, digit?_ten]
  by_cases hc : c.isDigit
  · simp only [hc, if_true, Option.map_some, Option.filter_eq_some_iff, Option.some.injEq, decide_eq_true_eq,
      true_and]
    exact Iff.rfl
  · simp [hc]

/-- The limit is tested at each digit, and holds at each because it holds at the last. -/
theorem foldlM_appendDigit? {limit m n : Nat} {s : List Char} (hm : m < limit) :
    s.foldlM (appendDigit? 10 limit) m = some n ↔
      (∀ c ∈ s, c.isDigit) ∧ Nat.ofDigitChars 10 s m = n ∧ n < limit := by
  induction s generalizing m with
  | nil =>
    simp only [List.foldlM_nil, Option.pure_def, Option.some.injEq, Nat.ofDigitChars_nil]
    constructor
    · rintro rfl
      exact ⟨by simp, rfl, hm⟩
    · exact fun h => h.2.1
  | cons c s ih =>
    simp only [List.foldlM_cons, Option.bind_eq_bind, Option.bind_eq_some_iff, appendDigit?_ten,
      Nat.ofDigitChars_cons, List.forall_mem_cons]
    constructor
    · rintro ⟨k, ⟨hc, rfl, hk⟩, h⟩
      obtain ⟨hs, hn, hl⟩ := (ih hk).1 h
      exact ⟨⟨hc, hs⟩, hn, hl⟩
    · rintro ⟨⟨hc, hs⟩, hn, hl⟩
      -- More digits make no smaller number, so the digits so far are below the limit as well.
      have hk : 10 * m + (c.toNat - '0'.toNat) < limit := by
        have := le_ofDigitChars s (10 * m + (c.toNat - '0'.toNat))
        omega
      exact ⟨_, ⟨hc, rfl, hk⟩, (ih hk).2 ⟨hs, hn, hl⟩⟩

/-- Decimal digits with the value `n`. -/
def IsDecimal (n : Nat) (s : List Char) : Prop :=
  s ≠ [] ∧ (∀ c ∈ s, c.isDigit) ∧ Nat.ofDigitChars 10 s 0 = n

theorem digits?_eq_some_iff {limit n : Nat} {s : List Char} (hl : 0 < limit) :
    digits? 10 limit s = some n ↔ IsDecimal n s ∧ n < limit := by
  unfold digits? IsDecimal
  cases s with
  | nil => simp
  | cons c s =>
    rw [List.isEmpty_cons, if_neg (by simp), foldlM_appendDigit? hl, and_assoc, and_assoc]
    simp

/-- A number has its digits, and may have a plus sign. -/
theorem natural?_eq_some_iff {limit n : Nat} {s : List Char} (hl : 0 < limit) :
    natural? 10 limit s = some n ↔ (IsDecimal n s ∨ ∃ t, s = '+' :: t ∧ IsDecimal n t) ∧ n < limit := by
  have plus : ∀ t, ¬ IsDecimal n ('+' :: t) := fun t h => absurd (h.2.1 '+' (by simp)) (by decide)
  by_cases h : ∃ t, s = '+' :: t
  · obtain ⟨t, rfl⟩ := h
    simp [natural?, digits?_eq_some_iff hl, plus t]
  · have : natural? 10 limit s = digits? 10 limit s := by
      cases s with
      | nil => rfl
      | cons c t =>
        by_cases hc : c = '+'
        · exact absurd ⟨t, by rw [hc]⟩ h
        · simp [natural?, hc]
    rw [this, digits?_eq_some_iff hl]
    simp only [not_exists] at h
    simp [h]

/-- A decimal number, with or without a sign. -/
inductive IsInteger : Int → List Char → Prop
  | plain {n : Nat} {digits : List Char} (h : IsDecimal n digits) : IsInteger n digits
  | plus {n : Nat} {digits : List Char} (h : IsDecimal n digits) : IsInteger n ('+' :: digits)
  | minus {n : Nat} {digits : List Char} (h : IsDecimal n digits) : IsInteger (-n) ('-' :: digits)

theorem integer?_minus (limit : Nat) (s : List Char) :
    integer? limit ('-' :: s) = (digits? 10 (limit + 1) s).map fun n : Nat => -(n : Int) := by
  rw [integer?]
  cases digits? 10 (limit + 1) s <;> rfl

theorem integer?_of_no_minus (limit : Nat) {s : List Char} (h : ∀ t, s ≠ '-' :: t) :
    integer? limit s = (natural? 10 limit s).map Int.ofNat := by
  unfold integer?
  split
  · exact absurd rfl (h _)
  · rfl

theorem integer?_eq_some_iff {limit : Nat} {n : Int} {s : List Char} (hl : 0 < limit) :
    integer? limit s = some n ↔ IsInteger n s ∧ -limit ≤ n ∧ n < limit := by
  have unsigned {m : Nat} {t : List Char} (hm : IsDecimal m t) : ∀ u, t ≠ '-' :: u := by
    rintro u rfl
    exact absurd (hm.2.1 '-' (by simp)) (by decide)
  constructor
  · intro h
    by_cases hminus : ∃ t, s = '-' :: t
    · obtain ⟨t, rfl⟩ := hminus
      rw [integer?_minus] at h
      obtain ⟨m, hm, rfl⟩ := Option.map_eq_some_iff.1 h
      obtain ⟨hdigits, hlt⟩ := (digits?_eq_some_iff (by omega)).1 hm
      exact ⟨.minus hdigits, by omega, by omega⟩
    · rw [integer?_of_no_minus limit (not_exists.1 hminus)] at h
      obtain ⟨m, hm, rfl⟩ := Option.map_eq_some_iff.1 h
      obtain ⟨hdigits, hlt⟩ := (natural?_eq_some_iff hl).1 hm
      simp only [Int.ofNat_eq_natCast]
      refine ⟨?_, by omega, by omega⟩
      rcases hdigits with hdigits | ⟨t, rfl, hdigits⟩
      · exact .plain hdigits
      · exact .plus hdigits
  · rintro ⟨hn, hlow, hhigh⟩
    cases hn with
    | plain hm =>
      rw [integer?_of_no_minus limit (unsigned hm), (natural?_eq_some_iff hl).2 ⟨.inl hm, by omega⟩]
      rfl
    | plus hm =>
      rw [integer?_of_no_minus limit (by simp), (natural?_eq_some_iff hl).2 ⟨.inr ⟨_, rfl, hm⟩, by omega⟩]
      rfl
    | minus hm =>
      rw [integer?_minus, (digits?_eq_some_iff (by omega)).2 ⟨hm, by omega⟩]
      rfl

theorem isDigit_of_mem_toDigits {n : Nat} {c : Char} (h : c ∈ Nat.toDigits 10 n) : c.isDigit :=
  Nat.isDigit_of_mem_toDigits (by decide) (by decide) h

theorem isDecimal_toDigits (n : Nat) : IsDecimal n (Nat.toDigits 10 n) :=
  ⟨Nat.toDigits_ne_nil, fun _ => isDigit_of_mem_toDigits, Nat.ofDigitChars_ten_toDigits⟩

/-- A number is written as its digits, behind a sign if it is negative. -/
theorem toList_toString (n : Int) :
    (toString n).toList = if 0 ≤ n then Nat.toDigits 10 n.toNat else '-' :: Nat.toDigits 10 (-n).toNat := by
  rw [Int.toString_eq_repr, Int.repr_eq_if]
  split
  · exact Nat.toList_repr
  · rw [String.toList_append, Nat.toList_repr]
    rfl

/-- A number in range is read as it is written. -/
theorem integer?_toString {limit : Nat} {n : Int} (hl : -limit ≤ n) (hu : n < limit) :
    integer? limit (toString n).toList = some n := by
  have hpos : 0 < limit := by omega
  refine (integer?_eq_some_iff hpos).2 ⟨?_, hl, hu⟩
  rw [toList_toString]
  split
  · have hn : ((n.toNat : Nat) : Int) = n := Int.toNat_of_nonneg ‹_›
    have hplain := IsInteger.plain (isDecimal_toDigits n.toNat)
    rwa [hn] at hplain
  · have hn : -(((-n).toNat : Nat) : Int) = n := by omega
    have hminus := IsInteger.minus (isDecimal_toDigits (-n).toNat)
    rwa [hn] at hminus

end Isa16.Text
