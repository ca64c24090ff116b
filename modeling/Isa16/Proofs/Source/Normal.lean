import Isa16.Proofs.Source.Lines
import Isa16.Proofs.Text
/-!
# Lines in normal form

Normal form replaces words and keeps everything between them, so it can be
taken of a line with blanks around it or without, and taking it again changes
nothing. Lines in normal form make a text in normal form, and are its lines
(`normalizeText_intercalate`, `lines_intercalate`).
-/

namespace Isa16.Source

open Text (splitComment startsComment isDigit_of_mem_toDigits)

/-! ## Words -/

/-- The normal form of a line without a comment. -/
def normalizeCode (code : List Char) : List Char := (words code).flatMap normalizeWord

theorem normalizeLine_eq (line : List Char) :
    normalizeLine line = normalizeCode (splitComment line).1 ++ (splitComment line).2 := rfl

/-- A word stays, or is a marked number and becomes decimal digits. -/
theorem normalizeWord_cases (word : List Char) :
    normalizeWord word = word ∨
      ∃ mark digits n, word = '0' :: mark :: digits ∧ normalizeWord word = Nat.toDigits 10 n := by
  unfold normalizeWord
  split
  · rename_i n hn
    refine .inr ?_
    unfold markedNumber? at hn
    split at hn
    · exact ⟨_, _, n, rfl, rfl⟩
    · cases hn
  · exact .inl rfl

theorem normalizeWord_of_unmarked {word : List Char}
    (h : ∀ mark digits, word = '0' :: mark :: digits → markRadix? mark = none) : normalizeWord word = word := by
  have hnone : markedNumber? word = none := by
    unfold markedNumber?
    split
    · rw [h _ _ rfl]
      rfl
    · rfl
  simp only [normalizeWord, hnone]

theorem normalizeWord_singleton (c : Char) : normalizeWord [c] = [c] :=
  normalizeWord_of_unmarked fun _ _ h => by simp at h

theorem markRadix?_of_isDigit {c : Char} (h : c.isDigit) : markRadix? c = none := by
  unfold markRadix?
  split <;> first | exact absurd h (by decide) | rfl

theorem normalizeWord_normalizeWord (word : List Char) : normalizeWord (normalizeWord word) = normalizeWord word := by
  obtain h | ⟨_, _, n, -, h⟩ := normalizeWord_cases word
  · rw [h, h]
  · rw [h]
    refine normalizeWord_of_unmarked fun mark digits hd => markRadix?_of_isDigit (isDigit_of_mem_toDigits (n := n) ?_)
    rw [hd]
    simp

/-- Neighbours in a word. -/
def Joined (c d : Char) : Prop := (isWordChar c && isWordChar d) = true

theorem isWordChar_of_joined {c d : Char} {word : List Char} (h : (c :: d :: word).IsChain Joined) :
    ∀ x ∈ c :: d :: word, isWordChar x = true := by
  induction word generalizing c d with
  | nil =>
    have := (List.isChain_cons_cons.1 h).1
    simpa [Joined] using this
  | cons e word ih =>
    obtain ⟨hcd, h⟩ := List.isChain_cons_cons.1 h
    have hc : isWordChar c = true := by simp_all [Joined]
    exact List.forall_mem_cons.2 ⟨hc, ih h⟩

theorem isWordChar_of_isDigit {c : Char} (h : c.isDigit) : isWordChar c := by
  simp [isWordChar, Char.isAlphanum, h]

/-- A word and its normal form are joined to the same neighbours. -/
theorem joined_normalizeWord {word : List Char} (hw : word.IsChain Joined) (hne : word ≠ []) :
    (normalizeWord word).IsChain Joined ∧ ∃ hne' : normalizeWord word ≠ [],
      isWordChar ((normalizeWord word).head hne') = isWordChar (word.head hne) ∧
        isWordChar ((normalizeWord word).getLast hne') = isWordChar (word.getLast hne) := by
  obtain h | ⟨mark, digits, n, rfl, h⟩ := normalizeWord_cases word
  · simp only [h]
    exact ⟨hw, hne, trivial, trivial⟩
  · simp only [h]
    have hdigit : ∀ c ∈ Nat.toDigits 10 n, isWordChar c := fun c hc =>
      isWordChar_of_isDigit (isDigit_of_mem_toDigits hc)
    have hchar := isWordChar_of_joined hw
    refine ⟨?_, Nat.toDigits_ne_nil, ?_, ?_⟩
    · refine List.Pairwise.isChain (List.pairwise_of_forall_mem_list fun c hc d hd => ?_)
      simp [Joined, hdigit c hc, hdigit d hd]
    · rw [hdigit _ (List.head_mem _), hchar _ (List.head_mem _)]
    · rw [hdigit _ (List.getLast_mem _), hchar _ (List.getLast_mem _)]

/-- Words that are replaced by words, joined to the same neighbours, are the words of what comes out. -/
theorem words_flatMap {g : List Char → List Char}
    (hg : ∀ word, word.IsChain Joined → (hne : word ≠ []) → (g word).IsChain Joined ∧ ∃ hne' : g word ≠ [],
      isWordChar ((g word).head hne') = isWordChar (word.head hne) ∧
        isWordChar ((g word).getLast hne') = isWordChar (word.getLast hne)) (code : List Char) :
    words ((words code).flatMap g) = (words code).map g := by
  have hword : ∀ word ∈ words code, word.IsChain Joined ∧ word ≠ [] := fun word h =>
    ⟨List.isChain_of_mem_splitBy h, List.ne_nil_of_mem_splitBy h⟩
  rw [List.flatMap_def, words]
  refine List.splitBy_flatten ?_ ?_ ?_
  · intro h
    obtain ⟨word, hm, hnil⟩ := List.mem_map.1 h
    obtain ⟨-, hne, -⟩ := hg word (hword word hm).1 (hword word hm).2
    exact hne hnil
  · intro m h
    obtain ⟨word, hm, rfl⟩ := List.mem_map.1 h
    exact (hg word (hword word hm).1 (hword word hm).2).1
  · rw [List.isChain_map]
    refine (List.isChain_getLast_head_splitBy _ code).imp_of_mem_imp fun v w hv hw hvw => ?_
    obtain ⟨hvn, hwn, hjoin⟩ := hvw
    obtain ⟨-, hv', -, hlast⟩ := hg v (hword v hv).1 hvn
    obtain ⟨-, hw', hhead, -⟩ := hg w (hword w hw).1 hwn
    exact ⟨hv', hw', by rw [hlast, hhead, hjoin]⟩

/-- The words of a normal form are the normal forms of the words. -/
theorem words_normalizeCode (code : List Char) : words (normalizeCode code) = (words code).map normalizeWord :=
  words_flatMap (fun _ => joined_normalizeWord) code

theorem normalizeCode_normalizeCode (code : List Char) : normalizeCode (normalizeCode code) = normalizeCode code := by
  rw [normalizeCode, words_normalizeCode, List.flatMap_map]
  exact congrArg (List.flatMap · (words code)) (funext normalizeWord_normalizeWord)

/-- The characters are not the mark of a number. -/
def Unmarked (c d : Char) : Prop := c = '0' → markRadix? d = none

theorem unmarked_append {us vs : List Char} (hu : '0' ∉ us) (hv : ∀ d ∈ vs, markRadix? d = none) :
    (us ++ vs).IsChain Unmarked := by
  have hvs : vs.IsChain Unmarked :=
    List.Pairwise.isChain (List.pairwise_of_forall_mem_list fun _ _ d hd _ => hv d hd)
  induction us with
  | nil => exact hvs
  | cons c us ih =>
    simp only [List.mem_cons, not_or] at hu
    exact List.IsChain.cons (ih hu.2) fun d _ h => absurd h.symm hu.1

/-- Code without the mark of a number stays as it is. -/
theorem normalizeCode_of_unmarked {code : List Char} (h : code.IsChain Unmarked) : normalizeCode code = code := by
  have hword : ∀ word ∈ words code, normalizeWord word = word := by
    intro word hm
    refine normalizeWord_of_unmarked fun mark digits hw => ?_
    have hin : word <:+: code := by
      rw [← List.flatten_splitBy (fun c d => isWordChar c && isWordChar d) code]
      exact List.infix_of_mem_flatten hm
    have hchain := h.infix hin
    rw [hw] at hchain
    exact (List.isChain_cons_cons.1 hchain).1 rfl
  rw [normalizeCode, List.flatMap_congr hword, List.flatMap_id']
  exact List.flatten_splitBy ..

/-! ## Comments -/

theorem splitComment_append_of_not_mem {code : List Char} (h : '/' ∉ code) (rest : List Char) :
    splitComment (code ++ rest) = (code ++ (splitComment rest).1, (splitComment rest).2) := by
  induction code with
  | nil => rfl
  | cons c code ih =>
    simp only [List.mem_cons, not_or] at h
    have hc : startsComment (c :: (code ++ rest)) = false := by
      simp [startsComment, List.isPrefixOf, h.1]
    have ih := ih h.2
    simp only [splitComment, List.cons_append, Text.cutBefore_cons, hc] at ih ⊢
    simp [ih]

theorem splitComment_slash (rest : List Char) :
    splitComment ('/' :: rest) =
      if rest.head? = some '/' then ([], '/' :: rest) else ('/' :: (splitComment rest).1, (splitComment rest).2) := by
  have hc : startsComment ('/' :: rest) = decide (rest.head? = some '/') := by
    cases rest with
    | nil => rfl
    | cons c rest => simp [startsComment, List.isPrefixOf, Bool.beq_eq_decide_eq, eq_comm]
  simp only [splitComment, Text.cutBefore_cons, hc, decide_eq_true_eq]

/-- A slash is a word of its own, as it is joined to nothing. -/
theorem eq_slash_of_mem {word : List Char} (h : word.IsChain Joined) (hs : '/' ∈ word) : word = ['/'] := by
  match word, h, hs with
  | [c], _, hs => rw [List.mem_singleton.1 hs]
  | c :: d :: rest, h, hs => exact absurd (isWordChar_of_joined h _ hs) (by decide)

theorem slash_not_mem_normalizeWord {word : List Char} (h : '/' ∉ word) : '/' ∉ normalizeWord word := by
  obtain hn | ⟨_, _, n, -, hn⟩ := normalizeWord_cases word
  · rwa [hn]
  · rw [hn]
    exact fun hm => absurd (isDigit_of_mem_toDigits hm) (by decide)

/-- Words that begin with a slash in normal form begin with one. -/
theorem head?_slash {ws : List (List Char)} {comment : List Char}
    (hw : ∀ word ∈ ws, word.IsChain Joined ∧ word ≠ [])
    (h : ((ws.map normalizeWord).flatten ++ comment).head? = some '/') :
    (ws.flatten ++ comment).head? = some '/' := by
  cases ws with
  | nil => exact h
  | cons word ws =>
    obtain ⟨hchain, hne⟩ := hw word (by simp)
    obtain ⟨-, hne', -⟩ := joined_normalizeWord hchain hne
    rw [List.map_cons, List.flatten_cons, List.append_assoc, List.head?_append_of_ne_nil _ hne'] at h
    have hmem : '/' ∈ word := by
      by_contra hno
      exact slash_not_mem_normalizeWord hno (List.mem_of_mem_head? h)
    rw [eq_slash_of_mem hchain hmem]
    rfl

/-- A comment begins where it began, as no slash comes or goes. -/
theorem splitComment_words {ws : List (List Char)} {comment : List Char}
    (hw : ∀ word ∈ ws, word.IsChain Joined ∧ word ≠ [])
    (h : splitComment (ws.flatten ++ comment) = (ws.flatten, comment)) :
    splitComment ((ws.map normalizeWord).flatten ++ comment) = ((ws.map normalizeWord).flatten, comment) := by
  induction ws with
  | nil => exact h
  | cons word ws ih =>
    obtain ⟨⟨hchain, -⟩, hws⟩ := List.forall_mem_cons.1 hw
    simp only [List.flatten_cons, List.map_cons, List.append_assoc] at h ⊢
    by_cases hs : '/' ∈ word
    · obtain rfl := eq_slash_of_mem hchain hs
      rw [normalizeWord_singleton]
      simp only [List.singleton_append, splitComment_slash] at h ⊢
      split at h
      · simp at h
      · rename_i hhead
        simp only [Prod.mk.injEq, List.cons.injEq, true_and] at h
        rw [if_neg (mt (head?_slash hws) hhead), ih hws (Prod.ext h.1 h.2)]
    · rw [splitComment_append_of_not_mem hs, Prod.mk.injEq, List.append_cancel_left_eq] at h
      rw [splitComment_append_of_not_mem (slash_not_mem_normalizeWord hs), ih hws (Prod.ext h.1 h.2)]

theorem splitComment_normalizeLine (line : List Char) :
    splitComment (normalizeLine line) = (normalizeCode (splitComment line).1, (splitComment line).2) := by
  have hcut := Text.cutBefore_append startsComment line
  have hflat : (words (splitComment line).1).flatten = (splitComment line).1 := List.flatten_splitBy ..
  rw [normalizeLine_eq, normalizeCode, List.flatMap_def]
  refine splitComment_words (fun word h => ⟨List.isChain_of_mem_splitBy h, List.ne_nil_of_mem_splitBy h⟩) ?_
  rw [hflat]
  exact congrArg splitComment hcut

/-- The normal form of a line is its own normal form. -/
theorem normalizeLine_normalizeLine (line : List Char) : normalizeLine (normalizeLine line) = normalizeLine line := by
  rw [normalizeLine_eq (normalizeLine line), splitComment_normalizeLine, normalizeCode_normalizeCode]
  rfl

/-! ## Blanks around a line -/

theorem isWordChar_of_blank {c : Char} (h : Text.isBlank c) : isWordChar c = false := by
  simp only [Text.isBlank, Text.blankRanges, List.any_cons, List.any_nil, Bool.or_eq_true, Bool.and_eq_true,
    decide_eq_true_eq, Bool.false_eq_true, or_false] at h
  by_contra hw
  simp only [isWordChar, Char.isAlphanum, Char.isDigit, Bool.not_eq_false] at hw
  delta Char.isAlpha at hw
  delta Char.isUpper Char.isLower at hw
  simp only [Bool.or_eq_true, Bool.and_eq_true, decide_eq_true_eq, beq_iff_eq, UInt32.le_iff_toNat_le,
    ge_iff_le] at hw
  change ((((65 ≤ c.toNat ∧ c.toNat ≤ 90) ∨ (97 ≤ c.toNat ∧ c.toNat ≤ 122)) ∨ (48 ≤ c.toNat ∧ c.toNat ≤ 57)) ∨
    c = '_') ∨ c = '.' at hw
  rcases hw with (hw | rfl) | rfl
  · omega
  · exact absurd h (by decide)
  · exact absurd h (by decide)

theorem words_singleton (c : Char) : words [c] = [[c]] := List.splitBy_of_isChain (by simp) (List.isChain_singleton c)

/-- A character that is in no word cuts code in two. -/
theorem normalizeCode_append_cons {c : Char} (h : isWordChar c = false) (u v : List Char) :
    normalizeCode (u ++ c :: v) = normalizeCode u ++ c :: normalizeCode v := by
  have hcons : words (c :: v) = [c] :: words v := by
    have happend := List.splitBy_append (r := fun c d => isWordChar c && isWordChar d) (l := [c]) (m := v)
      fun x hx y _ => by
        obtain rfl : c = x := by simpa using hx
        simp [h]
    exact happend.trans (by rw [← words, words_singleton]; rfl)
  have hwords : words (u ++ c :: v) = words u ++ [c] :: words v := by
    rw [← hcons]
    exact List.splitBy_append_cons v fun x _ => by simp [h]
  rw [normalizeCode, hwords, List.flatMap_append, List.flatMap_cons, normalizeWord_singleton]
  rfl

theorem normalizeCode_cons_of_blank {b : Char} (h : Text.isBlank b) (code : List Char) :
    normalizeCode (b :: code) = b :: normalizeCode code :=
  normalizeCode_append_cons (isWordChar_of_blank h) [] code

theorem normalizeCode_append_blank {b : Char} (h : Text.isBlank b) (code : List Char) :
    normalizeCode (code ++ [b]) = normalizeCode code ++ [b] :=
  normalizeCode_append_cons (isWordChar_of_blank h) code []

theorem normalizeLine_cons_of_blank {b : Char} (h : Text.isBlank b) (line : List Char) :
    normalizeLine (b :: line) = b :: normalizeLine line := by
  have hslash : '/' ∉ [b] := by simpa using (Text.ne_slash_of_blank h).symm
  have hcut : splitComment (b :: line) = (b :: (splitComment line).1, (splitComment line).2) :=
    splitComment_append_of_not_mem hslash line
  rw [normalizeLine_eq, hcut, normalizeCode_cons_of_blank h]
  rfl

theorem normalizeLine_append_blank {b : Char} (h : Text.isBlank b) (line : List Char) :
    normalizeLine (line ++ [b]) = normalizeLine line ++ [b] := by
  have hcut := Text.splitComment_append_singleton h line
  rw [normalizeLine_eq, normalizeLine_eq, hcut]
  split
  · rename_i hnone
    rw [normalizeCode_append_blank h, hnone, List.append_nil, List.append_nil]
  · rw [List.append_assoc]

theorem normalizeLine_trimStart {line : List Char} (h : normalizeLine line = line) :
    normalizeLine (Text.trimStart line) = Text.trimStart line := by
  induction line with
  | nil => exact h
  | cons c line ih =>
    by_cases hc : Text.isBlank c
    · rw [normalizeLine_cons_of_blank hc, List.cons.injEq] at h
      have htrim : Text.trimStart (c :: line) = Text.trimStart line := by simp [Text.trimStart, hc]
      rw [htrim]
      exact ih h.2
    · rwa [Text.trimStart_cons_of_not_blank (by simpa using hc)]

theorem normalizeLine_trimEnd {line : List Char} (h : normalizeLine line = line) :
    normalizeLine (Text.trimEnd line) = Text.trimEnd line := by
  -- The end is trimmed from the head of the reversed text, so that is what the induction is on.
  have key : ∀ r : List Char, normalizeLine r.reverse = r.reverse →
      normalizeLine (r.dropWhile Text.isBlank).reverse = (r.dropWhile Text.isBlank).reverse := by
    intro r
    induction r with
    | nil => exact id
    | cons c r ih =>
      intro hr
      by_cases hc : Text.isBlank c
      · rw [List.reverse_cons, normalizeLine_append_blank hc, List.append_cancel_right_eq] at hr
        rw [List.dropWhile_cons_of_pos hc]
        exact ih hr
      · rwa [List.dropWhile_cons_of_neg hc]
  exact key line.reverse (by rwa [List.reverse_reverse])

/-! ## Texts -/

theorem splitComment_of_parts {code comment : List Char} (hc : '/' ∉ code)
    (h : comment = [] ∨ startsComment comment) : splitComment (code ++ comment) = (code, comment) := by
  have hcomment : splitComment comment = ([], comment) := by
    cases comment with
    | nil => rfl
    | cons c comment => rw [splitComment, Text.cutBefore_cons, if_pos (h.resolve_left (by simp))]
  rw [splitComment_append_of_not_mem hc, hcomment, List.append_nil]

/-- A line of a text in normal form. -/
structure IsNormal (line : List Char) : Prop where
  newline_notMem : '\n' ∉ line
  return_notMem : '\r' ∉ line
  normalizeLine_eq : normalizeLine line = line

/-- Code without the mark of a number is in normal form, with any comment behind it. -/
theorem isNormal_of_parts {code comment : List Char} (hc : '/' ∉ code) (h : comment = [] ∨ startsComment comment)
    (hcode : code.IsChain Unmarked) (hn : '\n' ∉ code ++ comment) (hr : '\r' ∉ code ++ comment) :
    IsNormal (code ++ comment) := by
  refine ⟨hn, hr, ?_⟩
  rw [normalizeLine_eq, splitComment_of_parts hc h, normalizeCode_of_unmarked hcode]

theorem IsNormal.trim {line : List Char} (h : IsNormal line) : IsNormal (Text.trim line) := by
  have hsub : ∀ c ∈ Text.trim line, c ∈ line := by
    intro c hc
    have hc : c ∈ Text.trimStart line := by
      simpa using (List.dropWhile_sublist _).mem (List.mem_reverse.1 hc)
    exact (List.dropWhile_sublist _).mem hc
  exact ⟨fun hc => h.newline_notMem (hsub _ hc), fun hc => h.return_notMem (hsub _ hc),
    normalizeLine_trimEnd (normalizeLine_trimStart h.normalizeLine_eq)⟩

/-- The pieces of a text in normal form are in normal form. -/
theorem isNormal_of_mem_splitOn {s line : List Char} (h : line ∈ (normalizeText s).splitOn '\n') : IsNormal line := by
  rw [splitOn_normalizeText] at h
  obtain ⟨piece, hp, rfl⟩ := List.mem_map.1 h
  exact ⟨not_mem_normalizeLine (by decide) fun hm => Text.not_mem_of_mem_splitOn hp (List.mem_of_mem_filter hm),
    not_mem_normalizeLine (by decide) fun hm => by simp at hm, normalizeLine_normalizeLine _⟩

/-- The lines of a text in normal form are in normal form. -/
theorem isNormal_of_mem_lines {s line : List Char} (h : line ∈ Text.lines (normalizeText s)) : IsNormal line := by
  refine isNormal_of_mem_splitOn (s := s) ?_
  simp only [Text.lines] at h
  split at h
  · exact (List.dropLast_sublist _).mem h
  · exact h

/-- Lines in normal form make a text in normal form. -/
theorem normalizeText_intercalate {lines : List (List Char)} (h : ∀ line ∈ lines, IsNormal line) :
    normalizeText (['\n'].intercalate lines) = ['\n'].intercalate lines := by
  rcases eq_or_ne lines [] with rfl | hne
  · rfl
  have hsplit : (['\n'].intercalate lines).splitOn '\n' = lines :=
    List.splitOn_intercalate _ (fun line hl => (h line hl).newline_notMem) hne
  have hsame : lines.map normalLine = lines := by
    refine (List.map_congr_left fun line hl => ?_).trans (List.map_id lines)
    have hkeep : line.filter (· ≠ '\r') = line :=
      List.filter_eq_self.2 fun c hc => by simpa using fun e : c = '\r' => (h line hl).return_notMem (e ▸ hc)
    rw [normalLine, hkeep, (h line hl).normalizeLine_eq, id]
  have hjoin : ['\n'].intercalate ((normalizeText (['\n'].intercalate lines)).splitOn '\n') =
      normalizeText (['\n'].intercalate lines) := List.intercalate_splitOn '\n'
  rw [splitOn_normalizeText, hsplit, hsame] at hjoin
  exact hjoin.symm

/-- A joined text has the lines it was joined of, but for an empty last one. -/
theorem lines_intercalate {lines : List (List Char)} (h : ∀ line ∈ lines, IsNormal line) :
    ∃ rest, (rest = [] ∨ rest = [[]]) ∧ lines = Text.lines (['\n'].intercalate lines) ++ rest := by
  rcases eq_or_ne lines [] with rfl | hne
  · exact ⟨[], .inl rfl, rfl⟩
  have hsplit : (['\n'].intercalate lines).splitOn '\n' = lines :=
    List.splitOn_intercalate _ (fun line hl => (h line hl).newline_notMem) hne
  simp only [Text.lines, hsplit]
  split
  · rename_i hlast
    exact ⟨[[]], .inr rfl, (List.dropLast_append_getLast? _ hlast).symm⟩
  · exact ⟨[], .inl rfl, (List.append_nil _).symm⟩

end Isa16.Source
