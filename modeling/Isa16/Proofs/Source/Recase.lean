import Isa16.Proofs.Source.Form
import Isa16.Proofs.Source.Normal
import Isa16.Proofs.Text.Case
/-!
# Letters in another case

Code is cut at its commas into pieces. One that begins with `.` is a label or
names a symbol, and there the case of letters matters. Code that is recased
(`Recased`) has those pieces as they were, and in all others the letters it had,
in any case. It is still so in normal form (`Recased.normalize`), where marked
numbers have become the same digits, and a macro call means what it meant
(`Recased.says_call`).
-/

namespace Isa16.Source

open Text (lower lower_eq_of_lower_eq eq_of_lower_eq)

/-- The first character of a piece that is not blank is `.`, as in labels and symbols. -/
def NamesLabel (piece : List Char) : Prop := piece.find? (! Text.isBlank ·) = some '.'

instance (piece : List Char) : Decidable (NamesLabel piece) :=
  inferInstanceAs (Decidable (piece.find? (! Text.isBlank ·) = some '.'))

/-- Code that differs in the case of letters only, and not in labels and symbols. -/
structure Recased (code code' : List Char) : Prop where
  lower_eq : lower code' = lower code
  labels_eq : List.Forall₂ (fun p p' => NamesLabel p → p' = p) (code.splitOn ',') (code'.splitOn ',')

instance (code code' : List Char) : Decidable (Recased code code') :=
  decidable_of_iff (lower code' = lower code ∧
      List.Forall₂ (fun p p' => NamesLabel p → p' = p) (code.splitOn ',') (code'.splitOn ','))
    ⟨fun h => ⟨h.1, h.2⟩, fun h => ⟨h.lower_eq, h.labels_eq⟩⟩

/-- A line before its comment. -/
def bareCode (line : List Char) : List Char := (Text.splitComment (line.filter (· ≠ '\r'))).1

/-- Lines with recased code, whatever their comments are. -/
def RecasedLine (line line' : List Char) : Prop := Recased (bareCode line) (bareCode line')

instance (line line' : List Char) : Decidable (RecasedLine line line') :=
  inferInstanceAs (Decidable (Recased (bareCode line) (bareCode line')))

theorem namesLabel_of_trim {piece rest : List Char} (h : Text.trim piece = '.' :: rest) : NamesLabel piece := by
  rw [NamesLabel, ← List.head?_filter, ← Text.filter_trim, h]
  rfl

theorem NamesLabel.append {piece : List Char} (h : NamesLabel piece) (back : List Char) :
    NamesLabel (piece ++ back) := by
  rw [NamesLabel] at h ⊢
  rw [List.find?_append, h]
  rfl

/-! ## Words -/

theorem isWordChar_toLower (c : Char) : isWordChar c.toLower = isWordChar c := Text.toLower_congr (by decide) c

theorem markRadix?_toLower (c : Char) : markRadix? c.toLower = markRadix? c := Text.toLower_congr (by decide) c

theorem markedNumber?_lower (word : List Char) : markedNumber? (lower word) = markedNumber? word := by
  match word with
  | [] | [_] => simp [markedNumber?, lower]
  | c :: mark :: digits =>
    by_cases hc : c = '0'
    · rw [hc]
      show (markRadix? mark.toLower).bind _ = (markRadix? mark).bind _
      rw [markRadix?_toLower]
      exact congrArg (Option.bind _) (funext fun radix => Text.digits?_lower radix _ digits)
    · have hlower : c.toLower ≠ '0' := mt (Text.toLower_eq_iff (by decide)).1 hc
      simp [markedNumber?, lower, hc, hlower]

theorem lower_toDigits (n : Nat) : lower (Nat.toDigits 10 n) = Nat.toDigits 10 n := by
  refine (List.map_congr_left fun c hc => ?_).trans (List.map_id _)
  have hdigit := Text.isDigit_of_mem_toDigits hc
  rcases Text.toLower_cases c with h | h
  · exact h
  · have hletter : Text.upperLetters.all (! ·.isDigit) := by decide
    have hnot := List.all_eq_true.1 hletter c h
    rw [hdigit] at hnot
    cases hnot

theorem normalizeWord_lower (word : List Char) : normalizeWord (lower word) = lower (normalizeWord word) := by
  rw [normalizeWord, markedNumber?_lower, normalizeWord]
  cases markedNumber? word with
  | none => rfl
  | some n => exact (lower_toDigits n).symm

theorem words_lower (code : List Char) : words (lower code) = (words code).map lower := by
  have hcode : (words code).flatten = code := List.flatten_splitBy ..
  have hflat : (words code).flatMap lower = lower code :=
    calc (words code).flatMap lower = ((words code).map lower).flatten := List.flatMap_def ..
      _ = lower (words code).flatten := List.map_flatten.symm
      _ = lower code := by rw [hcode]
  rw [← hflat]
  refine words_flatMap (fun word hw hne => ⟨?_, by simpa [lower] using hne, ?_, ?_⟩) code
  · rw [lower, List.isChain_map]
    exact hw.imp fun c d h => by rwa [Joined, isWordChar_toLower, isWordChar_toLower]
  · simp only [lower, List.head_map, isWordChar_toLower]
  · simp only [lower, List.getLast_map, isWordChar_toLower]

theorem normalizeCode_lower (code : List Char) : normalizeCode (lower code) = lower (normalizeCode code) := by
  rw [normalizeCode, words_lower, List.flatMap_map, normalizeCode, lower, List.map_flatMap]
  exact congrArg (List.flatMap · (words code)) (funext normalizeWord_lower)

theorem not_mem_normalizeCode {c : Char} (hc : c.isDigit = false) {code : List Char} (h : c ∉ code) :
    c ∉ normalizeCode code := by
  intro hm
  obtain ⟨word, hword, hm⟩ := List.mem_flatMap.1 hm
  obtain hn | ⟨_, _, n, -, hn⟩ := normalizeWord_cases word
  · rw [hn] at hm
    rw [← List.flatten_splitBy (fun c d => isWordChar c && isWordChar d) code] at h
    exact h (List.mem_flatten.2 ⟨word, hword, hm⟩)
  · rw [hn] at hm
    rw [Text.isDigit_of_mem_toDigits hm] at hc
    cases hc

/-- The pieces of a normal form are the normal forms of the pieces. -/
theorem splitOn_normalizeCode (code : List Char) :
    (normalizeCode code).splitOn ',' = (code.splitOn ',').map normalizeCode :=
  Text.splitOn_of_cut (normalizeCode_append_cons (by decide)) (fun _ => not_mem_normalizeCode (by decide)) code

/-- The normal form of code begins as the code does, or with a digit where the code has one. -/
theorem normalizeCode_cons (c : Char) (code : List Char) :
    ∃ d rest, normalizeCode (c :: code) = d :: rest ∧ (d = c ∨ c = '0' ∧ d.isDigit) := by
  have hflat : (words (c :: code)).flatten = c :: code := List.flatten_splitBy ..
  cases hwords : words (c :: code) with
  | nil => simp [hwords] at hflat
  | cons word ws =>
    have hmem : word ∈ words (c :: code) := by simp [hwords]
    have hchain : word.IsChain Joined := List.isChain_of_mem_splitBy hmem
    have hne : word ≠ [] := List.ne_nil_of_mem_splitBy hmem
    obtain ⟨first, rest, rfl⟩ := List.exists_cons_of_ne_nil hne
    obtain rfl : first = c := by simpa [hwords] using congrArg List.head? hflat
    rw [normalizeCode, hwords, List.flatMap_cons]
    obtain hn | ⟨mark, digits, n, hmarked, hn⟩ := normalizeWord_cases (first :: rest)
    · rw [hn]
      exact ⟨first, _, rfl, .inl rfl⟩
    · obtain ⟨d, ds, hd⟩ := List.exists_cons_of_ne_nil (Nat.toDigits_ne_nil (n := n) (b := 10))
      rw [hn, hd]
      refine ⟨d, _, rfl, .inr ⟨(List.cons.inj hmarked).1, ?_⟩⟩
      exact Text.isDigit_of_mem_toDigits (n := n) (by simp [hd])

/-- Normal form makes no label. -/
theorem namesLabel_of_normalizeCode {piece : List Char} (h : NamesLabel (normalizeCode piece)) : NamesLabel piece := by
  induction piece with
  | nil => exact h
  | cons c piece ih =>
    by_cases hc : Text.isBlank c
    · rw [normalizeCode_cons_of_blank hc, NamesLabel, List.find?_cons_of_neg (by simp [hc])] at h
      rw [NamesLabel, List.find?_cons_of_neg (by simp [hc])]
      exact ih h
    · obtain ⟨d, rest, hd, hfirst⟩ := normalizeCode_cons c piece
      have hnot : Text.isBlank d = false := by
        rcases hfirst with rfl | ⟨-, hdigit⟩
        · simpa using hc
        · by_contra hblank
          have := isWordChar_of_blank (by simpa using hblank)
          rw [isWordChar_of_isDigit hdigit] at this
          cases this
      rw [hd, NamesLabel, List.find?_cons_of_pos (by simp [hnot])] at h
      rw [NamesLabel, List.find?_cons_of_pos (by simp [hc])]
      rcases hfirst with rfl | ⟨-, hdigit⟩
      · exact h
      · rw [Option.some.inj h] at hdigit
        cases hdigit

namespace Recased

variable {code code' : List Char} (h : Recased code code')

include h

/-- Marked numbers become the same digits, and everything else stays as it is. -/
theorem normalize : Recased (normalizeCode code) (normalizeCode code') where
  lower_eq := lower_eq_of_lower_eq normalizeCode_lower h.lower_eq
  labels_eq := by
    rw [splitOn_normalizeCode, splitOn_normalizeCode, List.forall₂_map_left_iff, List.forall₂_map_right_iff]
    exact h.labels_eq.imp fun p p' hp hlabel => by rw [hp (namesLabel_of_normalizeCode hlabel)]

/-- A label of its own is not changed. -/
theorem eq_of_label (hcomma : ',' ∉ code) (hlabel : NamesLabel code) : code' = code := by
  have hcomma' : ',' ∉ code' := fun hm =>
    hcomma ((Text.mem_lower_iff (by decide)).1 (h.lower_eq ▸ (Text.mem_lower_iff (by decide)).2 hm))
  have hlabels := h.labels_eq
  rw [List.splitOn_eq_singleton hcomma, List.splitOn_eq_singleton hcomma'] at hlabels
  exact (List.forall₂_cons.1 hlabels).1 hlabel

/-- The last piece is not changed if it names a symbol. -/
theorem eq_of_last {front front' : List (List Char)} {last last' : List Char}
    (hcut : code.splitOn ',' = front ++ [last]) (hcut' : code'.splitOn ',' = front' ++ [last'])
    (hlabel : NamesLabel last) : last' = last := by
  have hlabels := h.labels_eq
  rw [hcut, hcut'] at hlabels
  have hlen : front.length = front'.length := by simpa using hlabels.length_eq
  have hlast := List.forall₂_drop_append _ _ _ hlabels
  rw [← hlen, List.drop_left] at hlast
  exact (List.forall₂_cons.1 hlast).1 hlabel

end Recased

/-! ## Macro calls -/

theorem register?_lower (token : List Char) : register? (lower token) = register? token := by
  have hletter (c : Char) : decide (c.toLower = 'r' ∨ c.toLower = 'R') = decide (c = 'r' ∨ c = 'R') :=
    Text.toLower_congr (f := fun c => decide (c = 'r' ∨ c = 'R')) (by decide) c
  match token with
  | [] | [_] | _ :: _ :: _ :: _ => rfl
  | [c, d] =>
    have hiff : (c.toLower = 'r' ∨ c.toLower = 'R') ↔ (c = 'r' ∨ c = 'R') := decide_eq_decide.1 (hletter c)
    simp only [register?, lower, List.map_cons, List.map_nil, hiff, Text.digit?_toLower]

theorem NamesReg.of_lower {r : Reg} {token token' : List Char} (h : NamesReg r token)
    (hl : lower token' = lower token) : NamesReg r token' := by
  rw [← register?_eq_some_iff] at h ⊢
  rw [eq_of_lower_eq register?_lower hl, h]

theorem comma_not_mem_of_trim {text : List Char} (h : ',' ∉ Text.trim text) : ',' ∉ text := by
  obtain ⟨front, back, htext, hfront, hback⟩ := Text.exists_blanks text
  rw [htext, List.mem_append, List.mem_append]
  rintro ((hm | hm) | hm)
  · exact absurd (hfront _ hm) (by decide)
  · exact h hm
  · exact absurd (hback _ hm) (by decide)

theorem comma_not_mem_of_isName {name : List Char} (h : isName name) : ',' ∉ name := fun hm =>
  absurd (isNameChar_of_isName h _ hm) (by decide)

namespace MacroCall

theorem Names.of_lower {body body' arguments : List Char} {name : String} (h : Names body name arguments)
    (hl : lower body' = lower body) :
    ∃ arguments', Names body' name arguments' ∧ lower arguments' = lower arguments := by
  obtain ⟨written, rest, rfl, hname, hgap, rfl⟩ := h
  obtain ⟨written', rest', rfl, hwritten, hrest⟩ := Text.append_of_lower_eq hl
  refine ⟨_, ⟨written', rest', rfl, ?_, ?_, rfl⟩, lower_eq_of_lower_eq Text.trim_lower hrest⟩
  · rw [eq_of_lower_eq Text.map_toUpper_lower hwritten, hname]
  · intro c hc
    cases rest' with
    | nil => cases hc
    | cons b rest' =>
      obtain rfl : b = c := by simpa using hc
      obtain ⟨d, _, rfl, hd, -⟩ := List.map_eq_cons_iff.1 hrest.symm
      rw [← Text.isBlank_toLower, ← hd, Text.isBlank_toLower]
      exact hgap d rfl

/-- The value of a load is the last piece of its line. -/
theorem Names.last_piece {code body reg value : List Char} {name : String} (h : Names body name (reg ++ ',' :: value))
    (hbody : Text.trim code = '%' :: body) (hcomma : ',' ∉ value) :
    ∃ front back, code.splitOn ',' = front ++ [value ++ back] := by
  obtain ⟨written, rest, rfl, -, -, hargs⟩ := h
  obtain ⟨b₁, b₂, hcode, -, hb₂⟩ := Text.exists_blanks code
  obtain ⟨b₃, b₄, hrest, -, hb₄⟩ := Text.exists_blanks rest
  have hlast : ',' ∉ value ++ (b₄ ++ b₂) := by
    rw [List.mem_append, List.mem_append]
    rintro (hm | hm | hm)
    · exact hcomma hm
    · exact absurd (hb₄ _ hm) (by decide)
    · exact absurd (hb₂ _ hm) (by decide)
  have hsplit : code = (b₁ ++ '%' :: (written ++ b₃ ++ reg)) ++ ',' :: (value ++ (b₄ ++ b₂)) := by
    rw [hcode, hbody, hrest, hargs]
    simp
  refine ⟨(b₁ ++ '%' :: (written ++ b₃ ++ reg)).splitOn ',', b₄ ++ b₂, ?_⟩
  rw [hsplit, List.splitOn_append_cons_self, List.splitOn_eq_singleton hlast]

end MacroCall

/-- A macro call says what it said. -/
theorem Recased.says_call {code code' body : List Char} {c : MacroCall} (h : Recased code code')
    (hbody : Text.trim code = '%' :: body) (hc : c.Says body) :
    ∃ body', Text.trim code' = '%' :: body' ∧ c.Says body' := by
  have hlower : lower (Text.trim code') = lower (Text.trim code) := lower_eq_of_lower_eq Text.trim_lower h.lower_eq
  rw [hbody] at hlower
  obtain ⟨body', hbody', hlower⟩ := Text.cons_of_lower_eq (by decide) hlower
  -- The two parts of the arguments of a load, and the arguments of the recased one.
  have arguments {reg value : List Char} (named : MacroCall.Names body "SLDI" (reg ++ ',' :: value))
      (first : ',' ∉ reg) :
      ∃ reg' value', MacroCall.Names body' "SLDI" (reg' ++ ',' :: value') ∧ ',' ∉ reg' ∧
        lower (Text.trim reg') = lower (Text.trim reg) ∧ lower value' = lower value := by
    obtain ⟨arguments', named', hargs⟩ := named.of_lower hlower
    obtain ⟨reg', rest, rfl, hreg, hrest⟩ := Text.append_of_lower_eq hargs
    obtain ⟨value', rfl, hvalue⟩ := Text.cons_of_lower_eq (by decide) hrest
    refine ⟨reg', value', named', fun hm => first ?_, lower_eq_of_lower_eq Text.trim_lower hreg, hvalue⟩
    rwa [← Text.mem_lower_iff (by decide), ← hreg, Text.mem_lower_iff (by decide)]
  have empty {name : String} (named : MacroCall.Names body name []) : MacroCall.Names body' name [] := by
    obtain ⟨_, named', hargs⟩ := named.of_lower hlower
    rwa [List.map_eq_nil_iff.1 hargs] at named'
  refine ⟨body', hbody', ?_⟩
  cases hc with
  | load named first hr hv hn =>
    obtain ⟨reg', value', named', first', hreg, hvalue⟩ := arguments named first
    have hnumber := (Text.natural?_eq_some_iff (by decide)).2 ⟨hv, hn⟩
    rw [← eq_of_lower_eq (Text.natural?_lower 10 65536) (lower_eq_of_lower_eq Text.trim_lower hvalue)] at hnumber
    exact .load named' first' (hr.of_lower hreg) ((Text.natural?_eq_some_iff (by decide)).1 hnumber).1 hn
  | @loadSymbol r name reg value named first hr hv hn =>
    obtain ⟨reg', value', named', first', hreg, hvalue⟩ := arguments named first
    have hcomma : ',' ∉ value := comma_not_mem_of_trim (by
      rw [hv, List.mem_cons, not_or]
      exact ⟨by decide, comma_not_mem_of_isName hn⟩)
    have hcomma' : ',' ∉ value' := by
      rwa [← Text.mem_lower_iff (by decide), hvalue, Text.mem_lower_iff (by decide)]
    obtain ⟨front, back, hcut⟩ := named.last_piece hbody hcomma
    obtain ⟨front', back', hcut'⟩ := named'.last_piece hbody' hcomma'
    have hlast := h.eq_of_last hcut hcut' ((namesLabel_of_trim hv).append back)
    have hlen : value'.length = value.length := eq_of_lower_eq Text.length_lower hvalue
    obtain rfl := (List.append_inj hlast hlen).1
    exact .loadSymbol named' first' (hr.of_lower hreg) hv hn
  | initStack named => exact .initStack (empty named)
  | call named hr =>
    obtain ⟨_, named', hargs⟩ := named.of_lower hlower
    exact .call named' (hr.of_lower hargs)
  | ret named => exact .ret (empty named)

/-! ## Labels -/

theorem comma_not_mem_of_labelName? {code : List Char} {name : String} (h : labelName? code = some name) :
    ',' ∉ code := by
  unfold labelName? at h
  split at h
  · rename_i rest
    split at h
    · rename_i hname
      simp only [Bool.and_eq_true, decide_eq_true_eq] at hname
      rw [← List.dropLast_append_getLast? _ hname.1]
      simp [comma_not_mem_of_isName hname.2]
    · cases h
  · cases h

/-- A line with a label is not changed. -/
theorem Recased.eq_of_labelName {code code' rest : List Char} {name : String} (h : Recased code code')
    (hcode : Text.trim code = '.' :: rest) (hname : labelName? ('.' :: rest) = some name) : code' = code :=
  h.eq_of_label (comma_not_mem_of_trim (hcode ▸ comma_not_mem_of_labelName? hname)) (namesLabel_of_trim hcode)

end Isa16.Source
