import Isa16.Proofs.Text
/-!
# Letter case

What the readers of text make of a letter does not depend on its case. They cut
a text in lower case where they cut the text itself, and read the same numbers
from it. Two texts that differ in the case of letters only are the same in lower
case, so each of these lemmas is about such texts as well.
-/

namespace Isa16.Text

/-- The text with its letters `A` to `Z` in lower case. -/
def lower (s : List Char) : List Char := s.map Char.toLower

/-! ## Characters -/

/-- The letters that have a lower case. -/
def upperLetters : List Char := (List.range 26).map fun n => Char.ofNat (65 + n)

theorem toLower_cases (c : Char) : c.toLower = c ∨ c ∈ upperLetters := by
  unfold Char.toLower
  split
  · rename_i h
    simp only [UInt32.le_iff_toNat_le] at h
    change 65 ≤ c.toNat ∧ c.toNat ≤ 90 at h
    refine .inr (List.mem_map.2 ⟨c.toNat - 65, List.mem_range.2 (by omega), ?_⟩)
    rw [show 65 + (c.toNat - 65) = c.toNat by omega, Char.ofNat_toNat]
  · exact .inl rfl

/-- What holds of the letters with two cases holds of all characters. -/
theorem toLower_congr {α : Type} {f : Char → α} (h : upperLetters.map (f ·.toLower) = upperLetters.map f) (c : Char) :
    f c.toLower = f c := by
  rcases toLower_cases c with hc | hc
  · rw [hc]
  · exact List.map_inj_left.1 h c hc

theorem isBlank_toLower (c : Char) : isBlank c.toLower = isBlank c := toLower_congr (by decide) c

theorem toUpper_toLower (c : Char) : c.toLower.toUpper = c.toUpper := toLower_congr (by decide) c

/-- A character below the letters is no lower case of another. -/
theorem toLower_eq_iff {c d : Char} (hd : d.toNat < 65) : c.toLower = d ↔ c = d := by
  rcases toLower_cases c with hc | hc
  · rw [hc]
  · have hle : upperLetters.all fun c => 65 ≤ c.toNat ∧ 65 ≤ c.toLower.toNat := by decide
    obtain ⟨hc, hlower⟩ := of_decide_eq_true (List.all_eq_true.1 hle c hc)
    exact ⟨fun h => absurd hd (by rw [← h]; omega), fun h => absurd hd (by rw [← h]; omega)⟩

theorem digit?_toLower (radix : Nat) (c : Char) : digit? radix c.toLower = digit? radix c := by
  have hvalue := toLower_congr (f := fun c => if '0' ≤ c ∧ c ≤ '9' then some (c.toNat - 48)
    else if 'a' ≤ c ∧ c ≤ 'z' then some (c.toNat - 87)
    else if 'A' ≤ c ∧ c ≤ 'Z' then some (c.toNat - 55) else none) (by decide) c
  exact congrArg (Option.filter (· < radix)) hvalue

/-! ## Cuts -/

/-- A reading of lower case is a reading of texts that differ in case only. -/
theorem eq_of_lower_eq {α : Type} {f : List Char → α} (hf : ∀ s, f (lower s) = f s) {s t : List Char}
    (h : lower t = lower s) : f t = f s := by
  rw [← hf, h, hf]

/-- What is cut alike from lower case is cut alike from texts that differ in case only. -/
theorem lower_eq_of_lower_eq {f : List Char → List Char} (hf : ∀ s, f (lower s) = lower (f s)) {s t : List Char}
    (h : lower t = lower s) : lower (f t) = lower (f s) := by
  rw [← hf, h, hf]

theorem length_lower (s : List Char) : (lower s).length = s.length := List.length_map ..

theorem isEmpty_lower (s : List Char) : (lower s).isEmpty = s.isEmpty := List.isEmpty_map

theorem map_toUpper_lower (s : List Char) : (lower s).map Char.toUpper = s.map Char.toUpper := by
  rw [lower, List.map_map]
  exact List.map_congr_left fun c _ => toUpper_toLower c

theorem lower_append (s t : List Char) : lower (s ++ t) = lower s ++ lower t := List.map_append

theorem lower_reverse (s : List Char) : lower s.reverse = (lower s).reverse := List.map_reverse

theorem mem_lower_iff {d : Char} (hd : d.toNat < 65) {s : List Char} : d ∈ lower s ↔ d ∈ s := by
  simp [lower, toLower_eq_iff hd]

/-- Texts that differ in case only are parted alike. -/
theorem append_of_lower_eq {s u v : List Char} (h : lower s = lower (u ++ v)) :
    ∃ u' v', s = u' ++ v' ∧ lower u' = lower u ∧ lower v' = lower v := by
  rw [lower_append] at h
  exact List.map_eq_append_iff.1 h

theorem cons_of_lower_eq {c : Char} (hc : c.toNat < 65) {s t : List Char} (h : lower t = lower (c :: s)) :
    ∃ t', t = c :: t' ∧ lower t' = lower s := by
  obtain ⟨d, t', rfl, hd, ht⟩ := List.map_eq_cons_iff.1 h
  rw [(toLower_eq_iff hc).2 rfl, toLower_eq_iff hc] at hd
  exact ⟨t', by rw [hd], ht⟩

theorem filter_lower {p : Char → Bool} (hp : ∀ c : Char, p c.toLower = p c) (s : List Char) :
    (lower s).filter p = lower (s.filter p) := by
  rw [lower, List.filter_map, show p ∘ Char.toLower = p from funext hp, lower]

theorem takeWhile_lower {p : Char → Bool} (hp : ∀ c : Char, p c.toLower = p c) (s : List Char) :
    (lower s).takeWhile p = lower (s.takeWhile p) := by
  rw [lower, List.takeWhile_map, show p ∘ Char.toLower = p from funext hp, lower]

theorem dropWhile_lower {p : Char → Bool} (hp : ∀ c : Char, p c.toLower = p c) (s : List Char) :
    (lower s).dropWhile p = lower (s.dropWhile p) := by
  rw [lower, List.dropWhile_map, show p ∘ Char.toLower = p from funext hp, lower]

theorem trimStart_lower (s : List Char) : trimStart (lower s) = lower (trimStart s) :=
  dropWhile_lower isBlank_toLower s

theorem trim_lower (s : List Char) : trim (lower s) = lower (trim s) := by
  rw [trim, trimStart_lower, trimEnd, ← lower_reverse, dropWhile_lower isBlank_toLower, ← lower_reverse]
  rfl

theorem splitOn_lower {sep : Char} (hsep : sep.toNat < 65) (s : List Char) :
    (lower s).splitOn sep = (s.splitOn sep).map lower := by
  refine splitOn_of_cut (fun u v => ?_) (fun u hu hm => hu ((mem_lower_iff hsep).1 hm)) s
  have hcons : lower (sep :: v) = sep :: lower v := congrArg (· :: lower v) ((toLower_eq_iff hsep).2 rfl)
  rw [lower_append, hcons]

theorem cutAt?_lower {p : Char → Bool} (hp : ∀ c : Char, p c.toLower = p c) (s : List Char) :
    cutAt? p (lower s) = (cutAt? p s).map fun (before, after) => (lower before, lower after) := by
  have hnot : ∀ c : Char, (! p c.toLower) = ! p c := fun c => by rw [hp]
  have htake := takeWhile_lower (p := (! p ·)) hnot s
  have hdrop := dropWhile_lower (p := (! p ·)) hnot s
  simp only [cutAt?, List.span_eq_takeWhile_dropWhile, htake, hdrop]
  cases s.dropWhile (! p ·) <;> rfl

theorem cutWord_lower (s : List Char) : cutWord (lower s) = (lower (cutWord s).1, lower (cutWord s).2) := by
  rw [cutWord, cutAt?_lower isBlank_toLower, cutWord]
  cases cutAt? isBlank s <;> rfl

theorem cutWord_of_lower_eq {s t : List Char} (h : lower t = lower s) :
    lower (cutWord t).1 = lower (cutWord s).1 ∧ lower (cutWord t).2 = lower (cutWord s).2 := by
  have hcut := congrArg cutWord h
  rw [cutWord_lower, cutWord_lower] at hcut
  exact Prod.mk.inj hcut

/-! ## Numerals -/

theorem digits?_lower (radix limit : Nat) (s : List Char) : digits? radix limit (lower s) = digits? radix limit s := by
  have happend : (fun n c => appendDigit? radix limit n (Char.toLower c)) = appendDigit? radix limit := by
    funext n c
    rw [appendDigit?, digit?_toLower, appendDigit?]
  rw [digits?, digits?, lower, List.isEmpty_map, List.foldlM_map, happend]

theorem natural?_lower (radix limit : Nat) (s : List Char) :
    natural? radix limit (lower s) = natural? radix limit s := by
  cases s with
  | nil => rfl
  | cons c s =>
    by_cases hc : c = '+'
    · rw [hc]
      exact digits?_lower radix limit s
    · have hlower : c.toLower ≠ '+' := mt (toLower_eq_iff (by decide)).1 hc
      have h := digits?_lower radix limit (c :: s)
      simpa [natural?, lower, hc, hlower] using h

theorem integer?_lower (limit : Nat) (s : List Char) : integer? limit (lower s) = integer? limit s := by
  cases s with
  | nil => rfl
  | cons c s =>
    by_cases hc : c = '-'
    · have hcons : lower ('-' :: s) = '-' :: lower s := rfl
      rw [hc, hcons, integer?, integer?, digits?_lower]
    · have hlower : c.toLower ≠ '-' := mt (toLower_eq_iff (by decide)).1 hc
      have h := natural?_lower 10 limit (c :: s)
      simpa [integer?, lower, hc, hlower] using congrArg (Option.map Int.ofNat) h

end Isa16.Text
