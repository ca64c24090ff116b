import Mathlib.Data.List.Forall2
import Mathlib.Logic.Function.Basic
import Isa16.Memory.Image
import Isa16.Proofs.Text.Digits
import Isa16.Proofs.Traversal
/-!
# Loading an image

What an image is and what loading it leaves, said without the loader. A line
says one thing, in one of a few written forms (`ImageLine.Says`). Lines are
followed one by one from a memory of zeros and a cursor at its start
(`Filling.behind`), up to the first one that cannot be followed (`Comes`).
Loading an image leaves the memory and the error of that, whatever was there
before (`loadImage_comes`).
-/

namespace Isa16

/-! ## Lines -/

namespace ImageLine

/-- A hexadecimal number of any length, with or without a plus sign. -/
def IsAddress (n : Nat) (s : List Char) : Prop :=
  Text.IsNumeral 16 n s ∨ ∃ digits, s = '+' :: digits ∧ Text.IsNumeral 16 n digits

/-- The aligned pairs of hexadecimal digits: a run of digits is cut into pairs from its start. -/
def pairs (s : List Char) : List (List Char) := (Text.Hex.runs s).flatMap (Text.Hex.cut 2)

/-- The word of the first pair and the second one, or zero in its place. -/
def pairWord (first : List Char) (others : List (List Char)) : UInt16 :=
  UInt16.ofNat (256 * Text.digitsValue 16 first + (others.head?.map (Text.digitsValue 16)).getD 0)

/-- What a line says. -/
inductive Says (line : List Char) : ImageLine → Prop
  | comment (h : Text.startsComment (Text.trim line)) : Says line .nothing
  | seek {rest : List Char} {addr : UInt16} (h : Text.trim line = '@' :: rest)
      (ha : IsAddress addr.toNat (Text.trim rest)) : Says line (.seek addr)
  | badAddress {rest : List Char} (h : Text.trim line = '@' :: rest)
      (ha : ∀ n, n < 65536 → ¬ IsAddress n (Text.trim rest)) :
      Says line (.badAddress (String.ofList (Text.trim line)))
  | blank (hc : Text.startsComment (Text.trim line) = false) (hat : (Text.trim line).head? ≠ some '@')
      (h : pairs (Text.trim line) = []) : Says line .nothing
  | store {first : List Char} {others : List (List Char)} (hc : Text.startsComment (Text.trim line) = false)
      (hat : (Text.trim line).head? ≠ some '@') (h : pairs (Text.trim line) = first :: others) :
      Says line (.store (pairWord first others))

theorem address_iff {n : Nat} {s : List Char} : Text.natural? 16 65536 s = some n ↔ IsAddress n s ∧ n < 65536 :=
  Text.natural?_iff (by decide) (by decide)

theorem ofPairs_groups (s : List Char) : ofPairs (Text.Hex.groups 2 s).toList =
    match pairs s with
    | [] => .nothing
    | first :: others => .store (pairWord first others) := by
  have hgroups : (Text.Hex.groups 2 s).toList = (pairs s).map (Text.digitsValue 16) := by
    rw [Text.Hex.groups_eq (by decide), pairs, List.map_flatMap]
  rw [hgroups]
  match pairs s with
  | [] | [_] | _ :: _ :: _ => rfl

/-- A digit without a partner counts for nothing, and a new run begins a new pair. -/
example : pairs "0 b1c2d-3e".toList = ["b1".toList, "c2".toList, "3e".toList] := by decide

/-- Every line says what the reader finds in it. -/
theorem says_read (line : List Char) : Says line (read line) := by
  unfold read
  dsimp only
  split
  · exact .comment ‹_›
  · rename_i hc
    have hc : Text.startsComment (Text.trim line) = false := by simpa using hc
    split
    · rename_i rest hline
      cases hn : Text.natural? 16 65536 (Text.trim rest) with
      | some n =>
        obtain ⟨ha, hlt⟩ := address_iff.1 hn
        refine .seek hline ?_
        rwa [UInt16.toNat_ofNat_of_lt' hlt]
      | none =>
        refine .badAddress hline fun n hlt ha => ?_
        rw [address_iff.2 ⟨ha, hlt⟩] at hn
        cases hn
    · rename_i hat
      have hat : (Text.trim line).head? ≠ some '@' := fun h => by
        obtain ⟨rest, hrest⟩ := List.head?_eq_some_iff.1 h
        exact hat rest hrest
      rw [ofPairs_groups]
      cases hpairs : pairs (Text.trim line) with
      | nil => exact .blank hc hat hpairs
      | cons first others => exact .store hc hat hpairs

/-- A line says nothing else. -/
theorem says_iff {line : List Char} {l : ImageLine} : Says line l ↔ read line = l := by
  refine ⟨fun h => ?_, fun h => h ▸ says_read line⟩
  have data (hc : Text.startsComment (Text.trim line) = false) (hat : (Text.trim line).head? ≠ some '@') :
      read line = ofPairs (Text.Hex.groups 2 (Text.trim line)).toList := by
    simp only [read, hc, Bool.false_eq_true, if_false]
    split
    · rename_i hline
      rw [hline] at hat
      exact absurd rfl hat
    · rfl
  cases h with
  | comment h => simp only [read, h, if_true]
  | seek h ha =>
    have hn := address_iff.2 ⟨ha, UInt16.toNat_lt _⟩
    simp [read, h, hn, Text.startsComment, List.isPrefixOf]
  | badAddress h ha =>
    have hn : Text.natural? 16 65536 (Text.trim _) = none :=
      Option.eq_none_iff_forall_ne_some.2 fun n hn => ha n (address_iff.1 hn).2 (address_iff.1 hn).1
    simp [read, h, hn, Text.startsComment, List.isPrefixOf]
  | blank hc hat h => rw [data hc hat, ofPairs_groups, h]
  | store hc hat h => rw [data hc hat, ofPairs_groups, h]

end ImageLine

/-! ## Memory -/

namespace DataMemory

/-- The memory with these words. -/
def ofWords (words : UInt16 → UInt16) : DataMemory :=
  ⟨Vector.ofFn fun i =>
    let w := (words (UInt16.ofNat (i / 2))).toNat
    UInt8.ofNat (if i.val % 2 = 0 then w / 256 else w)⟩

theorem ofWords_zero : ofWords (fun _ => 0) = empty := by
  simp only [ofWords, empty, mk.injEq]
  ext i hi
  simp

theorem setWord_ofWords (words : UInt16 → UInt16) (addr value : UInt16) :
    (ofWords words).setWord addr value = ofWords (Function.update words addr value) := by
  have hlt := addr.toNat_lt
  have hbytes : ∀ (i : Nat) (hi : i < 131072), ((ofWords words).setWord addr value).bytes[i] =
      (ofWords (Function.update words addr value)).bytes[i] := by
    intro i hi
    have haddr : UInt16.ofNat (i / 2) = addr ↔ i / 2 = addr.toNat := by
      rw [← UInt16.toNat_inj, UInt16.toNat_ofNat_of_lt' (by simp only [UInt16.size]; omega)]
    simp only [bytes_setWord, ofWords, Vector.getElem_ofFn, Function.update_apply, haddr]
    by_cases hhigh : i = 2 * addr.toNat
    · rw [if_pos hhigh, if_pos (by omega), if_pos (by omega)]
    · by_cases hlow : i = 2 * addr.toNat + 1
      · rw [if_neg hhigh, if_pos hlow, if_neg (by omega), if_pos (by omega)]
      · rw [if_neg hhigh, if_neg hlow, if_neg (show ¬ i / 2 = addr.toNat by omega)]
  cases h : (ofWords words).setWord addr value with
  | mk bytes =>
    rw [h] at hbytes
    simp only [ofWords, mk.injEq] at hbytes ⊢
    ext i hi
    rw [hbytes i hi]

end DataMemory

/-! ## Following lines -/

/-- What lines of an image have come to: the words of the memory, and the cursor. -/
structure Filling where
  words : UInt16 → UInt16
  /-- A word address, or 65536 behind the last word. -/
  cursor : Nat

namespace Filling

/-- All words are zero, and the cursor is at the first. -/
def start : Filling := ⟨fun _ => 0, 0⟩

def follow (f : Filling) : ImageLine → Filling
  | .nothing | .badAddress _ => f
  | .seek addr => { f with cursor := addr.toNat }
  | .store word => ⟨Function.update f.words (UInt16.ofNat f.cursor) word, f.cursor + 1⟩

/-- What there is behind lines. -/
def behind (f : Filling) (lines : List ImageLine) : Filling := lines.foldl follow f

/-- A line that cannot be followed, with the error for it on line `number`. -/
inductive Faulty (f : Filling) (number : Nat) : ImageLine → ImageError → Prop
  | badAddress (text : String) : Faulty f number (.badAddress text) (.badAddress number text)
  | pastEnd (word : UInt16) (h : f.cursor = 65536) : Faulty f number (.store word) (.pastEnd number)

/-- Every line can be followed behind those before it. -/
def Clean (f : Filling) (number : Nat) (lines : List ImageLine) : Prop :=
  ∀ pre line post, lines = pre ++ line :: post → ∀ e, ¬ (f.behind pre).Faulty (number + pre.length) line e

/-- What lines come to, the first of them having the number `number`: all of them are followed, or
those before the first that cannot be. -/
inductive Comes (f : Filling) (number : Nat) : List ImageLine → Filling → Option ImageError → Prop
  | whole {lines : List ImageLine} (h : f.Clean number lines) : Comes f number lines (f.behind lines) none
  | fault {pre post : List ImageLine} {line : ImageLine} {e : ImageError} (h : f.Clean number pre)
      (he : (f.behind pre).Faulty (number + pre.length) line e) :
      Comes f number (pre ++ line :: post) (f.behind pre) (some e)

variable {f : Filling} {number : Nat}

theorem clean_nil : f.Clean number [] := fun pre line post h => by simp at h

theorem clean_cons {line : ImageLine} {lines : List ImageLine} (hline : ∀ e, ¬ f.Faulty number line e)
    (h : (f.follow line).Clean (number + 1) lines) : f.Clean number (line :: lines) := by
  intro pre l post hsplit e he
  cases pre with
  | nil =>
    obtain rfl := (List.cons.inj hsplit).1
    exact hline e he
  | cons p pre =>
    obtain ⟨rfl, hrest⟩ := List.cons.inj hsplit
    rw [List.length_cons, ← Nat.add_assoc, Nat.add_right_comm] at he
    exact h pre l post hrest e he

/-- The first line cannot be followed. -/
theorem Comes.first {line : ImageLine} {lines : List ImageLine} {e : ImageError} (he : f.Faulty number line e) :
    f.Comes number (line :: lines) f (some e) :=
  @Comes.fault f number [] lines line e clean_nil he

theorem Comes.cons {line : ImageLine} {lines : List ImageLine} {g : Filling} {e : Option ImageError}
    (hline : ∀ e, ¬ f.Faulty number line e) (h : (f.follow line).Comes (number + 1) lines g e) :
    f.Comes number (line :: lines) g e := by
  cases h with
  | whole h => exact .whole (clean_cons hline h)
  | @fault pre post l e h he =>
    have hfault := @Comes.fault f number (line :: pre) post l e (clean_cons hline h)
    rw [List.length_cons, ← Nat.add_assoc, Nat.add_right_comm] at hfault
    exact hfault he

end Filling

namespace DataMemory

/-- The loader follows the lines it can. -/
theorem follow_comes (f : Filling) (number : Nat) (lines : List ImageLine) (hcursor : f.cursor ≤ 65536) :
    ∃ g e, (ofWords f.words).follow f.cursor number lines = (ofWords g.words, e) ∧ f.Comes number lines g e := by
  induction lines generalizing f number with
  | nil => exact ⟨f, none, rfl, .whole Filling.clean_nil⟩
  | cons line lines ih =>
    cases line with
    | nothing =>
      obtain ⟨g, e, hg, hcomes⟩ := ih f (number + 1) hcursor
      exact ⟨g, e, hg, .cons (fun _ he => nomatch he) hcomes⟩
    | seek addr =>
      obtain ⟨g, e, hg, hcomes⟩ := ih (f.follow (.seek addr)) (number + 1) (Nat.le_of_lt addr.toNat_lt)
      exact ⟨g, e, hg, .cons (fun _ he => nomatch he) hcomes⟩
    | badAddress text =>
      exact ⟨f, _, rfl, .first (.badAddress text)⟩
    | store word =>
      rw [follow]
      by_cases hlt : f.cursor < 65536
      · obtain ⟨g, e, hg, hcomes⟩ := ih (f.follow (.store word)) (number + 1) hlt
        rw [if_pos hlt, setWord_ofWords]
        refine ⟨g, e, hg, .cons (fun _ he => ?_) hcomes⟩
        cases he with
        | pastEnd _ hend => exact absurd hend (Nat.ne_of_lt hlt)
      · rw [if_neg hlt]
        have hend : f.cursor = 65536 := by omega
        exact ⟨f, _, rfl, .first (.pastEnd word hend)⟩

/-- Loading an image leaves what its lines come to, from a memory of zeros, and nothing of what was
there before. -/
theorem loadImage_comes (text : String) : ∃ said f e,
    List.Forall₂ ImageLine.Says (Text.lines text.toList) said ∧ Filling.start.Comes 1 said f e ∧
      (∀ m : DataMemory, m.loadImage text = (ofWords f.words, e)) ∧
      ofImage text = e.elim (.ok (ofWords f.words)) .error := by
  obtain ⟨f, e, hf, hcomes⟩ :=
    follow_comes Filling.start 1 ((Text.lines text.toList).map ImageLine.read) (Nat.zero_le _)
  have hload : ∀ m : DataMemory, m.loadImage text = (ofWords f.words, e) := by
    intro m
    rw [loadImage, clear_eq_empty, ← ofWords_zero]
    exact hf
  refine ⟨_, f, e, ?_, hcomes, hload, ?_⟩
  · exact List.forall₂_map_right_iff.2 (List.forall₂_same.2 fun line _ => ImageLine.says_read line)
  · rw [ofImage, hload]
    cases e <;> rfl

end DataMemory

end Isa16
