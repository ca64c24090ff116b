import Isa16.Proofs.Assembly.Items
/-!
# Sources behind each other

A source whose last line is complete can be followed by another: the lines of
the two are the lines of the whole, with the second counted on from the first
(`numberedLines_append`), and so are their logical lines (`itemsOf_append`).
-/

namespace Isa16

namespace Source

/-- The source is empty or ends in a newline. -/
def Complete (source : String) : Prop := source = "" ∨ source.toList.getLast? = some '\n'

/-- How many newlines the source has. -/
def newlines (source : String) : Nat := source.toList.count '\n'

/-! ## Lines -/

theorem length_splitOn (s : List Char) : (s.splitOn '\n').length = s.count '\n' + 1 := by
  induction s with
  | nil => rfl
  | cons c s ih =>
    rw [List.splitOn_cons_eq_if_modifyHead, List.count_cons]
    split
    · rw [List.length_cons, ih]
    · rw [List.length_modifyHead, ih, Nat.add_zero]

/-- The lines behind a newline are those of the text behind it. -/
theorem lines_behind_newline (s t : List Char) : Text.lines (normalizeText (s ++ '\n' :: t)) =
    (s.splitOn '\n').map normalLine ++ Text.lines (normalizeText t) := by
  have hne : (t.splitOn '\n').map normalLine ≠ [] := by simp [List.splitOn_ne_nil]
  simp only [Text.lines, splitOn_normalizeText, List.splitOn_append_cons_self, List.map_append,
    List.getLast?_append_of_ne_nil _ hne]
  split
  · exact List.dropLast_append_of_ne_nil hne
  · rfl

/-- A complete source has a line for each newline, and what follows has its own lines. -/
theorem lines_of_complete {source : String} (h : Complete source) (t : List Char) :
    Text.lines (normalizeText (source.toList ++ t)) =
      Text.lines (normalizeText source.toList) ++ Text.lines (normalizeText t) ∧
    (Text.lines (normalizeText source.toList)).length = newlines source := by
  rcases h with rfl | h
  · exact ⟨rfl, rfl⟩
  · obtain ⟨s, hs⟩ := List.getLast?_eq_some_iff.1 h
    have hnil : Text.lines (normalizeText []) = [] := rfl
    rw [newlines, hs, List.append_assoc, List.singleton_append, lines_behind_newline, lines_behind_newline, hnil,
      List.append_nil, List.length_map, length_splitOn, List.count_append, List.count_singleton_self]
    exact ⟨rfl, rfl⟩

end Source

namespace Assembly

open Isa16.Source (Statement)

/-- The same thing a number of lines further down. -/
def Numbered.down {α : Type} (n : Nat) (x : Numbered α) : Numbered α := ⟨x.line + n, x.val⟩

theorem numberedLines_append {source : String} (h : Source.Complete source) (t : List Char) :
    numberedLines (Source.normalizeText (source.toList ++ t)) =
      numberedLines (Source.normalizeText source.toList) ++
        (numberedLines (Source.normalizeText t)).map (·.down (Source.newlines source)) := by
  obtain ⟨hlines, hlength⟩ := Source.lines_of_complete h t
  rw [numberedLines, hlines, List.zipIdx_append, hlength, List.map_append, Nat.add_comm 1,
    ← List.map_snd_add_zipIdx_eq_zipIdx, List.map_map, numberedLines, numberedLines, List.map_map]
  rfl

/-! ## Logical lines -/

section

variable {α β : Type} {read : α → Except Cause β} {xs ys : List (Numbered α)} {us vs : List (Numbered β)}

/-- Readings go together, wherever the lines stand. -/
theorem readEach_append (hx : readEach read xs = .ok us) (hy : readEach read ys = .ok vs) (n : Nat) :
    readEach read (xs ++ ys.map (·.down n)) = .ok (us ++ vs.map (·.down n)) := by
  rw [readEach_eq_ok_iff] at hx hy ⊢
  refine List.rel_append hx ?_
  rw [List.forall₂_map_left_iff, List.forall₂_map_right_iff]
  refine hy.imp fun x y hxy => ?_
  exact ⟨congrArg (· + n) hxy.1, hxy.2⟩

end

theorem itemsOf_append {s₁ s₂ : String} (hs : Source.Complete s₁) {items₁ items₂ : List (Numbered Item)}
    (h₁ : itemsOf s₁ = .ok items₁) (h₂ : itemsOf s₂ = .ok items₂) :
    itemsOf (s₁ ++ s₂) = .ok (items₁ ++ items₂.map (·.down (Source.newlines s₁))) := by
  obtain ⟨statements₁, hread₁, h₁⟩ := bind_eq_ok_iff.1 h₁
  obtain ⟨blocks₁, hexpand₁, h₁⟩ := bind_eq_ok_iff.1 h₁
  obtain ⟨statements₂, hread₂, h₂⟩ := bind_eq_ok_iff.1 h₂
  obtain ⟨blocks₂, hexpand₂, h₂⟩ := bind_eq_ok_iff.1 h₂
  cases h₁
  cases h₂
  have hread := readEach_append hread₁ hread₂ (Source.newlines s₁)
  have hexpand := readEach_append hexpand₁ hexpand₂ (Source.newlines s₁)
  rw [← numberedLines_append hs, ← String.toList_append] at hread
  refine bind_eq_ok_iff.2 ⟨_, hread, bind_eq_ok_iff.2 ⟨_, hexpand, ?_⟩⟩
  rw [List.flatMap_append, List.flatMap_map, List.map_flatMap]
  simp only [List.map_map]
  rfl

end Assembly

end Isa16
