import Isa16.Proofs.Assembly.Alike
import Isa16.Proofs.Source.Retouch
/-!
# Comments, blank lines and indentation

A source with lines retouched and bare lines put in is assembled to the same
code and labels, with its line map renumbered, or is refused for the same cause
on the line that the refused one has become (`assemble_annotated`).
-/

namespace Isa16.Assembly

open Isa16.Source (Statement normalLine Annotated)

/-- Lines in normal form, numbered from `n` on. -/
def normalFrom (n : Nat) (lines : List (List Char)) : List (Numbered (List Char)) :=
  (lines.zipIdx n).map fun (line, k) => ⟨k, normalLine line⟩

@[simp] theorem normalFrom_cons (n : Nat) (line : List Char) (lines : List (List Char)) :
    normalFrom n (line :: lines) = ⟨n, normalLine line⟩ :: normalFrom (n + 1) lines := rfl

/-- The line has code. -/
def HasCode (x : Numbered (List Char)) : Bool := ! (Text.code x.val).isEmpty

theorem hasCode_eq_false_iff {x : Numbered (List Char)} : HasCode x = false ↔ Text.code x.val = [] := by
  simp [HasCode]

/-- The numbered lines with code are those of the text as it was written. -/
theorem filter_numberedLines (text : List Char) :
    (numberedLines (Source.normalizeText text)).filter HasCode = (normalFrom 1 (Text.lines text)).filter HasCode := by
  obtain ⟨rest, hrest, hlines⟩ := Source.lines_normalizeText text
  have hnormal : normalFrom 1 (Text.lines text) =
      (((Text.lines text).map normalLine).zipIdx 1).map fun (line, k) => ⟨k, line⟩ := by
    rw [List.zipIdx_map, List.map_map]
    rfl
  rw [hnormal, hlines, List.zipIdx_append, List.map_append, List.filter_append]
  rcases hrest with rfl | rfl
  · exact (List.append_nil _).symm
  · exact (List.append_nil _).symm

/-- A line says what its code says. -/
theorem agrees_read_of_code {line line' : List Char} (h : Text.code line' = Text.code line)
    (hne : Text.code line ≠ []) : Agrees Eq StatementAlike (Statement.read line) (Statement.read line') := by
  have halike : ReadAlike (String.ofList (Text.trim line)) (String.ofList (Text.trim line')) := by
    intro symbols pc
    simp only [String.toList_ofList, Text.code_trim, h]
  unfold Statement.read
  simp only [Text.code_trim, h]
  split
  · exact absurd ‹_› hne
  · exact (Agrees.refl _).map fun c _ hc => hc ▸ .call c
  · exact .ok (.label _)
  · exact .ok (.instruction halike)

theorem alike_of_annotated {r : Nat → Nat} {k n : Nat} {xs ys : List (List Char)} (h : Annotated r k n xs ys) :
    List.Forall₂
      (Numbered.Alike r fun line line' => Agrees Eq StatementAlike (Statement.read line) (Statement.read line'))
      ((normalFrom k xs).filter HasCode) ((normalFrom n ys).filter HasCode) := by
  induction h with
  | nil => exact .nil
  | @bare k n y xs ys hy _ ih =>
    have hnone : HasCode ⟨n, normalLine y⟩ = false := hasCode_eq_false_iff.2 (Source.code_normalLine_of_isBare hy)
    rwa [normalFrom_cons, List.filter_cons_of_neg (by rw [hnone]; exact Bool.false_ne_true)]
  | @line k n x y xs ys hxy hr _ ih =>
    have hcode := Source.code_normalLine_of_retouched hxy
    have hsame : HasCode ⟨n, normalLine y⟩ = HasCode ⟨k, normalLine x⟩ := by simp only [HasCode, hcode]
    rw [normalFrom_cons, normalFrom_cons, List.filter_cons, List.filter_cons, hsame]
    split
    · rename_i hx
      have hne : Text.code (normalLine x) ≠ [] := fun hnil => by simp [HasCode, hnil] at hx
      exact .cons ⟨hr.symm, agrees_read_of_code hcode hne⟩ ih
    · exact ih

/-- Comments, blank lines and blanks around lines do not matter, but for the numbers of the lines. -/
theorem assemble_annotated {source source' : String} {r : Nat → Nat}
    (h : Annotated r 1 1 (Text.lines source.toList) (Text.lines source'.toList)) :
    (∀ a, assemble source = .ok a → ∃ b, assemble source' = .ok b ∧ Moved r a b) ∧
      ∀ d, assemble source = .error d → assemble source' = .error ⟨r d.line, d.cause⟩ := by
  have hlines := alike_of_annotated h
  rw [← filter_numberedLines, ← filter_numberedLines] at hlines
  have halike : AlikeTexts r _ _ := .of_filter (fun _ _ => hasCode_eq_false_iff.1) (fun _ _ => hasCode_eq_false_iff.1)
    hlines
  have hagree := agrees_assemble halike
  refine ⟨fun a ha => hagree.exists_ok ha, fun d hd => ?_⟩
  obtain ⟨_, hd', rfl⟩ := hagree.exists_error hd
  exact hd'

/-- Every kind of edit at once: a title, an empty line, blanks and a comment with code in it. -/
theorem annotated_of_every_edit :
    Annotated (fun k => if k = 1 then 2 else k + 2) 1 1 (Text.lines "%SLDI r1,.a\n.a:\nbrz r1,.a".toList)
      (Text.lines "// title\n %SLDI r1,.a // load\n\n.a:\t\n brz r1,.a // %RET\r\n//".toList) ∧
    ∃ a b, assemble "%SLDI r1,.a\n.a:\nbrz r1,.a" = .ok a ∧
      assemble "// title\n %SLDI r1,.a // load\n\n.a:\t\n brz r1,.a // %RET\r\n//" = .ok b ∧
      Moved (fun k => if k = 1 then 2 else k + 2) a b := by
  have hlines : Text.lines "%SLDI r1,.a\n.a:\nbrz r1,.a".toList =
      ["%SLDI r1,.a".toList, ".a:".toList, "brz r1,.a".toList] := by decide +kernel
  have hlines' : Text.lines "// title\n %SLDI r1,.a // load\n\n.a:\t\n brz r1,.a // %RET\r\n//".toList =
      [[] ++ '/' :: '/' :: " title".toList, ' ' :: "%SLDI r1,.a".toList ++ ' ' :: '/' :: '/' :: " load".toList,
        [] ++ [], ".a:".toList ++ ['\t'], ' ' :: "brz r1,.a".toList ++ ' ' :: '/' :: '/' :: " %RET\r".toList,
        [] ++ '/' :: '/' :: []] := by decide +kernel
  have hannotated : Annotated (fun k => if k = 1 then 2 else k + 2) 1 1
      (Text.lines "%SLDI r1,.a\n.a:\nbrz r1,.a".toList)
      (Text.lines "// title\n %SLDI r1,.a // load\n\n.a:\t\n brz r1,.a // %RET\r\n//".toList) := by
    have bare {comment : List Char} (h : comment = [] ∨ ∃ text, comment = '/' :: '/' :: text) :
        Source.IsBare ([] ++ comment) := ⟨[], comment, rfl, by simp, h⟩
    have noted {line text : List Char} (hn : '\n' ∉ text) :
        Source.Retouched line (' ' :: line ++ ' ' :: '/' :: '/' :: text) :=
      .commented (.inl rfl) hn (.indented (by decide) (by decide) .refl)
    rw [hlines, hlines']
    refine .bare (bare (.inr ⟨_, rfl⟩)) (.line (noted (by decide)) rfl ?_)
    refine .bare (bare (.inl rfl)) (.line (.padded (by decide) (by decide) .refl) rfl ?_)
    exact .line (noted (by decide)) rfl (.bare (bare (.inr ⟨_, rfl⟩)) .nil)
  obtain ⟨a, ha, -⟩ := exists_ok_of_any (x := assemble "%SLDI r1,.a\n.a:\nbrz r1,.a") (p := fun _ => true)
    (by decide +kernel)
  obtain ⟨b, hb, hmoved⟩ := (assemble_annotated hannotated).1 a ha
  exact ⟨hannotated, a, b, ha, hb, hmoved⟩

end Isa16.Assembly
