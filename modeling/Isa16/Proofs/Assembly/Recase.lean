import Isa16.Proofs.Assembly.Intermediate
import Isa16.Proofs.Assembly.Refusal
import Isa16.Proofs.Assembly.Retouch
import Isa16.Proofs.Source.Recase
/-!
# Letter case does not matter

A source that is accepted and then recased is assembled to the same code, labels
and line map (`assemble_recased`). Its macro calls say the same, whatever else
the source has. An instruction reads the same as well, but for that it has to be
accepted at some address: a refusal shows the text that is wrong, as it is
written (`readInstruction_recased`). Labels are not recased, as two of them may
differ in nothing but case.
-/

namespace Isa16

namespace Assembly

open Isa16.Source (Statement MacroCall Recased RecasedLine NamesLabel normalLine bareCode normalizeCode)
open Text (lower eq_of_lower_eq lower_eq_of_lower_eq)

/-! ## Arguments -/

/-- An argument that was read once is read alike when it is recased. -/
theorem read_recased {token token' : List Char} (hl : lower token' = lower token)
    (hsymbol : token.head? = some '.' → token' = token) {symbols₀ : SymbolTable} {arg : Argument}
    (hread : Argument.read symbols₀ token = .ok arg) (symbols : SymbolTable) :
    Argument.read symbols token' = Argument.read symbols token := by
  by_cases hdot : token.head? = some '.'
  · rw [hsymbol hdot]
  have hdot' : token'.head? ≠ some '.' := by
    intro h
    obtain ⟨rest, rfl⟩ := List.head?_eq_some_iff.1 h
    obtain ⟨_, rfl, -⟩ := Text.cons_of_lower_eq (by decide) hl.symm
    exact hdot rfl
  have hplain : ∀ name, token ≠ '.' :: name := by
    rintro name rfl
    exact hdot rfl
  have hplain' : ∀ name, token' ≠ '.' :: name := by
    rintro name rfl
    exact hdot' rfl
  rw [read_of_no_symbol hplain] at hread
  rw [read_of_no_symbol hplain, read_of_no_symbol hplain', eq_of_lower_eq Source.register?_lower hl,
    eq_of_lower_eq (Text.integer?_lower _) hl]
  cases hr : Source.register? token with
  | some r => rfl
  | none =>
    cases hn : Text.integer? 0x80000000 token with
    | some n => rfl
    | none =>
      rw [hr, hn] at hread
      cases hread

/-! ## Instructions -/

/-- The arguments behind the first are the pieces behind the first comma, without their blanks. -/
theorem tail_arguments {code : List Char} (hname : ',' ∉ (Text.cutWord (Text.trim code)).1) :
    (((Text.cutWord (Text.trim code)).2.filter (! Text.isBlank ·)).splitOn ',').tail =
      (code.splitOn ',').tail.map (List.filter (! Text.isBlank ·)) := by
  obtain ⟨gap, hparts, hgap⟩ := Text.cutWord_parts (Text.trim code)
  have hnone : gap.filter (! Text.isBlank ·) = [] := List.filter_eq_nil_iff.2 fun c hc => by simp [hgap c hc]
  have hfilter := congrArg (List.filter (! Text.isBlank ·)) hparts
  rw [Text.filter_trim, List.filter_append, List.filter_append, hnone, List.append_nil] at hfilter
  -- The name goes into the first piece of the whole code, and the other pieces are those of the rest.
  rw [List.map_tail, ← Text.splitOn_filter (by decide), hfilter,
    Text.tail_splitOn_append fun hm => hname (List.mem_filter.1 hm).1]

theorem comma_not_mem_of_ofMnemonic? {name : List Char} {op : Opcode}
    (h : Opcode.ofMnemonic? (String.ofList name) = some op) : ',' ∉ name := by
  have hname := List.find?_some h
  simp only [String.toList_ofList, decide_eq_true_eq] at hname
  rw [← Text.mem_lower_iff (by decide), lower, ← hname]
  cases op <;> decide

section

variable {code code' : List Char} (h : Recased code code')

include h

theorem cutWord_recased : lower (Text.cutWord (Text.trim code')).1 = lower (Text.cutWord (Text.trim code)).1 ∧
    lower (Text.cutWord (Text.trim code')).2 = lower (Text.cutWord (Text.trim code)).2 :=
  Text.cutWord_of_lower_eq (lower_eq_of_lower_eq Text.trim_lower h.lower_eq)

/-- The arguments of an instruction are recased with it, and those behind the first that are symbols
stay as they are. -/
theorem arguments_recased (hname : ',' ∉ (cutInstruction (Text.trim code)).1) :
    (cutInstruction (Text.trim code')).2.map lower = (cutInstruction (Text.trim code)).2.map lower ∧
      List.Forall₂ (fun t t' => t.head? = some '.' → t' = t) (cutInstruction (Text.trim code)).2.tail
        (cutInstruction (Text.trim code')).2.tail := by
  obtain ⟨hword, hrest⟩ := cutWord_recased h
  have hname' : ',' ∉ (Text.cutWord (Text.trim code')).1 := by
    rwa [← Text.mem_lower_iff (by decide), hword, Text.mem_lower_iff (by decide)]
  have hblank : ∀ c : Char, (! Text.isBlank c.toLower) = ! Text.isBlank c := fun c => by rw [Text.isBlank_toLower]
  have hkept := lower_eq_of_lower_eq (Text.filter_lower (p := (! Text.isBlank ·)) hblank) hrest
  have hempty := eq_of_lower_eq Text.isEmpty_lower hkept
  simp only [cutInstruction, hempty]
  split
  · exact ⟨rfl, .nil⟩
  · constructor
    · rw [← Text.splitOn_lower (by decide), ← Text.splitOn_lower (by decide), hkept]
    · rw [tail_arguments hname, tail_arguments hname', List.forall₂_map_left_iff, List.forall₂_map_right_iff,
        ← List.drop_one, ← List.drop_one]
      refine (List.forall₂_drop 1 h.labels_eq).imp fun p p' hp hdot => ?_
      rw [List.head?_filter] at hdot
      rw [hp hdot]

/-- Each argument of an instruction that was read once is read alike when it is recased. The first
is a register, so it is no symbol. -/
theorem arguments_read {symbols₀ : SymbolTable} {pc : Nat} {op : Opcode} {args : List Argument} {i : Instruction}
    (hname : ',' ∉ (cutInstruction (Text.trim code)).1)
    (hargs : (cutInstruction (Text.trim code)).2.mapM (Argument.read symbols₀) = .ok args)
    (hfill : fill pc op args = .ok i) (symbols : SymbolTable) :
    List.Forall₂ (fun t t' => Argument.read symbols t' = Argument.read symbols t) (cutInstruction (Text.trim code)).2
      (cutInstruction (Text.trim code')).2 := by
  obtain ⟨hlower, hsymbols⟩ := arguments_recased h hname
  generalize (cutInstruction (Text.trim code)).2 = tokens at hlower hsymbols hargs ⊢
  generalize (cutInstruction (Text.trim code')).2 = tokens' at hlower hsymbols ⊢
  cases tokens with
  | nil =>
    obtain rfl : tokens' = [] := by simpa using hlower
    exact .nil
  | cons token tokens =>
    obtain ⟨token', tokens', rfl, hfirst, hbehind⟩ := List.map_eq_cons_iff.1 hlower
    obtain ⟨arg, rest, harg, hrest, rfl⟩ := List.forall₂_cons_left_iff.1 (mapM_eq_ok_iff.1 hargs)
    obtain ⟨r, rfl⟩ := register_of_fill hfill
    refine .cons (read_recased hfirst (fun hdot => ?_) harg symbols) ?_
    · obtain ⟨name, rfl⟩ := List.head?_eq_some_iff.1 hdot
      have hregister := register?_of_read harg
      rw [register?_of_dot] at hregister
      cases hregister
    · have hcases : List.Forall₂ (fun t t' => lower t = lower t') tokens tokens' := by
        rw [← List.forall₂_eq_eq_eq, List.forall₂_map_left_iff, List.forall₂_map_right_iff] at hbehind
        exact hbehind.flip.imp fun _ _ => Eq.symm
      have hread : ∀ t ∈ tokens, ∃ arg, Argument.read symbols₀ t = .ok arg := fun t ht =>
        (exists_of_mem_left hrest ht).imp fun _ h => h.2
      refine List.Forall₂.mp (fun t t' hl ht => ?_) hcases ((List.forall₂_and_left _ _).2 ⟨hread, hsymbols⟩)
      obtain ⟨⟨arg, harg⟩, hsymbol⟩ := ht
      exact read_recased hl.symm hsymbol harg symbols

/-- An instruction that was read once is read alike when it is recased. -/
theorem readInstruction_recased {symbols₀ : SymbolTable} {pc₀ : Nat} {i : Instruction}
    (hread : readInstruction symbols₀ pc₀ (Text.trim code) = .ok i) (symbols : SymbolTable) (pc : Nat) :
    readInstruction symbols pc (Text.trim code') = readInstruction symbols pc (Text.trim code) := by
  obtain ⟨op, args, hop, hargs, hfill⟩ := readInstruction_eq_ok_iff.1 hread
  have hname : (cutInstruction (Text.trim code')).1.map Char.toLower =
      (cutInstruction (Text.trim code)).1.map Char.toLower := (cutWord_recased h).1
  have hop' : Opcode.ofMnemonic? (String.ofList (cutInstruction (Text.trim code')).1) = some op := by
    rw [← hop, Opcode.ofMnemonic?, Opcode.ofMnemonic?, String.toList_ofList, String.toList_ofList, hname]
  have hall := arguments_read h (comma_not_mem_of_ofMnemonic? hop) hargs hfill symbols
  simp only [readInstruction, hop, hop', mapM_eq_mapM hall]

end

/-! ## Lines -/

/-- What the assembler accepts as a line, its instruction at some address. -/
def Accepted (line : List Char) : Prop :=
  ∃ s own, Statement.Says line s ∧ expand s = .ok own ∧
    ∀ text, s = .instruction text → ∃ symbols pc i, readInstruction symbols pc (Text.code text.toList) = .ok i

theorem accepted_of_assemble {source : String} {a : Assembly} (h : assemble source = .ok a) {x : Numbered (List Char)}
    (hx : x ∈ numberedLines (Source.normalizeText source.toList)) : Accepted x.val := by
  obtain ⟨items, hitems, -⟩ := bind_eq_ok_iff.1 h
  obtain ⟨blocks, hblocks, -⟩ := exists_blocks hitems
  obtain ⟨block, -, -, s, hs, hown⟩ := exists_of_mem_left hblocks hx
  refine ⟨s, block.val, hs, hown, ?_⟩
  rintro text rfl
  obtain ⟨i, hi, -⟩ := code_of_instruction h ⟨x.val, line?_of_numbered hx, hs⟩
  exact ⟨_, _, i, hi⟩

theorem code_normalLine (line : List Char) :
    Text.code (normalLine line) = Text.trim (normalizeCode (bareCode line)) := Source.code_normalizeLine _

section

variable {line line' : List Char} (h : RecasedLine line line')

include h

theorem lower_code_recased : lower (Text.code (normalLine line')) = lower (Text.code (normalLine line)) := by
  rw [code_normalLine, code_normalLine]
  exact lower_eq_of_lower_eq Text.trim_lower h.normalize.lower_eq

/-- A line with code that is accepted says the same when it is recased. -/
theorem agrees_read_of_recased (ha : Accepted (normalLine line)) (hne : Text.code (normalLine line) ≠ []) :
    Agrees Eq StatementAlike (Statement.read (normalLine line)) (Statement.read (normalLine line')) := by
  obtain ⟨s, own, hs, hown, hread⟩ := ha
  have hnormal : Recased (normalizeCode (bareCode line)) (normalizeCode (bareCode line')) := h.normalize
  -- The first character tells the kind of a line, and where it is `.` or `%` it stays.
  have hsays : ∃ s', Statement.Says (normalLine line') s' ∧ StatementAlike s s' := by
    cases hs with
    | note hcode => exact absurd hcode hne
    | @label rest hcode =>
      simp only [expand, String.toList_ofList] at hown
      split at hown
      · rename_i name hname
        have hsame := hnormal.eq_of_labelName ((code_normalLine line).symm.trans hcode) hname
        exact ⟨_, .label (by rw [code_normalLine, hsame, ← code_normalLine, hcode]), .label _⟩
      · cases hown
    | call hcode hcall =>
      obtain ⟨body', hbody', hcall'⟩ := hnormal.says_call ((code_normalLine line).symm.trans hcode) hcall
      exact ⟨_, .call ((code_normalLine line').trans hbody') hcall', .call _⟩
    | @instruction c rest hcode hp hd =>
      have hlower := lower_code_recased h
      rw [hcode] at hlower
      obtain ⟨c', rest', hcode', hc, -⟩ := List.map_eq_cons_iff.1 hlower
      have first {d : Char} (hlt : d.toNat < 65) (hd : c ≠ d) : c' ≠ d := fun hc' =>
        hd ((Text.toLower_eq_iff hlt).1 (hc ▸ (Text.toLower_eq_iff hlt).2 hc'))
      refine ⟨_, .instruction hcode' (first (by decide) hp) (first (by decide) hd), .instruction fun symbols pc => ?_⟩
      obtain ⟨symbols₀, pc₀, i, hi⟩ := hread _ rfl
      rw [String.toList_ofList, Text.code_trim, code_normalLine] at hi ⊢
      rw [String.toList_ofList, Text.code_trim, code_normalLine]
      exact readInstruction_recased hnormal hi symbols pc
  obtain ⟨s', hs', halike⟩ := hsays
  rw [Statement.read_eq_ok_iff.2 hs, Statement.read_eq_ok_iff.2 hs']
  exact .ok halike

end

theorem alike_of_recased {n : Nat} {xs ys : List (List Char)} (h : List.Forall₂ RecasedLine xs ys)
    (ha : ∀ x ∈ (normalFrom n xs).filter HasCode, Accepted x.val) :
    List.Forall₂
      (Numbered.Alike id fun line line' => Agrees Eq StatementAlike (Statement.read line) (Statement.read line'))
      ((normalFrom n xs).filter HasCode) ((normalFrom n ys).filter HasCode) := by
  induction h generalizing n with
  | nil => exact .nil
  | @cons x y xs ys hxy _ ih =>
    have hsame : HasCode ⟨n, normalLine y⟩ = HasCode ⟨n, normalLine x⟩ :=
      congrArg (! ·) (eq_of_lower_eq Text.isEmpty_lower (lower_code_recased hxy))
    rw [normalFrom_cons, List.filter_cons] at ha ⊢
    rw [normalFrom_cons, List.filter_cons, hsame]
    split at ha
    · rename_i hx
      rw [if_pos hx, if_pos hx]
      have hne : Text.code (normalLine x) ≠ [] := fun hnil => by simp [HasCode, hnil] at hx
      obtain ⟨hfirst, hrest⟩ := List.forall_mem_cons.1 ha
      exact .cons ⟨rfl, agrees_read_of_recased hxy hfirst hne⟩ (ih hrest)
    · rename_i hx
      rw [if_neg hx, if_neg hx]
      exact ih ha

/-! ## Sources -/

theorem moved_of_recased {source source' : String} {a : Assembly} (h : assemble source = .ok a)
    (hlines : List.Forall₂ RecasedLine (Text.lines source.toList) (Text.lines source'.toList)) :
    ∃ b, assemble source' = .ok b ∧ Moved id a b := by
  have hread := alike_of_recased (n := 1) hlines fun x hx => by
    rw [← filter_numberedLines] at hx
    exact accepted_of_assemble h (List.mem_of_mem_filter hx)
  rw [← filter_numberedLines, ← filter_numberedLines] at hread
  have halike : AlikeTexts id _ _ := .of_filter (fun _ _ => hasCode_eq_false_iff.1)
    (fun _ _ => hasCode_eq_false_iff.1) hread
  exact (agrees_assemble halike).exists_ok h

/-- Letter case does not matter outside of labels, and in them it does: a recased source is
assembled to the same, while labels that are not the same letter by letter are different symbols,
and no source is refused for a label unless two lines have it letter by letter. -/
theorem assemble_recased (source : String) :
    (∀ a source', assemble source = .ok a →
      List.Forall₂ RecasedLine (Text.lines source.toList) (Text.lines source'.toList) →
      ∃ b, assemble source' = .ok b ∧ b.hex = a.hex ∧ b.symbols = a.symbols ∧ b.lineMap = a.lineMap) ∧
    (∀ a n k name other, assemble source = .ok a → Source.HasLabel source n name → Source.HasLabel source k other →
      name ≠ other → n ≠ k ∧ ∃ addr addr', a.symbols[name]? = some addr ∧ a.symbols[other]? = some addr' ∧
        addr.toNat = a.addressOf n ∧ addr'.toNat = a.addressOf k) ∧
    ∀ n name, assemble source = .error ⟨n, .duplicateSymbol name⟩ → Source.Redefines source n name := by
  refine ⟨fun a source' h hlines => ?_, fun a n k name other h hn hk hne => ⟨?_, ?_⟩, fun n name h => ?_⟩
  · obtain ⟨b, hb, hmoved⟩ := moved_of_recased h hlines
    refine ⟨b, hb, hmoved.hex_eq, hmoved.symbols_eq, Array.toList_inj.1 ?_⟩
    rw [hmoved.lineMap_eq, List.map_id]
  · rintro rfl
    obtain ⟨code, hcode, hname⟩ := hn
    obtain ⟨code', hcode', hother⟩ := hk
    cases hcode.unique hcode'
    exact hne (Option.some.inj (hname.symm.trans hother))
  · obtain ⟨addr, haddr, hat⟩ := symbol_of_label h hn
    obtain ⟨addr', haddr', hat'⟩ := symbol_of_label h hk
    exact ⟨addr, addr', haddr, haddr', hat, hat'⟩
  · have hrefused : Refused source n (.duplicateSymbol name) := refused_of_assemble h
    cases hrefused with
    | duplicate _ here _ => exact here
    | instruction about => exact about.elim

/-- A macro, a mark with its digits, an operation and registers are recased at once, beside two labels
that differ in nothing but case; and one of the two is on two lines of another source. -/
theorem recased_of_every_kind :
    (∃ a b, assemble "%sldi R1,0XaB\n.Loop:\nADI r1,R1,.loop // Inc\n.loop:\nbrz r1,.Loop" = .ok a ∧
      List.Forall₂ RecasedLine
        (Text.lines "%sldi R1,0XaB\n.Loop:\nADI r1,R1,.loop // Inc\n.loop:\nbrz r1,.Loop".toList)
        (Text.lines "%SLdi r1,0xAb\n.Loop:\nadi R1,r1,.loop // Inc\n.loop:\nBRz R1,.Loop".toList) ∧
      assemble "%SLdi r1,0xAb\n.Loop:\nadi R1,r1,.loop // Inc\n.loop:\nBRz R1,.Loop" = .ok b ∧
      b.hex = a.hex ∧ b.symbols = a.symbols ∧ b.lineMap = a.lineMap ∧
      ∃ addr addr', a.symbols["Loop"]? = some addr ∧ a.symbols["loop"]? = some addr' ∧ addr.toNat = a.addressOf 2 ∧
        addr'.toNat = a.addressOf 4) ∧
    assemble ".Loop:\n.loop:\n.Loop:" = .error ⟨3, .duplicateSymbol "Loop"⟩ ∧
      Source.Redefines ".Loop:\n.loop:\n.Loop:" 3 "Loop" := by
  obtain ⟨hrecased, hlabels, -⟩ :=
    assemble_recased "%sldi R1,0XaB\n.Loop:\nADI r1,R1,.loop // Inc\n.loop:\nbrz r1,.Loop"
  obtain ⟨a, ha, -⟩ := exists_ok_of_any
    (x := assemble "%sldi R1,0XaB\n.Loop:\nADI r1,R1,.loop // Inc\n.loop:\nbrz r1,.Loop") (p := fun _ => true)
    (by decide +kernel)
  have hlines : List.Forall₂ RecasedLine
      (Text.lines "%sldi R1,0XaB\n.Loop:\nADI r1,R1,.loop // Inc\n.loop:\nbrz r1,.Loop".toList)
      (Text.lines "%SLdi r1,0xAb\n.Loop:\nadi R1,r1,.loop // Inc\n.loop:\nBRz R1,.Loop".toList) := by decide +kernel
  obtain ⟨b, hb, hhex, hsymbols, hmap⟩ := hrecased a _ ha hlines
  have hupper : Source.HasLabel "%sldi R1,0XaB\n.Loop:\nADI r1,R1,.loop // Inc\n.loop:\nbrz r1,.Loop" 2 "Loop" :=
    ⟨".Loop:", ⟨".Loop:".toList, by decide +kernel, .label (by decide +kernel)⟩, by decide +kernel⟩
  have hlower : Source.HasLabel "%sldi R1,0XaB\n.Loop:\nADI r1,R1,.loop // Inc\n.loop:\nbrz r1,.Loop" 4 "loop" :=
    ⟨".loop:", ⟨".loop:".toList, by decide +kernel, .label (by decide +kernel)⟩, by decide +kernel⟩
  have herror : assemble ".Loop:\n.loop:\n.Loop:" = .error ⟨3, .duplicateSymbol "Loop"⟩ :=
    eq_error_of_test (by decide +kernel)
  exact ⟨⟨a, b, ha, hlines, hb, hhex, hsymbols, hmap, (hlabels a 2 4 _ _ ha hupper hlower (by decide)).2⟩, herror,
    (assemble_recased _).2.2 3 _ herror⟩

end Assembly

end Isa16
