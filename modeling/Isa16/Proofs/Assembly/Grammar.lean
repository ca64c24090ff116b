import Isa16.Proofs.Assembly.Intermediate
/-!
# The grammar of instructions

What an instruction looks like, said without the assembler: a name, then tokens
between commas, with blanks that do not count (`Cuts`), each token being a
register, a symbol or a number (`Means`) that the instruction has in the fields
of an operand (`Carries`). The assembler reads exactly the texts that spell an
instruction (`Spells`), and refuses all others for the first thing that is wrong,
the name coming before the tokens, these before their number, and that before
what each of them has to be (`Refuses`).
-/

namespace Isa16.Assembly

/-! ## Names and tokens -/

/-- The name in the text of an instruction and the tokens behind it. The name goes up to the first
blank, and the tokens are what is left without blanks, cut at commas. -/
structure Cuts (code name : List Char) (tokens : List (List Char)) : Prop where
  name_solid : ∀ c ∈ name, Text.isBlank c = false
  behind : ∃ rest, code = name ++ rest ∧ (∀ c ∈ rest.head?, Text.isBlank c) ∧
    rest.filter (! Text.isBlank ·) = [','].intercalate tokens
  comma_notMem : ∀ token ∈ tokens, ',' ∉ token
  /-- Nothing but blanks is no token, and not an empty one. -/
  ne_empty : tokens ≠ [[]]

theorem eq_empty_of_intercalate {tokens : List (List Char)} (h : [','].intercalate tokens = []) (hne : tokens ≠ []) :
    tokens = [[]] := by
  match tokens, hne with
  | [token], _ => rw [show token = [] by simpa using h]
  | token :: next :: tokens, _ =>
    rw [List.intercalate_cons_cons] at h
    simp at h

theorem cutWord_append {name rest : List Char} (hname : ∀ c ∈ name, Text.isBlank c = false)
    (hrest : ∀ c ∈ rest.head?, Text.isBlank c) : Text.cutWord (name ++ rest) = (name, rest.tail) := by
  refine Text.cutWord_eq_iff.2 ⟨hname, ?_⟩
  cases rest with
  | nil => exact .inl ⟨List.append_nil name, rfl⟩
  | cons b rest => exact .inr ⟨b, hrest b rfl, rfl⟩

theorem cuts_iff {code name : List Char} {tokens : List (List Char)} :
    Cuts code name tokens ↔ cutInstruction code = (name, tokens) := by
  have filter_tail {rest : List Char} (hrest : ∀ c ∈ rest.head?, Text.isBlank c) :
      rest.tail.filter (! Text.isBlank ·) = rest.filter (! Text.isBlank ·) := by
    cases rest with
    | nil => rfl
    | cons b rest => rw [List.filter_cons_of_neg (by simp [hrest b rfl]), List.tail_cons]
  constructor
  · rintro ⟨hname, ⟨rest, rfl, hrest, hjoined⟩, hcomma, hne⟩
    simp only [cutInstruction, cutWord_append hname hrest, filter_tail hrest, hjoined]
    rcases eq_or_ne tokens [] with rfl | hsome
    · rfl
    · -- one empty token would leave nothing to cut, like no token at all
      have hjoined : [','].intercalate tokens ≠ [] := fun h => hne (eq_empty_of_intercalate h hsome)
      rw [if_neg (by simpa using hjoined), List.splitOn_intercalate ',' hcomma hsome]
  · intro h
    obtain ⟨hname, hcode⟩ := Text.cutWord_eq_iff.1 (Prod.eta (Text.cutWord code)).symm
    obtain ⟨rest, hrest, hhead, htail⟩ : ∃ rest, code = (Text.cutWord code).1 ++ rest ∧
        (∀ c ∈ rest.head?, Text.isBlank c) ∧ (Text.cutWord code).2 = rest.tail := by
      rcases hcode with ⟨hcode, hnil⟩ | ⟨b, hb, hcode⟩
      · exact ⟨[], by rw [List.append_nil]; exact hcode, by simp, hnil⟩
      · exact ⟨b :: (Text.cutWord code).2, hcode, by simpa using hb, rfl⟩
    simp only [cutInstruction, htail, filter_tail hhead, Prod.mk.injEq] at h
    obtain ⟨rfl, htokens⟩ := h
    have hjoined : rest.filter (! Text.isBlank ·) = [','].intercalate tokens := by
      rw [← htokens]
      split
      · rename_i hempty
        rw [List.isEmpty_iff.1 hempty]
        rfl
      · rw [List.intercalate_splitOn]
    refine ⟨hname, ⟨rest, hrest, hhead, hjoined⟩, ?_, ?_⟩
    · intro token htoken
      rw [← htokens] at htoken
      split at htoken
      · cases htoken
      · exact Text.not_mem_of_mem_splitOn htoken
    · rintro rfl
      have hempty : rest.filter (! Text.isBlank ·) = [] := hjoined
      rw [hempty] at htokens
      cases htokens

/-! ## Mnemonics -/

/-- A name is that of an operation in letters of any case. -/
theorem ofMnemonic?_eq_some_iff {name : List Char} {op : Opcode} :
    Opcode.ofMnemonic? (String.ofList name) = some op ↔ name.map Char.toLower = op.mnemonic.toList := by
  unfold Opcode.ofMnemonic?
  rw [String.toList_ofList]
  constructor
  · intro h
    have hname := List.find?_some h
    simpa using (of_decide_eq_true hname).symm
  · intro h
    have hself : Opcode.all.find? (fun o => o.mnemonic.toList = op.mnemonic.toList) = some op := by
      cases op <;> decide
    rw [h, hself]

theorem ofMnemonic?_eq_none_iff {name : List Char} :
    Opcode.ofMnemonic? (String.ofList name) = none ↔ ∀ op : Opcode, name.map Char.toLower ≠ op.mnemonic.toList := by
  rw [Option.eq_none_iff_forall_ne_some]
  exact forall_congr' fun op => not_congr ofMnemonic?_eq_some_iff

/-! ## Instructions -/

/-- The text spells an instruction at address `pc`. -/
inductive Spells (symbols : SymbolTable) (pc : Nat) (code : List Char) (i : Instruction) : Prop
  | intro {name : List Char} {tokens : List (List Char)} {args : List Argument} (cut : Cuts code name tokens)
      (named : name.map Char.toLower = i.opcode.mnemonic.toList) (means : List.Forall₂ (Means symbols) tokens args)
      (carries : List.Forall₂ (Carries pc i) i.opcode.operands args) (canonical : i.IsCanonical)

/-- Why a text spells no instruction at address `pc`. -/
inductive Refuses (symbols : SymbolTable) (pc : Nat) (code : List Char) : Cause → Prop
  | name {name : List Char} {tokens : List (List Char)} (cut : Cuts code name tokens)
      (h : ∀ op : Opcode, name.map Char.toLower ≠ op.mnemonic.toList) :
      Refuses symbols pc code (.unknownMnemonic (String.ofList name))
  /-- The first token that means nothing. -/
  | token {name : List Char} {tokens : List (List Char)} {op : Opcode} {cause : Cause} (cut : Cuts code name tokens)
      (named : name.map Char.toLower = op.mnemonic.toList)
      (h : FirstFault (fun token => ∃ arg, Means symbols token arg) (Meaningless symbols) tokens cause) :
      Refuses symbols pc code cause
  | number {name : List Char} {tokens : List (List Char)} {args : List Argument} {op : Opcode}
      (cut : Cuts code name tokens) (named : name.map Char.toLower = op.mnemonic.toList)
      (means : List.Forall₂ (Means symbols) tokens args) (h : tokens.length ≠ op.operands.length) :
      Refuses symbols pc code (.wrongOperands op)
  /-- The first argument that is none for its operand. -/
  | operand {name : List Char} {tokens : List (List Char)} {args : List Argument} {op : Opcode} {cause : Cause}
      (cut : Cuts code name tokens) (named : name.map Char.toLower = op.mnemonic.toList)
      (means : List.Forall₂ (Means symbols) tokens args) (hlen : tokens.length = op.operands.length)
      (h : FirstFault (fun x => ∃ i, Carries pc i x.1 x.2) (fun x => Misfits pc op x.1 x.2)
        (op.operands.zip args) cause) : Refuses symbols pc code cause

section

variable {symbols : SymbolTable} {pc : Nat} {code : List Char}

theorem means_iff {tokens : List (List Char)} {args : List Argument} :
    tokens.mapM (Argument.read symbols) = .ok args ↔ List.Forall₂ (Means symbols) tokens args := by
  simp only [mapM_eq_ok_iff, read_eq_ok_iff]

theorem meaningless_iff {tokens : List (List Char)} {cause : Cause} :
    tokens.mapM (Argument.read symbols) = .error cause ↔
      FirstFault (fun token => ∃ arg, Means symbols token arg) (Meaningless symbols) tokens cause := by
  simp only [mapM_eq_error_iff, read_eq_ok_iff, read_eq_error_iff]

theorem readInstruction_eq_ok_iff_spells {i : Instruction} :
    readInstruction symbols pc code = .ok i ↔ Spells symbols pc code i := by
  rw [readInstruction_eq_ok_iff]
  constructor
  · rintro ⟨op, args, hop, hargs, hfill⟩
    obtain ⟨rfl, hcarries, hcanonical⟩ := fill_eq_ok_iff.1 hfill
    exact .intro (cuts_iff.2 rfl) (ofMnemonic?_eq_some_iff.1 hop) (means_iff.1 hargs) hcarries hcanonical
  · rintro ⟨hcut, hnamed, hmeans, hcarries, hcanonical⟩
    rw [cuts_iff.1 hcut]
    exact ⟨i.opcode, _, ofMnemonic?_eq_some_iff.2 hnamed, means_iff.2 hmeans,
      fill_eq_ok_iff.2 ⟨rfl, hcarries, hcanonical⟩⟩

/-- Blanks do not count behind the name, not even within a number. -/
example : readInstruction ∅ 0 "ADI R1 ,r2, + 00 7".toList = .ok ⟨.adi, 1, 2, 7⟩ := by decide

/-- Behind its name, an instruction is its arguments, read and put into its fields. -/
theorem readInstruction_of_named {name : List Char} {tokens : List (List Char)} {op : Opcode}
    (hcut : Cuts code name tokens) (hnamed : name.map Char.toLower = op.mnemonic.toList) :
    readInstruction symbols pc code = tokens.mapM (Argument.read symbols) >>= fill pc op := by
  simp only [readInstruction, cuts_iff.1 hcut, ofMnemonic?_eq_some_iff.2 hnamed]

theorem readInstruction_eq_error_iff {cause : Cause} :
    readInstruction symbols pc code = .error cause ↔ Refuses symbols pc code cause := by
  constructor
  · intro h
    have hcut : Cuts code (cutInstruction code).1 (cutInstruction code).2 := cuts_iff.2 rfl
    cases hop : Opcode.ofMnemonic? (String.ofList (cutInstruction code).1) with
    | none =>
      simp only [readInstruction, hop] at h
      cases h
      exact .name hcut (ofMnemonic?_eq_none_iff.1 hop)
    | some op =>
      have hnamed := ofMnemonic?_eq_some_iff.1 hop
      rw [readInstruction_of_named hcut hnamed] at h
      rcases bind_eq_error_iff.1 h with h | ⟨args, hargs, h⟩
      · exact .token hcut hnamed (meaningless_iff.1 h)
      · have hmeans := means_iff.1 hargs
        rcases fill_eq_error_iff.1 h with ⟨hlen, rfl⟩ | ⟨hlen, h⟩
        · exact .number hcut hnamed hmeans (hmeans.length_eq ▸ hlen)
        · exact .operand hcut hnamed hmeans (hmeans.length_eq ▸ hlen) h
  · intro h
    cases h with
    | name hcut hop =>
      simp only [readInstruction, cuts_iff.1 hcut, ofMnemonic?_eq_none_iff.2 hop]
      rfl
    | token hcut hnamed h =>
      rw [readInstruction_of_named hcut hnamed]
      exact bind_eq_error_iff.2 (.inl (meaningless_iff.2 h))
    | number hcut hnamed hmeans hlen =>
      rw [readInstruction_of_named hcut hnamed]
      refine bind_eq_error_iff.2 (.inr ⟨_, means_iff.2 hmeans, ?_⟩)
      exact fill_eq_error_iff.2 (.inl ⟨hmeans.length_eq ▸ hlen, rfl⟩)
    | operand hcut hnamed hmeans hlen h =>
      rw [readInstruction_of_named hcut hnamed]
      refine bind_eq_error_iff.2 (.inr ⟨_, means_iff.2 hmeans, ?_⟩)
      exact fill_eq_error_iff.2 (.inr ⟨hmeans.length_eq ▸ hlen, h⟩)

end

/-- The assembler reads the instructions of the grammar and no others, as the words that hold their fields. -/
structure FollowsGrammar (symbols : SymbolTable) (pc : Nat) (code : List Char) : Prop where
  accepts : ∀ i, readInstruction symbols pc code = .ok i ↔ Spells symbols pc code i
  word : ∀ w, (readInstruction symbols pc code).map Instruction.word = .ok w ↔
    ∃ i, Spells symbols pc code i ∧ w.toNat = i.opcode.code * 512 + i.da * 64 + i.aa * 8 + i.ba
  refuses : ∀ cause, readInstruction symbols pc code = .error cause ↔ Refuses symbols pc code cause

theorem followsGrammar (symbols : SymbolTable) (pc : Nat) (code : List Char) : FollowsGrammar symbols pc code where
  accepts _ := readInstruction_eq_ok_iff_spells
  word w := by
    simp only [map_eq_ok_iff, readInstruction_eq_ok_iff_spells]
    refine exists_congr fun i => and_congr_right fun _ => ?_
    have hword : i.word.toNat = i.opcode.code * 512 + i.da * 64 + i.aa * 8 + i.ba := Fields.toNat_pack i.fields
    rw [← hword, ← UInt16.toNat_inj]
    exact eq_comm
  refuses _ := readInstruction_eq_error_iff

end Isa16.Assembly
