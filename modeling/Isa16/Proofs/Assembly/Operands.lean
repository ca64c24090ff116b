import Isa16.Proofs.Instruction.Canonical
import Isa16.Proofs.Source.Form
/-!
# Arguments and the fields that hold them

A token is read as what it means (`Means`), and is refused if it means nothing.
`Carries` says which fields of an instruction hold an argument, and how: a
register and a number as they are, a symbol by the low bits of its address or by
its distance. An operation is filled with arguments exactly when there is an
instruction that carries them all and has zeros elsewhere, and this is the result
(`fill_eq_ok_iff`). Otherwise there are too many or too few, or it is refused for
the first argument that no instruction carries there (`fill_eq_error_iff`).
-/

namespace Isa16.Assembly

open Isa16.Source (NamesReg)
open Text (IsInteger)

/-! ## Tokens -/

/-- A register, a symbol with its address, or a decimal number of 32 bits. -/
inductive Means (symbols : SymbolTable) : List Char → Argument → Prop
  | register {r : Reg} {token : List Char} (h : NamesReg r token) : Means symbols token (.register r)
  | symbol {name : String} {addr : UInt16} (h : symbols[name]? = some addr) :
      Means symbols ('.' :: name.toList) (.address addr)
  | number {n : Int} {token : List Char} (h : IsInteger n token) (hl : -0x80000000 ≤ n) (hu : n < 0x80000000) :
      Means symbols token (.number n)

/-- A token that means nothing, and what it is refused for. -/
inductive Meaningless (symbols : SymbolTable) : List Char → Cause → Prop
  | undefined {name : String} (h : symbols[name]? = none) :
      Meaningless symbols ('.' :: name.toList) (.undefinedSymbol name)
  | unknown {token : List Char} (hdot : ∀ name, token ≠ '.' :: name) (h : ∀ arg, ¬ Means symbols token arg) :
      Meaningless symbols token (.unknownOperand (String.ofList token))

theorem register?_of_dot (name : List Char) : Source.register? ('.' :: name) = none := by
  by_contra h
  obtain ⟨r, hr⟩ := Option.ne_none_iff_exists'.1 h
  obtain ⟨c, hc, hname⟩ := Source.register?_eq_some_iff.1 hr
  cases hname
  rcases hc with h | h <;> exact absurd h (by decide)

theorem read_of_dot (symbols : SymbolTable) (name : List Char) :
    Argument.read symbols ('.' :: name) = match symbols[String.ofList name]? with
      | some addr => .ok (.address addr)
      | none => .error (.undefinedSymbol (String.ofList name)) := by
  unfold Argument.read
  rw [register?_of_dot]
  rfl

/-- An argument that is no symbol is a register or a number. -/
theorem read_of_no_symbol {token : List Char} (h : ∀ name, token ≠ '.' :: name) (symbols : SymbolTable) :
    Argument.read symbols token = match Source.register? token, Text.integer? 0x80000000 token with
      | some r, _ => .ok (.register r)
      | none, some n => .ok (.number n)
      | none, none => .error (.unknownOperand (String.ofList token)) := by
  unfold Argument.read
  split
  · simp only [*]
  · rename_i hr
    rw [hr]
    split
    · exact absurd rfl (h _)
    · split <;> simp only [*]

/-- An argument that is no symbol is read alike with any table. -/
theorem read_of_not_dot {token : List Char} (h : ∀ name, token ≠ '.' :: name) (symbols : SymbolTable) :
    Argument.read symbols token = Argument.read ∅ token := by
  rw [read_of_no_symbol h, read_of_no_symbol h]

theorem head_of_isInteger {n : Int} {c : Char} {token : List Char} (h : IsInteger n (c :: token)) :
    c = '+' ∨ c = '-' ∨ c.isDigit := by
  cases h with
  | plain h => exact .inr (.inr (h.2.1 c (by simp)))
  | plus => exact .inl rfl
  | minus => exact .inr (.inl rfl)

theorem not_isInteger_of_dot {n : Int} {name : List Char} : ¬ IsInteger n ('.' :: name) := by
  intro h
  rcases head_of_isInteger h with h | h | h <;> exact absurd h (by decide)

theorem register?_of_isInteger {n : Int} {token : List Char} (h : IsInteger n token) :
    Source.register? token = none := by
  refine Option.eq_none_iff_forall_ne_some.2 fun r hr => ?_
  obtain ⟨c, hc, rfl⟩ := Source.register?_eq_some_iff.1 hr
  rcases hc with rfl | rfl <;> rcases head_of_isInteger h with h | h | h <;> exact absurd h (by decide)

theorem read_eq_ok_iff {symbols : SymbolTable} {token : List Char} {arg : Argument} :
    Argument.read symbols token = .ok arg ↔ Means symbols token arg := by
  by_cases hdot : ∃ name, token = '.' :: name
  · obtain ⟨name, rfl⟩ := hdot
    rw [read_of_dot]
    constructor
    · intro h
      split at h
      · rename_i haddr
        cases h
        have hsymbol := Means.symbol haddr
        rwa [String.toList_ofList] at hsymbol
      · cases h
    · intro h
      cases h with
      | register hr =>
        have hnone := register?_of_dot name
        rw [Source.register?_eq_some_iff.2 hr] at hnone
        cases hnone
      | symbol haddr => rw [String.ofList_toList, haddr]
      | number hn => exact absurd hn not_isInteger_of_dot
  · rw [read_of_no_symbol (not_exists.1 hdot)]
    constructor
    · intro h
      split at h
      · cases h
        exact .register (Source.register?_eq_some_iff.1 ‹_›)
      · rename_i hread
        cases h
        obtain ⟨hn, hl, hu⟩ := (Text.integer?_eq_some_iff (by decide)).1 hread
        exact .number hn hl hu
      · cases h
    · intro h
      cases h with
      | register hr => rw [Source.register?_eq_some_iff.2 hr]
      | symbol => exact absurd ⟨_, rfl⟩ hdot
      | number hn hl hu => rw [register?_of_isInteger hn, (Text.integer?_eq_some_iff (by decide)).2 ⟨hn, hl, hu⟩]

theorem read_eq_error_iff {symbols : SymbolTable} {token : List Char} {cause : Cause} :
    Argument.read symbols token = .error cause ↔ Meaningless symbols token cause := by
  by_cases hdot : ∃ name, token = '.' :: name
  · obtain ⟨name, rfl⟩ := hdot
    rw [read_of_dot]
    constructor
    · intro h
      split at h
      · cases h
      · rename_i hnone
        cases h
        have hundefined := Meaningless.undefined hnone
        rwa [String.toList_ofList] at hundefined
    · intro h
      cases h with
      | undefined hnone => rw [String.ofList_toList, hnone]
      | unknown hplain => exact absurd rfl (hplain name)
  · have hmeans : (∀ arg, ¬ Means symbols token arg) ↔ ∃ cause, Argument.read symbols token = .error cause := by
      simp only [← read_eq_ok_iff]
      cases Argument.read symbols token <;> simp
    constructor
    · intro h
      have hnone := hmeans.2 ⟨cause, h⟩
      rw [read_of_no_symbol (not_exists.1 hdot)] at h
      split at h <;> cases h
      exact .unknown (not_exists.1 hdot) hnone
    · intro h
      cases h with
      | undefined => exact absurd ⟨_, rfl⟩ hdot
      | unknown _ hnone =>
        obtain ⟨cause, h⟩ := hmeans.1 hnone
        rw [h]
        rw [read_of_no_symbol (not_exists.1 hdot)] at h
        split at h <;> cases h
        rfl

theorem register?_of_read {symbols : SymbolTable} {token : List Char} {r : Reg}
    (h : Argument.read symbols token = .ok (.register r)) : Source.register? token = some r := by
  cases read_eq_ok_iff.1 h with
  | register hr => exact Source.register?_eq_some_iff.2 hr

theorem exists_address_of_read {symbols : SymbolTable} {name : List Char} {arg : Argument}
    (h : Argument.read symbols ('.' :: name) = .ok arg) :
    ∃ addr, symbols[String.ofList name]? = some addr ∧ arg = .address addr := by
  rw [read_of_dot] at h
  split at h
  · rename_i addr haddr
    cases h
    exact ⟨addr, haddr, rfl⟩
  · cases h

/-! ## Fields -/

/-- How far the argument is from an instruction at address `pc`. -/
def Argument.distance? (pc : Nat) : Argument → Option Int
  | .register _ => none
  | .address addr => some (addr.toNat - pc)
  | .number n => some n

/-- An instruction at address `pc` has an argument at an operand position. -/
inductive Carries (pc : Nat) (i : Instruction) : Operand → Argument → Prop
  | da : Carries pc i .da (.register i.da)
  | aa : Carries pc i .aa (.register i.aa)
  | ba : Carries pc i .ba (.register i.ba)
  | number {n : Int} (h : i.ba.val = n) : Carries pc i .imm (.number n)
  | lowBits {addr : UInt16} (h : i.ba.val = addr.toNat % 8) : Carries pc i .imm (.address addr)
  /-- The two fields are the six bits of the distance. -/
  | offset {arg : Argument} {d : Int} (h : arg.distance? pc = some d) (hl : -32 ≤ d) (hu : d ≤ 31)
      (hbits : 8 * i.da.val + i.ba.val = d % 64) : Carries pc i .offset arg

/-- An argument that no instruction of the operation has at an operand position, and what it is refused for. -/
inductive Misfits (pc : Nat) (op : Opcode) : Operand → Argument → Cause → Prop
  | tooFar {arg : Argument} {d : Int} (h : arg.distance? pc = some d) (hd : d < -32 ∨ 31 < d) :
      Misfits pc op .offset arg (.branchTooFar d)
  | kind {operand : Operand} {arg : Argument} (h : ∀ i, ¬ Carries pc i operand arg)
      (hd : operand = .offset → arg.distance? pc = none) : Misfits pc op operand arg (.wrongOperands op)

/-! ## One argument -/

theorem bits_splitDisplacement (d : Int) :
    8 * (splitDisplacement d).1.val + (splitDisplacement d).2.val = d % 64 := by
  simp only [splitDisplacement, Fin.val_ofNat]
  omega

theorem splitDisplacement_of_bits {da ba : Fin 8} {d : Int} (h : 8 * da.val + ba.val = d % 64) :
    splitDisplacement d = (da, ba) := by
  have hbits := bits_splitDisplacement d
  have := (splitDisplacement d).1.isLt
  have := (splitDisplacement d).2.isLt
  apply Prod.ext <;> apply Fin.ext <;> dsimp only <;> omega

theorem place_offset {pc : Nat} {arg : Argument} {d : Int} (h : arg.distance? pc = some d) (i : Instruction) :
    place pc i .offset arg = placeOffset i d := by
  cases arg <;> cases h <;> rfl

/-- An argument that an instruction carries is put into the fields where that instruction has it. -/
theorem Carries.place {pc : Nat} {i : Instruction} {operand : Operand} {arg : Argument} (h : Carries pc i operand arg)
    (j : Instruction) :
    ∃ k, Assembly.place pc j operand arg = .ok k ∧ k.opcode = j.opcode ∧
      ∀ f, k.field f = if f ∈ operand.fields then i.field f else j.field f := by
  cases h with
  | da | aa | ba => exact ⟨_, rfl, rfl, fun f => by cases f <;> rfl⟩
  | @number n hn =>
    have hlt := i.ba.isLt
    refine ⟨{ j with ba := i.ba }, ?_, rfl, fun f => by cases f <;> rfl⟩
    have hba : Fin.ofNat 8 n.toNat = i.ba := by
      apply Fin.ext
      simp only [Fin.val_ofNat]
      omega
    simp only [Assembly.place, hba]
    exact if_pos (by omega)
  | @lowBits addr hbits =>
    have hba : Fin.ofNat 8 addr.toNat = i.ba := Fin.ext hbits.symm
    refine ⟨{ j with ba := i.ba }, ?_, rfl, fun f => by cases f <;> rfl⟩
    simp only [Assembly.place, hba]
  | offset hd hl hu hbits =>
    refine ⟨{ j with da := i.da, ba := i.ba }, ?_, rfl, fun f => by cases f <;> rfl⟩
    rw [place_offset hd, placeOffset, if_pos ⟨hl, hu⟩, splitDisplacement_of_bits hbits]

theorem carries_of_place {pc : Nat} {i j : Instruction} {operand : Operand} {arg : Argument}
    (h : place pc j operand arg = .ok i) : Carries pc i operand arg := by
  have offset {d : Int} (hd : arg.distance? pc = some d) (h : placeOffset j d = .ok i) : Carries pc i .offset arg := by
    unfold placeOffset at h
    split at h
    · rename_i hrange
      cases h
      exact .offset hd hrange.1 hrange.2 (bits_splitDisplacement d)
    · cases h
  unfold place at h
  split at h
  case h_1 =>
    cases h
    exact .da
  case h_2 =>
    cases h
    exact .aa
  case h_3 =>
    cases h
    exact .ba
  case h_4 n =>
    split at h
    · cases h
      refine .number ?_
      simp only [Fin.val_ofNat]
      omega
    · cases h
  case h_5 =>
    cases h
    exact .lowBits rfl
  case h_6 | h_7 => exact offset rfl h
  case h_8 => cases h

theorem Carries.of_fields {pc : Nat} {i j : Instruction} {operand : Operand} {arg : Argument}
    (h : Carries pc i operand arg) (hf : ∀ f ∈ operand.fields, j.field f = i.field f) : Carries pc j operand arg := by
  obtain ⟨k, hk, -, hfields⟩ := h.place j
  have hsame : k = j := by
    refine Instruction.ext_field (place_frame hk).1 fun f => ?_
    rw [hfields]
    split
    · exact (hf f ‹_›).symm
    · rfl
  exact hsame ▸ carries_of_place hk

theorem Misfits.not_carries {pc : Nat} {op : Opcode} {operand : Operand} {arg : Argument} {cause : Cause}
    (h : Misfits pc op operand arg cause) (i : Instruction) : ¬ Carries pc i operand arg := by
  intro hi
  cases h with
  | kind hnone => exact hnone i hi
  | tooFar hd hfar =>
    cases hi with
    | offset hd' hl hu =>
      rw [hd] at hd'
      cases hd'
      omega

theorem Misfits.unique {pc : Nat} {op : Opcode} {operand : Operand} {arg : Argument} {cause cause' : Cause}
    (h : Misfits pc op operand arg cause) (h' : Misfits pc op operand arg cause') : cause = cause' := by
  cases h with
  | tooFar hd =>
    cases h' with
    | tooFar hd' =>
      rw [hd] at hd'
      cases hd'
      rfl
    | kind _ hnone =>
      rw [hnone rfl] at hd
      cases hd
  | kind _ hnone =>
    cases h' with
    | tooFar hd' =>
      rw [hnone rfl] at hd'
      cases hd'
    | kind => rfl

theorem misfits_of_place {pc : Nat} {i : Instruction} {operand : Operand} {arg : Argument} {cause : Cause}
    (h : place pc i operand arg = .error cause) : Misfits pc i.opcode operand arg cause := by
  have carried (j : Instruction) : ¬ Carries pc j operand arg := by
    intro hj
    obtain ⟨k, hk, -⟩ := hj.place i
    rw [hk] at h
    cases h
  by_cases hoffset : operand = .offset
  · subst hoffset
    cases hd : arg.distance? pc with
    | some d =>
      rw [place_offset hd, placeOffset] at h
      split at h
      · cases h
      · cases h
        exact .tooFar hd (by omega)
    | none =>
      cases arg with
      | register =>
        cases h
        exact .kind carried fun _ => hd
      | address | number => cases hd
  · -- Every other operand has one cause only.
    have hcause : cause = .wrongOperands i.opcode := by
      unfold place at h
      split at h
      case h_4 =>
        split at h <;> cases h
        rfl
      case h_6 | h_7 => exact absurd rfl hoffset
      case h_8 =>
        cases h
        rfl
      all_goals cases h
    exact hcause ▸ .kind carried fun h => absurd h hoffset

theorem place_eq_error_iff {pc : Nat} {i : Instruction} {operand : Operand} {arg : Argument} {cause : Cause} :
    place pc i operand arg = .error cause ↔ Misfits pc i.opcode operand arg cause := by
  refine ⟨misfits_of_place, fun h => ?_⟩
  cases hp : place pc i operand arg with
  | ok k => exact absurd (carries_of_place hp) (h.not_carries k)
  | error e => rw [(misfits_of_place hp).unique h]

/-! ## All arguments -/

theorem foldlM_place {pc : Nat} {i : Instruction} {xs : List (Operand × Argument)} (h : ∀ x ∈ xs, Carries pc i x.1 x.2)
    (j : Instruction) :
    ∃ k, xs.foldlM (fun i (operand, arg) => place pc i operand arg) j = .ok k ∧ k.opcode = j.opcode ∧
      ∀ f, k.field f = if f ∈ xs.flatMap (·.1.fields) then i.field f else j.field f := by
  induction xs generalizing j with
  | nil => exact ⟨j, rfl, rfl, fun f => by simp⟩
  | cons x xs ih =>
    obtain ⟨hx, hxs⟩ := List.forall_mem_cons.1 h
    obtain ⟨k, hk, hop, hfield⟩ := hx.place j
    obtain ⟨l, hl, hop', hfield'⟩ := ih hxs k
    refine ⟨l, bind_eq_ok_iff.2 ⟨k, hk, hl⟩, hop'.trans hop, fun f => ?_⟩
    rw [hfield', hfield, List.flatMap_cons]
    by_cases hrest : f ∈ xs.flatMap (·.1.fields) <;> simp [hrest]

/-- No argument is put where another one is. -/
theorem carries_of_foldlM {pc : Nat} {i j : Instruction} {xs : List (Operand × Argument)}
    (hnodup : (xs.flatMap (·.1.fields)).Nodup)
    (h : xs.foldlM (fun i (operand, arg) => place pc i operand arg) j = .ok i) : ∀ x ∈ xs, Carries pc i x.1 x.2 := by
  induction xs generalizing j with
  | nil => simp
  | cons x xs ih =>
    obtain ⟨k, hk, h⟩ := bind_eq_ok_iff.1 h
    rw [List.flatMap_cons, List.nodup_append] at hnodup
    obtain ⟨-, hrest, hdisjoint⟩ := hnodup
    -- the other arguments leave the fields of this one as they are
    have hkeep := (foldlM_place_frame h).2
    exact List.forall_mem_cons.2
      ⟨(carries_of_place hk).of_fields fun f hf => hkeep f fun hm => hdisjoint f hf f hm rfl, ih hrest h⟩

theorem foldlM_place_eq_error_iff {pc : Nat} {i : Instruction} {xs : List (Operand × Argument)} {cause : Cause} :
    xs.foldlM (fun i (operand, arg) => place pc i operand arg) i = .error cause ↔
      FirstFault (fun x => ∃ j, Carries pc j x.1 x.2) (fun x => Misfits pc i.opcode x.1 x.2) xs cause := by
  induction xs generalizing i with
  | nil =>
    constructor
    · intro h
      cases h
    · rintro ⟨⟩
  | cons x xs ih =>
    rw [List.foldlM_cons, bind_eq_error_iff]
    constructor
    · rintro (hx | ⟨k, hk, h⟩)
      · exact .here (place_eq_error_iff.1 hx)
      · rw [ih, (place_frame hk).1] at h
        exact .there ⟨k, carries_of_place hk⟩ h
    · intro h
      cases h with
      | here hx => exact .inl (place_eq_error_iff.2 hx)
      | there hx rest =>
        obtain ⟨j, hj⟩ := hx
        obtain ⟨k, hk, hop, -⟩ := hj.place i
        exact .inr ⟨k, hk, by rwa [ih, hop]⟩

/-- Arguments that an instruction carries make this instruction, but for the fields it does not use. -/
theorem fill_of_carries {pc : Nat} {i : Instruction} {args : List Argument}
    (h : List.Forall₂ (Carries pc i) i.opcode.operands args) : fill pc i.opcode args = .ok i.canonical := by
  have hlen := h.length_eq.symm
  have heach : ∀ x ∈ i.opcode.operands.zip args, Carries pc i x.1 x.2 := fun x hx => List.forall₂_zip h hx
  obtain ⟨k, hk, hop, hfield⟩ := foldlM_place heach (blank i.opcode)
  -- fields in use are those of `i`, and the others are as blank as they were
  have hcanonical : k = i.canonical := by
    refine Instruction.ext_field hop fun f => ?_
    rw [hfield, Instruction.field_canonical, flatMap_fields_zip hlen]
    cases f <;> rfl
  rw [fill, if_pos hlen, hk, hcanonical]

theorem fill_eq_ok_iff {pc : Nat} {op : Opcode} {args : List Argument} {i : Instruction} :
    fill pc op args = .ok i ↔
      i.opcode = op ∧ List.Forall₂ (Carries pc i) op.operands args ∧ i.IsCanonical := by
  constructor
  · intro h
    have hcanonical := isCanonical_of_fill h
    unfold fill at h
    split at h
    · rename_i hlen
      have hnodup := flatMap_fields_zip hlen ▸ op.nodup_fields
      refine ⟨(foldlM_place_frame h).1, ?_, hcanonical⟩
      exact List.forall₂_iff_zip.2 ⟨hlen.symm, fun hm => carries_of_foldlM hnodup h _ hm⟩
    · cases h
  · rintro ⟨rfl, hargs, hcanonical⟩
    rw [fill_of_carries hargs, Instruction.canonical_eq_iff.2 hcanonical]

theorem length_of_fill {pc : Nat} {op : Opcode} {args : List Argument} {i : Instruction}
    (h : fill pc op args = .ok i) : args.length = op.operands.length :=
  (fill_eq_ok_iff.1 h).2.1.length_eq.symm

/-- Every argument of an instruction is in the fields of its operand. -/
theorem carries_of_fill {pc : Nat} {op : Opcode} {args : List Argument} {i : Instruction}
    (h : fill pc op args = .ok i) {k : Nat} {arg : Argument} (hk : args[k]? = some arg) :
    ∃ operand, op.operands[k]? = some operand ∧ Carries pc i operand arg := by
  have hcarries := (fill_eq_ok_iff.1 h).2.1
  obtain ⟨hlt, rfl⟩ := List.getElem?_eq_some_iff.1 hk
  have hlt' := hcarries.length_eq ▸ hlt
  exact ⟨_, List.getElem?_eq_getElem hlt', hcarries.get hlt' hlt⟩

/-- The first argument of every operation is a register. -/
theorem register_of_fill {pc : Nat} {op : Opcode} {arg : Argument} {args : List Argument} {i : Instruction}
    (h : fill pc op (arg :: args) = .ok i) : ∃ r, arg = .register r := by
  obtain ⟨operand, hoperand, hcarries⟩ := carries_of_fill h (k := 0) rfl
  have hfield : operand = .da ∨ operand = .aa := by
    cases op <;> cases hoperand <;> decide
  rcases hfield with rfl | rfl <;> cases hcarries <;> exact ⟨_, rfl⟩

theorem fill_eq_error_iff {pc : Nat} {op : Opcode} {args : List Argument} {cause : Cause} :
    fill pc op args = .error cause ↔
      args.length ≠ op.operands.length ∧ cause = .wrongOperands op ∨
        args.length = op.operands.length ∧ FirstFault (fun x => ∃ i, Carries pc i x.1 x.2)
          (fun x => Misfits pc op x.1 x.2) (op.operands.zip args) cause := by
  by_cases hlen : args.length = op.operands.length
  · rw [fill, if_pos hlen, foldlM_place_eq_error_iff]
    simp [hlen, blank]
  · rw [fill, if_neg hlen]
    simp [hlen, eq_comm]

end Isa16.Assembly
