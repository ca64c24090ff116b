import Isa16.Proofs.Assembly.Intermediate
import Isa16.Proofs.Source.Append
/-!
# Code at other addresses

A line is read as the same instruction at another address if the labels it
names are as far from it as before, and it does not put one of them where a
number is wanted (`readInstruction_moved`). So the code of lines that are moved
together with their labels is the code of the lines (`foldlM_moved`). Lines that
are not moved are read as before whatever labels are added.
-/

namespace Isa16.Assembly

/-- The second table has the labels of the first, `k` addresses further on, and maybe others. -/
def Moves (k : Nat) (t t' : SymbolTable) : Prop :=
  ∀ (name : String) (addr : UInt16), t[name]? = some addr →
    ∃ addr' : UInt16, t'[name]? = some addr' ∧ addr'.toNat = addr.toNat + k

theorem Moves.getElem? {t t' : SymbolTable} (h : Moves 0 t t') {name : String} {addr : UInt16}
    (hname : t[name]? = some addr) : t'[name]? = some addr := by
  obtain ⟨addr', hname', haddr⟩ := h name addr hname
  rw [hname', UInt16.toNat_inj.1 haddr]

/-! ## Arguments -/

/-- The same argument with a table that has its labels `k` addresses further on. -/
inductive Argument.Moves (k : Nat) : Argument → Argument → Prop
  | register {r : Reg} : Moves k (.register r) (.register r)
  | number {n : Int} : Moves k (.number n) (.number n)
  | address {addr addr' : UInt16} (h : addr'.toNat = addr.toNat + k) : Moves k (.address addr) (.address addr')

section

variable {k : Nat} {t t' : SymbolTable} (hm : Moves k t t')

/-- Only a symbol is read as an address. -/
theorem dot_of_read {token : List Char} {addr : UInt16} (h : Argument.read t token = .ok (.address addr)) :
    ∃ name, token = '.' :: name := by
  cases read_eq_ok_iff.1 h with
  | symbol => exact ⟨_, rfl⟩

include hm

theorem read_moved {token : List Char} {arg : Argument} (h : Argument.read t token = .ok arg) :
    ∃ arg', Argument.read t' token = .ok arg' ∧ arg.Moves k arg' := by
  by_cases hdot : ∃ name, token = '.' :: name
  · obtain ⟨name, rfl⟩ := hdot
    obtain ⟨addr, haddr, rfl⟩ := exists_address_of_read h
    obtain ⟨addr', haddr', hk⟩ := hm _ addr haddr
    rw [read_of_dot, haddr']
    exact ⟨_, rfl, .address hk⟩
  · rw [not_exists] at hdot
    rw [read_of_not_dot hdot] at h ⊢
    refine ⟨arg, h, ?_⟩
    cases arg with
    | register r => exact .register
    | number n => exact .number
    | address addr =>
      obtain ⟨name, hname⟩ := dot_of_read h
      exact absurd hname (hdot name)

theorem mapM_read_moved {tokens : List (List Char)} {args : List Argument}
    (h : tokens.mapM (Argument.read t) = .ok args) :
    ∃ args', tokens.mapM (Argument.read t') = .ok args' ∧ List.Forall₂ (Argument.Moves k) args args' := by
  induction tokens generalizing args with
  | nil =>
    cases h
    exact ⟨[], rfl, .nil⟩
  | cons token tokens ih =>
    rw [List.mapM_cons] at h
    obtain ⟨arg, harg, h⟩ := bind_eq_ok_iff.1 h
    obtain ⟨rest, hrest, h⟩ := bind_eq_ok_iff.1 h
    cases h
    obtain ⟨arg', harg', hmove⟩ := read_moved hm harg
    obtain ⟨rest', hrest', hmoves⟩ := ih hrest
    refine ⟨arg' :: rest', ?_, .cons hmove hmoves⟩
    rw [List.mapM_cons, harg', hrest']
    rfl

end

/-! ## Instructions -/

/-- An operand does not depend on the address, unless it is a number that is given by a symbol. -/
theorem place_moved {k pc : Nat} {i : Instruction} {operand : Operand} {arg arg' : Argument}
    (h : arg.Moves k arg') (hk : k = 0 ∨ ¬ (operand = .imm ∧ ∃ addr, arg = .address addr)) :
    place (pc + k) i operand arg' = place pc i operand arg := by
  cases h with
  | register | number => cases operand <;> rfl
  | @address addr addr' h =>
    cases operand with
    | da | aa | ba => rfl
    | imm =>
      obtain rfl := hk.resolve_right (not_not_intro ⟨rfl, addr, rfl⟩)
      rw [UInt16.toNat_inj.1 h]
      rfl
    | offset =>
      have hdistance : (addr'.toNat : Int) - (pc + k : Nat) = addr.toNat - pc := by omega
      exact congrArg (placeOffset i) hdistance

theorem foldlM_place_moved {k pc : Nat} {operands : List Operand} {args args' : List Argument}
    (h : List.Forall₂ (Argument.Moves k) args args')
    (hk : ∀ x ∈ operands.zip args, k = 0 ∨ ¬ (x.1 = .imm ∧ ∃ addr, x.2 = .address addr)) (i : Instruction) :
    (operands.zip args').foldlM (fun i (operand, arg) => place (pc + k) i operand arg) i =
      (operands.zip args).foldlM (fun i (operand, arg) => place pc i operand arg) i := by
  induction h generalizing operands i with
  | nil => rw [List.zip_nil_right]; rfl
  | cons hmove _ ih =>
    cases operands with
    | nil => rfl
    | cons operand operands =>
      obtain ⟨hx, hk⟩ := List.forall_mem_cons.1 hk
      simp only [List.zip_cons_cons, List.foldlM_cons, place_moved hmove hx]
      congr 1
      funext j
      exact ih hk j

theorem fill_moved {k pc : Nat} {op : Opcode} {args args' : List Argument}
    (h : List.Forall₂ (Argument.Moves k) args args')
    (hk : ∀ x ∈ op.operands.zip args, k = 0 ∨ ¬ (x.1 = .imm ∧ ∃ addr, x.2 = .address addr)) :
    fill (pc + k) op args' = fill pc op args := by
  unfold fill
  rw [h.length_eq, foldlM_place_moved h hk]

/-- An instruction is the same where its labels are as far from it as before, unless it puts one
where a number is wanted. -/
theorem readInstruction_moved {k pc : Nat} {t t' : SymbolTable} (hm : Moves k t t') {text : String}
    (hk : k = 0 ∨ ¬ SymbolicImmediate text) {i : Instruction}
    (h : readInstruction t pc (Text.code text.toList) = .ok i) :
    readInstruction t' (pc + k) (Text.code text.toList) = .ok i := by
  obtain ⟨op, args, hop, hargs, hfill⟩ := readInstruction_eq_ok_iff.1 h
  obtain ⟨args', hargs', hmoves⟩ := mapM_read_moved hm hargs
  refine readInstruction_eq_ok_iff.2 ⟨op, args', hop, hargs', ?_⟩
  rw [fill_moved hmoves, hfill]
  refine fun x hx => hk.imp_right fun hno ⟨himm, addr, haddr⟩ => hno ?_
  -- An address among the arguments was written as a symbol, at the place of its operand.
  obtain ⟨j, hj⟩ := List.getElem?_of_mem hx
  obtain ⟨hoperand, harg⟩ := List.getElem?_zip_eq_some.1 hj
  have hread := mapM_eq_ok_iff.1 hargs
  obtain ⟨hlt, harg⟩ := List.getElem?_eq_some_iff.1 harg
  have hlt' := hread.length_eq ▸ hlt
  have htoken := hread.get hlt' hlt
  simp only [List.get_eq_getElem, harg, haddr] at htoken
  obtain ⟨name, hname⟩ := dot_of_read htoken
  exact ⟨op, j, name, hop, himm ▸ hoperand, hname ▸ List.getElem?_eq_getElem hlt'⟩

theorem Line.Reads.moved {k addr : Nat} {t t' : SymbolTable} (hm : Moves k t t') {l : Line}
    (hk : k = 0 ∨ ¬ l.Symbolic) {i : Instruction} (h : l.Reads t addr i) : l.Reads t' (addr + k) i := by
  cases l with
  | note _ | label _ => exact h
  | made j => exact h
  | written text => exact readInstruction_moved hm hk h

/-! ## Code -/

/-- The first code is the given one and the second, whose lines are `n` lines further down. -/
def Code.Follows (front : List (Numbered Instruction)) (n : Nat) (c d : Code) : Prop :=
  c.entries.toList = front ++ d.entries.toList.map (·.down n)

section

variable {front : List (Numbered Instruction)} {n : Nat} {t t' : SymbolTable} (hm : Moves front.length t t')
  {c d d' : Code} (hc : c.Follows front n d)

include hc in
theorem Code.Follows.size_eq : c.size = d.size + front.length := by
  have hlength := congrArg List.length hc
  simp only [Array.length_toList, List.length_append, List.length_map] at hlength
  exact hlength.trans (Nat.add_comm ..)

include hm hc

theorem appendLine_moved {x : Numbered Line} (hx : front.length = 0 ∨ ¬ x.val.Symbolic)
    (h : d.appendLine t x = .ok d') (hfit : d'.size + front.length ≤ 65536) :
    ∃ c', c.appendLine t' (x.down n) = .ok c' ∧ c'.Follows front n d' := by
  obtain ⟨hw, rfl⟩ | ⟨i, hi, hentries⟩ := appendLine_eq_ok h
  · exact ⟨c, appendLine_of_silent hw, hc⟩
  · have hsize := size_eq_of_entries hentries
    have hlt : c.size < 65536 := by
      rw [hc.size_eq]
      rw [List.length_singleton] at hsize
      omega
    have hread := hi.moved hm hx
    rw [← hc.size_eq] at hread
    obtain ⟨c', hc', hentries'⟩ := appendLine_of_reads (x := x.down n) hlt hread
    refine ⟨c', hc', ?_⟩
    rw [Code.Follows, hentries', hc, hentries, List.map_append, List.append_assoc]
    rfl

theorem foldlM_moved {lines : List (Numbered Line)} (hx : ∀ x ∈ lines, front.length = 0 ∨ ¬ x.val.Symbolic)
    (h : lines.foldlM (Code.appendLine t) d = .ok d') (hfit : d'.size + front.length ≤ 65536) :
    ∃ c', (lines.map (·.down n)).foldlM (Code.appendLine t') c = .ok c' ∧ c'.Follows front n d' := by
  induction lines generalizing c d with
  | nil =>
    cases h
    exact ⟨c, rfl, hc⟩
  | cons x lines ih =>
    rw [List.foldlM_cons] at h
    obtain ⟨d₁, hd₁, h⟩ := bind_eq_ok_iff.1 h
    obtain ⟨hx, hxs⟩ := List.forall_mem_cons.1 hx
    obtain ⟨is, -, hinst⟩ := emits_of_foldlM h
    have hsize := size_of_instructions hinst
    obtain ⟨c₁, hc₁, hfollows⟩ := appendLine_moved hm hc hx hd₁ (by omega)
    obtain ⟨c', hc', hfollows'⟩ := ih hfollows hxs h
    refine ⟨c', ?_, hfollows'⟩
    rw [List.map_cons, List.foldlM_cons, hc₁]
    exact hc'

end

/-- The code of lines behind others is theirs, if the labels of both are where the lines are. -/
theorem ofLayout_append {l₁ l₂ : Layout} {c₁ c₂ : Code} {t : SymbolTable} (h₁ : Code.ofLayout l₁ = .ok c₁)
    (h₂ : Code.ofLayout l₂ = .ok c₂) (hm₁ : Moves 0 l₁.symbols t) (hm₂ : Moves c₁.size l₂.symbols t)
    (hplain : ∀ x ∈ l₂.lines, ¬ x.val.Symbolic) (hfit : c₁.size + c₂.size ≤ 65536) (n : Nat) :
    ∃ c, Code.ofLayout ⟨l₁.lines ++ l₂.lines.map (·.down n), t⟩ = .ok c ∧
      c.entries.toList = c₁.entries.toList ++ c₂.entries.toList.map (·.down n) := by
  have hstay : Moves ([] : List (Numbered Instruction)).length l₁.symbols t := hm₁
  have hstart : Code.empty.Follows [] 0 Code.empty := rfl
  obtain ⟨c, hc, hfront⟩ := foldlM_moved hstay hstart (fun _ _ => .inl rfl) h₁ c₁.size_le
  have hfront : c.entries.toList = c₁.entries.toList := hfront.trans (List.map_id _)
  have hbehind : c.Follows c₁.entries.toList n Code.empty := hfront.trans (List.append_nil _).symm
  have hsize : c₂.size + c₁.entries.toList.length ≤ 65536 := by
    rw [Array.length_toList, Nat.add_comm]
    exact hfit
  obtain ⟨c', hc', hentries⟩ := foldlM_moved hm₂ hbehind (fun x hx => .inr (hplain x hx)) h₂ hsize
  refine ⟨c', ?_, hentries⟩
  rw [Code.ofLayout, List.foldlM_append]
  exact bind_eq_ok_iff.2 ⟨c, (List.map_id l₁.lines) ▸ hc, hc'⟩

end Isa16.Assembly
