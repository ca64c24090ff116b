import Isa16.Proofs.Machine.Run
/-!
# The instruction set

What each operation does, as a table over numbers: the operation code selects a
row, and the row says what comes of the values before the instruction, by
integer arithmetic that is meant modulo 65536. The table takes nothing from the
processor, neither its word arithmetic nor its flag rules. A step on a word of
the table does what the row says, and nothing else (`step_of_table`).
-/

namespace Isa16

/-! ## The table -/

/-- The numbers that an instruction is carried out with. -/
structure Inputs where
  pc : Nat
  /-- The value of the register in field `aa`. -/
  a : Nat
  /-- The value of the register in field `ba`. -/
  b : Nat
  /-- The number in field `ba`. -/
  imm : Nat
  /-- The displacement in fields `da` and `ba`. -/
  offset : Int
  /-- The data word at address `a`. -/
  word : Nat

/-- A row of the table for given inputs. Values and addresses are meant modulo 65536. -/
structure Behaviour where
  /-- What the register in field `da` gets. -/
  result : Option Int := none
  /-- Whether N and Z tell about the result; otherwise all flags are cleared. -/
  tells : Bool := false
  /-- What the data word at the address in register `aa` gets. -/
  stored : Option Int := none
  /-- Where a branch or jump goes that is taken. -/
  target : Option Int := none

/-- The table of the instruction set, by operation code. -/
def behaviour? (x : Inputs) : Nat → Option Behaviour
  | 0x00 => some { result := some x.a, tells := true }
  | 0x01 => some { result := some (x.a + 1), tells := true }
  | 0x02 => some { result := some (x.a + x.b), tells := true }
  | 0x05 => some { result := some (x.a - x.b), tells := true }
  | 0x06 => some { result := some (x.a - 1), tells := true }
  | 0x08 => some { result := some (x.a &&& x.b : Nat), tells := true }
  | 0x09 => some { result := some (x.a ||| x.b : Nat), tells := true }
  | 0x0A => some { result := some (x.a ^^^ x.b : Nat), tells := true }
  | 0x0B => some { result := some (65535 - x.a), tells := true }
  | 0x0C => some { result := some x.b, tells := true }
  | 0x0D => some { result := some (x.b / 2) }
  | 0x0E => some { result := some (2 * x.b) }
  | 0x10 => some { result := some x.word }
  | 0x20 => some { stored := some x.b }
  | 0x42 => some { result := some (x.a + x.imm), tells := true }
  | 0x4C => some { result := some x.imm }
  | 0x60 => some { target := if x.a = 0 then some (x.pc + x.offset) else none }
  | 0x61 => some { target := if x.a.testBit 15 then some (x.pc + x.offset) else none }
  | 0x70 => some { target := some x.a }
  | _ => none

/-- What an instruction with these fields is carried out with. The displacement has its sign in
the highest bit of `da`. -/
def Inputs.of (cpu : Cpu) (data : DataMemory) (da aa ba : Reg) : Inputs where
  pc := cpu.pc.toNat
  a := (cpu.reg aa).toNat
  b := (cpu.reg ba).toNat
  imm := ba
  offset := if da.val < 4 then 8 * da + ba else 8 * da + ba - 64
  word := (data.word (cpu.reg aa)).toNat

/-- Where an instruction at `pc` leads: to the target of a branch that is taken, otherwise to the
next address, of which the last one has none. -/
def nextPc (pc : Int) : Option Int → Int
  | some t => t % 65536
  | none => min (pc + 1) 65535

namespace Behaviour

/-- What a step has to leave that carries out a row: the target it took, whether it halted, the
processor and the data memory. -/
structure Realized (row : Behaviour) (cpu : Cpu) (data : DataMemory) (da aa : Reg)
    (target : Option UInt16) (halted : Bool) (next : Cpu) (data' : DataMemory) : Prop where
  result_eq : ∀ v, row.result = some v → ((next.reg da).toNat : Int) = v % 65536
  reg_eq : ∀ r, row.result = none ∨ r ≠ da → next.reg r = cpu.reg r
  stored_eq : ∀ v, row.stored = some v → ((data'.word (cpu.reg aa)).toNat : Int) = v % 65536
  word_eq : ∀ addr, row.stored = none ∨ addr ≠ cpu.reg aa → data'.word addr = data.word addr
  n_iff : next.flags.n = true ↔ row.tells = true ∧ ∃ v, row.result = some v ∧ (v % 65536).toNat.testBit 15 = true
  z_iff : next.flags.z = true ↔ row.tells = true ∧ ∃ v, row.result = some v ∧ v % 65536 = 0
  v_eq : next.flags.v = false
  c_eq : next.flags.c = false
  target_eq : target.map (fun t => (t.toNat : Int)) = row.target.map (· % 65536)
  pc_eq : (next.pc.toNat : Int) = nextPc cpu.pc.toNat row.target
  halted_iff : halted = true ↔
    (∃ t, row.target = some t ∧ t % 65536 = cpu.pc.toNat) ∨ row.target = none ∧ cpu.pc.toNat = 65535
  pc_of_halted : halted = true → next.pc = cpu.pc

end Behaviour

/-! ## The processor and the table -/

/-- A row beside what the processor asks for: the numbers of the row are its words modulo 65536. -/
inductive Behaviour.Describes (data : DataMemory) (a : UInt16) (rule : FlagRule) : Behaviour → Effect → Prop
  | write {v : Int} {value : UInt16} (h : (value.toNat : Int) = v % 65536) :
    Describes data a rule { result := some v, tells := rule = .result } (.write value)
  | load {v : Int} (h : ((data.word a).toNat : Int) = v % 65536) :
    Describes data a rule { result := some v, tells := rule = .result } (.load a)
  | store {v : Int} {value : UInt16} (h : (value.toNat : Int) = v % 65536) :
    Describes data a rule { stored := some v } (.store a value)
  | branch {t : Option Int} {target : Option UInt16}
      (h : target.map (fun t => (t.toNat : Int)) = t.map (· % 65536)) :
    Describes data a rule { target := t } (.branch target)

/-! ### Words as numbers modulo 65536 -/

section Words

variable (v w : UInt16)

theorem word_self : (v.toNat : Int) = v.toNat % 65536 := by
  have := v.toNat_lt
  omega

theorem word_add : ((v + w).toNat : Int) = (v.toNat + w.toNat) % 65536 := by
  rw [UInt16.toNat_add]
  omega

theorem word_sub : ((v - w).toNat : Int) = (v.toNat - w.toNat) % 65536 := by
  have := w.toNat_lt
  rw [UInt16.toNat_sub]
  omega

theorem word_not : ((~~~v).toNat : Int) = (65535 - v.toNat) % 65536 := by
  have := v.toNat_lt
  rw [UInt16.toNat_not, UInt16.size]
  omega

theorem word_half : ((v >>> 1).toNat : Int) = (v.toNat / 2) % 65536 := by
  have := v.toNat_lt
  rw [UInt16.toNat_shiftRight, UInt16.toNat_one, Nat.mod_eq_of_lt (by decide : 1 < 16), Nat.shiftRight_eq_div_pow]
  omega

theorem word_double : ((v <<< 1).toNat : Int) = (2 * v.toNat) % 65536 := by
  rw [UInt16.toNat_shiftLeft, UInt16.toNat_one, Nat.mod_eq_of_lt (by decide : 1 < 16), Nat.shiftLeft_eq]
  omega

/-- The sign of a word is its bit 15. -/
theorem word_sign : 0x8000 ≤ v ↔ v.toNat.testBit 15 = true := by
  have := v.toNat_lt
  rw [UInt16.le_iff_toNat_le, Nat.testBit_eq_decide_div_mod_eq, decide_eq_true_eq]
  simp only [UInt16.reduceToNat]
  omega

end Words

theorem displacement_eq_ite (da ba : Fin 8) :
    displacement da ba = if da.val < 4 then (8 * da + ba : Int) else 8 * da + ba - 64 := by
  revert da ba
  decide

theorem word_branchTarget (cpu : Cpu) (i : Instruction) :
    ((cpu.branchTarget i).toNat : Int) = (cpu.pc.toNat + i.offset) % 65536 := by
  rw [Cpu.branchTarget, word_add, UInt16.ofInt, UInt16.toNat_ofNat']
  omega

/-- A branch names its target exactly when it is taken. -/
theorem branch_target {cpu : Cpu} {i : Instruction} {taken taken' : Prop} [Decidable taken] [Decidable taken']
    (h : taken ↔ taken') :
    (if taken then some (cpu.branchTarget i) else none).map (fun t => (t.toNat : Int)) =
      (if taken' then some (cpu.pc.toNat + i.offset : Int) else none).map (· % 65536) := by
  by_cases ht : taken
  · rw [if_pos ht, if_pos (h.1 ht)]
    exact congrArg some (word_branchTarget cpu i)
  · rw [if_neg ht, if_neg (ht ∘ h.2)]
    rfl

/-! ### Rows and effects -/

/-- Every operation is in the table, and its row describes what the processor asks for. -/
theorem describes_effect (cpu : Cpu) (data : DataMemory) (i : Instruction) :
    ∃ row, behaviour? (.of cpu data i.da i.aa i.ba) i.opcode.code.val = some row ∧
      row.Describes data (cpu.reg i.aa) i.opcode.row.flags (cpu.effect i) := by
  obtain ⟨op, da, aa, ba⟩ := i
  have himm : ((UInt16.ofNat ba).toNat : Int) = ba := by
    have := ba.isLt
    rw [UInt16.toNat_ofNat']
    omega
  have hoffset : (Inputs.of cpu data da aa ba).offset = displacement da ba := (displacement_eq_ite da ba).symm
  cases op with
  | mova | movb => exact ⟨_, rfl, .write (word_self _)⟩
  | inc | add => exact ⟨_, rfl, .write (word_add _ _)⟩
  | adi => exact ⟨_, rfl, .write (himm ▸ word_add _ _)⟩
  | sub | dec => exact ⟨_, rfl, .write (word_sub _ _)⟩
  | and => exact ⟨_, rfl, .write (UInt16.toNat_and _ _ ▸ word_self _)⟩
  | or => exact ⟨_, rfl, .write (UInt16.toNat_or _ _ ▸ word_self _)⟩
  | xor => exact ⟨_, rfl, .write (UInt16.toNat_xor _ _ ▸ word_self _)⟩
  | not => exact ⟨_, rfl, .write (word_not _)⟩
  | shr => exact ⟨_, rfl, .write (word_half _)⟩
  | shl => exact ⟨_, rfl, .write (word_double _)⟩
  | ldi => exact ⟨_, rfl, .write (himm ▸ word_self _)⟩
  | ld => exact ⟨_, rfl, .load (word_self _)⟩
  | st => exact ⟨_, rfl, .store (word_self _)⟩
  | brz =>
    refine ⟨_, rfl, .branch ?_⟩
    rw [hoffset]
    exact branch_target UInt16.toNat_inj.symm
  | brn =>
    refine ⟨_, rfl, .branch ?_⟩
    rw [hoffset]
    exact branch_target (word_sign _)
  | jmp => exact ⟨_, rfl, .branch (congrArg some (word_self _))⟩

/-! ## What a step leaves -/

/-- Where the processor goes and whether it halts, told by numbers. -/
theorem advance_eq (pc : UInt16) {target : Option UInt16} {t : Option Int}
    (h : target.map (fun t => (t.toNat : Int)) = t.map (· % 65536)) :
    ((Cpu.advance pc target).1.toNat : Int) = nextPc pc.toNat t ∧
    ((Cpu.advance pc target).2 = true ↔
      (∃ n, t = some n ∧ n % 65536 = pc.toNat) ∨ t = none ∧ pc.toNat = 65535) ∧
    ((Cpu.advance pc target).2 = true → (Cpu.advance pc target).1 = pc) := by
  match target, t, h with
  | some target, some n, h =>
    have hn : (target.toNat : Int) = n % 65536 := Option.some.inj h
    refine ⟨hn, ?_, fun hhalted => of_decide_eq_true hhalted⟩
    simp only [Cpu.advance, decide_eq_true_eq, Option.some.injEq, exists_eq_left', reduceCtorEq, false_and, or_false,
      ← hn, Int.natCast_inj, UInt16.toNat_inj]
  | none, none, _ =>
    have hlast : pc = 0xFFFF ↔ pc.toNat = 65535 := UInt16.toNat_inj.symm
    have hpc := pc.toNat_lt
    unfold Cpu.advance
    dsimp only
    split
    case isTrue h =>
      refine ⟨?_, by simp [hlast.1 h], fun _ => rfl⟩
      rw [hlast.1 h]
      decide
    case isFalse h =>
      have hne : pc.toNat ≠ 65535 := mt hlast.2 h
      refine ⟨?_, by simp [hne], by simp⟩
      rw [UInt16.toNat_add, UInt16.toNat_one, nextPc]
      omega

namespace Behaviour

variable {cpu : Cpu} {data : DataMemory} {i : Instruction}

theorem realized_written {value : UInt16} {v : Int} (h : (value.toNat : Int) = v % 65536) :
    Realized { result := some v, tells := i.opcode.row.flags = .result } cpu data i.da i.aa
      none (Cpu.advance cpu.pc none).2 { cpu.written i value with pc := (Cpu.advance cpu.pc none).1 } data := by
  have hreg (r : Reg) : (cpu.written i value).reg r = if r = i.da then value else cpu.reg r :=
    Cpu.reg_of_setReg rfl r
  obtain ⟨hpc, hhalted, hstay⟩ := @advance_eq cpu.pc none none rfl
  have hn : (v % 65536).toNat.testBit 15 = true ↔ 0x8000 ≤ value := by
    rw [← h, Int.toNat_natCast, word_sign]
  have hz : v % 65536 = 0 ↔ value = 0 := by
    rw [← h, ← UInt16.toNat_inj, Int.natCast_eq_zero, UInt16.toNat_zero]
  refine ⟨?_, ?_, by simp, fun _ _ => rfl, ?_, ?_, ?_, ?_, rfl, hpc, hhalted, hstay⟩
  · rintro _ ⟨⟩
    rw [← h]
    exact congrArg (fun value : UInt16 => (value.toNat : Int)) ((hreg i.da).trans (if_pos rfl))
  · intro r hr
    exact (hreg r).trans (if_neg (hr.resolve_left (by simp)))
  all_goals
    simp only [Cpu.written, Option.some.injEq, exists_eq_left', decide_eq_true_eq, hn, hz]
    cases i.opcode.row.flags <;> simp [Flags.ofResult, Flags.empty]

theorem realized_store {addr value : UInt16} {v : Int} (ha : addr = cpu.reg i.aa)
    (h : (value.toNat : Int) = v % 65536) :
    Realized { stored := some v } cpu data i.da i.aa none (Cpu.advance cpu.pc none).2
      { cpu.cleared with pc := (Cpu.advance cpu.pc none).1 } (data.setWord addr value) := by
  obtain ⟨hpc, hhalted, hstay⟩ := @advance_eq cpu.pc none none rfl
  refine ⟨by simp, fun _ _ => rfl, ?_, ?_, by simp [Cpu.cleared, Flags.empty], by simp [Cpu.cleared, Flags.empty],
    rfl, rfl, rfl, hpc, hhalted, hstay⟩
  · rintro _ ⟨⟩
    rw [DataMemory.word_setWord, if_pos ha.symm, h]
  · intro b hb
    rw [DataMemory.word_setWord, if_neg (ha ▸ hb.resolve_left (by simp))]

theorem realized_branch {t : Option Int} {target : Option UInt16}
    (h : target.map (fun t => (t.toNat : Int)) = t.map (· % 65536)) :
    Realized { target := t } cpu data i.da i.aa target (Cpu.advance cpu.pc target).2
      { cpu.cleared with pc := (Cpu.advance cpu.pc target).1 } data := by
  obtain ⟨hpc, hhalted, hstay⟩ := advance_eq cpu.pc h
  exact ⟨by simp, fun _ _ => rfl, by simp, fun _ _ => rfl, by simp [Cpu.cleared, Flags.empty],
    by simp [Cpu.cleared, Flags.empty], rfl, rfl, h, hpc, hhalted, hstay⟩

end Behaviour

/-- What a step of processor and machine on a word of the table has to come to. -/
structure StepsBy (cpu : Cpu) (program : Program) (data : DataMemory) (i : Instruction) (row : Behaviour)
    (target : Option UInt16) (halted : Bool) (next : Cpu) (data' : DataMemory) : Prop where
  cpu_step : cpu.step program data = (.retired ⟨cpu.pc, i, target, halted⟩, next, data')
  machine_step : ∀ state, Machine.step ⟨cpu, program, data, state⟩ =
    if halted then (.halted ⟨cpu.pc, i, next.regs, next.flags, next.pc⟩, ⟨next, program, data', .halted⟩)
    else (.retired ⟨cpu.pc, i, next.regs, next.flags, next.pc⟩, ⟨next, program, data', .running⟩)
  realized : row.Realized cpu data i.da i.aa target halted next data'

theorem stepsBy_of_execute {cpu next : Cpu} {program : Program} {data data' : DataMemory} {i : Instruction}
    {row : Behaviour} {target : Option UInt16} (hf : program.fetch cpu.pc = some i.word)
    (he : cpu.execute data i = (.ok target, next, data'))
    (hr : row.Realized cpu data i.da i.aa target (Cpu.advance cpu.pc target).2
      { next with pc := (Cpu.advance cpu.pc target).1 } data') :
    ∃ target halted next data', StepsBy cpu program data i row target halted next data' := by
  have hstep := Cpu.step_of_execute hf he
  refine ⟨_, _, _, _, hstep, fun state => ?_, hr⟩
  simp only [Machine.step, hstep, Machine.report]
  split <;> rfl

/-- A step on a word of the table does what the table says, for processor and machine, and leaves
everything else as it was. The word holds the operation code and the fields. -/
theorem step_of_table {cpu : Cpu} {program : Program} {data : DataMemory} {w : UInt16} {i : Instruction}
    (hf : program.fetch cpu.pc = some w) (hi : Instruction.ofWord? w = some i) :
    ∃ row, behaviour? (.of cpu data i.da i.aa i.ba) (w.toNat / 512) = some row ∧
      w.toNat % 512 = 64 * i.da + 8 * i.aa + i.ba ∧
      ∃ target halted next data', StepsBy cpu program data i row target halted next data' := by
  obtain rfl := Instruction.ofWord?_eq_some_iff.1 hi
  obtain ⟨row, hrow, hdescribes⟩ := describes_effect cpu data i
  have hword : i.word.toNat = i.opcode.code * 512 + i.da * 64 + i.aa * 8 + i.ba := Fields.toNat_pack i.fields
  have hda := i.da.isLt
  have haa := i.aa.isLt
  have hba := i.ba.isLt
  have hcode : i.word.toNat / 512 = i.opcode.code := by omega
  refine ⟨row, hcode ▸ hrow, by omega, ?_⟩
  cases heffect : cpu.effect i with
  | write value =>
    rw [heffect] at hdescribes
    cases hdescribes with
    | write h =>
      refine stepsBy_of_execute hf ?_ (Behaviour.realized_written h)
      simp only [Cpu.execute, heffect]
  | load addr =>
    rw [heffect] at hdescribes
    cases hdescribes with
    | load h =>
      refine stepsBy_of_execute hf ?_ (Behaviour.realized_written h)
      simp only [Cpu.execute, heffect, Bus.read]
  | store addr value =>
    rw [heffect] at hdescribes
    cases hdescribes with
    | store h =>
      refine stepsBy_of_execute hf ?_ (Behaviour.realized_store rfl h)
      simp only [Cpu.execute, heffect, Bus.write]
  | branch target =>
    rw [heffect] at hdescribes
    cases hdescribes with
    | branch h =>
      refine stepsBy_of_execute hf ?_ (Behaviour.realized_branch h)
      simp only [Cpu.execute, heffect]

/-- A sum in the register of both summands, which wraps around. -/
theorem step_of_doubling :
    let cpu : Cpu := ⟨0, .empty, #v[0, 0xC000, 0, 0, 0, 0, 0, 0]⟩
    let program : Program := ⟨#[0x0449], by decide⟩
    program.fetch cpu.pc = some 0x0449 ∧ Instruction.ofWord? 0x0449 = some ⟨.add, 1, 1, 1⟩ ∧
      ∃ target halted next data',
        StepsBy cpu program .empty ⟨.add, 1, 1, 1⟩ { result := some (0xC000 + 0xC000), tells := true }
          target halted next data' ∧
        next.reg 1 = 0x8000 ∧ next.flags.n = true ∧ next.flags.z = false ∧ next.pc = 1 := by
  intro cpu program
  have hfetch : program.fetch cpu.pc = some 0x0449 := rfl
  have hinstruction : Instruction.ofWord? 0x0449 = some ⟨.add, 1, 1, 1⟩ := by decide
  obtain ⟨row, hrow, -, target, halted, next, data', h⟩ := @step_of_table cpu program .empty _ _ hfetch hinstruction
  obtain rfl : ({ result := some ((cpu.reg 1).toNat + (cpu.reg 1).toNat), tells := true } : Behaviour) = row :=
    Option.some.inj hrow
  rw [show (cpu.reg 1).toNat = 0xC000 from rfl] at h
  refine ⟨hfetch, hinstruction, target, halted, next, data', h, ?_, ?_, ?_, ?_⟩
  · have hresult : ((next.reg 1).toNat : Int) = (0xC000 + 0xC000) % 65536 := h.realized.result_eq _ rfl
    apply UInt16.toNat_inj.1
    simp only [UInt16.reduceToNat]
    omega
  · exact h.realized.n_iff.2 ⟨rfl, _, rfl, by decide⟩
  · exact Bool.eq_false_iff.2 fun hz => by simpa using h.realized.z_iff.1 hz
  · have hpc : (next.pc.toNat : Int) = min (0 + 1) 65535 := h.realized.pc_eq
    apply UInt16.toNat_inj.1
    simp only [UInt16.reduceToNat]
    omega

end Isa16
