import Isa16.Machine.Basic
import Isa16.Proofs.Program
import Mathlib.Data.List.Forall2
/-!
# Runs of a machine

What a step can have done is said once, by what came of it
(`step_eq_ended_iff`, `step_eq_retired_iff`, `retired_of_trace`). Then a machine
after a number of steps, and what a step does that carries out an instruction:
data memory refuses nothing, so every instruction that is fetched is carried out
(`step_performs`). Straight-line code that writes one register runs to its end,
and leaves the other registers and the data memory alone (`after_writes`).
-/

namespace Isa16

theorem Cpu.reg_of_setReg {cpu cpu' : Cpu} {r : Reg} {value : UInt16} (h : cpu'.regs = (cpu.setReg r value).regs)
    (s : Reg) : cpu'.reg s = if s = r then value else cpu.reg s := by
  simp only [reg, setReg, Fin.getElem_fin, h, Vector.getElem_set, Fin.ext_iff, eq_comm]

theorem Cpu.reg_of_regs_eq {cpu cpu' : Cpu} (h : cpu'.regs = cpu.regs) (s : Reg) : cpu'.reg s = cpu.reg s := by
  rw [reg, reg, h]

/-! ## Steps by what comes of them -/

namespace Cpu

section Step

variable {β : Type} [Bus β] {cpu next : Cpu} {program : Program} {bus bus' : β}

/-- An instruction that is carried out is retired, and the processor moves on. -/
theorem step_of_execute {i : Instruction} {target : Option UInt16} (hf : program.fetch cpu.pc = some i.word)
    (he : cpu.execute bus i = (.ok target, next, bus')) :
    cpu.step program bus = (.retired ⟨cpu.pc, i, target, (advance cpu.pc target).2⟩,
      { next with pc := (advance cpu.pc target).1 }, bus') := by
  simp only [step, hf, Instruction.ofWord?_word, he]

/-- A step past the program does nothing. -/
theorem step_eq_ended_iff : cpu.step program bus = (.ended, next, bus') ↔
    program.fetch cpu.pc = none ∧ next = cpu ∧ bus' = bus := by
  constructor
  · intro h
    unfold step at h
    split at h
    · cases h
      exact ⟨‹_›, rfl, rfl⟩
    · split at h
      · cases h
      · split at h <;> cases h
  · rintro ⟨hf, rfl, rfl⟩
    simp only [step, hf]

/-- A step that retires an instruction has fetched it and carried it out. -/
theorem step_eq_retired_iff {r : Retired} : cpu.step program bus = (.retired r, next, bus') ↔
    ∃ i target after, program.fetch cpu.pc = some i.word ∧ cpu.execute bus i = (.ok target, after, bus') ∧
      r = ⟨cpu.pc, i, target, (advance cpu.pc target).2⟩ ∧ next = { after with pc := (advance cpu.pc target).1 } := by
  constructor
  · intro h
    cases hf : program.fetch cpu.pc with
    | none => simp [step, hf] at h
    | some word =>
      cases hi : Instruction.ofWord? word with
      | none => simp [step, hf, hi] at h
      | some i =>
        obtain rfl := Instruction.ofWord?_eq_some_iff.1 hi
        rcases he : cpu.execute bus i with ⟨trap | target, after, bus''⟩
        · simp [step, hf, he] at h
        · rw [step_of_execute hf he] at h
          cases h
          exact ⟨i, target, after, rfl, he, rfl, rfl⟩
  · rintro ⟨i, target, after, hf, he, rfl, rfl⟩
    exact step_of_execute hf he

end Step

end Cpu

namespace Machine

/-- The machine after `n` steps, whatever came of them. -/
def after (m : Machine) : Nat → Machine
  | 0 => m
  | n + 1 => m.step.2.after n

/-- What comes of the step that follows `n` steps. -/
def stepAt (m : Machine) (n : Nat) : Step := (m.after n).step.1

theorem after_add (m : Machine) (i j : Nat) : m.after (i + j) = (m.after i).after j := by
  induction i generalizing m with
  | zero => rw [Nat.zero_add, after]
  | succ i ih => rw [Nat.succ_add, after, after, ih]

theorem stepAt_add (m : Machine) (i j : Nat) : m.stepAt (i + j) = (m.after i).stepAt j := by
  rw [stepAt, stepAt, after_add]

theorem program_step (m : Machine) : m.step.2.program = m.program := rfl

theorem program_after (m : Machine) (n : Nat) : (m.after n).program = m.program := by
  induction n generalizing m with
  | zero => rfl
  | succ n ih => exact (ih m.step.2).trans m.program_step

/-! ## One step -/

section Report

variable {cpu : Cpu} {outcome : Outcome}

theorem report_eq_ended_iff : report cpu outcome = .ended ↔ outcome = .ended := by
  cases outcome with
  | ended | trapped t => simp [report]
  | retired r => cases hr : r.halted <;> simp [report, hr]

theorem report_eq_trapped_iff {t : Trap} : report cpu outcome = .trapped t ↔ outcome = .trapped t := by
  cases outcome with
  | ended | trapped t => simp [report]
  | retired r => cases hr : r.halted <;> simp [report, hr]

/-- An instruction that retires leaves a trace, whether it halts the machine or not. -/
theorem trace_report (r : Retired) :
    (report cpu (.retired r)).trace? = some ⟨r.pc, r.instruction, cpu.regs, cpu.flags, cpu.pc⟩ := by
  cases hr : r.halted <;> simp [report, hr, Step.trace?]

/-- A trace tells of an instruction that retired, and of the machine afterwards. -/
theorem retired_of_trace {m : Machine} {t : Trace} (h : m.step.1.trace? = some t) :
    ∃ r, m.cpu.step m.program m.data = (.retired r, m.step.2.cpu, m.step.2.data) ∧
      t = ⟨r.pc, r.instruction, m.step.2.cpu.regs, m.step.2.cpu.flags, m.step.2.cpu.pc⟩ := by
  obtain ⟨cpu, program, data, state⟩ := m
  rcases hstep : cpu.step program data with ⟨outcome, next, data'⟩
  simp only [step, hstep] at h ⊢
  cases outcome with
  | ended | trapped t => cases h
  | retired r =>
    rw [trace_report] at h
    exact ⟨r, rfl, (Option.some.inj h).symm⟩

end Report

/-- A step carried out an instruction that named `target` as the next one, and left these
registers and this memory. -/
structure Performs (m : Machine) (target : Option UInt16) (regs : Vector UInt16 8) (data : DataMemory) : Prop where
  regs_eq : m.step.2.cpu.regs = regs
  data_eq : m.step.2.data = data
  pc_eq : m.step.2.cpu.pc = (Cpu.advance m.cpu.pc target).1
  report : ∃ t, m.step.1 = if (Cpu.advance m.cpu.pc target).2 then .halted t else .retired t

/-- Every instruction that is fetched is carried out, by what it asks for. -/
theorem step_performs {m : Machine} {i : Instruction} (hf : m.program.fetch m.cpu.pc = some i.word) :
    match m.cpu.effect i with
    | .write value => m.Performs none (m.cpu.setReg i.da value).regs m.data
    | .load addr => m.Performs none (m.cpu.setReg i.da (m.data.word addr)).regs m.data
    | .store addr value => m.Performs none m.cpu.regs (m.data.setWord addr value)
    | .branch target => m.Performs target m.cpu.regs m.data := by
  obtain ⟨cpu, program, data, state⟩ := m
  have performs {target : Option UInt16} {next : Cpu} {data' : DataMemory}
      (he : cpu.execute data i = (.ok target, next, data')) :
      Performs ⟨cpu, program, data, state⟩ target next.regs data' := by
    have hs : cpu.step program data = _ := Cpu.step_of_execute hf he
    refine ⟨?_, ?_, ?_, ?_⟩ <;> simp only [step, hs, report]
    exact ⟨_, rfl⟩
  dsimp only
  cases he : cpu.effect i with
  | write value =>
    have hex : cpu.execute data i = (.ok none, cpu.written i value, data) := by simp only [Cpu.execute, he]
    exact (performs hex :)
  | load addr =>
    have hex : cpu.execute data i = (.ok none, cpu.written i (data.word addr), data) := by
      simp only [Cpu.execute, he, Bus.read]
    exact (performs hex :)
  | store addr value =>
    have hex : cpu.execute data i = (.ok none, cpu.cleared, data.setWord addr value) := by
      simp only [Cpu.execute, he, Bus.write]
    exact (performs hex :)
  | branch target =>
    have hex : cpu.execute data i = (.ok target, cpu.cleared, data) := by simp only [Cpu.execute, he]
    exact (performs hex :)

/-- Only an instruction of the program leaves a trace, and the trace has its address. -/
theorem pc_of_trace {m : Machine} {t : Trace} (h : m.step.1.trace? = some t) :
    t.pc = m.cpu.pc ∧ t.pc.toNat < m.program.size := by
  obtain ⟨r, hstep, rfl⟩ := retired_of_trace h
  obtain ⟨i, target, after, hf, -, rfl, -⟩ := Cpu.step_eq_retired_iff.1 hstep
  exact ⟨rfl, (Array.getElem?_eq_some_iff.1 hf).1⟩

/-- A step moves on to the next address, or stays at the last one and halts. -/
theorem Performs.moves {m : Machine} {regs : Vector UInt16 8} {data : DataMemory} (h : m.Performs none regs data) :
    m.step.2.cpu.pc.toNat = min (m.cpu.pc.toNat + 1) 65535 ∧
      (m.cpu.pc.toNat < 65535 → ∃ t, m.step.1 = .retired t) ∧ (m.cpu.pc.toNat = 65535 → ∃ t, m.step.1 = .halted t) := by
  have hpc := h.pc_eq
  obtain ⟨t, ht⟩ := h.report
  by_cases hlast : m.cpu.pc = 0xFFFF
  · have hnat : m.cpu.pc.toNat = 65535 := by rw [hlast]; rfl
    simp only [Cpu.advance, if_pos hlast] at hpc ht
    exact ⟨by rw [hpc]; omega, fun _ => by omega, fun _ => ⟨t, ht⟩⟩
  · have hnat : m.cpu.pc.toNat ≠ 65535 := fun e => hlast (UInt16.toNat_inj.1 e)
    have hlt := m.cpu.pc.toNat_lt
    simp only [Cpu.advance, if_neg hlast] at hpc ht
    refine ⟨?_, fun _ => ⟨t, ht⟩, fun _ => by omega⟩
    rw [hpc, UInt16.toNat_add]
    simp only [UInt16.reduceToNat]
    omega

theorem Performs.advances {m : Machine} {regs : Vector UInt16 8} {data : DataMemory} (h : m.Performs none regs data)
    (hlt : m.cpu.pc.toNat < 65535) : m.step.2.cpu.pc.toNat = m.cpu.pc.toNat + 1 ∧ ∃ t, m.step.1 = .retired t := by
  obtain ⟨hpc, hret, -⟩ := h.moves
  exact ⟨by omega, hret hlt⟩

/-- A jump goes to its target, and halts if that is the jump itself. -/
theorem Performs.jumps {m : Machine} {target : UInt16} {regs : Vector UInt16 8} {data : DataMemory}
    (h : m.Performs (some target) regs data) :
    m.step.2.cpu.pc = target ∧
      ∃ t, m.step.1 = if target.toNat = m.cpu.pc.toNat then .halted t else .retired t := by
  obtain ⟨t, ht⟩ := h.report
  refine ⟨h.pc_eq, t, ?_⟩
  simpa only [Cpu.advance, decide_eq_true_eq, UInt16.toNat_inj] using ht

/-- Two instructions that move on, and a jump behind them. -/
theorem after_jump {m : Machine} {target : UInt16} {regs₁ regs₂ regs₃ : Vector UInt16 8}
    {data₁ data₂ data₃ : DataMemory} (h₁ : m.Performs none regs₁ data₁) (h₂ : m.step.2.Performs none regs₂ data₂)
    (h₃ : m.step.2.step.2.Performs (some target) regs₃ data₃) (hend : m.cpu.pc.toNat + 2 < 65536) :
    (m.after 3).cpu.pc = target ∧ (∀ j, j < 2 → ∃ t, m.stepAt j = .retired t) ∧
      ∃ t, m.stepAt 2 = if target.toNat = m.cpu.pc.toNat + 2 then .halted t else .retired t := by
  obtain ⟨hpc₁, hret₁⟩ := h₁.advances (by omega)
  obtain ⟨hpc₂, hret₂⟩ := h₂.advances (by omega)
  obtain ⟨hpc₃, t, hlast⟩ := h₃.jumps
  rw [hpc₂, hpc₁] at hlast
  refine ⟨hpc₃, fun j hj => ?_, t, hlast⟩
  match j, hj with
  | 0, _ => exact hret₁
  | 1, _ => exact hret₂

/-! ## Straight-line code -/

end Machine

/-- The instruction writes register `r` by a function of its value, and does nothing else. -/
def Instruction.Writes (r : Reg) (i : Instruction) (f : UInt16 → UInt16) : Prop :=
  i.da = r ∧ ∀ cpu : Cpu, cpu.effect i = .write (f (cpu.reg r))

namespace Machine

/-- From address `p`, `n` steps left the value in register `r`, and changed nothing else but flags. -/
structure Loads (m : Machine) (p n : Nat) (r : Reg) (value : UInt16) : Prop where
  value_eq : (m.after n).cpu.reg r = value
  reg_eq : ∀ s, s ≠ r → (m.after n).cpu.reg s = m.cpu.reg s
  data_eq : (m.after n).data = m.data
  pc_eq : (m.after n).cpu.pc.toNat = min (p + n) 65535
  retired : ∀ j, j < n → p + j < 65535 → ∃ t, m.stepAt j = .retired t
  halted : ∀ j, j < n → p + j = 65535 → ∃ t, m.stepAt j = .halted t

/-- Code that writes one register runs to its end, from any state. -/
theorem after_writes {m : Machine} {p : Nat} {r : Reg} {code : List Instruction} {fs : List (UInt16 → UInt16)}
    (hcode : m.program.HasCode p code) (hpc : m.cpu.pc.toNat = min p 65535)
    (hw : List.Forall₂ (Instruction.Writes r) code fs) :
    m.Loads p code.length r (fs.foldl (fun value f => f value) (m.cpu.reg r)) := by
  induction hw generalizing m p with
  | nil =>
    exact ⟨rfl, fun _ _ => rfl, rfl, hpc, by simp, by simp⟩
  | @cons i f code fs hi hw ih =>
    obtain ⟨rfl, heffect⟩ := hi
    -- There is no code behind the last address, so the machine is at `p` here and not held up before it.
    have hlt := hcode.lt
    have hp : m.cpu.pc.toNat = p := by omega
    have hstep := step_performs (hp ▸ hcode).fetch
    rw [heffect m.cpu] at hstep
    obtain ⟨hmove, hret, hhalt⟩ := hstep.moves
    have hreg := Cpu.reg_of_setReg hstep.regs_eq
    have hrest := ih (m := m.step.2) hcode.tail (by rw [hmove, hp])
    refine ⟨?_, fun s hs => ?_, ?_, ?_, fun j hj hjp => ?_, fun j hj hjp => ?_⟩
    · rw [List.length_cons, after, hrest.value_eq, hreg, if_pos rfl]
      rfl
    · rw [List.length_cons, after, hrest.reg_eq s hs, hreg, if_neg hs]
    · rw [List.length_cons, after, hrest.data_eq, hstep.data_eq]
    · rw [List.length_cons, after, hrest.pc_eq]
      omega
    · cases j with
      | zero => exact hret (by omega)
      | succ j => exact hrest.retired j (Nat.lt_of_succ_lt_succ hj) (by omega)
    · cases j with
      | zero => exact hhalt (by omega)
      | succ j => exact hrest.halted j (Nat.lt_of_succ_lt_succ hj) (by omega)

end Machine

end Isa16
