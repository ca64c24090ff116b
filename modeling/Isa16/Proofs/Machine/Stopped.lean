import Isa16.Proofs.Machine.Split
import Isa16.Proofs.Processor.Resume
/-!
# Machines that stay stopped

A machine that has stopped does not refuse to step again, so it stays stopped
only because it makes the same step anew. At the end of the program and at a
word that is no instruction the step has changed nothing
(`step_again_of_ended`, `step_again_of_trapped`); at a branch to itself it has
cleared the flags, and neither the branch nor its target depends on these
(`step_again_of_target`). A machine that halts otherwise has come to the last
address, and what it does there may go on changing (`last_of_halted`).
-/

namespace Isa16

/-- Only a branch or a jump has a target, and it changes nothing but flags. -/
theorem Cpu.execute_eq_target_iff {β : Type} [Bus β] {cpu next : Cpu} {bus bus' : β} {i : Instruction}
    {target : UInt16} : cpu.execute bus i = (.ok (some target), next, bus') ↔
      cpu.effect i = .branch (some target) ∧ next = cpu.cleared ∧ bus' = bus := by
  unfold execute
  cases cpu.effect i with
  | write value => simp
  | load addr => dsimp only; split <;> simp
  | store addr value => dsimp only; split <;> simp
  | branch target' => simp [eq_comm]

namespace Machine

variable {m : Machine}

/-- Where the branch or jump leads that the next step takes, if it takes one. -/
def target? (m : Machine) : Option UInt16 :=
  match (m.cpu.step m.program m.data).1 with
  | .retired r => r.target
  | .ended | .trapped _ => none

/-! ## The same step anew -/

/-- How the last step ended is nothing that a step depends on. -/
theorem step_of_state (m : Machine) (state : RunState) : step { m with state } = m.step := rfl

theorem step_of_ended (h : m.step.1 = .ended) : m.step.2 = { m with state := .halted } := by
  obtain ⟨cpu, program, data, state⟩ := m
  rcases hstep : cpu.step program data with ⟨outcome, next, data'⟩
  simp only [step, hstep] at h ⊢
  obtain rfl := report_eq_ended_iff.1 h
  obtain ⟨-, rfl, rfl⟩ := Cpu.step_eq_ended_iff.1 hstep
  rfl

theorem step_again_of_ended (h : m.step.1 = .ended) : m.step.2.step = m.step := by
  rw [step_of_ended h, step_of_state]

theorem step_again_of_trapped {t : Trap} (h : m.step.1 = .trapped t) : m.step.2.step = m.step := by
  rw [step_of_trapped h]
  exact m.step_of_state .halted

/-- A branch to itself halts, and clears the flags. -/
theorem step_of_branch_to_self {i : Instruction} (hf : m.program.fetch m.cpu.pc = some i.word)
    (he : m.cpu.effect i = .branch (some m.cpu.pc)) :
    m.step = (.halted ⟨m.cpu.pc, i, m.cpu.regs, .empty, m.cpu.pc⟩, ⟨m.cpu.cleared, m.program, m.data, .halted⟩) := by
  obtain ⟨cpu, program, data, state⟩ := m
  have hexecute : cpu.execute data i = (.ok (some cpu.pc), cpu.cleared, data) :=
    Cpu.execute_eq_target_iff.2 ⟨he, rfl, rfl⟩
  simp only [step, Cpu.step_of_execute hf hexecute, Cpu.advance, report, decide_true, if_true]
  rfl

theorem exists_branch {target : UInt16} (h : m.target? = some target) :
    ∃ i : Instruction, m.program.fetch m.cpu.pc = some i.word ∧ m.cpu.effect i = .branch (some target) := by
  rcases hstep : m.cpu.step m.program m.data with ⟨outcome, next, data'⟩
  rw [target?, hstep] at h
  cases outcome with
  | ended | trapped t => cases h
  | retired r =>
    obtain ⟨i, _, _, hf, he, rfl, -⟩ := Cpu.step_eq_retired_iff.1 hstep
    obtain rfl : _ = some target := h
    exact ⟨i, hf, (Cpu.execute_eq_target_iff.1 he).1⟩

theorem step_again_of_target (h : m.target? = some m.cpu.pc) : m.step.2.step = m.step := by
  obtain ⟨i, hf, he⟩ := exists_branch h
  rw [step_of_branch_to_self hf he]
  -- Flags are nothing that an instruction reads, so the branch is the same without them.
  exact step_of_branch_to_self (m := ⟨m.cpu.cleared, m.program, m.data, .halted⟩) hf he

/-- A machine that halts without a branch to itself is at the last address of a full memory. -/
theorem last_of_halted {t : Trace} (h : m.step.1 = .halted t) (htarget : m.target? ≠ some m.cpu.pc) :
    m.target? = none ∧ m.cpu.pc = 0xFFFF ∧ m.program.size = 65536 ∧ m.step.2.cpu.pc = 0xFFFF := by
  obtain ⟨cpu, program, data, state⟩ := m
  rcases hstep : cpu.step program data with ⟨outcome, next, data'⟩
  simp only [step, target?, hstep] at h htarget ⊢
  cases outcome with
  | ended | trapped t => cases h
  | retired r =>
    obtain ⟨i, target, after, hf, -, rfl, rfl⟩ := Cpu.step_eq_retired_iff.1 hstep
    cases target with
    | some target =>
      have hne : target ≠ cpu.pc := fun e => htarget (congrArg some e)
      simp [report, Cpu.advance, hne] at h
    | none =>
      by_cases hpc : cpu.pc = 0xFFFF
      · have hlt : cpu.pc.toNat < program.words.size := (Array.getElem?_eq_some_iff.1 hf).1
        have hle := program.size_le
        have hlast : cpu.pc.toNat = 65535 := congrArg UInt16.toNat hpc
        have hsize : program.size = 65536 := by rw [Program.size]; omega
        exact ⟨rfl, hpc, hsize, by rw [Cpu.advance, if_pos hpc, hpc]⟩
      · simp [report, Cpu.advance, hpc] at h

/-! ## Staying stopped -/

/-- The machine makes the same step forever, is the same after each of these steps, and every run of it
is this step alone. -/
structure Stays (m : Machine) (s : Step) (answer : Except Trap Nat) : Prop where
  step_eq : ∀ n, m.stepAt n = s
  after_eq : ∀ n, m.after (n + 1) = m.step.2
  state_eq : m.step.2.state = .halted
  run_eq : ∀ n k, 0 < k → (m.after n).run k = (answer, m.step.2)

theorem stays_of_step_again (h : m.step.2.step = m.step) (hstop : m.step.1.continues = false) :
    m.Stays m.step.1 (m.step.1.answerAfter 0) := by
  have hafter (n : Nat) : m.after (n + 1) = m.step.2 := by
    induction n with
    | zero => rfl
    | succ n ih => rw [after_succ, ih, h]
  have hstep (n : Nat) : (m.after n).step = m.step := by
    cases n with
    | zero => rfl
    | succ n => rw [hafter, h]
  refine ⟨fun n => congrArg Prod.fst (hstep n), hafter, Step.state_of_stop hstop, fun n k hk => ?_⟩
  obtain ⟨k, rfl⟩ := Nat.exists_eq_succ_of_ne_zero (Nat.ne_of_gt hk)
  rw [Nat.succ_eq_add_one, run_of_first (by rw [hstep]; exact hstop), hstep]

/-- A machine that comes to the end of its program, to a word that is no instruction, or to a branch
to itself stays there. One that halts otherwise is at the last address of a full memory. -/
theorem stays_stopped (m : Machine) :
    (m.step.1 = .ended → m.Stays .ended (.ok 0)) ∧
    (∀ pc opcode, m.step.1 = .trapped (.invalidOpcode pc opcode) →
      m.Stays (.trapped (.invalidOpcode pc opcode)) (.error (.invalidOpcode pc opcode))) ∧
    (∀ t, m.step.1 = .halted t → m.target? = some m.cpu.pc → m.Stays (.halted t) (.ok 1)) ∧
    ∀ t, m.step.1 = .halted t → m.target? ≠ some m.cpu.pc →
      m.target? = none ∧ m.cpu.pc = 0xFFFF ∧ m.program.size = 65536 ∧ m.step.2.cpu.pc = 0xFFFF := by
  refine ⟨fun h => ?_, fun pc opcode h => ?_, fun t h htarget => ?_, fun t => last_of_halted⟩
  · have hstays := stays_of_step_again (step_again_of_ended h) (by rw [h]; rfl)
    rwa [h] at hstays
  · have hstays := stays_of_step_again (step_again_of_trapped h) (by rw [h]; rfl)
    rwa [h] at hstays
  · have hstays := stays_of_step_again (step_again_of_target htarget) (by rw [h]; rfl)
    rwa [h] at hstays

/-- A conditional branch to itself, which clears a flag when it is first taken. -/
theorem stays_stopped_of_branch :
    let m : Machine := ⟨⟨0, ⟨false, false, true, false⟩, Vector.replicate 8 0⟩, ⟨#[0xC000], by decide⟩, .empty, .idle⟩
    let t : Trace := ⟨0, ⟨.brz, 0, 0, 0⟩, Vector.replicate 8 0, .empty, 0⟩
    m.step.1 = .halted t ∧ m.target? = some m.cpu.pc ∧ m.Stays (.halted t) (.ok 1) := by
  intro m t
  have hstep : m.step.1 = .halted t := rfl
  have htarget : m.target? = some m.cpu.pc := by decide
  obtain ⟨-, -, hstays, -⟩ := stays_stopped m
  exact ⟨hstep, htarget, hstays t hstep htarget⟩

end Machine

end Isa16
