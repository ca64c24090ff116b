import Isa16.Proofs.Machine.Run
/-!
# Programs that never trap

Data memory refuses nothing, so a step can only trap at a word that is no
instruction. A machine with a program of instructions never traps, whatever is
done to its processor and its data memory between steps (`Session.not_trapped`,
`Session.run_eq_ok`).
-/

namespace Isa16

namespace Machine

/-- The machines that come of a machine with the same program: by steps, runs and resets, with any
change of the processor and of data memory in between. -/
inductive Session (m : Machine) : Machine → Prop
  | start : Session m m
  | step {k : Machine} (h : Session m k) : Session m k.step.2
  | run {k : Machine} (limit : Nat) (h : Session m k) : Session m (k.run limit).2
  | reset {k : Machine} (h : Session m k) : Session m k.reset
  | edit {k : Machine} (cpu : Cpu) (data : DataMemory) (h : Session m k) : Session m { k with cpu, data }

theorem step_of_not_fetched {m : Machine} (h : m.program.fetch m.cpu.pc = none) : m.step.1 = .ended := by
  obtain ⟨cpu, program, data, state⟩ := m
  simp only [step, Cpu.step, show program.fetch cpu.pc = none from h, report]

/-- A step of a program of instructions ends, or carries out an instruction. -/
theorem step_of_decodes {m : Machine} (h : m.program.Decodes) :
    m.step.1 = .ended ∨ ∃ t, m.step.1 = .retired t ∨ m.step.1 = .halted t := by
  obtain hf | ⟨i, hf⟩ := h.fetch m.cpu.pc
  · exact .inl (step_of_not_fetched hf)
  · have hperform := step_performs hf
    have performed {target : Option UInt16} {regs : Vector UInt16 8} {data : DataMemory}
        (hp : m.Performs target regs data) : ∃ t, m.step.1 = .retired t ∨ m.step.1 = .halted t := by
      obtain ⟨t, ht⟩ := hp.report
      split at ht
      · exact ⟨t, .inr ht⟩
      · exact ⟨t, .inl ht⟩
    cases heffect : m.cpu.effect i <;> rw [heffect] at hperform <;> exact .inr (performed hperform)

theorem go_of_decodes {m : Machine} (h : m.program.Decodes) (count left : Nat) :
    (∃ n, (run.go m count left).1 = .ok n) ∧ (run.go m count left).2.program = m.program := by
  induction left generalizing m count with
  | zero => exact ⟨⟨count, rfl⟩, rfl⟩
  | succ left ih =>
    unfold run.go
    obtain hs | ⟨t, hs | hs⟩ := step_of_decodes h
    · rw [show m.step = (.ended, m.step.2) from Prod.ext hs rfl]
      exact ⟨⟨count, rfl⟩, rfl⟩
    · rw [show m.step = (.retired t, m.step.2) from Prod.ext hs rfl]
      exact ih (m := m.step.2) h (count + 1)
    · rw [show m.step = (.halted t, m.step.2) from Prod.ext hs rfl]
      exact ⟨⟨count + 1, rfl⟩, rfl⟩

namespace Session

variable {m k : Machine} (hs : Session m k) (h : m.program.Decodes)

include hs h

theorem program_eq : k.program = m.program := by
  induction hs with
  | start => rfl
  | step _ ih | reset _ ih | edit _ _ _ ih => exact ih
  | run limit _ ih => exact ((go_of_decodes (ih.symm ▸ h) 0 limit).2).trans ih

theorem not_trapped (t : Trap) : k.step.1 ≠ .trapped t := by
  obtain hstep | ⟨t, hstep | hstep⟩ := step_of_decodes (hs.program_eq h ▸ h) <;> rw [hstep] <;> simp

theorem run_eq_ok (limit : Nat) : ∃ n, (k.run limit).1 = .ok n :=
  (go_of_decodes (hs.program_eq h ▸ h) 0 limit).1

end Session

end Machine

end Isa16
