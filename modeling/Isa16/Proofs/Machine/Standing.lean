import Isa16.Proofs.Machine.Run
/-!
# Where a machine stands

What can be said of a machine at any moment, whatever was done to it since it
was made: stepping, running, resetting, loading a program, and editing its data
memory (`Command`). A run is a list of steps (`run_eq`), so every command adds
steps to those made since the last reset, or forgets them (`Command.steps`).
These steps tell how the machine stands (`stands_of_commands`): it is idle
before the first of them, and afterwards its state is what the last one came to.
-/

namespace Isa16

/-! ## Flags -/

/-- Overflow and carry are clear, and no value is both negative and zero. -/
structure Flags.Proper (f : Flags) : Prop where
  v_eq : f.v = false
  c_eq : f.c = false
  not_both : ¬ (f.n = true ∧ f.z = true)

theorem Flags.proper_empty : empty.Proper := ⟨rfl, rfl, by simp [empty]⟩

theorem Flags.proper_ofResult (value : UInt16) : (ofResult value).Proper := by
  refine ⟨rfl, rfl, fun ⟨hn, hz⟩ => ?_⟩
  have hzero : value = 0 := of_decide_eq_true hz
  rw [hzero] at hn
  exact absurd hn (by decide)

namespace Cpu

variable {β : Type} [Bus β]

theorem proper_written (cpu : Cpu) (i : Instruction) (value : UInt16) : (cpu.written i value).flags.Proper := by
  unfold written
  dsimp only
  split
  · exact Flags.proper_ofResult value
  · exact Flags.proper_empty

/-- An instruction sets all flags anew, or is refused and sets none. -/
theorem proper_execute {cpu : Cpu} (h : cpu.flags.Proper) (bus : β) (i : Instruction) :
    (cpu.execute bus i).2.1.flags.Proper := by
  unfold execute
  split
  · exact cpu.proper_written i _
  · split
    · exact cpu.proper_written i _
    · exact h
  · split
    · exact Flags.proper_empty
    · exact h
  · exact Flags.proper_empty

theorem proper_step {cpu : Cpu} (h : cpu.flags.Proper) (program : Program) (bus : β) :
    (cpu.step program bus).2.1.flags.Proper := by
  unfold step
  split
  · exact h
  · split
    · exact h
    · have hnext := proper_execute h bus ‹Instruction›
      split <;> rename_i heq <;> rw [heq] at hnext <;> exact hnext

end Cpu

namespace Machine

/-! ## Runs as steps -/

/-- What came of the steps that a run makes. -/
def runSteps (m : Machine) : Nat → List Step
  | 0 => []
  | left + 1 => m.step.1 :: if m.step.1.continues then m.step.2.runSteps left else []

/-- What a run answers for its steps: a trap ends it, and otherwise the instructions count. -/
def answer (steps : List Step) : Except Trap Nat :=
  match steps.getLast? with
  | some (.trapped t) => .error t
  | _ => .ok (steps.countP (·.trace?.isSome))

theorem answer_retired (t : Trace) (steps : List Step) :
    answer (.retired t :: steps) = (answer steps).map (1 + ·) := by
  rw [answer, answer, List.getLast?_cons]
  cases hlast : steps.getLast? with
  | none =>
    rw [List.getLast?_eq_none_iff.1 hlast]
    rfl
  | some last => cases last <;> simp [Step.trace?, Except.map, Nat.add_comm]

theorem go_eq (m : Machine) (count left : Nat) :
    run.go m count left = ((answer (m.runSteps left)).map (count + ·), m.after (m.runSteps left).length) := by
  induction left generalizing m count with
  | zero => rfl
  | succ left ih =>
    unfold run.go runSteps
    rcases hs : m.step with ⟨s, next⟩
    have hnext : m.step.2 = next := by rw [hs]
    cases s with
    | retired t =>
      rw [Step.continues, if_pos rfl, answer_retired, List.length_cons, after, hnext]
      refine (ih next (count + 1)).trans ?_
      cases answer (next.runSteps left) <;> simp [Except.map, Nat.add_assoc]
    | halted t | ended | trapped t =>
      have hstop : (t : Step) → t.continues = false → (if t.continues then next.runSteps left else []) = [] :=
        fun t ht => if_neg (by simp [ht])
      rw [hstop _ rfl, List.length_singleton, after, hnext]
      rfl

/-- A run is its steps. -/
theorem run_eq (m : Machine) (limit : Nat) :
    m.run limit = (answer (m.runSteps limit), m.after (m.runSteps limit).length) := by
  rw [run, go_eq]
  cases answer (m.runSteps limit) <;> simp [Except.map]

/-! ## Commands -/

/-- What can be done to a machine without writing to its processor. -/
inductive Command
  | step
  | run (limit : Nat)
  | reset
  | load (program : Program)
  /-- Data memory is changed in any way. -/
  | edit (change : DataMemory → DataMemory)

def obey (m : Machine) : Command → Machine
  | .step => m.step.2
  | .run limit => (m.run limit).2
  | .reset => m.reset
  | .load program => m.load program
  | .edit change => { m with data := change m.data }

/-- What came of the steps since the machine was made, reset or loaded: those before a command,
`made`, and those that it makes, unless it resets. -/
def Command.steps (m : Machine) (made : List Step) : Command → List Step
  | .step => made ++ [m.step.1]
  | .run limit => made ++ m.runSteps limit
  | .reset | .load _ => []
  | .edit _ => made

/-- The machine after commands, with what came of the steps since it was made, reset or loaded. -/
def obeyAll (m : Machine) (made : List Step) : List Command → Machine × List Step
  | [] => (m, made)
  | command :: rest => (m.obey command).obeyAll (command.steps m made) rest

/-! ## Standing -/

/-- The state of a machine that made these steps. -/
def stateAfter (made : List Step) : RunState := (made.getLast?.map Step.state).getD .idle

/-- What every command keeps: flags that can be, a state that comes from the last step, and a
processor that is zero before the first step. -/
structure Tracks (m : Machine) (made : List Step) : Prop where
  flags_proper : m.cpu.flags.Proper
  state_eq : m.state = stateAfter made
  zero : made = [] → m.cpu = .zero

theorem state_step (m : Machine) : m.step.2.state = m.step.1.state := rfl

namespace Tracks

variable {m : Machine} {made : List Step}

theorem fresh (program : Program) (data : DataMemory) : Tracks (fresh program data) [] :=
  ⟨Flags.proper_empty, rfl, fun _ => rfl⟩

theorem step (h : m.Tracks made) : m.step.2.Tracks (made ++ [m.step.1]) where
  flags_proper := Cpu.proper_step h.flags_proper m.program m.data
  state_eq := by rw [state_step, stateAfter, List.getLast?_concat]; rfl
  zero hnil := by simp at hnil

/-- The steps of a run are made one after the other. -/
theorem runSteps (h : m.Tracks made) (limit : Nat) :
    (m.after (m.runSteps limit).length).Tracks (made ++ m.runSteps limit) := by
  induction limit generalizing m made with
  | zero => rwa [Machine.runSteps, List.append_nil]
  | succ left ih =>
    unfold Machine.runSteps
    rw [List.length_cons, after, ← List.singleton_append, ← List.append_assoc]
    split
    · exact ih h.step
    · rw [List.append_nil]
      exact h.step

theorem obey (h : m.Tracks made) (command : Command) : (m.obey command).Tracks (command.steps m made) := by
  cases command with
  | step => exact h.step
  | run limit =>
    rw [Machine.obey, run_eq]
    exact h.runSteps limit
  | reset => exact fresh m.program m.data
  | load program => exact fresh program m.data
  | edit change => exact ⟨h.flags_proper, h.state_eq, h.zero⟩

theorem obeyAll (h : m.Tracks made) (commands : List Command) :
    (m.obeyAll made commands).1.Tracks (m.obeyAll made commands).2 := by
  induction commands generalizing m made with
  | nil => exact h
  | cons command rest ih => exact ih (h.obey command)

end Tracks

/-- The steps since a machine was made, reset or loaded tell how it stands. -/
structure Stands (m : Machine) (made : List Step) : Prop where
  flags_proper : m.cpu.flags.Proper
  program_size : m.program.words.size ≤ 65536
  data_size : m.data.bytes.toArray.size = 131072
  idle_iff : m.state = .idle ↔ made = []
  zero : m.state = .idle → m.cpu.pc = 0 ∧ m.cpu.flags = .empty ∧ ∀ r, m.cpu.reg r = 0
  running_iff : m.state = .running ↔ ∃ t, made.getLast? = some (.retired t)
  halted_iff : m.state = .halted ↔
    ∃ last, made.getLast? = some last ∧ (last = .ended ∨ (∃ t, last = .halted t) ∨ ∃ t, last = .trapped t)

theorem Tracks.stands {m : Machine} {made : List Step} (h : m.Tracks made) : m.Stands made := by
  have hstate := h.state_eq
  rw [stateAfter] at hstate
  have hidle : m.state = .idle ↔ made = [] := by
    cases hlast : made.getLast? with
    | none => simp [hstate, List.getLast?_eq_none_iff.1 hlast]
    | some last =>
      have hne : made ≠ [] := by rintro rfl; cases hlast
      cases last <;> simp [hstate, hlast, hne, Step.state]
  refine ⟨h.flags_proper, m.program.size_le, Vector.size_toArray _, hidle, fun hs => ?_, ?_, ?_⟩
  · rw [h.zero (hidle.1 hs)]
    exact ⟨rfl, rfl, by decide⟩
  · rcases hlast : made.getLast? with _ | _ | _ | _ | _ <;> simp [hstate, hlast, Step.state]
  · rcases hlast : made.getLast? with _ | _ | _ | _ | _ <;> simp [hstate, hlast, Step.state]

/-- Whatever a machine was told to do since it was made, it stands as its steps since the last reset tell. -/
theorem stands_of_commands (program : Program) (data : DataMemory) (commands : List Command) :
    ((fresh program data).obeyAll [] commands).1.Stands ((fresh program data).obeyAll [] commands).2 :=
  ((Tracks.fresh program data).obeyAll commands).stands

end Machine

end Isa16
