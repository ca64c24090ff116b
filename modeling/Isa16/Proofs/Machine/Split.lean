import Isa16.Proofs.Machine.Standing
/-!
# Runs in parts

A run makes steps up to its limit, or up to the first step after which the
machine does not go on (`goesOn_or_stops`). In the first case the machine is
where a second run takes over, whose answer counts on (`run_of_goesOn`); in the
second case no higher limit makes a difference (`run_of_stop`). So a run can be
cut anywhere (`run_in_parts`), at a step that halts, traps or ends the program
as well.
-/

namespace Isa16

namespace Step

/-- What a run answers if this step was its last one and `n` instructions were carried out before. -/
def answerAfter (n : Nat) : Step → Except Trap Nat
  | .ended => .ok n
  | .retired _ | .halted _ => .ok (n + 1)
  | .trapped t => .error t

theorem retired_of_continues {s : Step} (h : s.continues = true) : ∃ t, s = .retired t := by
  cases s with
  | retired t => exact ⟨t, rfl⟩
  | ended | halted t | trapped t => cases h

theorem trace_of_continues {s : Step} (h : s.continues = true) : ∃ t, s.trace? = some t := by
  obtain ⟨t, rfl⟩ := retired_of_continues h
  exact ⟨t, rfl⟩

theorem state_of_continues {s : Step} (h : s.continues = true) : s.state = .running := by
  obtain ⟨t, rfl⟩ := retired_of_continues h
  rfl

theorem state_of_stop {s : Step} (h : s.continues = false) : s.state = .halted := by
  cases s with
  | retired t => cases h
  | ended | halted t | trapped t => rfl

end Step

namespace Machine

variable {m : Machine}

/-- Each of the next `n` steps carries out an instruction and lets the machine go on. -/
def GoesOn (m : Machine) (n : Nat) : Prop := ∀ j < n, (m.stepAt j).continues = true

theorem after_succ (m : Machine) (n : Nat) : m.after (n + 1) = (m.after n).step.2 := m.after_add n 1

theorem state_after (m : Machine) (n : Nat) : (m.after (n + 1)).state = (m.stepAt n).state := by
  rw [after_succ, state_step, stepAt]

theorem GoesOn.tail {n : Nat} (h : m.GoesOn (n + 1)) : m.step.2.GoesOn n :=
  fun j hj => h (j + 1) (Nat.succ_lt_succ hj)

/-! ## The steps of a run -/

theorem run_of_continues (h : m.step.1.continues = true) (limit : Nat) :
    m.run (limit + 1) = ((m.step.2.run limit).1.map (1 + ·), (m.step.2.run limit).2) := by
  obtain ⟨t, ht⟩ := Step.retired_of_continues h
  rw [run_eq, run_eq, runSteps, if_pos h, ht, answer_retired, List.length_cons, after]

theorem run_of_first (h : m.step.1.continues = false) (limit : Nat) :
    m.run (limit + 1) = (m.step.1.answerAfter 0, m.step.2) := by
  have hstop : ¬ m.step.1.continues = true := by simp [h]
  rw [run_eq, runSteps, if_neg hstop]
  cases hs : m.step.1 with
  | retired t =>
    rw [hs] at h
    cases h
  | ended | halted t | trapped t => rfl

/-- After steps that let the machine go on, a run is a second run that counts on. -/
theorem run_of_goesOn {a : Nat} (h : m.GoesOn a) (b : Nat) :
    m.run (a + b) = (((m.after a).run b).1.map (a + ·), ((m.after a).run b).2) := by
  induction a generalizing m with
  | zero =>
    rw [Nat.zero_add, after]
    cases hr : (m.run b).1 <;> simp [Prod.ext_iff, hr, Except.map]
  | succ a ih =>
    have hfirst : m.step.1.continues = true := h 0 (Nat.succ_pos a)
    rw [Nat.add_right_comm, run_of_continues hfirst, ih h.tail, after]
    cases ((m.step.2.after a).run b).1 with
    | error t => rfl
    | ok n => simp [Except.map, Nat.add_comm 1, Nat.add_right_comm]

/-- A run whose steps all let the machine go on comes to its limit. -/
theorem run_eq_limit {limit : Nat} (h : m.GoesOn limit) : m.run limit = (.ok limit, m.after limit) :=
  run_of_goesOn h 0

/-- A run ends with the first step after which the machine does not go on, whatever the limit is. -/
theorem run_of_stop {n : Nat} (h : m.GoesOn n) (hstop : (m.stepAt n).continues = false) {limit : Nat}
    (hlimit : n < limit) : m.run limit = ((m.stepAt n).answerAfter n, m.after (n + 1)) := by
  obtain ⟨rest, rfl⟩ := Nat.exists_eq_add_of_lt hlimit
  rw [Nat.add_assoc, run_of_goesOn h, run_of_first hstop, after_succ, ← stepAt]
  cases m.stepAt n <;> rfl

theorem goesOn_or_stops (m : Machine) (limit : Nat) :
    m.GoesOn limit ∨ ∃ n < limit, m.GoesOn n ∧ (m.stepAt n).continues = false := by
  induction limit with
  | zero => exact .inl fun j hj => absurd hj (Nat.not_lt_zero j)
  | succ limit ih =>
    obtain h | ⟨n, hn, h, hstop⟩ := ih
    · cases hlast : (m.stepAt limit).continues with
      | false => exact .inr ⟨limit, Nat.lt_succ_self limit, h, hlast⟩
      | true =>
        refine .inl fun j hj => ?_
        obtain hlt | rfl := Nat.lt_succ_iff_lt_or_eq.1 hj
        · exact h j hlt
        · exact hlast
    · exact .inr ⟨n, Nat.lt_succ_of_lt hn, h, hstop⟩

/-! ## Instructions that were carried out -/

/-- A run to a limit that left `k` carried out `n` instructions: the first `n` steps did, and a
step behind them, if there was one, found the program at its end. -/
structure Executed (m : Machine) (limit n : Nat) (k : Machine) : Prop where
  le_limit : n ≤ limit
  trace : ∀ j < n, ∃ t, (m.stepAt j).trace? = some t
  goesOn : m.GoesOn (n - 1)
  left : k = m.after n ∨ m.GoesOn n ∧ m.stepAt n = .ended ∧ k = m.after (n + 1)

theorem executed_of_run {limit n : Nat} (h : (m.run limit).1 = .ok n) : m.Executed limit n (m.run limit).2 := by
  obtain hgo | ⟨k, hk, hgo, hstop⟩ := m.goesOn_or_stops limit
  · rw [run_eq_limit hgo] at h ⊢
    cases h
    exact ⟨Nat.le_refl _, fun j hj => Step.trace_of_continues (hgo j hj), fun j hj => hgo j (by omega), .inl rfl⟩
  · rw [run_of_stop hgo hstop hk] at h ⊢
    cases hs : m.stepAt k with
    | retired t =>
      rw [hs] at hstop
      cases hstop
    | ended =>
      rw [hs] at h
      cases h
      exact ⟨Nat.le_of_lt hk, fun j hj => Step.trace_of_continues (hgo j hj), fun j hj => hgo j (by omega),
        .inr ⟨hgo, hs, rfl⟩⟩
    | halted t =>
      rw [hs] at h
      cases h
      refine ⟨hk, fun j hj => ?_, hgo, .inl rfl⟩
      obtain hlt | rfl := Nat.lt_succ_iff_lt_or_eq.1 hj
      · exact Step.trace_of_continues (hgo j hlt)
      · exact ⟨t, by rw [hs]; rfl⟩
    | trapped t =>
      rw [hs] at h
      cases h

/-! ## Cutting a run -/

/-- A run can be cut in two. One that is still running at its limit made all its steps, and goes on
in a second run as if there had been no cut. One that has halted or trapped is what every longer
run is. The answer is never more than the limit, and counts the instructions. -/
theorem run_in_parts (m : Machine) {a : Nat} (ha : 0 < a) (b : Nat) :
    (∀ n, (m.run a).1 = .ok n → (m.run a).2.state = .running →
      n = a ∧ m.run (a + b) = (((m.run a).2.run b).1.map (a + ·), ((m.run a).2.run b).2)) ∧
    (∀ n, (m.run a).1 = .ok n → (m.run a).2.state = .halted → m.run (a + b) = m.run a) ∧
    (∀ t, (m.run a).1 = .error t → m.run (a + b) = m.run a) ∧
    (m.run a).2.state ≠ .idle ∧
    ∀ limit n, (m.run limit).1 = .ok n → m.Executed limit n (m.run limit).2 := by
  obtain hgo | ⟨k, hk, hgo, hstop⟩ := m.goesOn_or_stops a
  · have hstate : (m.after a).state = .running := by
      obtain ⟨last, rfl⟩ := Nat.exists_eq_succ_of_ne_zero (Nat.ne_of_gt ha)
      rw [state_after, Step.state_of_continues (hgo last (Nat.lt_succ_self last))]
    rw [run_eq_limit hgo, run_of_goesOn hgo]
    refine ⟨fun n hn _ => ⟨(Except.ok.inj hn).symm, rfl⟩, fun n _ hs => ?_, fun t ht => ?_, ?_,
      fun _ _ => executed_of_run⟩
    · exact absurd (hstate.symm.trans hs) (by decide)
    · cases ht
    · simp [hstate]
  · have hstate : (m.run a).2.state = .halted := by
      rw [run_of_stop hgo hstop hk, state_after, Step.state_of_stop hstop]
    have hmore : m.run (a + b) = m.run a := by
      rw [run_of_stop hgo hstop hk, run_of_stop hgo hstop (Nat.lt_add_right b hk)]
    refine ⟨fun n _ hs => ?_, fun _ _ _ => hmore, fun _ _ => hmore, ?_, fun _ _ => executed_of_run⟩
    · exact absurd (hstate.symm.trans hs) (by decide)
    · simp [hstate]

/-- A run of two increments, and the longer one that finds no instruction behind them. -/
theorem run_in_parts_of_trap :
    let m := fresh ⟨#[0x0200, 0x0200, 0xFFFF], by decide⟩ .empty
    (m.run 2).1 = .ok 2 ∧ (m.run 2).2.state = .running ∧ (m.run (2 + 1)).1 = .error (.invalidOpcode 2 127) ∧
      m.run (2 + 1) = (((m.run 2).2.run 1).1.map (2 + ·), ((m.run 2).2.run 1).2) ∧
      m.run (3 + 5) = m.run 3 := by
  intro m
  have htrap : (m.run 3).1 = .error (.invalidOpcode 2 127) := rfl
  obtain ⟨hgo, -⟩ := run_in_parts m (by decide : 0 < 2) 1
  obtain ⟨-, -, hstop, -⟩ := run_in_parts m (by decide : 0 < 3) 5
  exact ⟨rfl, rfl, htrap, (hgo 2 rfl rfl).2, hstop _ htrap⟩

end Machine

end Isa16
