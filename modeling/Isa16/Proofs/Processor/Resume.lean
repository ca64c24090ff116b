import Isa16.Proofs.Machine.Run
/-!
# Refused accesses

A step that cannot be carried out leaves the processor as it was, and the
contents of the bus too if the bus does not change them when it refuses
(`step_eq_trapped_iff`). So a refusal is no more than a delay: what is seen of
a program on a bus that refuses some accesses, at whatever moments, is what is
seen of it on the contents alone, with the refused steps in between
(`kept_eq_steps`).
-/

namespace Isa16

/-! ## Buses and their contents -/

section Contents

variable {β γ : Type} [Bus β]

/-- A refused access leaves the contents of the bus as they were. The rest of the bus, such as
what it refuses next, may change. -/
structure Bus.KeepsRefused (contents : β → γ) : Prop where
  read : ∀ {bus bus' : β} {addr : UInt16} {reason : String},
    Bus.read bus addr = (.error reason, bus') → contents bus' = contents bus
  write : ∀ {bus bus' : β} {addr value : UInt16} {reason : String},
    Bus.write bus addr value = (.error reason, bus') → contents bus' = contents bus

/-- An access that is not refused is one to the contents. -/
structure Bus.ActsOn [Bus γ] (contents : β → γ) : Prop where
  read : ∀ {bus bus' : β} {addr value : UInt16},
    Bus.read bus addr = (.ok value, bus') → Bus.read (contents bus) addr = (.ok value, contents bus')
  write : ∀ {bus bus' : β} {addr value : UInt16},
    Bus.write bus addr value = (.ok (), bus') → Bus.write (contents bus) addr value = (.ok (), contents bus')

end Contents

theorem DataMemory.keepsRefused : Bus.KeepsRefused (id : DataMemory → DataMemory) := by
  constructor
  · intro bus bus' addr reason h
    cases h
  · intro bus bus' addr value reason h
    cases h

theorem GuardedMemory.keepsRefused : Bus.KeepsRefused GuardedMemory.memory := by
  constructor
  · intro bus bus' addr reason h
    simp only [Bus.read] at h
    split at h <;> cases h
    rfl
  · intro bus bus' addr value reason h
    simp only [Bus.write] at h
    split at h <;> cases h
    rfl

theorem GuardedMemory.actsOn : Bus.ActsOn GuardedMemory.memory := by
  constructor
  · intro bus bus' addr value h
    simp only [Bus.read] at h ⊢
    split at h <;> cases h
    rfl
  · intro bus bus' addr value h
    simp only [Bus.write] at h ⊢
    split at h <;> cases h
    rfl

/-! ## Steps that trap -/

theorem Fields.op_unpack (w : UInt16) : (unpack w).op.val = w.toNat / 512 := by
  have := w.toNat_lt
  simp only [unpack, truncate, Fin.val_ofNat]
  omega

theorem Instruction.ofWord?_eq_none_iff {w : UInt16} :
    ofWord? w = none ↔ ∀ op : Opcode, op.code ≠ (Fields.unpack w).op := by
  rw [ofWord?, Option.map_eq_none_iff, Option.eq_none_iff_forall_ne_some]
  simp only [ne_eq, Opcode.ofCode?_eq_some_iff]

namespace Cpu

/-- Why the next step traps, and the bus that it leaves. -/
inductive Blocked {β : Type} [Bus β] (cpu : Cpu) (program : Program) (bus : β) : Trap → β → Prop
  | invalidOpcode {word : UInt16} {code : Fin 128} (hf : program.fetch cpu.pc = some word)
      (hcode : code.val = word.toNat / 512) (hop : ∀ op : Opcode, op.code ≠ code) :
    Blocked cpu program bus (.invalidOpcode cpu.pc code) bus
  | load {i : Instruction} {reason : String} {bus' : β} (hf : program.fetch cpu.pc = some i.word)
      (hop : i.opcode = .ld) (hread : Bus.read bus (cpu.reg i.aa) = (.error reason, bus')) :
    Blocked cpu program bus (.bus (cpu.reg i.aa) reason) bus'
  | store {i : Instruction} {reason : String} {bus' : β} (hf : program.fetch cpu.pc = some i.word)
      (hop : i.opcode = .st) (hwrite : Bus.write bus (cpu.reg i.aa) (cpu.reg i.ba) = (.error reason, bus')) :
    Blocked cpu program bus (.bus (cpu.reg i.aa) reason) bus'

section Step

variable {β γ : Type} [Bus β] {cpu next : Cpu} {program : Program} {bus bus' : β} {i : Instruction} {t : Trap}

/-- Only a load or a store fails, at the bus and before anything is changed. -/
theorem execute_eq_error_iff : cpu.execute bus i = (.error t, next, bus') ↔
    next = cpu ∧ ∃ reason, t = .bus (cpu.reg i.aa) reason ∧
      (i.opcode = .ld ∧ Bus.read bus (cpu.reg i.aa) = (.error reason, bus') ∨
        i.opcode = .st ∧ Bus.write bus (cpu.reg i.aa) (cpu.reg i.ba) = (.error reason, bus')) := by
  obtain ⟨op, da, aa, ba⟩ := i
  cases op with
  | ld =>
    rcases hread : Bus.read bus (cpu.reg aa) with ⟨reason | value, after⟩
    · simp only [execute, effect, hread]
      constructor
      · rintro ⟨⟩
        exact ⟨rfl, reason, rfl, .inl ⟨trivial, rfl⟩⟩
      · rintro ⟨rfl, _, rfl, ⟨-, ⟨⟩⟩ | ⟨⟨⟩, -⟩⟩
        rfl
    · simp [execute, effect, hread]
  | st =>
    rcases hwrite : Bus.write bus (cpu.reg aa) (cpu.reg ba) with ⟨reason | value, after⟩
    · simp only [execute, effect, hwrite]
      constructor
      · rintro ⟨⟩
        exact ⟨rfl, reason, rfl, .inr ⟨trivial, rfl⟩⟩
      · rintro ⟨rfl, _, rfl, ⟨⟨⟩, -⟩ | ⟨-, ⟨⟩⟩⟩
        rfl
    · simp [execute, effect, hwrite]
  | _ => simp [execute, effect]

/-- A step traps exactly when it is blocked, and then leaves the processor as it was. -/
theorem step_eq_trapped_iff : cpu.step program bus = (.trapped t, next, bus') ↔
    next = cpu ∧ cpu.Blocked program bus t bus' := by
  constructor
  · intro h
    cases hf : program.fetch cpu.pc with
    | none => simp [step, hf] at h
    | some word =>
      cases hi : Instruction.ofWord? word with
      | none =>
        simp only [step, hf, hi] at h
        cases h
        have hcode := Instruction.ofWord?_eq_none_iff.1 hi
        exact ⟨rfl, .invalidOpcode hf (Fields.op_unpack word) hcode⟩
      | some i =>
        obtain rfl := Instruction.ofWord?_eq_some_iff.1 hi
        rcases he : cpu.execute bus i with ⟨trap | target, after, bus''⟩
        · simp only [step, hf, hi, he] at h
          cases h
          obtain ⟨rfl, reason, rfl, ⟨hop, hread⟩ | ⟨hop, hwrite⟩⟩ := execute_eq_error_iff.1 he
          · exact ⟨rfl, .load hf hop hread⟩
          · exact ⟨rfl, .store hf hop hwrite⟩
        · rw [step_of_execute hf he] at h
          cases h
  · rintro ⟨rfl, h⟩
    cases h with
    | @invalidOpcode word code hf hcode hop =>
      have hunpack : (Fields.unpack word).op = code := Fin.ext ((Fields.op_unpack word).trans hcode.symm)
      have hi : Instruction.ofWord? word = none := Instruction.ofWord?_eq_none_iff.2 (hunpack ▸ hop)
      simp only [step, hf, hi, hunpack]
    | load hf hop hread =>
      have he := execute_eq_error_iff.2 ⟨rfl, _, rfl, .inl ⟨hop, hread⟩⟩
      simp only [step, hf, Instruction.ofWord?_word, he]
    | store hf hop hwrite =>
      have he := execute_eq_error_iff.2 ⟨rfl, _, rfl, .inr ⟨hop, hwrite⟩⟩
      simp only [step, hf, Instruction.ofWord?_word, he]

/-- A bus that keeps its contents when it refuses has them after a trap. -/
theorem Blocked.contents_eq {contents : β → γ} (hkeeps : Bus.KeepsRefused contents)
    (h : cpu.Blocked program bus t bus') : contents bus' = contents bus := by
  cases h with
  | invalidOpcode => rfl
  | load _ _ hread => exact hkeeps.read hread
  | store _ _ hwrite => exact hkeeps.write hwrite

theorem execute_contents [Bus γ] {contents : β → γ} (hacts : Bus.ActsOn contents) {target : Option UInt16}
    (h : cpu.execute bus i = (.ok target, next, bus')) :
    cpu.execute (contents bus) i = (.ok target, next, contents bus') := by
  unfold execute at h ⊢
  cases heffect : cpu.effect i with
  | write value | branch target =>
    simp only [heffect] at h ⊢
    cases h
    rfl
  | load addr =>
    rcases hread : Bus.read bus addr with ⟨reason | value, after⟩
    · simp only [heffect, hread] at h
      cases h
    · simp only [heffect, hread, hacts.read hread] at h ⊢
      cases h
      rfl
  | store addr value =>
    rcases hwrite : Bus.write bus addr value with ⟨reason | _, after⟩
    · simp only [heffect, hwrite] at h
      cases h
    · simp only [heffect, hwrite, hacts.write hwrite] at h ⊢
      cases h
      rfl

end Step

end Cpu

/-! ## Runs with refusals -/

namespace Outcome

/-- Whether the bus refused an access of the step. -/
def refused : Outcome → Bool
  | .trapped (.bus _ _) => true
  | _ => false

end Outcome

namespace Cpu

variable {β γ : Type} [Bus β]

/-- What is seen of a number of steps: what came of each, and processor and bus after it. -/
def steps (program : Program) (cpu : Cpu) (bus : β) : Nat → List (Outcome × Cpu × β)
  | 0 => []
  | n + 1 =>
    match cpu.step program bus with
    | (outcome, cpu, bus) => (outcome, cpu, bus) :: steps program cpu bus n

/-- What is seen of steps before each of which something happens to the bus, with the contents of
the bus in its place. -/
def disturbedSteps (program : Program) (contents : β → γ) (cpu : Cpu) (bus : β) :
    List (β → β) → List (Outcome × Cpu × γ)
  | [] => []
  | change :: changes =>
    match cpu.step program (change bus) with
    | (outcome, cpu, bus) => (outcome, cpu, contents bus) :: disturbedSteps program contents cpu bus changes

section Step

variable {contents : β → γ} {cpu next : Cpu} {program : Program} {bus bus' : β} {outcome : Outcome}

/-- A step that the bus refused did nothing. -/
theorem step_of_refused (hkeeps : Bus.KeepsRefused contents) (h : cpu.step program bus = (outcome, next, bus'))
    (hrefused : outcome.refused = true) : next = cpu ∧ contents bus' = contents bus := by
  match outcome, hrefused with
  | .trapped (.bus _ _), _ =>
    obtain ⟨rfl, hblocked⟩ := step_eq_trapped_iff.1 h
    exact ⟨rfl, hblocked.contents_eq hkeeps⟩

/-- Any other step is the same on the contents. -/
theorem step_of_not_refused [Bus γ] (hacts : Bus.ActsOn contents)
    (h : cpu.step program bus = (outcome, next, bus')) (hrefused : outcome.refused = false) :
    cpu.step program (contents bus) = (outcome, next, contents bus') := by
  unfold step at h ⊢
  cases hf : program.fetch cpu.pc with
  | none =>
    simp only [hf] at h ⊢
    cases h
    rfl
  | some word =>
    cases hi : Instruction.ofWord? word with
    | none =>
      simp only [hf, hi] at h ⊢
      cases h
      rfl
    | some i =>
      rcases he : cpu.execute bus i with ⟨trap | target, after, bus''⟩
      · obtain ⟨-, _, rfl, -⟩ := execute_eq_error_iff.1 he
        simp only [hf, hi, he] at h
        cases h
        cases hrefused
      · simp only [hf, hi, he, execute_contents hacts he] at h ⊢
        cases h
        rfl

end Step

/-- Without the refused steps, what is seen is what is seen on the contents. -/
theorem kept_eq_steps [Bus γ] {contents : β → γ} (hkeeps : Bus.KeepsRefused contents)
    (hacts : Bus.ActsOn contents) (program : Program) {changes : List (β → β)}
    (hchanges : ∀ change ∈ changes, ∀ bus, contents (change bus) = contents bus) (cpu : Cpu) (bus : β) :
    ∃ n, (cpu.disturbedSteps program contents bus changes).filter (! ·.1.refused) =
      cpu.steps program (contents bus) n := by
  induction changes generalizing cpu bus with
  | nil => exact ⟨0, rfl⟩
  | cons change changes ih =>
    have hchange : contents (change bus) = contents bus := hchanges change (.head _) bus
    rcases hstep : cpu.step program (change bus) with ⟨outcome, next, bus'⟩
    obtain ⟨n, hn⟩ := ih (fun c hc => hchanges c (.tail _ hc)) next bus'
    rw [disturbedSteps, hstep]
    cases hrefused : outcome.refused with
    | true =>
      obtain ⟨rfl, hcontents⟩ := step_of_refused hkeeps hstep hrefused
      exact ⟨n, by simp [hrefused, hn, hcontents, hchange]⟩
    | false =>
      have hsame := step_of_not_refused hacts hstep hrefused
      rw [hchange] at hsame
      exact ⟨n + 1, by simp [hrefused, hn, steps, hsame]⟩

end Cpu

/-! ## Traps -/

/-- A machine that traps is halted, and nothing else about it changes. -/
theorem Machine.step_of_trapped {m : Machine} {t : Trap} (h : m.step.1 = .trapped t) :
    m.step.2 = ⟨m.cpu, m.program, m.data, .halted⟩ := by
  obtain ⟨cpu, program, data, state⟩ := m
  rcases hstep : cpu.step program data with ⟨outcome, next, data'⟩
  simp only [step, hstep] at h ⊢
  obtain rfl := report_eq_trapped_iff.1 h
  obtain ⟨rfl, hblocked⟩ := Cpu.step_eq_trapped_iff.1 hstep
  have hdata : data' = data := hblocked.contents_eq DataMemory.keepsRefused
  subst hdata
  rfl

/-- A trap is atomic, and the program goes on behind it: a step traps exactly when its word is no
instruction or the bus refuses its access, and then changes neither processor nor contents of the
bus; what is seen between refused steps is what is seen without them, on the contents alone; and a
machine that traps is only halted. -/
theorem traps_resumable {β γ : Type} [Bus β] {contents : β → γ} (hkeeps : Bus.KeepsRefused contents) :
    (∀ (cpu next : Cpu) (program : Program) (bus bus' : β) (t : Trap),
      (cpu.step program bus = (.trapped t, next, bus') ↔ next = cpu ∧ cpu.Blocked program bus t bus') ∧
        (cpu.step program bus = (.trapped t, next, bus') → next = cpu ∧ contents bus' = contents bus)) ∧
    (∀ [Bus γ], Bus.ActsOn contents → ∀ (cpu : Cpu) (program : Program) (bus : β) (changes : List (β → β)),
      (∀ change ∈ changes, ∀ bus, contents (change bus) = contents bus) →
        ∃ n, (cpu.disturbedSteps program contents bus changes).filter (! ·.1.refused) =
          cpu.steps program (contents bus) n) ∧
    ∀ (m : Machine) (t : Trap), m.step.1 = .trapped t → m.step.2 = ⟨m.cpu, m.program, m.data, .halted⟩ := by
  refine ⟨fun cpu next program bus bus' t => ⟨Cpu.step_eq_trapped_iff, fun h => ?_⟩, ?_, ?_⟩
  · obtain ⟨hcpu, hblocked⟩ := Cpu.step_eq_trapped_iff.1 h
    exact ⟨hcpu, hblocked.contents_eq hkeeps⟩
  · intro _ hacts cpu program bus changes hchanges
    exact Cpu.kept_eq_steps hkeeps hacts program hchanges cpu bus
  · intro m t
    exact Machine.step_of_trapped

/-- A store that is refused once and then carried out. -/
theorem resumed_store :
    let cpu : Cpu := ⟨0, .empty, #v[0, 5, 7, 0, 0, 0, 0, 0]⟩
    let program : Program := ⟨#[0x400A], by decide⟩
    let seen := cpu.disturbedSteps program GuardedMemory.memory ⟨.empty, fun _ => false⟩
      [fun g => { g with refuses := fun _ => true }, fun g => { g with refuses := fun _ => false }]
    seen.map (·.1.refused) = [true, false] ∧ ∃ n, seen.filter (! ·.1.refused) = cpu.steps program .empty n := by
  intro cpu program seen
  have hchanges : ∀ change ∈ [fun g : GuardedMemory => { g with refuses := fun _ => true },
      fun g => { g with refuses := fun _ => false }], ∀ g, (change g).memory = g.memory := by
    simp
  exact ⟨by decide +kernel,
    (traps_resumable GuardedMemory.keepsRefused).2.1 GuardedMemory.actsOn cpu program _ _ hchanges⟩

end Isa16
