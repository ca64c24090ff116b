import Isa16.Tool.Run
import Isa16.Proofs.Machine.Split
import Isa16.Proofs.Disassembly
/-!
# Followed runs

The tool steps a machine by itself, as it wants the trace of each step and the
number of instructions even where a trap ends the run. It comes to what a run of
the machine comes to (`exists_follow`), and its session accounts for that run:
the instructions, their traces, and the trap (`accounts_follow`). What the tool
shows is one line for each trace, and then the same as without traces
(`shows_follow`).
-/

namespace Isa16

/-! ## Traces -/

namespace Trace

open Assembly (OneLine oneLine_digits oneLine_fixed oneLine_spaces)

theorem oneLine_column (i : Instruction) : OneLine i.column := by
  intro c hc
  rw [Assembly.toList_column] at hc
  constructor <;> rintro rfl <;> exact Assembly.notMem_printed Assembly.isToken_of_mem_tokensOf (by simp) hc

theorem oneLine_flagColumns (f : Flags) : OneLine (flagColumns f) := by
  obtain ⟨v, c, n, z⟩ := f
  revert v c n z
  decide

theorem oneLine_regColumns (regs : Vector UInt16 8) : OneLine (regColumns regs) := by
  intro c hc
  rw [regColumns, String.toList_join, List.mem_flatMap] at hc
  obtain ⟨column, hcolumn, hc⟩ := hc
  obtain ⟨r, hr, rfl⟩ := List.mem_mapIdx.1 hcolumn
  have hreg : OneLine (regText r) := .append (by decide) (oneLine_digits r)
  exact (((OneLine.append (by decide) hreg).append (by decide)).append (oneLine_fixed 4 _)) c hc

/-- A trace is shown on one line. -/
theorem oneLine_text (t : Trace) : OneLine t.text := by
  have htext : t.text = Text.Hex.word t.pc ++ ": " ++ Text.Hex.word t.instruction.word ++ " " ++ t.instruction.column ++
      Text.spaces (8 - (",".intercalate t.instruction.operands).length) ++ regColumns t.regs ++ " " ++
      flagColumns t.flags := by
    simp only [text, Instruction.column, Text.padEnd, String.append_assoc]
  have hwords : OneLine (Text.Hex.word t.pc ++ ": " ++ Text.Hex.word t.instruction.word) :=
    ((oneLine_fixed 4 _).append (by decide)).append (oneLine_fixed 4 _)
  have hcolumn : OneLine
      (Text.Hex.word t.pc ++ ": " ++ Text.Hex.word t.instruction.word ++ " " ++ t.instruction.column) :=
    (hwords.append (by decide)).append (oneLine_column t.instruction)
  rw [htext]
  exact (((hcolumn.append (oneLine_spaces _)).append (oneLine_regColumns t.regs)).append (by decide)).append
    (oneLine_flagColumns t.flags)

end Trace

namespace Machine

variable {m : Machine}

/-- The traces of the first `n` steps. -/
def traces (m : Machine) (n : Nat) : List Trace := (List.range n).filterMap fun j => (m.stepAt j).trace?

theorem traces_succ (m : Machine) (n : Nat) : m.traces (n + 1) = m.step.1.trace?.toList ++ m.step.2.traces n := by
  rw [traces, List.range_succ_eq_map, List.filterMap_cons, List.filterMap_map]
  cases h : m.step.1.trace? <;> simp [stepAt, after, h, traces, Function.comp_def]

theorem traces_concat (m : Machine) (n : Nat) : m.traces (n + 1) = m.traces n ++ (m.stepAt n).trace?.toList := by
  rw [traces, traces, List.range_succ, List.filterMap_append]
  cases h : (m.stepAt n).trace? <;> simp [h]

theorem traces_of_executed {n : Nat} (h : ∀ j < n, ∃ t, (m.stepAt j).trace? = some t) :
    (m.traces n).length = n ∧ ∀ j < n, (m.traces n)[j]? = (m.stepAt j).trace? := by
  induction n generalizing m with
  | zero => exact ⟨rfl, fun j hj => absurd hj (Nat.not_lt_zero j)⟩
  | succ n ih =>
    obtain ⟨t, ht⟩ := h 0 (Nat.succ_pos n)
    obtain ⟨hlength, hget⟩ := ih (m := m.step.2) fun j hj => h (j + 1) (Nat.succ_lt_succ hj)
    have hfirst : m.step.1.trace? = some t := ht
    rw [traces_succ, hfirst]
    refine ⟨congrArg (· + 1) hlength, fun j hj => ?_⟩
    cases j with
    | zero => exact ht.symm
    | succ j => exact hget j (Nat.lt_of_succ_lt_succ hj)

theorem nextPc_of_trace {t : Trace} (h : m.step.1.trace? = some t) : t.nextPc = m.step.2.cpu.pc := by
  obtain ⟨r, -, rfl⟩ := retired_of_trace h
  rfl

/-- A trace goes on where the one before it ended. -/
theorem pc_of_next {j : Nat} {t u : Trace} (ht : (m.stepAt j).trace? = some t)
    (hu : (m.stepAt (j + 1)).trace? = some u) : u.pc = t.nextPc := by
  rw [nextPc_of_trace ht, ← after_succ]
  exact (pc_of_trace hu).1

/-- How a run ends for one who counts its instructions: with their number, or at a trap behind them. -/
inductive Ends (m : Machine) (limit : Nat) : Nat → Option Trap → Prop
  | answered {n : Nat} (h : (m.run limit).1 = .ok n) : Ends m limit n none
  | trapped {n : Nat} {t : Trap} (hn : n < limit) (hgo : m.GoesOn n) (h : m.stepAt n = .trapped t) :
    Ends m limit n (some t)

namespace Ends

variable {limit n : Nat} {trap? : Option Trap}

theorem executed (h : m.Ends limit n trap?) : ∀ j < n, ∃ t, (m.stepAt j).trace? = some t := by
  cases h with
  | answered h => exact (executed_of_run h).trace
  | trapped hn hgo h => exact fun j hj => Step.trace_of_continues (hgo j hj)

theorem answer_eq (h : m.Ends limit n trap?) : (m.run limit).1 = trap?.elim (.ok n) .error := by
  cases h with
  | answered h => exact h
  | trapped hn hgo h => rw [run_of_stop hgo (by rw [h]; rfl) hn, h]; rfl

end Ends

end Machine

namespace Tool.Session

open Isa16.Machine

variable {m : Machine}

/-- The traces that a session keeps of the first `n` steps. -/
def kept (keep : Bool) (m : Machine) (n : Nat) : Array Trace := if keep then (m.traces n).toArray else #[]

theorem kept_succ (keep : Bool) (m : Machine) (n : Nat) : kept keep m (n + 1) =
    (if keep then m.step.1.trace?.toList.toArray else #[]) ++ kept keep m.step.2 n := by
  cases keep with
  | false => rfl
  | true => simp [kept, traces_succ]

/-- Steps that let the machine go on are counted, and so are their traces. -/
theorem follow_of_goesOn {a : Nat} (h : m.GoesOn a) (keep : Bool) (steps : Nat) (traces : Array Trace) (b : Nat) :
    follow keep ⟨m, steps, traces, none⟩ (a + b) =
      follow keep ⟨m.after a, steps + a, traces ++ kept keep m a, none⟩ b := by
  induction a generalizing m steps traces with
  | zero => simp [kept, Machine.traces, after]
  | succ a ih =>
    obtain ⟨t, ht⟩ := Step.retired_of_continues (h 0 (Nat.succ_pos a))
    have hstep : m.step = (.retired t, m.step.2) := Prod.ext ht rfl
    have hcount : traces ++ kept keep m (a + 1) =
        (if keep then traces.push t else traces) ++ kept keep m.step.2 a := by
      rw [kept_succ, hstep]
      cases keep <;> simp [Step.trace?]
    have hfirst : follow keep ⟨m, steps, traces, none⟩ (a + b + 1) =
        follow keep ⟨m.step.2, steps + 1, if keep then traces.push t else traces, none⟩ (a + b) := by
      rw [follow, hstep]
      rfl
    rw [Nat.add_right_comm, hfirst, ih h.tail, hcount, after, Nat.add_assoc steps, Nat.add_comm 1]

/-- A session comes to what a run comes to, and also counts what a trap cuts off. -/
theorem exists_follow (m : Machine) (limit : Nat) : ∃ steps trap?, m.Ends limit steps trap? ∧
    ∀ keep, (start m).follow keep limit = ⟨(m.run limit).2, steps, kept keep m steps, trap?⟩ := by
  obtain hgo | ⟨n, hn, hgo, hstop⟩ := m.goesOn_or_stops limit
  · have hrun := run_eq_limit hgo
    refine ⟨limit, none, .answered (by rw [hrun]), fun keep => ?_⟩
    have hfollow : (start m).follow keep limit = _ := follow_of_goesOn hgo keep 0 #[] 0
    rw [hfollow, hrun, Nat.zero_add, Array.empty_append, follow]
  · have hrun := run_of_stop hgo hstop hn
    obtain ⟨rest, rfl⟩ := Nat.exists_eq_add_of_lt hn
    have hstep : (m.after n).step = (m.stepAt n, m.after (n + 1)) := Prod.ext rfl (m.after_succ n).symm
    have hfollow (keep : Bool) : (start m).follow keep (n + rest + 1) =
        follow keep ⟨m.after n, n, kept keep m n, none⟩ (rest + 1) := by
      rw [start, Nat.add_assoc, follow_of_goesOn hgo, Nat.zero_add, Array.empty_append]
    rw [hrun]
    cases hs : m.stepAt n with
    | retired t =>
      rw [hs] at hstop
      cases hstop
    | ended =>
      refine ⟨n, none, .answered (by rw [hrun, hs]; rfl), fun keep => ?_⟩
      rw [hfollow, follow, hstep, hs]
    | trapped t =>
      refine ⟨n, some t, .trapped hn hgo hs, fun keep => ?_⟩
      rw [hfollow, follow, hstep, hs]
    | halted t =>
      refine ⟨n + 1, none, .answered (by rw [hrun, hs]; rfl), fun keep => ?_⟩
      rw [hfollow, follow, hstep, hs]
      cases keep <;> simp [count, kept, traces_concat, hs, Step.trace?]

/-! ## What a session accounts for -/

/-- A session that followed machine `m` accounts for the run to `limit`. -/
structure Accounts (s : Session) (m : Machine) (limit : Nat) (keep : Bool) : Prop where
  machine_eq : s.machine = (m.run limit).2
  steps_of_ok : ∀ n, (m.run limit).1 = .ok n → s.steps = n
  size_traces : s.traces.size = if keep then s.steps else 0
  trace_eq : keep = true → ∀ j < s.steps, s.traces[j]? = (m.stepAt j).trace?
  /-- Each trace goes on where the one before it ended. -/
  pc_eq : ∀ (j : Nat) (t u : Trace), s.traces[j]? = some t → s.traces[j + 1]? = some u → u.pc = t.nextPc
  trap_iff : ∀ t, s.trap? = some t ↔ (m.run limit).1 = .error t
  /-- A trap comes after the instructions that were counted, and within the limit. -/
  steps_of_trap : ∀ t, s.trap? = some t → s.steps < limit ∧ (m.run s.steps).1 = .ok s.steps ∧
    (m.run (s.steps + 1)).1 = .error t

theorem accounts_follow (m : Machine) (limit : Nat) (keep : Bool) :
    ((start m).follow keep limit).Accounts m limit keep := by
  obtain ⟨steps, trap?, hends, hfollow⟩ := exists_follow m limit
  obtain ⟨hlength, htraces⟩ := traces_of_executed hends.executed
  have hanswer := hends.answer_eq
  have hkept (j : Nat) (t : Trace) (ht : (kept keep m steps)[j]? = some t) : (m.stepAt j).trace? = some t := by
    cases keep with
    | false => simp [kept] at ht
    | true =>
      have hget : (m.traces steps)[j]? = some t := by simpa [kept] using ht
      obtain ⟨hj, -⟩ := List.getElem?_eq_some_iff.1 hget
      rw [← htraces j (hlength ▸ hj), hget]
  rw [hfollow]
  refine ⟨rfl, fun n hn => ?_, ?_, ?_, fun j t u ht hu => pc_of_next (hkept j t ht) (hkept (j + 1) u hu), fun t => ?_,
    fun t ht => ?_⟩
  · rw [hn] at hanswer
    cases trap? with
    | none => exact (Except.ok.inj hanswer).symm
    | some t => cases hanswer
  · cases keep <;> simp [kept, hlength]
  · rintro rfl j hj
    simpa [kept] using htraces j hj
  · rw [hanswer]
    cases trap? <;> simp
  · cases hends with
    | answered h => cases ht
    | trapped hn hgo h =>
      obtain rfl := Option.some.inj ht
      have hstop := run_of_stop hgo (by rw [h]; rfl) (Nat.lt_succ_self steps)
      exact ⟨hn, by rw [run_eq_limit hgo], by rw [hstop, h]; rfl⟩

/-! ## What the tool shows -/

theorem lines_traces (traces : List Trace) (rest : List Char) :
    Text.lines ((String.join (traces.map fun t => t.text ++ "\n")).toList ++ rest) =
      traces.map (·.text.toList) ++ Text.lines rest := by
  induction traces with
  | nil => simp
  | cons t traces ih =>
    have hline : '\n' ∉ t.text.toList := fun h => (t.oneLine_text _ h).1 rfl
    have htext : (String.join ((t :: traces).map fun t => t.text ++ "\n")).toList ++ rest =
        t.text.toList ++ '\n' :: ((String.join (traces.map fun t => t.text ++ "\n")).toList ++ rest) := by
      simp [String.toList_join]
    rw [htext, Text.lines_append_newline, List.splitOn_eq_singleton hline, ih]
    rfl

/-- The number of instructions is the first line of a final state. -/
theorem lines_cpuText (steps : Nat) (cpu : Cpu) : ∃ rest,
    Text.lines (cpuText steps cpu).toList = ("steps: " ++ toString steps).toList :: rest := by
  let rest := "pc: " ++ Text.Hex.word cpu.pc ++ "\n"
    ++ String.join (cpu.regs.toList.mapIdx fun r value => regText r ++ ": " ++ Text.Hex.word value ++ "\n")
    ++ "flags: " ++ cpu.flags.report ++ "\n"
  have htext : (cpuText steps cpu).toList = ("steps: " ++ toString steps).toList ++ '\n' :: rest.toList := by
    have hself (s : String) : toString s = s := rfl
    simp [cpuText, rest, hself]
  have hline : Assembly.OneLine ("steps: " ++ toString steps) := .append (by decide) (Assembly.oneLine_digits steps)
  rw [htext, Text.lines_append_newline, List.splitOn_eq_singleton fun h => (hline _ h).1 rfl]
  exact ⟨_, rfl⟩

/-- What the tool shows of a session that followed machine `m` to `limit`. -/
structure Shows (s : Session) (m : Machine) (limit : Nat) (format : Format) : Prop where
  /-- A line for each trace, and behind them what is shown without traces. -/
  lines_eq : Text.lines (s.report format).output.toList =
    s.traces.toList.map (·.text.toList) ++ Text.lines ({ s with traces := #[] }.report format).output.toList
  steps_shown : format = .text → ∃ rest, Text.lines ({ s with traces := #[] }.report format).output.toList =
    ("steps: " ++ toString s.steps).toList :: rest
  errors_eq : (s.report format).errors = match (m.run limit).1 with
    | .ok _ => ""
    | .error t => "TRAP: " ++ t.message ++ "\n" ++ "Error: " ++ t.message ++ "\n"
  failed_iff : (s.report format).failed = true ↔ ∃ t, (m.run limit).1 = .error t

theorem shows_follow (m : Machine) (limit : Nat) (keep : Bool) (format : Format) :
    ((start m).follow keep limit).Shows m limit format := by
  have haccounts := accounts_follow m limit keep
  generalize (start m).follow keep limit = s at haccounts
  have htrap : s.trap? = none ∧ (∃ n, (m.run limit).1 = .ok n) ∨
      ∃ t, s.trap? = some t ∧ (m.run limit).1 = .error t := by
    cases hanswer : (m.run limit).1 with
    | ok n =>
      refine .inl ⟨Option.eq_none_iff_forall_ne_some.2 fun t ht => ?_, n, rfl⟩
      rw [(haccounts.trap_iff t).1 ht] at hanswer
      cases hanswer
    | error t => exact .inr ⟨t, (haccounts.trap_iff t).2 hanswer, rfl⟩
  refine ⟨?_, ?_, ?_, ?_⟩
  · simp only [report, String.toList_append]
    rw [lines_traces]
    rfl
  · rintro rfl
    exact lines_cpuText s.steps s.machine.cpu
  · obtain ⟨hnone, n, hok⟩ | ⟨t, hsome, herror⟩ := htrap
    · simp only [report, hnone, hok]
    · have herrors : (s.report format).errors = s!"TRAP: {t.message}\n" ++ (Failure.mk t.message none).report := by
        simp only [report, hsome]
      rw [herrors, herror, Failure.report, ← String.append_assoc, ← String.append_assoc]
      rfl
  · obtain ⟨hnone, n, hok⟩ | ⟨t, hsome, herror⟩ := htrap
    · simp [report, hnone, hok]
    · simp [report, hsome, herror]

/-- The tool follows a machine as the machine runs. Whatever program and data it starts with, the
session comes to the machine of the run and accounts for its answer, for the traces of its
instructions and for its trap, and the tool shows just that. -/
theorem follows_run (program : Program) (data : DataMemory) (limit : Nat) :
    let m := fresh program data
    let session keep := (start m).follow keep limit
    (∀ keep, (session keep).Accounts m limit keep) ∧ (∀ keep format, (session keep).Shows m limit format) ∧
      session false = { session true with traces := #[] } ∧
      ∀ (o : RunOptions) (files : Files), o.readProgram files = .ok program → o.readData files = .ok data →
        o.maxSteps = limit → Tool.run o files = (session o.trace).report o.format := by
  intro m session
  refine ⟨accounts_follow m limit, shows_follow m limit, ?_, fun o files hprogram hdata hlimit => ?_⟩
  · obtain ⟨steps, trap?, -, hfollow⟩ := exists_follow m limit
    have hwithout : session false = _ := hfollow false
    have hwith : session true = _ := hfollow true
    rw [hwithout, hwith]
    rfl
  · subst hlimit
    simp only [Tool.run, hprogram, hdata, bind, Except.bind]
    rfl

/-- A program of an increment and a word that is no instruction, followed with its traces. -/
theorem follows_run_of_trap :
    let o : RunOptions := { program := "a.hex", maxSteps := 5, trace := true }
    let files : Files := fun _ => .ok "0200\nFFFF"
    let m := fresh (.ofListing "0200\nFFFF") .empty
    o.readProgram files = .ok m.program ∧ (m.run 5).1 = .error (.invalidOpcode 1 127) ∧
      Tool.run o files = ((start m).follow true 5).report .text ∧ ((start m).follow true 5).Accounts m 5 true ∧
      ((start m).follow true 5).steps = 1 := by
  intro o files m
  obtain ⟨haccounts, -, -, hrun⟩ := follows_run (.ofListing "0200\nFFFF") .empty 5
  exact ⟨rfl, by decide +kernel, hrun o files rfl rfl rfl, haccounts true, by decide +kernel⟩

end Tool.Session

end Isa16
