import Isa16.Tool.Report
import Isa16.Assembly.Basic
import Isa16.Machine.Basic
import Isa16.Json
/-!
# Running a program

The tool that runs a program to its end, a trap or a number of instructions,
and shows the final state of the processor. A trap is reported and fails the
tool, but the state before it is shown all the same.
-/

namespace Isa16.Tool

/-! ## Sessions -/

/-- A machine that was followed for some steps. -/
structure Session where
  machine : Machine
  /-- The number of instructions that were carried out. -/
  steps : Nat
  /-- The traces of these instructions, if they are kept. -/
  traces : Array Trace
  trap? : Option Trap

namespace Session

/-- The session before the first step. -/
def start (m : Machine) : Session := ⟨m, 0, #[], none⟩

/-- Counts an instruction that was carried out. -/
def count (keep : Bool) (s : Session) (t : Trace) (m : Machine) : Session :=
  { s with machine := m, steps := s.steps + 1, traces := if keep then s.traces.push t else s.traces }

/-- Steps until the machine stops or `left` more instructions were carried out. -/
def follow (keep : Bool) (s : Session) : Nat → Session
  | 0 => s
  | left + 1 =>
    match s with
    | ⟨m, steps, traces, trap?⟩ =>
      match m.step with
      | (.retired t, m) => follow keep (count keep ⟨m, steps, traces, trap?⟩ t m) left
      | (.halted t, m) => count keep ⟨m, steps, traces, trap?⟩ t m
      | (.ended, m) => ⟨m, steps, traces, trap?⟩
      | (.trapped t, m) => ⟨m, steps, traces, some t⟩

end Session

/-! ## The tool -/

structure RunOptions where
  program : String
  /-- The program is a source. -/
  source : Bool := false
  data? : Option String := none
  maxSteps : Nat := 10000000
  trace : Bool := false
  format : Format := .text

namespace RunOptions

/-- The program to run; a source is assembled first. -/
def readProgram (o : RunOptions) (files : Files) : Except Failure Program := do
  let text ← readSource files o.program
  if o.source then
    match assemble text with
    | .ok a => return a.program
    | .error d => throw ⟨d.message, none⟩
  else return Program.ofListing text

def readData (o : RunOptions) (files : Files) : Except Failure DataMemory :=
  match o.data? with
  | none => .ok .empty
  | some path => do
    match DataMemory.ofImage (← readSource files path) with
    | .ok data => return data
    | .error e => throw ⟨e.message, none⟩

end RunOptions

def cpuText (steps : Nat) (cpu : Cpu) : String :=
  s!"steps: {steps}\npc: {Text.Hex.word cpu.pc}\n"
    ++ String.join (cpu.regs.toList.mapIdx fun r value => regText r ++ ": " ++ Text.Hex.word value ++ "\n")
    ++ s!"flags: {cpu.flags.report}\n"

def cpuJson (cpu : Cpu) : Json :=
  .object [("pc", .number cpu.pc.toNat), ("flags", .string cpu.flags.text),
    ("regs", .array (cpu.regs.toList.map fun value => .number value.toNat))]

/-- What the tool shows of a session. -/
def Session.report (format : Format) (s : Session) : Report :=
  let traces := String.join (s.traces.toList.map fun t => t.text ++ "\n")
  let state := match format with
    | .text => cpuText s.steps s.machine.cpu
    | .json => (cpuJson s.machine.cpu).render ++ "\n"
  let errors := match s.trap? with
    | none => ""
    | some t => s!"TRAP: {t.message}\n" ++ (Failure.mk t.message none).report
  { output := traces ++ state, errors, failed := s.trap?.isSome }

/-- Runs a program. -/
def run (o : RunOptions) (files : Files) : Report :=
  Report.ofExcept do
    let program ← o.readProgram files
    let data ← o.readData files
    let session := (Session.start (.fresh program data)).follow o.trace o.maxSteps
    return session.report o.format

end Isa16.Tool
