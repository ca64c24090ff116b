import Isa16.Machine.Trace
import Isa16.Processor.Step
/-!
# The machine

A processor with its program and its data memory. The machine reports each
instruction as a `Trace` and remembers how its last step ended; it does not
refuse to step again after that.
-/

namespace Isa16

inductive RunState
  /-- No step since the start, or since the last reset or load. -/
  | idle
  | running
  | halted
deriving DecidableEq

/-- What came of a step of the machine. -/
inductive Step
  /-- The program counter was past the program, and nothing was done. -/
  | ended
  /-- An instruction was carried out, and there may be a next one. -/
  | retired (t : Trace)
  /-- An instruction was carried out and halted the machine. -/
  | halted (t : Trace)
  | trapped (t : Trap)
deriving DecidableEq

namespace Step

def continues : Step → Bool
  | .retired _ => true
  | _ => false

def trace? : Step → Option Trace
  | .retired t | .halted t => some t
  | .ended | .trapped _ => none

/-- The state of a machine after the step. -/
def state : Step → RunState
  | .retired _ => .running
  | _ => .halted

end Step

structure Machine where
  cpu : Cpu
  program : Program
  data : DataMemory
  state : RunState

namespace Machine

/-- A machine that has not made a step. -/
def fresh (program : Program) (data : DataMemory) : Machine := ⟨.zero, program, data, .idle⟩

/-- Zeroes the processor; program and data memory stay. -/
def reset (m : Machine) : Machine := { m with cpu := .zero, state := .idle }

def load (m : Machine) (program : Program) : Machine := { m with program }.reset

/-- The report of a step that left the processor as `cpu`. -/
def report (cpu : Cpu) : Outcome → Step
  | .ended => .ended
  | .trapped t => .trapped t
  | .retired r =>
    let t : Trace := ⟨r.pc, r.instruction, cpu.regs, cpu.flags, cpu.pc⟩
    if r.halted then .halted t else .retired t

def step (m : Machine) : Step × Machine :=
  match m with
  | ⟨cpu, program, data, _⟩ =>
    let (outcome, cpu, data) := cpu.step program data
    let step := report cpu outcome
    (step, ⟨cpu, program, data, step.state⟩)

/-- Steps until the machine stops or `limit` instructions were carried out. The answer is their
number, or the trap that stopped the machine. -/
def run (m : Machine) (limit : Nat) : Except Trap Nat × Machine := go m 0 limit
where
  /-- The run with `count` instructions behind it and at most `left` to come. -/
  go (m : Machine) (count : Nat) : Nat → Except Trap Nat × Machine
    | 0 => (.ok count, m)
    | left + 1 =>
      match m.step with
      | (.retired _, m) => go m (count + 1) left
      | (.halted _, m) => (.ok (count + 1), m)
      | (.ended, m) => (.ok count, m)
      | (.trapped t, m) => (.error t, m)

end Machine

end Isa16
