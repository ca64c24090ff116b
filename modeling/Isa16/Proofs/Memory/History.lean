import Isa16.Proofs.Memory.Image
import Isa16.Proofs.Machine.Run
/-!
# The history of a memory

Words stored one by one or on the bus, bytes edited in place, clearing, images
that load or fail halfway, and the steps of any machine that has the memory all
come down to a list of `MemoryEvent`s. What a byte holds is read off that list
alone: the last value it was given (`lastValue`). Each action accounts for the
change it makes (`Accounts`), so any sequence of them does
(`accounts_history`), and a word is at every moment the two bytes that history
left there (`followsHistory`).
-/

namespace Isa16

/-! ## Events -/

inductive MemoryEvent
  /-- Every byte became zero. -/
  | cleared
  | wrote (index : Nat) (value : UInt8)
deriving DecidableEq

namespace MemoryEvent

/-- What the event put at an index, if it did. -/
def valueAt? (index : Nat) : MemoryEvent → Option UInt8
  | .cleared => some 0
  | .wrote written value => if written = index then some value else none

/-- A word is written as two bytes, the high one first. -/
def ofWord (addr value : UInt16) : List MemoryEvent :=
  [.wrote (2 * addr.toNat) (UInt8.ofNat (value.toNat / 256)),
    .wrote (2 * addr.toNat + 1) (UInt8.ofNat (value.toNat % 256))]

/-- What a byte holds after the events: the last value that one of them put there, or else what it
held before them. -/
def lastValue (events : List MemoryEvent) (index : Nat) (start : UInt8) : UInt8 :=
  (events.reverse.findSome? (valueAt? index)).getD start

theorem lastValue_append (first second : List MemoryEvent) (index : Nat) (start : UInt8) :
    lastValue (first ++ second) index start = lastValue second index (lastValue first index start) := by
  simp only [lastValue, List.reverse_append, List.findSome?_append]
  cases second.reverse.findSome? (valueAt? index) <;> rfl

/-- A byte stored after an image was loaded is the one that counts. -/
example : lastValue (.wrote 3 9 :: .cleared :: ofWord 1 0x1234 ++ [.wrote 3 7]) 3 1 = 7 := by decide

/-- The events account for what became of a memory: each of them is in range, and what a byte holds
is what they and its old value say. -/
structure Accounts (events : List MemoryEvent) (before after : DataMemory) : Prop where
  index_lt : ∀ {index : Nat} {value : UInt8}, .wrote index value ∈ events → index < 131072
  byte_eq : ∀ (index : Nat) (h : index < 131072), after.bytes[index] = lastValue events index before.bytes[index]

namespace Accounts

theorem nil (m : DataMemory) : Accounts [] m m := ⟨nofun, fun _ _ => rfl⟩

theorem append {first second : List MemoryEvent} {m m' m'' : DataMemory} (h₁ : Accounts first m m')
    (h₂ : Accounts second m' m'') : Accounts (first ++ second) m m'' where
  index_lt h := (List.mem_append.1 h).elim h₁.index_lt h₂.index_lt
  byte_eq index h := by rw [lastValue_append, h₂.byte_eq index h, h₁.byte_eq index h]

theorem clear (m : DataMemory) : Accounts [.cleared] m m.clear where
  index_lt h := by simp at h
  byte_eq index h := by simp [DataMemory.clear, lastValue, valueAt?]

theorem setByte (m : DataMemory) (index : Fin 131072) (value : UInt8) :
    Accounts [.wrote index value] m (m.setByte index value) where
  index_lt h := by
    obtain ⟨rfl, -⟩ : _ = index.val ∧ _ := by simpa using h
    exact index.isLt
  byte_eq i h := by
    by_cases hi : index.val = i <;> simp [DataMemory.setByte, lastValue, valueAt?, hi]

theorem setWord (m : DataMemory) (addr value : UInt16) : Accounts (ofWord addr value) m (m.setWord addr value) where
  index_lt h := by
    have := addr.toNat_lt
    simp only [ofWord, List.mem_cons, MemoryEvent.wrote.injEq, List.not_mem_nil, or_false] at h
    omega
  byte_eq i h := by
    have hlow : UInt8.ofNat (value.toNat % 256) = UInt8.ofNat value.toNat := by
      apply UInt8.toNat_inj.1
      simp
    rw [DataMemory.bytes_setWord]
    simp only [ofWord, lastValue, List.reverse_cons, List.reverse_nil, List.nil_append, List.cons_append,
      List.findSome?_cons, List.findSome?_nil, valueAt?, hlow]
    grind

theorem setWords (m : DataMemory) (words : List (UInt16 × UInt16)) :
    Accounts (words.flatMap fun (addr, value) => ofWord addr value) m (m.setWords words) := by
  induction words generalizing m with
  | nil => exact nil m
  | cons word words ih => exact (setWord m word.1 word.2).append (ih _)

end Accounts

end MemoryEvent

open MemoryEvent (Accounts lastValue ofWord)

/-! ## Actions -/

/-- What can happen to the memory of a machine. -/
inductive MemoryAction
  | setWord (addr value : UInt16)
  /-- A store on the bus. -/
  | busWrite (addr value : UInt16)
  | setByte (index : Fin 131072) (value : UInt8)
  | clear
  /-- An image is loaded, up to its end or its first fault. -/
  | loadImage (text : String)
  | step
  /-- The memory goes on in a machine with this processor and program. -/
  | handOver (cpu : Cpu) (program : Program) (state : RunState)

namespace Machine

/-- The instruction that the next step carries out. -/
def next? (m : Machine) : Option Instruction := (m.program.fetch m.cpu.pc).bind Instruction.ofWord?

theorem fetch_of_next? {m : Machine} {i : Instruction} (h : m.next? = some i) :
    m.program.fetch m.cpu.pc = some i.word := by
  obtain ⟨word, hf, hi⟩ := Option.bind_eq_some_iff.1 h
  rw [hf, Instruction.ofWord?_eq_some_iff.1 hi]

/-- Without an instruction a step leaves the memory alone. -/
theorem data_step_of_none {m : Machine} (h : m.next? = none) : m.step.2.data = m.data := by
  obtain ⟨cpu, program, data, state⟩ := m
  cases hf : program.fetch cpu.pc with
  | none => simp only [step, Cpu.step, hf]
  | some word =>
    have hi : Instruction.ofWord? word = none := by simpa only [next?, hf, Option.bind_some] using h
    simp only [step, Cpu.step, hf, hi]

/-- Only a store reaches the memory. -/
theorem data_step_of_some {m : Machine} {i : Instruction} (h : m.next? = some i) :
    m.step.2.data = if i.opcode = .st then m.data.setWord (m.cpu.reg i.aa) (m.cpu.reg i.ba) else m.data := by
  have hstep := step_performs (fetch_of_next? h)
  obtain ⟨op, da, aa, ba⟩ := i
  cases op <;> exact hstep.data_eq

/-- A load leaves in its register the word that the memory holds at that moment. -/
theorem reg_step_of_ld {m : Machine} {i : Instruction} (h : m.next? = some i) (hop : i.opcode = .ld) (r : Reg) :
    m.step.2.cpu.reg r = if r = i.da then m.data.word (m.cpu.reg i.aa) else m.cpu.reg r := by
  have hstep := step_performs (fetch_of_next? h)
  simp only [Cpu.effect, hop] at hstep
  exact Cpu.reg_of_setReg hstep.regs_eq r

def perform (m : Machine) : MemoryAction → Machine
  | .setWord addr value => { m with data := m.data.setWord addr value }
  | .busWrite addr value => { m with data := (Bus.write m.data addr value).2 }
  | .setByte index value => { m with data := m.data.setByte index value }
  | .clear => { m with data := m.data.clear }
  | .loadImage text => { m with data := (m.data.loadImage text).1 }
  | .step => m.step.2
  | .handOver cpu program state => { m with cpu, program, state }

def performAll (m : Machine) (actions : List MemoryAction) : Machine := actions.foldl perform m

/-- What an action does to the memory, read off the action and the machine before it. -/
def events (m : Machine) : MemoryAction → List MemoryEvent
  | .setWord addr value | .busWrite addr value => ofWord addr value
  | .setByte index value => [.wrote index value]
  | .clear => [.cleared]
  | .loadImage text =>
    .cleared :: (ImageLine.stores 0 ((Text.lines text.toList).map ImageLine.read)).flatMap fun (addr, value) =>
      ofWord addr value
  | .step =>
    match m.next? with
    | some i => if i.opcode = .st then ofWord (m.cpu.reg i.aa) (m.cpu.reg i.ba) else []
    | none => []
  | .handOver .. => []

/-- What a sequence of actions does to the memory. -/
def history (m : Machine) : List MemoryAction → List MemoryEvent
  | [] => []
  | action :: rest => m.events action ++ (m.perform action).history rest

theorem accounts_step (m : Machine) : Accounts (m.events .step) m.data m.step.2.data := by
  rw [events]
  cases h : m.next? with
  | none => exact data_step_of_none h ▸ .nil m.data
  | some i =>
    rw [data_step_of_some h]
    by_cases hop : i.opcode = .st
    · simp only [hop, if_true]
      exact .setWord ..
    · simp only [hop, if_false]
      exact .nil m.data

theorem accounts_perform (m : Machine) (action : MemoryAction) :
    Accounts (m.events action) m.data (m.perform action).data := by
  cases action with
  | setWord addr value => exact .setWord ..
  | busWrite addr value => exact .setWord ..
  | setByte index value => exact .setByte ..
  | clear => exact .clear m.data
  | loadImage text =>
    rw [perform, DataMemory.loadImage_eq_stores, ← m.data.clear_eq_empty]
    exact (Accounts.clear m.data).append (.setWords ..)
  | step => exact m.accounts_step
  | handOver cpu program state => exact .nil m.data

/-- The history accounts for what any sequence of actions made of the memory. -/
theorem accounts_history (m : Machine) (actions : List MemoryAction) :
    Accounts (m.history actions) m.data (m.performAll actions).data := by
  induction actions generalizing m with
  | nil => exact .nil m.data
  | cons action rest ih => exact (m.accounts_perform action).append (ih _)

/-! ## Bytes and words -/

/-- The memory of a machine is what events made of an older one: bytes, words, loads and stores
all see that and nothing else. -/
structure FollowsHistory (m : Machine) (start : DataMemory) (events : List MemoryEvent) : Prop where
  size_eq : m.data.bytes.toArray.size = 131072
  index_lt : ∀ {index : Nat} {value : UInt8}, .wrote index value ∈ events → index < 131072
  byte_eq : ∀ (index : Nat) (h : index < 131072), m.data.bytes[index] = lastValue events index start.bytes[index]
  word_eq : ∀ addr : UInt16, ∃ high low : UInt8, m.data.bytes[2 * addr.toNat]? = some high ∧
    m.data.bytes[2 * addr.toNat + 1]? = some low ∧ (m.data.word addr).toNat = 256 * high.toNat + low.toNat
  read_eq : ∀ addr : UInt16, Bus.read m.data addr = (.ok (m.data.word addr), m.data)
  write_eq : ∀ addr value : UInt16, Bus.write m.data addr value = (.ok (), m.data.setWord addr value)
  bytes_setWord : ∀ (addr value : UInt16) (index : Nat) (h : index < 131072),
    ((m.data.setWord addr value).bytes[index]).toNat =
      if index = 2 * addr.toNat then value.toNat / 256
      else if index = 2 * addr.toNat + 1 then value.toNat % 256
      else m.data.bytes[index].toNat
  word_setWord : ∀ addr value : UInt16, (m.data.setWord addr value).word addr = value
  load : ∀ i : Instruction, m.next? = some i → i.opcode = .ld →
    m.step.2.cpu.reg i.da = m.data.word (m.cpu.reg i.aa) ∧ m.step.2.data = m.data
  store : ∀ i : Instruction, m.next? = some i → i.opcode = .st →
    m.step.2.data = m.data.setWord (m.cpu.reg i.aa) (m.cpu.reg i.ba)
  changed : ∀ (index : Nat) (h : index < 131072), m.step.2.data.bytes[index] ≠ m.data.bytes[index] →
    ∃ i : Instruction, m.next? = some i ∧ i.opcode = .st ∧
      (index = 2 * (m.cpu.reg i.aa).toNat ∨ index = 2 * (m.cpu.reg i.aa).toNat + 1)

end Machine

theorem DataMemory.word_eq_bytes (m : DataMemory) (addr : UInt16) : ∃ high low : UInt8,
    m.bytes[2 * addr.toNat]? = some high ∧ m.bytes[2 * addr.toNat + 1]? = some low ∧
      (m.word addr).toNat = 256 * high.toNat + low.toNat := by
  have hhigh := high_lt addr
  have hlow := low_lt addr
  refine ⟨m.bytes[2 * addr.toNat], m.bytes[2 * addr.toNat + 1], Vector.getElem?_eq_getElem hhigh,
    Vector.getElem?_eq_getElem hlow, UInt16.toNat_ofNat_of_lt' ?_⟩
  have := m.bytes[2 * addr.toNat].toNat_lt
  have := m.bytes[2 * addr.toNat + 1].toNat_lt
  simp only [UInt16.size]
  omega

namespace Machine

/-- A byte that a step changed belongs to the word of a store. -/
theorem store_of_changed {m : Machine} {index : Nat} (h : index < 131072)
    (hne : m.step.2.data.bytes[index] ≠ m.data.bytes[index]) :
    ∃ i : Instruction, m.next? = some i ∧ i.opcode = .st ∧
      (index = 2 * (m.cpu.reg i.aa).toNat ∨ index = 2 * (m.cpu.reg i.aa).toNat + 1) := by
  cases hi : m.next? with
  | none => simp only [data_step_of_none hi, ne_eq, not_true_eq_false] at hne
  | some i =>
    simp only [data_step_of_some hi] at hne
    split at hne
    · next hop =>
      rw [DataMemory.bytes_setWord] at hne
      refine ⟨i, rfl, hop, ?_⟩
      by_contra hnot
      rw [not_or] at hnot
      simp only [hnot.1, hnot.2, if_false, ne_eq, not_true_eq_false] at hne
    · exact absurd rfl hne

/-- Data memory is a map of bytes. Whatever was done to it, each byte holds the last value it was
given, and a word, a load and a store are about the two bytes of their address at that moment. -/
theorem followsHistory (m : Machine) (actions : List MemoryAction) :
    (m.performAll actions).FollowsHistory m.data (m.history actions) where
  size_eq := Vector.size_toArray _
  index_lt := (m.accounts_history actions).index_lt
  byte_eq := (m.accounts_history actions).byte_eq
  word_eq := DataMemory.word_eq_bytes _
  read_eq _ := rfl
  write_eq _ _ := rfl
  bytes_setWord addr value index h := by
    have := value.toNat_lt
    rw [DataMemory.bytes_setWord]
    split
    · rw [UInt8.toNat_ofNat_of_lt' (by simp only [UInt8.size]; omega)]
    · split
      · exact UInt8.toNat_ofNat'
      · rfl
  word_setWord addr value := by rw [DataMemory.word_setWord, if_pos rfl]
  load i hi hop := by
    refine ⟨by rw [reg_step_of_ld hi hop, if_pos rfl], ?_⟩
    rw [data_step_of_some hi, if_neg (by rw [hop]; decide)]
  store i hi hop := by rw [data_step_of_some hi, if_pos hop]
  changed _ := store_of_changed

end Machine

end Isa16
