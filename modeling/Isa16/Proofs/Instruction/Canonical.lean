import Isa16.Assembly.Line
import Isa16.Assembly.Argument
import Isa16.Proofs.Traversal
/-!
# Canonical instructions

An operation uses the fields that hold its operands. An instruction is
canonical if all other fields are zero, and `canonical` makes them zero. What
the assembler reads is canonical, as an operand sets no field but its own
(`isCanonical_of_read`), and so is what it makes of macro calls
(`isCanonical_of_expandCall`).
-/

namespace Isa16

/-- A field of a word besides its operation code. -/
inductive Field
  | da | aa | ba
deriving DecidableEq

/-- The fields that hold what is written at an operand position. -/
def Operand.fields : Operand → List Field
  | .da => [.da]
  | .aa => [.aa]
  | .ba | .imm => [.ba]
  | .offset => [.da, .ba]

/-- The fields that an operation uses. -/
def Opcode.fields (op : Opcode) : List Field := op.operands.flatMap Operand.fields

/-- No field holds two operands. -/
theorem Opcode.nodup_fields (op : Opcode) : op.fields.Nodup := by
  cases op <;> decide

namespace Instruction

def field (i : Instruction) : Field → Fin 8
  | .da => i.da
  | .aa => i.aa
  | .ba => i.ba

/-- The instruction with zeros in the fields that it does not use. -/
def canonical (i : Instruction) : Instruction :=
  let used f := if f ∈ i.opcode.fields then i.field f else 0
  ⟨i.opcode, used .da, used .aa, used .ba⟩

/-- All fields that the instruction does not use are zero. -/
def IsCanonical (i : Instruction) : Prop := ∀ f, f ∉ i.opcode.fields → i.field f = 0

theorem ext_field {i j : Instruction} (hop : i.opcode = j.opcode) (h : ∀ f, i.field f = j.field f) : i = j := by
  obtain ⟨op, da, aa, ba⟩ := i
  obtain ⟨op', da', aa', ba'⟩ := j
  obtain rfl : op = op' := hop
  obtain ⟨rfl, rfl, rfl⟩ : da = da' ∧ aa = aa' ∧ ba = ba' := ⟨h .da, h .aa, h .ba⟩
  rfl

theorem word_injective : Function.Injective word := fun i j h => by
  have := congrArg ofWord? h
  simpa using this

theorem field_canonical (i : Instruction) (f : Field) :
    i.canonical.field f = if f ∈ i.opcode.fields then i.field f else 0 := by
  cases f <;> rfl

/-- A used field keeps its value. -/
theorem field_canonical_of_mem {i : Instruction} {f : Field} (h : f ∈ i.opcode.fields) :
    i.canonical.field f = i.field f := by
  rw [field_canonical, if_pos h]

theorem isCanonical_canonical (i : Instruction) : i.canonical.IsCanonical := by
  intro f hf
  rw [field_canonical]
  exact if_neg hf

theorem canonical_eq_iff {i : Instruction} : i.canonical = i ↔ i.IsCanonical := by
  constructor
  · intro h
    exact h ▸ i.isCanonical_canonical
  · intro h
    refine ext_field rfl fun f => ?_
    rw [field_canonical]
    split
    · rfl
    · rw [h f ‹_›]

instance (i : Instruction) : Decidable i.IsCanonical := decidable_of_iff _ canonical_eq_iff

end Instruction

namespace Assembly

/-! ## Reading instructions -/

/-- An operand sets no field but its own. -/
theorem place_frame {pc : Nat} {i j : Instruction} {operand : Operand} {arg : Argument}
    (h : place pc i operand arg = .ok j) :
    j.opcode = i.opcode ∧ ∀ f, f ∉ operand.fields → j.field f = i.field f := by
  have offset {d : Int} (hd : placeOffset i d = .ok j) :
      j.opcode = i.opcode ∧ ∀ f, f ∉ Operand.offset.fields → j.field f = i.field f := by
    unfold placeOffset at hd
    split at hd
    · cases hd
      exact ⟨rfl, fun f hf => by cases f <;> simp_all [Operand.fields, Instruction.field]⟩
    · cases hd
  unfold place at h
  split at h
  case h_4 =>
    split at h
    · cases h
      exact ⟨rfl, fun f hf => by cases f <;> simp_all [Operand.fields, Instruction.field]⟩
    · cases h
  case h_6 | h_7 => exact offset h
  case h_8 => cases h
  all_goals
    cases h
    exact ⟨rfl, fun f hf => by cases f <;> simp_all [Operand.fields, Instruction.field]⟩

theorem foldlM_place_frame {pc : Nat} {xs : List (Operand × Argument)} {i j : Instruction}
    (h : xs.foldlM (fun i (operand, arg) => place pc i operand arg) i = .ok j) :
    j.opcode = i.opcode ∧ ∀ f, f ∉ xs.flatMap (·.1.fields) → j.field f = i.field f := by
  induction xs generalizing i with
  | nil =>
    cases h
    exact ⟨rfl, fun _ _ => rfl⟩
  | cons x xs ih =>
    obtain ⟨k, hk, h⟩ := bind_eq_ok_iff.1 h
    obtain ⟨hop, hfield⟩ := place_frame hk
    obtain ⟨hop', hfield'⟩ := ih h
    refine ⟨hop'.trans hop, fun f hf => ?_⟩
    rw [List.flatMap_cons, List.mem_append, not_or] at hf
    rw [hfield' f hf.2, hfield f hf.1]

theorem flatMap_fields_zip {op : Opcode} {args : List Argument} (h : args.length = op.operands.length) :
    (op.operands.zip args).flatMap (·.1.fields) = op.fields := by
  have hfst : (op.operands.zip args).map Prod.fst = op.operands := List.map_fst_zip (Nat.le_of_eq h.symm)
  rw [Opcode.fields, ← hfst, List.flatMap_map, hfst]

theorem isCanonical_of_fill {pc : Nat} {op : Opcode} {args : List Argument} {i : Instruction}
    (h : fill pc op args = .ok i) : i.IsCanonical := by
  unfold fill at h
  split at h
  · rename_i hlen
    obtain ⟨hop, hfield⟩ := foldlM_place_frame h
    intro f hf
    rw [hop] at hf
    rw [hfield f (flatMap_fields_zip hlen ▸ hf)]
    cases f <;> rfl
  · cases h

theorem isCanonical_of_read {symbols : SymbolTable} {pc : Nat} {code : List Char} {i : Instruction}
    (h : readInstruction symbols pc code = .ok i) : i.IsCanonical := by
  simp only [readInstruction] at h
  split at h
  · cases h
  · obtain ⟨args, -, h⟩ := bind_eq_ok_iff.1 h
    exact isCanonical_of_fill h

/-! ## Macro calls -/

theorem isCanonical_step (r : Reg) (s : LoadStep) : (s.instruction r).IsCanonical :=
  Instruction.canonical_eq_iff.1 (by cases s <;> rfl)

theorem isCanonical_of_loadLines {r : Reg} {value : UInt16} {width : Nat} {i : Instruction}
    (h : .made i ∈ loadLines r value width) : i.IsCanonical := by
  rcases List.mem_append.1 h with h | h
  · cases List.eq_of_mem_replicate h
    exact Instruction.canonical_eq_iff.1 rfl
  · obtain ⟨s, -, hs⟩ := List.mem_map.1 h
    cases hs
    exact isCanonical_step r s

theorem isCanonical_of_expandCall {c : Source.MacroCall} {i : Instruction} (h : .line (.made i) ∈ expandCall c) :
    i.IsCanonical := by
  cases c with
  | load r value =>
    simp only [expandCall, bracket, Item.note, Item.made, List.cons_append, List.mem_cons, List.mem_append,
      List.mem_map, List.not_mem_nil, Item.line.injEq, Line.made.injEq, reduceCtorEq, false_or, or_false] at h
    obtain ⟨s, -, rfl⟩ := h
    exact isCanonical_step r s
  | loadSymbol r name => simp [expandCall] at h
  | initStack =>
    obtain rfl : i = ⟨.xor, stackReg, stackReg, stackReg⟩ := by
      simpa [expandCall, bracket, Item.note, Item.made] using h
    decide
  | call r =>
    have hmem : i ∈ callTail r := by simpa [expandCall, bracket, Item.note, Item.made] using h
    have hall : ∀ r, ∀ j ∈ callTail r, j.IsCanonical := by decide
    exact hall r i hmem
  | ret =>
    have hmem : i ∈ returnSequence := by simpa [expandCall, bracket, Item.note, Item.made] using h
    have hall : ∀ j ∈ returnSequence, j.IsCanonical := by decide
    exact hall i hmem

end Assembly

end Isa16
