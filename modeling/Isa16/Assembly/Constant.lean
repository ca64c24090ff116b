import Isa16.Instruction.Printer
/-!
# Loading a constant

No instruction holds more than three bits of a constant, so a register is
filled in steps: three bits are set, shifted up and followed by the next three.
The steps depend on the constant alone and all work on one register. Some
constants have shorter forms of their own; the longest takes 19 steps
(`length_constant_le`).
-/

namespace Isa16.Assembly

/-- An instruction of a constant load. -/
inductive LoadStep
  /-- The register becomes zero. -/
  | clear
  | invert
  | set (n : Fin 8)
  | double
  | add (n : Fin 8)
  | increment
deriving DecidableEq

namespace LoadStep

/-- The step as an instruction on register `r`. -/
def instruction (r : Reg) : LoadStep → Instruction
  | .clear => ⟨.xor, r, r, r⟩
  | .invert => ⟨.not, r, r, 0⟩
  | .set n => ⟨.ldi, r, 0, n⟩
  | .double => ⟨.shl, r, 0, r⟩
  | .add n => ⟨.adi, r, r, n⟩
  | .increment => ⟨.inc, r, r, 0⟩

/-- The step as source code, for a register of any number. -/
def text (r : Nat) : LoadStep → String
  | .clear => Opcode.xor.text [regText r, regText r, regText r]
  | .invert => Opcode.not.text [regText r, regText r]
  | .set n => Opcode.ldi.text [regText r, toString n.val]
  | .double => Opcode.shl.text [regText r, regText r]
  | .add n => Opcode.adi.text [regText r, regText r, toString n.val]
  | .increment => Opcode.inc.text [regText r, regText r]

/-- The source code of a step reads as its instruction is printed. -/
theorem text_instruction (r : Reg) (s : LoadStep) : (s.instruction r).text = s.text r := by
  cases s <;> rfl

end LoadStep

/-- Bits 15 to 1 of a constant, three at a time. -/
def windows (value : UInt16) : List (Fin 8) :=
  [8192, 1024, 128, 16, 2].map fun unit => Fin.ofNat 8 (value.toNat / unit)

/-- Makes room for three bits and adds them. -/
def appendWindow (w : Fin 8) : List LoadStep :=
  [.double, .double, .double] ++ if w = 0 then [] else [.add w]

/-- The steps for windows of which the first is not zero. -/
def fillWindows : List (Fin 8) → List LoadStep
  | [] => []
  | w :: rest => .set w :: rest.flatMap appendWindow

/-- The steps that leave `value` in a register. -/
def constant (value : UInt16) : List LoadStep :=
  if value = 0 then [.clear]
  else if value = 0xFFFF then [.clear, .invert]
  else if value < 8 then [.set (Fin.ofNat 8 value.toNat)]
  else
    fillWindows ((windows value).dropWhile (· = 0)) ++ [.double]
      ++ if value.toNat % 2 = 1 then [.increment] else []

theorem length_appendWindow_le (w : Fin 8) : (appendWindow w).length ≤ 4 := by
  unfold appendWindow; split <;> simp

theorem length_flatMap_appendWindow_le (ws : List (Fin 8)) :
    (ws.flatMap appendWindow).length ≤ 4 * ws.length := by
  induction ws with
  | nil => simp
  | cons w ws ih =>
    have := length_appendWindow_le w
    simp only [List.flatMap_cons, List.length_append, List.length_cons]
    omega

theorem length_fillWindows_le {ws : List (Fin 8)} (h : ws.length ≤ 5) : (fillWindows ws).length ≤ 17 := by
  cases ws with
  | nil => simp [fillWindows]
  | cons w ws =>
    have := length_flatMap_appendWindow_le ws
    simp only [fillWindows, List.length_cons] at *
    omega

theorem length_constant_le (value : UInt16) : (constant value).length ≤ 19 := by
  have hw : ((windows value).dropWhile (· = 0)).length ≤ 5 :=
    (List.dropWhile_sublist _).length_le
  have := length_fillWindows_le hw
  unfold constant
  split
  · simp
  split
  · simp
  split
  · simp
  · simp only [List.length_append, List.length_singleton]
    split <;> simp <;> omega

theorem constant_ne_nil (value : UInt16) : constant value ≠ [] := by
  unfold constant
  split
  · simp
  split
  · simp
  split <;> simp

end Isa16.Assembly
