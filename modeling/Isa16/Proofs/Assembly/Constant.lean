import Isa16.Assembly.Constant
import Isa16.Proofs.Machine.Run
/-!
# What a constant load leaves behind

The steps for a constant leave it in their register, whatever the register held
before (`runSteps_constant`). The windows of a constant are its upper fifteen bits
as a number in base eight: windows that are zero add nothing to the number, in
front where they are dropped and inside where nothing is added.
-/

namespace Isa16.Assembly

namespace LoadStep

/-- What a step makes of the value of its register. -/
def apply : LoadStep → UInt16 → UInt16
  | .clear, _ => 0
  | .invert, value => ~~~value
  | .set n, _ => UInt16.ofNat n
  | .double, value => value <<< 1
  | .add n, value => value + UInt16.ofNat n
  | .increment, value => value + 1

theorem writes_instruction (r : Reg) (s : LoadStep) : Instruction.Writes r (s.instruction r) s.apply := by
  refine ⟨by cases s <;> rfl, fun cpu => ?_⟩
  cases s with
  | clear => simp [Cpu.effect, instruction, apply]
  | invert | set _ | double | add _ | increment => rfl

end LoadStep

/-- The value that steps leave in a register. -/
def runSteps (steps : List LoadStep) (value : UInt16) : UInt16 := steps.foldl (fun value s => s.apply value) value

@[simp] theorem runSteps_nil (value : UInt16) : runSteps [] value = value := rfl

@[simp] theorem runSteps_cons (s : LoadStep) (steps : List LoadStep) (value : UInt16) :
    runSteps (s :: steps) value = runSteps steps (s.apply value) := rfl

theorem runSteps_append (us vs : List LoadStep) (value : UInt16) :
    runSteps (us ++ vs) value = runSteps vs (runSteps us value) :=
  List.foldl_append

/-! ## Windows -/

/-- A number with one more window behind it. -/
def shiftIn (n : Nat) (w : Fin 8) : Nat := 8 * n + w

/-- The number that windows stand for. -/
def windowsValue (ws : List (Fin 8)) : Nat := ws.foldl shiftIn 0

theorem windowsValue_windows (value : UInt16) : windowsValue (windows value) = value.toNat / 2 := by
  have := value.toNat_lt
  simp only [windowsValue, windows, shiftIn, List.map_cons, List.map_nil, List.foldl_cons, List.foldl_nil,
    Fin.val_ofNat]
  omega

theorem windowsValue_dropWhile (ws : List (Fin 8)) : windowsValue (ws.dropWhile (· = 0)) = windowsValue ws := by
  induction ws with
  | nil => rfl
  | cons w ws ih =>
    rw [List.dropWhile_cons]
    split
    · rename_i hw
      obtain rfl : w = 0 := by simpa using hw
      exact ih
    · rfl

theorem ofNat_shiftLeft_one (n : Nat) : UInt16.ofNat n <<< 1 = UInt16.ofNat (2 * n) := by
  apply UInt16.toNat_inj.1
  simp only [UInt16.toNat_shiftLeft, UInt16.toNat_ofNat', UInt16.reduceToNat, Nat.reduceMod, Nat.shiftLeft_eq,
    Nat.pow_one]
  omega

theorem runSteps_appendWindow (w : Fin 8) (n : Nat) :
    runSteps (appendWindow w) (UInt16.ofNat n) = UInt16.ofNat (shiftIn n w) := by
  have hdouble : runSteps [.double, .double, .double] (UInt16.ofNat n) = UInt16.ofNat (8 * n) := by
    simp only [runSteps_cons, runSteps_nil, LoadStep.apply, ofNat_shiftLeft_one]
    congr 1
    omega
  rw [appendWindow, runSteps_append, hdouble, shiftIn]
  split
  · rename_i hw
    rw [hw]
    rfl
  · simp [LoadStep.apply, UInt16.ofNat_add]

theorem runSteps_appendWindows (ws : List (Fin 8)) (n : Nat) :
    runSteps (ws.flatMap appendWindow) (UInt16.ofNat n) = UInt16.ofNat (ws.foldl shiftIn n) := by
  induction ws generalizing n with
  | nil => rfl
  | cons w ws ih => rw [List.flatMap_cons, runSteps_append, runSteps_appendWindow, ih, List.foldl_cons]

theorem runSteps_fillWindows {ws : List (Fin 8)} (h : ws ≠ []) (value : UInt16) :
    runSteps (fillWindows ws) value = UInt16.ofNat (windowsValue ws) := by
  cases ws with
  | nil => exact absurd rfl h
  | cons w ws =>
    rw [fillWindows, runSteps_cons]
    simp only [LoadStep.apply, runSteps_appendWindows, windowsValue, shiftIn, List.foldl_cons, Nat.mul_zero,
      Nat.zero_add]

/-! ## The constant -/

/-- The steps for a constant leave it in the register, whatever was there. -/
theorem runSteps_constant (value start : UInt16) : runSteps (constant value) start = value := by
  unfold constant
  split
  · rename_i h
    rw [h]
    rfl
  split
  · rename_i h
    rw [h]
    show ~~~(0 : UInt16) = 0xFFFF
    decide
  split
  · rename_i h
    have hlt : value.toNat < 8 := UInt16.lt_iff_toNat_lt.1 h
    simp only [runSteps_cons, runSteps_nil, LoadStep.apply, Fin.val_ofNat, Nat.mod_eq_of_lt hlt, UInt16.ofNat_toNat]
  · rename_i h
    have hge : 8 ≤ value.toNat := Nat.le_of_not_lt fun hlt => h (UInt16.lt_iff_toNat_lt.2 hlt)
    have hvalue : windowsValue ((windows value).dropWhile (· = 0)) = value.toNat / 2 := by
      rw [windowsValue_dropWhile, windowsValue_windows]
    -- A constant that has no form of its own has a window that is not zero, and the load begins there.
    have hne : (windows value).dropWhile (· = 0) ≠ [] := by
      intro hnil
      rw [hnil] at hvalue
      simp only [windowsValue, List.foldl_nil] at hvalue
      omega
    rw [runSteps_append, runSteps_append, runSteps_fillWindows hne, hvalue]
    simp only [runSteps_cons, runSteps_nil, LoadStep.apply, ofNat_shiftLeft_one]
    split
    · rename_i hodd
      simp only [runSteps_cons, runSteps_nil, LoadStep.apply]
      apply UInt16.toNat_inj.1
      have := value.toNat_lt
      simp only [UInt16.toNat_add, UInt16.toNat_ofNat', UInt16.reduceToNat]
      omega
    · rename_i heven
      rw [runSteps_nil, show 2 * (value.toNat / 2) = value.toNat by omega, UInt16.ofNat_toNat]

end Isa16.Assembly
