import Isa16.Proofs.Assembly.Constant
import Isa16.Proofs.Assembly.Sections
/-!
# Runs of loads

A line that loads a number or a label leaves it in its register and nothing
else behind, from any state at the line. The value of a label is the one in the
final table, and the idle instructions that fill up the width of such a load
change nothing but flags.
-/

namespace Isa16

open Isa16.Assembly (constant runSteps LoadStep loadCode)
open Isa16.Source (MacroCall Statement)

namespace Machine

/-- The machine runs an assembled source and is at the code of line `n`. -/
structure AtLine (m : Machine) (a : Assembly) (n : Nat) : Prop where
  program_eq : m.program = a.program
  pc_eq : m.cpu.pc.toNat = a.addressOf n

/-! ## Code that loads -/

theorem Loads.trans {m : Machine} {p i j : Nat} {r : Reg} {v w : UInt16} (hi : m.Loads p i r v)
    (hj : (m.after i).Loads (p + i) j r w) : m.Loads p (i + j) r w := by
  refine ⟨?_, fun s hs => ?_, ?_, ?_, fun k hk hp => ?_, fun k hk hp => ?_⟩
  · rw [after_add, hj.value_eq]
  · rw [after_add, hj.reg_eq s hs, hi.reg_eq s hs]
  · rw [after_add, hj.data_eq, hi.data_eq]
  · rw [after_add, hj.pc_eq, Nat.add_assoc]
  · rcases Nat.lt_or_ge k i with hlt | hge
    · exact hi.retired k hlt hp
    · obtain ⟨k, rfl⟩ := Nat.exists_eq_add_of_le hge
      rw [stepAt_add]
      exact hj.retired k (by omega) (by omega)
  · rcases Nat.lt_or_ge k i with hlt | hge
    · exact hi.halted k hlt hp
    · obtain ⟨k, rfl⟩ := Nat.exists_eq_add_of_le hge
      rw [stepAt_add]
      exact hj.halted k (by omega) (by omega)

/-- Idle instructions leave their register as it is. -/
theorem after_idle {m : Machine} {p k : Nat} {r : Reg}
    (hcode : m.program.HasCode p (List.replicate k ⟨.mova, r, r, 0⟩)) (hpc : m.cpu.pc.toNat = min p 65535) :
    m.Loads p k r (m.cpu.reg r) := by
  have hw : List.Forall₂ (Instruction.Writes r) (List.replicate k ⟨.mova, r, r, 0⟩) (List.replicate k id) := by
    clear hcode
    induction k with
    | zero => exact .nil
    | succ k ih => exact .cons ⟨rfl, fun _ => rfl⟩ ih
  have hfold : (List.replicate k id).foldl (fun value (f : UInt16 → UInt16) => f value) (m.cpu.reg r) =
      m.cpu.reg r := by
    generalize m.cpu.reg r = value
    clear hcode hw
    induction k with
    | zero => rfl
    | succ k ih => exact ih
  have := after_writes hcode hpc hw
  rwa [hfold, List.length_replicate] at this

/-- The steps for a constant leave it in their register. -/
theorem after_constant {m : Machine} {p : Nat} {r : Reg} {value : UInt16}
    (hcode : m.program.HasCode p ((constant value).map (·.instruction r))) (hpc : m.cpu.pc.toNat = min p 65535) :
    m.Loads p (constant value).length r value := by
  have hw : List.Forall₂ (Instruction.Writes r) ((constant value).map (·.instruction r))
      ((constant value).map LoadStep.apply) := by
    rw [List.forall₂_map_left_iff, List.forall₂_map_right_iff, List.forall₂_same]
    exact fun s _ => s.writes_instruction r
  have := after_writes hcode hpc hw
  rwa [List.foldl_map, ← runSteps, Assembly.runSteps_constant, List.length_map] at this

theorem after_loadCode {m : Machine} {p width : Nat} {r : Reg} {value : UInt16}
    (hcode : m.program.HasCode p (loadCode r value width)) (hfit : (constant value).length ≤ width)
    (hpc : m.cpu.pc.toNat = min p 65535) : m.Loads p width r value := by
  obtain ⟨hidle, hconst⟩ := hcode.of_append
  rw [List.length_replicate] at hconst
  have hi := after_idle hidle hpc
  have hc := after_constant (m := m.after (width - (constant value).length)) (by rwa [program_after]) hi.pc_eq
  have := hi.trans hc
  rwa [Nat.sub_add_cancel hfit] at this

end Machine

/-! ## Lines that load -/

/-- The macro call loads something into register `r`. -/
def Source.MacroCall.LoadsInto (r : Reg) : MacroCall → Prop
  | .load reg _ | .loadSymbol reg _ => reg = r
  | _ => False

/-- What a load puts into its register; a label stands for its address in the final table. -/
def Assembly.loadValue? (a : Assembly) : MacroCall → Option UInt16
  | .load _ value => some value
  | .loadSymbol _ name => a.symbols[name]?
  | _ => none

theorem Assembly.code_of_loadsInto {source : String} {a : Assembly} (h : assemble source = .ok a) {n : Nat}
    {c : MacroCall} {r : Reg} (hs : Source.Holds source n (.call c)) (hc : c.LoadsInto r) :
    ∃ value width, a.loadValue? c = some value ∧ (constant value).length ≤ width ∧
      a.CodeOf n (loadCode r value width) := by
  cases c with
  | load reg value =>
    obtain rfl : reg = r := hc
    refine ⟨value, (constant value).length, rfl, Nat.le_refl _, ?_⟩
    rw [loadCode, Nat.sub_self]
    exact code_of_load h hs
  | loadSymbol reg name =>
    obtain rfl : reg = r := hc
    obtain ⟨value, width, hvalue, hfit, -, hcode⟩ := code_of_loadSymbol h hs
    exact ⟨value, width, hvalue, hfit, hcode⟩
  | initStack | call _ | ret => exact hc.elim

/-- The run of a load from address `p` up to address `q`. -/
structure Machine.LoadRun (m : Machine) (p q : Nat) (r : Reg) (value : UInt16) : Prop where
  value_eq : (m.after (q - p)).cpu.reg r = value
  reg_eq : ∀ s, s ≠ r → (m.after (q - p)).cpu.reg s = m.cpu.reg s
  data_eq : (m.after (q - p)).data = m.data
  /-- Every step is retired, but for one at the last address, which has no successor. -/
  steps :
    (q < 65536 ∧ (m.after (q - p)).cpu.pc.toNat = q ∧ ∀ j, j < q - p → ∃ t, m.stepAt j = .retired t) ∨
    (q = 65536 ∧ (m.after (q - p)).cpu.pc = 0xFFFF ∧ (∀ j, j + 1 < q - p → ∃ t, m.stepAt j = .retired t) ∧
      ∃ t, m.stepAt (q - p - 1) = .halted t)
  /-- What stands in front of the steps for the constant is idle. -/
  padding : ∃ pad, q - p = pad + (constant value).length ∧
    (∀ k, k < pad → m.program.words[p + k]? = some (Instruction.mk .mova r r 0).word) ∧
    ∀ k, k ≤ pad → (∀ s, (m.after k).cpu.reg s = m.cpu.reg s) ∧ (m.after k).data = m.data ∧
      (m.after k).cpu.pc.toNat = p + k

/-- A line that loads a number or a label leaves the value in the register, whatever state it is
reached in, and nothing else but flags is changed. -/
theorem load_leaves_value {source : String} {a : Assembly} (h : assemble source = .ok a) {n : Nat} {c : MacroCall}
    {r : Reg} (hs : Source.Holds source n (.call c)) (hc : c.LoadsInto r) :
    ∃ value, a.loadValue? c = some value ∧
      ∀ m : Machine, m.AtLine a n → m.LoadRun (a.addressOf n) (a.addressBehind n) r value := by
  obtain ⟨value, width, hvalue, hfit, hcode⟩ := Assembly.code_of_loadsInto h hs hc
  refine ⟨value, hvalue, fun m hm => ?_⟩
  have hpos : 0 < (constant value).length := List.length_pos_of_ne_nil (Assembly.constant_ne_nil value)
  have hbehind := hcode.behind
  rw [Assembly.length_loadCode hfit] at hbehind
  have hle := (a.addressBehind_le_size n).trans a.size_le
  have hhas : m.program.HasCode (a.addressOf n) (loadCode r value width) := hm.program_eq ▸ hcode.hasCode
  have hpc : m.cpu.pc.toNat = min (a.addressOf n) 65535 := by rw [hm.pc_eq]; omega
  have hrun := Machine.after_loadCode hhas hfit hpc
  rw [hbehind] at hle ⊢
  rw [show width = a.addressOf n + width - a.addressOf n by omega] at hrun
  refine ⟨hrun.value_eq, hrun.reg_eq, hrun.data_eq, ?_, width - (constant value).length, by omega, fun k hk => ?_,
    fun k hk => ?_⟩
  · -- Only the last step of a load that ends behind the last address is made at that address.
    rcases Nat.lt_or_ge (a.addressOf n + width) 65536 with hlt | hge
    · exact .inl ⟨hlt, by rw [hrun.pc_eq]; omega, fun j hj => hrun.retired j hj (by omega)⟩
    · refine .inr ⟨by omega, UInt16.toNat_inj.1 ?_, fun j hj => hrun.retired j (by omega) (by omega),
        hrun.halted _ (by omega) (by omega)⟩
      rw [hrun.pc_eq]
      show min _ 65535 = 65535
      omega
  · refine hhas k _ ?_
    rw [loadCode, List.getElem?_append_left (by simpa using hk), List.getElem?_replicate, if_pos hk]
  · have hidle : m.program.HasCode (a.addressOf n) (List.replicate k ⟨.mova, r, r, 0⟩) := by
      intro i j hj
      refine hhas i j ?_
      rw [List.getElem?_replicate] at hj
      split at hj
      · rw [loadCode, List.getElem?_append_left (by rw [List.length_replicate]; omega), List.getElem?_replicate,
          if_pos (by omega), hj]
      · cases hj
    have hrun := Machine.after_idle hidle hpc
    refine ⟨fun s => ?_, hrun.data_eq, by rw [hrun.pc_eq]; omega⟩
    by_cases hs : s = r
    · rw [hs, hrun.value_eq]
    · exact hrun.reg_eq s hs

/-- A label whose address is the one behind the load itself. -/
theorem load_of_label_behind : ∃ a, assemble "%SLDI r1,.x\n.x:" = .ok a ∧
    ∃ value, a.symbols["x"]? = some value ∧ (Machine.fresh a.program .empty).LoadRun 0 1 1 value := by
  obtain ⟨a, ha, hp⟩ := exists_ok_of_any (x := assemble "%SLDI r1,.x\n.x:")
    (p := fun a => a.addressOf 1 = 0 ∧ a.addressBehind 1 = 1) (by decide +kernel)
  obtain ⟨hn, hq⟩ : a.addressOf 1 = 0 ∧ a.addressBehind 1 = 1 := by simpa using hp
  have hs : Source.Holds "%SLDI r1,.x\n.x:" 1 (.call (.loadSymbol 1 "x")) := ⟨_, rfl, Statement.read_eq_ok_iff.1 rfl⟩
  obtain ⟨value, hvalue, hrun⟩ := load_leaves_value ha hs rfl
  have := hrun (.fresh a.program .empty) ⟨rfl, hn.symm⟩
  rw [hn, hq] at this
  exact ⟨a, ha, value, hvalue, this⟩

end Isa16
