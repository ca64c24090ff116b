import Isa16.Proofs.Execution.Load
/-!
# Runs of calls and returns

A call pushes the address behind its own code and jumps; a return pops an
address and jumps there. `call_run` and `return_run` say what both do from any
state, and the round trip follows. The code of a call uses the link register
and the stack pointer itself, so a routine is found in neither of them.
-/

namespace Isa16

open Isa16.Assembly (loadCode callTail returnSequence linkReg stackReg)
open Isa16.Source (MacroCall Statement)

namespace Machine

/-! ## The code of both -/

/-- The end of a call pushes the link register and jumps. -/
theorem after_callTail {m : Machine} {p : Nat} {r : Reg} (hcode : m.program.HasCode p (callTail r))
    (hpc : m.cpu.pc.toNat = p) :
    (∀ s, (m.after 3).cpu.reg s = if s = stackReg then m.cpu.reg stackReg + 1 else m.cpu.reg s) ∧
      (m.after 3).data = m.data.setWord (m.cpu.reg stackReg + 1) (m.cpu.reg linkReg) ∧
      (m.after 3).cpu.pc = (m.after 3).cpu.reg r ∧
      (∀ j, j < 2 → ∃ t, m.stepAt j = .retired t) ∧
      ∃ t, m.stepAt 2 = if ((m.after 3).cpu.reg r).toNat = p + 2 then .halted t else .retired t := by
  have hend : p + 1 + 1 < 65536 := hcode.tail.tail.lt
  subst hpc
  have hinc := step_performs hcode.fetch
  have hpc₁ := (hinc.advances (by omega)).1
  have hst := step_performs (m := m.step.2) (hpc₁ ▸ hcode.tail).fetch
  have hpc₂ := (hst.advances (by omega)).1
  have hjmp := step_performs (m := m.step.2.step.2) (by rw [hpc₁] at hpc₂; exact (hpc₂ ▸ hcode.tail.tail).fetch)
  obtain ⟨hpc, hret, t, hlast⟩ := after_jump hinc hst hjmp hend
  have hreg₁ := Cpu.reg_of_setReg hinc.regs_eq
  have hreg₂ := Cpu.reg_of_regs_eq hst.regs_eq
  have hreg₃ : ∀ s, (m.after 3).cpu.reg s = m.step.2.step.2.cpu.reg s := Cpu.reg_of_regs_eq hjmp.regs_eq
  have hdata : (m.after 3).data = m.step.2.step.2.data := hjmp.data_eq
  refine ⟨fun s => ?_, ?_, hpc.trans (hreg₃ r).symm, hret, t, ?_⟩
  · rw [hreg₃, hreg₂, hreg₁]
  · rw [hdata, hst.data_eq, hinc.data_eq, hreg₁, hreg₁]
    rfl
  · rw [hreg₃]
    exact hlast

/-- A return pops the link register and jumps to it. -/
theorem after_returnSequence {m : Machine} {p : Nat} (hcode : m.program.HasCode p returnSequence)
    (hpc : m.cpu.pc.toNat = p) :
    (∀ s, (m.after 3).cpu.reg s = if s = stackReg then m.cpu.reg stackReg - 1
        else if s = linkReg then m.data.word (m.cpu.reg stackReg) else m.cpu.reg s) ∧
      (m.after 3).data = m.data ∧ (m.after 3).cpu.pc = (m.after 3).cpu.reg linkReg ∧
      (∀ j, j < 2 → ∃ t, m.stepAt j = .retired t) ∧
      ∃ t, m.stepAt 2 = if ((m.after 3).cpu.reg linkReg).toNat = p + 2 then .halted t else .retired t := by
  have hend : p + 1 + 1 < 65536 := hcode.tail.tail.lt
  subst hpc
  have hld := step_performs hcode.fetch
  have hpc₁ := (hld.advances (by omega)).1
  have hdec := step_performs (m := m.step.2) (hpc₁ ▸ hcode.tail).fetch
  have hpc₂ := (hdec.advances (by omega)).1
  have hjmp := step_performs (m := m.step.2.step.2) (by rw [hpc₁] at hpc₂; exact (hpc₂ ▸ hcode.tail.tail).fetch)
  obtain ⟨hpc, hret, t, hlast⟩ := after_jump hld hdec hjmp hend
  have hreg₁ := Cpu.reg_of_setReg hld.regs_eq
  have hreg₂ := Cpu.reg_of_setReg hdec.regs_eq
  have hreg₃ : ∀ s, (m.after 3).cpu.reg s = m.step.2.step.2.cpu.reg s := Cpu.reg_of_regs_eq hjmp.regs_eq
  have hdata : (m.after 3).data = m.step.2.step.2.data := hjmp.data_eq
  refine ⟨fun s => ?_, ?_, hpc.trans (hreg₃ linkReg).symm, hret, t, ?_⟩
  · rw [hreg₃, hreg₂, hreg₁, hreg₁]
    rfl
  · rw [hdata, hdec.data_eq, hld.data_eq]
  · rw [hreg₃]
    exact hlast

/-! ## Lines that call and return -/

/-- The run of a call from address `p` up to address `q` that goes to `target`. -/
structure CallRun (m : Machine) (p q : Nat) (target : UInt16) : Prop where
  pc_eq : (m.after (q - p)).cpu.pc = target
  link_eq : ((m.after (q - p)).cpu.reg linkReg).toNat = q
  stack_eq : (m.after (q - p)).cpu.reg stackReg = m.cpu.reg stackReg + 1
  reg_eq : ∀ s, s ≠ linkReg → s ≠ stackReg → (m.after (q - p)).cpu.reg s = m.cpu.reg s
  pushed_eq : ((m.after (q - p)).data.word (m.cpu.reg stackReg + 1)).toNat = q
  data_eq : ∀ b, b ≠ m.cpu.reg stackReg + 1 → (m.after (q - p)).data.word b = m.data.word b
  retired : ∀ j, j + 1 < q - p → ∃ t, m.stepAt j = .retired t
  /-- The jump halts the machine only if it is its own target. -/
  last : ∃ t, m.stepAt (q - p - 1) = if target.toNat + 1 = q then .halted t else .retired t

/-- The run of a return. -/
structure ReturnRun (m : Machine) (p : Nat) : Prop where
  pc_eq : (m.after 3).cpu.pc = m.data.word (m.cpu.reg stackReg)
  link_eq : (m.after 3).cpu.reg linkReg = m.data.word (m.cpu.reg stackReg)
  stack_eq : (m.after 3).cpu.reg stackReg = m.cpu.reg stackReg - 1
  reg_eq : ∀ s, s ≠ linkReg → s ≠ stackReg → (m.after 3).cpu.reg s = m.cpu.reg s
  data_eq : (m.after 3).data = m.data
  retired : ∀ j, j < 2 → ∃ t, m.stepAt j = .retired t
  last : ∃ t, m.stepAt 2 = if (m.data.word (m.cpu.reg stackReg)).toNat = p + 2 then .halted t else .retired t

/-- Where a call by register `r` goes, with its return address at `q`: by then the call has put
the return address into the link register and has moved the stack pointer. -/
def callTarget (m : Machine) (q : Nat) (r : Reg) : UInt16 :=
  if r = linkReg then UInt16.ofNat q else if r = stackReg then m.cpu.reg stackReg + 1 else m.cpu.reg r

section

variable {source : String} {a : Assembly} (h : assemble source = .ok a) {n : Nat}

include h

theorem call_run {r : Reg} (hs : Source.Holds source n (.call (.call r))) {m : Machine} (hm : m.AtLine a n) :
    m.CallRun (a.addressOf n) (a.addressBehind n) (m.callTarget (a.addressBehind n) r) := by
  obtain ⟨value, width, hvalue, hfit, -, hcode⟩ := Assembly.code_of_call h hs
  have hbehind := hcode.behind
  rw [List.length_append, Assembly.length_loadCode hfit] at hbehind
  change a.addressBehind n = a.addressOf n + (width + 3) at hbehind
  have hlt := value.toNat_lt
  obtain ⟨hload, htail⟩ := (hm.program_eq ▸ hcode.hasCode : m.program.HasCode _ _).of_append
  rw [Assembly.length_loadCode hfit] at htail
  have hl := after_loadCode hload hfit (by rw [hm.pc_eq]; omega)
  obtain ⟨hreg, hdata, hpc, hret, hlast⟩ := after_callTail (m := m.after width) (r := r)
    (by rwa [program_after]) (by rw [hl.pc_eq]; omega)
  -- The load wrote the link register alone, so the rest of the call sees the caller's stack pointer.
  simp only [← after_add, ← stepAt_add] at hreg hdata hpc hret hlast
  rw [hl.reg_eq stackReg (by decide)] at hreg hdata
  rw [hl.value_eq, hl.data_eq] at hdata
  have htarget : (m.after (width + 3)).cpu.reg r = m.callTarget (a.addressBehind n) r := by
    rw [hreg, callTarget]
    by_cases hlink : r = linkReg
    · subst hlink
      rw [if_neg (by decide), if_pos rfl, hl.value_eq, ← UInt16.ofNat_toNat (x := value), hvalue, hbehind]
      rfl
    · by_cases hstack : r = stackReg
      · rw [if_pos hstack, if_neg hlink, if_pos hstack]
      · rw [if_neg hstack, if_neg hlink, if_neg hstack, hl.reg_eq r hlink]
  rw [htarget] at hpc hlast
  have hsteps : a.addressBehind n - a.addressOf n = width + 3 := by omega
  refine ⟨?_, ?_, ?_, fun s hlink hstack => ?_, ?_, fun b hb => ?_, fun j hj => ?_, ?_⟩ <;> rw [hsteps] at *
  · exact hpc
  · rw [hreg, if_neg (by decide), hl.value_eq]
    omega
  · rw [hreg, if_pos rfl]
  · rw [hreg, if_neg hstack, hl.reg_eq s hlink]
  · rw [hdata, DataMemory.word_setWord, if_pos rfl]
    omega
  · rw [hdata, DataMemory.word_setWord, if_neg hb]
  · rcases Nat.lt_or_ge j width with hj' | hj'
    · exact hl.retired j hj' (by omega)
    · obtain ⟨j, rfl⟩ := Nat.exists_eq_add_of_le hj'
      exact hret j (by omega)
  · obtain ⟨t, ht⟩ := hlast
    refine ⟨t, ht.trans ?_⟩
    congr 1
    rw [eq_iff_iff]
    omega

theorem return_run (hs : Source.Holds source n (.call .ret)) {m : Machine} (hm : m.AtLine a n) :
    m.ReturnRun (a.addressOf n) := by
  have hcode := Assembly.code_of_ret h hs
  obtain ⟨hreg, hdata, hpc, hret, hlast⟩ := after_returnSequence (hm.program_eq ▸ hcode.hasCode) hm.pc_eq
  have hlink : (m.after 3).cpu.reg linkReg = m.data.word (m.cpu.reg stackReg) := by
    rw [hreg, if_neg (by decide), if_pos rfl]
  refine ⟨hpc.trans hlink, hlink, ?_, fun s hl hs => ?_, hdata, hret, hlink ▸ hlast⟩
  · rw [hreg, if_pos rfl]
  · rw [hreg, if_neg hs, if_neg hl]

end

end Machine

/-! ## There and back -/

theorem callTarget_of_le {m : Machine} {q : Nat} {r : Reg} (hr : r.val ≤ 5) : m.callTarget q r = m.cpu.reg r := by
  have hlink : r ≠ linkReg := by rintro rfl; exact absurd hr (by decide)
  have hstack : r ≠ stackReg := by rintro rfl; exact absurd hr (by decide)
  rw [Machine.callTarget, if_neg hlink, if_neg hstack]

/-- A call by one of the first six registers goes where the register points to and leaves the way
back, a return goes back where the stack points to, and so a return that finds the stack as a call
left it goes to the address behind the call. -/
theorem call_return_round_trip {source : String} {a : Assembly} (h : assemble source = .ok a) :
    (∀ n r, Source.Holds source n (.call (.call r)) → r.val ≤ 5 → ∀ m : Machine, m.AtLine a n →
      m.CallRun (a.addressOf n) (a.addressBehind n) (m.cpu.reg r)) ∧
    (∀ k, Source.Holds source k (.call .ret) → ∀ m : Machine, m.AtLine a k → m.ReturnRun (a.addressOf k)) ∧
    ∀ n k r, Source.Holds source n (.call (.call r)) → r.val ≤ 5 → Source.Holds source k (.call .ret) →
      ∀ m : Machine, m.AtLine a n → ∀ i, (m.after i).cpu.pc.toNat = a.addressOf k →
        (m.after i).cpu.reg stackReg = m.cpu.reg stackReg + 1 →
        ((m.after i).data.word (m.cpu.reg stackReg + 1)).toNat = a.addressBehind n →
        (m.after (i + 3)).cpu.pc.toNat = a.addressBehind n ∧
          (m.after (i + 3)).cpu.reg stackReg = m.cpu.reg stackReg := by
  refine ⟨fun n r hs hr m hm => ?_, fun k hs m hm => Machine.return_run h hs hm, ?_⟩
  · rw [← callTarget_of_le hr]
    exact Machine.call_run h hs hm
  · intro n k r _ _ hk m hm i hpc hstack hword
    have hat : (m.after i).AtLine a k := ⟨(m.program_after i).trans hm.program_eq, hpc⟩
    have hrun := Machine.return_run h hk hat
    have hback := hrun.pc_eq
    have htop := hrun.stack_eq
    rw [← Machine.after_add, hstack] at hback htop
    exact ⟨by rw [hback, hword], by rw [htop, UInt16.add_sub_cancel]⟩

/-- A routine that consists of a return comes back from a call by `r1`. -/
theorem round_trip_of_return : ∃ a, assemble "%CALL r1\nmova r0,r0\n%RET" = .ok a ∧
    let m : Machine := ⟨⟨0, .empty, #v[0, 5, 0, 0, 0, 0, 0, 0]⟩, a.program, .empty, .idle⟩
    (m.after 4).cpu.pc = 5 ∧ (m.after 7).cpu.pc = 4 ∧ (m.after 7).cpu.reg stackReg = 0 := by
  obtain ⟨a, ha, hp⟩ := exists_ok_of_any
    (x := assemble "%CALL r1\nmova r0,r0\n%RET")
    (p := fun a => a.addressOf 1 = 0 ∧ a.addressBehind 1 = 4 ∧ a.addressOf 3 = 5) (by decide +kernel)
  obtain ⟨hn, hq, hk⟩ : a.addressOf 1 = 0 ∧ a.addressBehind 1 = 4 ∧ a.addressOf 3 = 5 := by simpa using hp
  refine ⟨a, ha, ?_⟩
  intro m
  have hcall : Source.Holds "%CALL r1\nmova r0,r0\n%RET" 1 (.call (.call 1)) :=
    ⟨_, rfl, Statement.read_eq_ok_iff.1 rfl⟩
  have hret : Source.Holds "%CALL r1\nmova r0,r0\n%RET" 3 (.call .ret) :=
    ⟨_, rfl, Statement.read_eq_ok_iff.1 rfl⟩
  have hm : m.AtLine a 1 := ⟨rfl, hn.symm⟩
  obtain ⟨hcalls, -, htrip⟩ := call_return_round_trip ha
  have hrun := hcalls 1 1 hcall (by decide) m hm
  rw [hn, hq] at hrun
  obtain ⟨hpc, hstack⟩ := htrip 1 3 1 hcall (by decide) hret m hm 4 (by rw [hrun.pc_eq, hk]; rfl) hrun.stack_eq
    (by rw [hrun.pushed_eq, hq])
  exact ⟨hrun.pc_eq, UInt16.toNat_inj.1 (hpc.trans hq), hstack⟩

/-! ## Where calls go -/

/-- A call goes where its register points to if that is none of the registers that the call itself
uses. A call by the link register goes on behind its own code, and one by the stack pointer goes
to the address that the stack pointer has behind the push. -/
theorem call_goes_to_register {source : String} {a : Assembly} (h : assemble source = .ok a) {n : Nat} {r : Reg}
    (hs : Source.Holds source n (.call (.call r))) {m : Machine} (hm : m.AtLine a n) :
    (r.val ≤ 5 → (m.after (a.addressBehind n - a.addressOf n)).cpu.pc = m.cpu.reg r) ∧
      (r = linkReg → (m.after (a.addressBehind n - a.addressOf n)).cpu.pc.toNat = a.addressBehind n) ∧
      (r = stackReg → (m.after (a.addressBehind n - a.addressOf n)).cpu.pc = m.cpu.reg stackReg + 1) := by
  have hrun := Machine.call_run h hs hm
  refine ⟨fun hr => ?_, fun hr => ?_, fun hr => ?_⟩
  · rw [hrun.pc_eq, callTarget_of_le hr]
  · have hlink := hrun.link_eq
    have hlt : a.addressBehind n < 65536 := hlink ▸ UInt16.toNat_lt _
    rw [hrun.pc_eq, Machine.callTarget, if_pos hr, UInt16.toNat_ofNat_of_lt' hlt]
  · rw [hrun.pc_eq, Machine.callTarget, if_neg (by rw [hr]; decide), if_pos hr]

/-- A call by the link register goes on behind itself. -/
theorem call_by_link_goes_on : ∃ a, assemble "%CALL r6" = .ok a ∧
    let m : Machine := ⟨⟨0, .empty, #v[0, 0, 0, 0, 0, 0, 100, 0]⟩, a.program, .empty, .idle⟩
    (m.after 4).cpu.pc = 4 := by
  obtain ⟨a, ha, hp⟩ := exists_ok_of_any (x := assemble "%CALL r6")
    (p := fun a => a.addressOf 1 = 0 ∧ a.addressBehind 1 = 4) (by decide +kernel)
  obtain ⟨hn, hq⟩ : a.addressOf 1 = 0 ∧ a.addressBehind 1 = 4 := by simpa using hp
  refine ⟨a, ha, ?_⟩
  intro m
  have hpc := (call_goes_to_register ha (n := 1) (r := linkReg) ⟨_, rfl, Statement.read_eq_ok_iff.1 rfl⟩
    (m := m) ⟨rfl, hn.symm⟩).2.1 rfl
  rw [hn, hq] at hpc
  exact UInt16.toNat_inj.1 hpc

/-- Not every register holds the address of a routine until the jump: the link register is
overwritten by the return address. -/
theorem call_misses_link_register : ¬ ∀ (source : String) (a : Assembly), assemble source = .ok a →
    ∀ (n : Nat) (r : Reg), Source.Holds source n (.call (.call r)) → ∀ m : Machine, m.AtLine a n →
      (m.after (a.addressBehind n - a.addressOf n)).cpu.pc = m.cpu.reg r := by
  intro hall
  obtain ⟨a, ha, hp⟩ := exists_ok_of_any (x := assemble "%CALL r6")
    (p := fun a => a.addressOf 1 = 0 ∧ a.addressBehind 1 = 4) (by decide +kernel)
  obtain ⟨hn, hq⟩ : a.addressOf 1 = 0 ∧ a.addressBehind 1 = 4 := by simpa using hp
  have hs : Source.Holds "%CALL r6" 1 (.call (.call linkReg)) := ⟨_, rfl, Statement.read_eq_ok_iff.1 rfl⟩
  let m : Machine := ⟨⟨0, .empty, #v[0, 0, 0, 0, 0, 0, 100, 0]⟩, a.program, .empty, .idle⟩
  have hm : m.AtLine a 1 := ⟨rfl, hn.symm⟩
  have hpc := (Machine.call_run ha hs hm).pc_eq
  rw [hall _ a ha 1 linkReg hs m hm, hq] at hpc
  change (100 : UInt16) = UInt16.ofNat 4 at hpc
  exact absurd hpc (by decide)

end Isa16
