import Isa16.Proofs.Assembly.Branch
import Isa16.Proofs.Execution.Load
import Isa16.Proofs.Processor.InstructionSet
/-!
# Branches reach their labels

A step on a branch goes to the address that its distance leads to, or moves on
(`step_of_branch`). The distance of a branch to a symbol leads to the symbol,
so a machine that stands at such a line of an assembled source goes to the
label (`branch_reaches_label`).
-/

namespace Isa16

open Isa16.Assembly
open Isa16.Source (Statement)

/-! ## Steps -/

/-- The value of its register makes the operation branch. -/
def Opcode.Takes (value : UInt16) : Opcode → Prop
  | .brz => value = 0
  | .brn => value.toNat.testBit 15 = true
  | _ => False

namespace Machine

/-- What a step on a branch to `t` does, by the value of register `r`. -/
structure BranchStep (m : Machine) (op : Opcode) (r : Reg) (t : UInt16) : Prop where
  regs_eq : m.step.2.cpu.regs = m.cpu.regs
  data_eq : m.step.2.data = m.data
  taken : op.Takes (m.cpu.reg r) →
    m.step.2.cpu.pc = t ∧ ∃ trace, m.step.1 = if t.toNat = m.cpu.pc.toNat then .halted trace else .retired trace
  passed : ¬ op.Takes (m.cpu.reg r) →
    (m.cpu.pc.toNat < 65535 → m.step.2.cpu.pc.toNat = m.cpu.pc.toNat + 1 ∧ ∃ trace, m.step.1 = .retired trace) ∧
    (m.cpu.pc = 0xFFFF → m.step.2.cpu.pc = 0xFFFF ∧ ∃ trace, m.step.1 = .halted trace)

theorem effect_of_taken {cpu : Cpu} {i : Instruction} (h : i.opcode.Takes (cpu.reg i.aa)) :
    cpu.effect i = .branch (some (cpu.branchTarget i)) := by
  obtain ⟨op, da, aa, ba⟩ := i
  cases op with
  | brz => exact congrArg Effect.branch (if_pos h)
  | brn => exact congrArg Effect.branch (if_pos ((word_sign _).2 h))
  | _ => exact h.elim

theorem effect_of_passed {cpu : Cpu} {i : Instruction} (hop : i.opcode = .brz ∨ i.opcode = .brn)
    (h : ¬ i.opcode.Takes (cpu.reg i.aa)) : cpu.effect i = .branch none := by
  obtain ⟨op, da, aa, ba⟩ := i
  rcases hop with rfl | rfl
  · exact congrArg Effect.branch (if_neg h)
  · exact congrArg Effect.branch (if_neg fun hsign => h ((word_sign _).1 hsign))

/-- A branch goes where its displacement leads if it is taken, and otherwise moves on. -/
theorem step_of_branch {m : Machine} {i : Instruction} {t : UInt16}
    (hf : m.program.fetch m.cpu.pc = some i.word) (hop : i.opcode = .brz ∨ i.opcode = .brn)
    (hoffset : i.offset = t.toNat - m.cpu.pc.toNat) : m.BranchStep i.opcode i.aa t := by
  have hstep := step_performs hf
  have htarget : m.cpu.branchTarget i = t := by
    have hword := word_branchTarget m.cpu i
    have ht := t.toNat_lt
    apply UInt16.toNat_inj.1
    omega
  by_cases htakes : i.opcode.Takes (m.cpu.reg i.aa)
  · rw [effect_of_taken htakes, htarget] at hstep
    refine ⟨hstep.regs_eq, hstep.data_eq, fun _ => ?_, fun h => absurd htakes h⟩
    exact hstep.jumps
  · rw [effect_of_passed hop htakes] at hstep
    refine ⟨hstep.regs_eq, hstep.data_eq, fun h => absurd h htakes, fun _ => ⟨hstep.advances, fun hlast => ?_⟩⟩
    obtain ⟨hpc, -, hhalted⟩ := hstep.moves
    rw [hlast] at hpc hhalted
    exact ⟨UInt16.toNat_inj.1 hpc, hhalted rfl⟩

end Machine

/-! ## Branches of a source -/

/-- A branch to a symbol goes to the line of the label. Every such line of an accepted source has
the distance to the label, which fits six bits, and a machine at the line goes to the label if the
register says so, and only then. A source whose code comes to a branch to a symbol is refused for its
distance exactly when that does not fit. -/
theorem branch_reaches_label {text symbol : String} {op : Opcode} {r : Reg} (hb : SymbolicBranch text op r symbol)
    (source : String) (n : Nat) :
    (∀ a, assemble source = .ok a → Source.Holds source n (.instruction text) →
      ∃ t i k, a.symbols[symbol]? = some t ∧ Source.HasLabel source k symbol ∧ t.toNat = a.addressOf k ∧
        a.program.words[a.addressOf n]? = some (Instruction.word i) ∧ i.opcode = op ∧ i.aa = r ∧
        i.offset = t.toNat - a.addressOf n ∧ -32 ≤ i.offset ∧ i.offset ≤ 31 ∧
        ∀ m : Machine, m.AtLine a n → m.BranchStep op r t) ∧
    ∀ items l pre post c t, itemsOf source = .ok items → Layout.ofItems items = .ok l →
      l.lines = pre ++ ⟨n, .written text⟩ :: post → pre.foldlM (Code.appendLine l.symbols) .empty = .ok c →
      l.symbols[symbol]? = some t → ∀ d : Int,
        (c.appendLine l.symbols ⟨n, .written text⟩ = .error ⟨n, .branchTooFar d⟩ ↔
          d = t.toNat - c.size ∧ ¬ (-32 ≤ d ∧ d ≤ 31)) ∧
        (d = t.toNat - c.size → ¬ (-32 ≤ d ∧ d ≤ 31) → assemble source = .error ⟨n, .branchTooFar d⟩) := by
  constructor
  · intro a h hs
    obtain ⟨t, i, ht, hcode, rfl, rfl, hoffset, hlow, hhigh⟩ := code_of_branch hb h hs
    have hmem : symbol ∈ a.symbols := by
      rw [Std.TreeMap.mem_iff_isSome_getElem?, ht]
      rfl
    obtain ⟨k, hk⟩ := (mem_symbols_iff h symbol).1 hmem
    obtain ⟨addr, haddr, hline⟩ := symbol_of_label h hk
    obtain rfl : t = addr := by
      rw [ht] at haddr
      exact Option.some.inj haddr
    have hword : a.program.words[a.addressOf n]? = some i.word := hcode.hasCode 0 i rfl
    refine ⟨t, i, k, ht, hk, hline, hword, rfl, rfl, hoffset, hlow, hhigh, fun m hm => ?_⟩
    refine Machine.step_of_branch ?_ hb.1 (by rw [hm.pc_eq, hoffset])
    rw [Program.fetch, hm.program_eq, hm.pc_eq]
    exact hword
  · intro items l pre post c t hitems hl hlines hc ht d
    have hlt := size_lt_of_layout hl hlines rfl hc
    have hrefused := appendLine_branch_iff hb ht hlt n d
    exact ⟨hrefused, fun hd hfar => assemble_of_layout hitems hl hlines hc (hrefused.2 ⟨hd, hfar⟩)⟩

/-- A branch to itself, and one over two long loads, which is too far. -/
theorem branch_to_self_and_too_far :
    (∃ a t, assemble ".l:\nbrz r1,.l" = .ok a ∧ a.symbols["l"]? = some t ∧
      ∀ m : Machine, m.AtLine a 2 → m.BranchStep .brz 1 t) ∧
    assemble "BRN r2, .x // far\n%SLDI r1,65533\n%SLDI r1,65533\n.x:" = .error ⟨1, .branchTooFar 39⟩ := by
  constructor
  · obtain ⟨a, ha, -⟩ := exists_ok_of_any (x := assemble ".l:\nbrz r1,.l") (p := fun _ => true) (by decide +kernel)
    have hs : Source.Holds ".l:\nbrz r1,.l" 2 (.instruction "brz r1,.l") := ⟨_, rfl, Statement.read_eq_ok_iff.1 rfl⟩
    have hb : SymbolicBranch "brz r1,.l" .brz 1 "l" :=
      ⟨.inl rfl, "brz".toList, ' ', "r1,.l".toList, "r1".toList, by decide, by decide, rfl, by decide,
        ⟨'r', .inl rfl, rfl⟩, by decide⟩
    obtain ⟨t, _, _, ht, -, -, -, -, -, -, -, -, hstep⟩ := (branch_reaches_label hb _ _).1 a ha hs
    exact ⟨a, t, ha, ht, hstep⟩
  · obtain ⟨⟨items, l⟩, hl, hp⟩ := exists_ok_of_any
      (x := do
        let items ← itemsOf "BRN r2, .x // far\n%SLDI r1,65533\n%SLDI r1,65533\n.x:"
        let l ← Layout.ofItems items
        return (items, l))
      (p := fun (_, l) => l.lines.head? = some ⟨1, .written "BRN r2, .x // far"⟩ ∧ l.symbols["x"]? = some 39)
      (by decide +kernel)
    obtain ⟨_, hitems, hl⟩ := bind_eq_ok_iff.1 hl
    obtain ⟨_, hlayout, hl⟩ := bind_eq_ok_iff.1 hl
    cases hl
    obtain ⟨hhead, ht⟩ := of_decide_eq_true hp
    have hb : SymbolicBranch "BRN r2, .x // far" .brn 2 "x" :=
      ⟨.inr rfl, "BRN".toList, ' ', "r2, .x".toList, "r2".toList, by decide, by decide, rfl, by decide,
        ⟨'r', .inl rfl, rfl⟩, by decide⟩
    obtain ⟨post, hlines⟩ := List.head?_eq_some_iff.1 hhead
    exact ((branch_reaches_label hb _ 1).2 items l [] post .empty 39 hitems hlayout hlines rfl ht 39).2 rfl (by decide)

end Isa16
