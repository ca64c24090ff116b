import Isa16.Proofs.Assembly.Consistent
import Isa16.Proofs.Assembly.Extent
import Isa16.Proofs.Assembly.Intermediate
/-!
# Branches to symbols

A branch that names a symbol is encoded by the distance from its own address to
that of the symbol, which has to fit six bits (`readInstruction_branch`). So
the code of an accepted source has every such branch with its distance
(`code_of_branch`), and a branch that is too far is what its source is refused
for (`appendLine_branch_iff`).
-/

namespace Isa16

open Isa16.Source (NamesReg)

namespace Assembly

/-! ## The written form -/

/-- The text is a branch to a symbol: the name of the operation in letters of either case, a
blank, a register and the symbol with a comma between them. Other blanks do not count, and neither
does a comment. -/
def SymbolicBranch (text : String) (op : Opcode) (r : Reg) (symbol : String) : Prop :=
  (op = .brz ∨ op = .brn) ∧ ∃ name blank rest reg, Text.code text.toList = name ++ blank :: rest ∧
    name.map Char.toLower = op.mnemonic.toList ∧ Text.isBlank blank ∧
    rest.filter (! Text.isBlank ·) = reg ++ ',' :: '.' :: symbol.toList ∧ NamesReg r reg ∧ ',' ∉ symbol.toList

section

variable {text symbol : String} {op : Opcode} {r : Reg} (hb : SymbolicBranch text op r symbol)

include hb

theorem cutInstruction_branch : ∃ name reg,
    cutInstruction (Text.code text.toList) = (name, [reg, '.' :: symbol.toList]) ∧
      Opcode.ofMnemonic? (String.ofList name) = some op ∧ NamesReg r reg := by
  obtain ⟨hop, name, blank, rest, reg, hcode, hname, hblank, hrest, hreg, hsymbol⟩ := hb
  -- The name of an operation has no blank, so the first word of the text is all of the name.
  have hword : ∀ c ∈ name, Text.isBlank c = false := by
    intro c hc
    by_contra hb
    have hb : Text.isBlank c = true := by simpa using hb
    have hmem : c ∈ op.mnemonic.toList := hname ▸ List.mem_map.2 ⟨c, hc, Text.toLower_of_blank hb⟩
    rw [((mnemonic_spec op).2 c hmem).1] at hb
    cases hb
  have hcut : Text.cutWord (name ++ blank :: rest) = (name, rest) :=
    Text.cutWord_eq_iff.2 ⟨hword, .inr ⟨blank, hblank, rfl⟩⟩
  have hcomma : ',' ∉ reg := by
    intro hc
    have hchar := (isToken_of_register (Source.register?_eq_some_iff.2 hreg)).chars _ hc
    exact absurd hchar (by decide)
  have hsplit : (reg ++ ',' :: '.' :: symbol.toList).splitOn ',' = [reg, '.' :: symbol.toList] := by
    have hjoin : reg ++ ',' :: '.' :: symbol.toList = [','].intercalate [reg, '.' :: symbol.toList] := by
      simp [List.intercalate]
    rw [hjoin, List.splitOn_intercalate]
    · simp [hcomma, hsymbol]
    · simp
  refine ⟨name, reg, ?_, ?_, hreg⟩
  · simp [cutInstruction, hcode, hcut, hrest, hsplit]
  · rw [Opcode.ofMnemonic?, String.toList_ofList, hname]
    rcases hop with rfl | rfl <;> decide

/-- A branch to a symbol gets the distance to it. -/
theorem readInstruction_branch (symbols : SymbolTable) (pc : Nat) :
    readInstruction symbols pc (Text.code text.toList) = match symbols[symbol]? with
      | some t => placeOffset ⟨op, 0, r, 0⟩ (t.toNat - pc)
      | none => .error (.undefinedSymbol symbol) := by
  obtain ⟨name, reg, hcut, hop, hreg⟩ := cutInstruction_branch hb
  have hread : Argument.read symbols reg = .ok (.register r) := by
    unfold Argument.read
    rw [Source.register?_eq_some_iff.2 hreg]
  simp only [readInstruction, hcut, hop, List.mapM_cons, hread, read_of_dot, String.ofList_toList]
  cases symbols[symbol]? with
  | none => rfl
  | some t => exact fill_branch pc hb.1 r (.address t)

/-- The code of an accepted source has a branch to a symbol with the distance to it. -/
theorem code_of_branch {source : String} {a : Assembly} (h : assemble source = .ok a) {n : Nat}
    (hs : Source.Holds source n (.instruction text)) :
    ∃ t i, a.symbols[symbol]? = some t ∧ a.CodeOf n [i] ∧ i.opcode = op ∧ i.aa = r ∧
      i.offset = t.toNat - a.addressOf n ∧ -32 ≤ i.offset ∧ i.offset ≤ 31 := by
  obtain ⟨i, hi, hcode⟩ := code_of_instruction h hs
  rw [readInstruction_branch hb] at hi
  cases ht : a.symbols[symbol]? with
  | none =>
    rw [ht] at hi
    cases hi
  | some t =>
    rw [ht] at hi
    dsimp only at hi
    obtain ⟨hlow, hhigh⟩ := offset_range hi
    rw [placeOffset, if_pos ⟨hlow, hhigh⟩] at hi
    cases hi
    refine ⟨t, _, rfl, hcode, rfl, rfl, displacement_split hlow hhigh, ?_⟩
    exact displacement_bounds _ _

end

/-! ## Branches that are too far -/

/-- There is an address for every line of a layout. -/
theorem size_lt_of_layout {items : List (Numbered Item)} {l : Layout} (hl : Layout.ofItems items = .ok l)
    {pre post : List (Numbered Line)} {x : Numbered Line} (hlines : l.lines = pre ++ x :: post)
    (hx : x.val.width = 1) {c : Code} (hc : pre.foldlM (Code.appendLine l.symbols) .empty = .ok c) :
    c.size < 65536 := by
  obtain ⟨is, his, hinst⟩ := emits_of_foldlM hc
  have hsize : c.size = is.length := by simpa [Code.empty, Code.size] using size_of_instructions hinst
  have hfit := width_lines_le hl
  rw [hlines, List.map_append, List.sum_append, List.map_cons, List.sum_cons, hx] at hfit
  have hlength := his.length_eq
  rw [List.map_map] at hlength
  have : (pre.map (Line.width ∘ (·.val))).sum = (pre.map (·.val.width)).sum := rfl
  omega

theorem append_placeOffset_iff {c : Code} (hlt : c.size < 65536) {n : Nat} {read : Nat → Except Cause Instruction}
    {i : Instruction} {distance : Int} (hread : read c.size = placeOffset i distance) (d : Int) :
    c.append n read = .error ⟨n, .branchTooFar d⟩ ↔ d = distance ∧ ¬ (-32 ≤ d ∧ d ≤ 31) := by
  by_cases hrange : -32 ≤ distance ∧ distance ≤ 31
  · rw [placeOffset, if_pos hrange] at hread
    obtain ⟨c', hc', -⟩ := append_of_read (n := n) hlt hread
    rw [hc']
    constructor
    · rintro ⟨⟩
    · rintro ⟨rfl, hfar⟩
      exact absurd hrange hfar
  · rw [placeOffset, if_neg hrange] at hread
    rw [append_error hlt hread, Except.error.injEq, Diagnostic.mk.injEq, Cause.branchTooFar.injEq]
    constructor
    · rintro ⟨-, rfl⟩
      exact ⟨rfl, hrange⟩
    · rintro ⟨rfl, -⟩
      exact ⟨rfl, rfl⟩

/-- A branch to a symbol is refused for its distance exactly when that does not fit. -/
theorem appendLine_branch_iff {symbols : SymbolTable} {text symbol : String} {op : Opcode} {r : Reg}
    (hb : SymbolicBranch text op r symbol) {t : UInt16} (ht : symbols[symbol]? = some t) {c : Code}
    (hlt : c.size < 65536) (n : Nat) (d : Int) :
    c.appendLine symbols ⟨n, .written text⟩ = .error ⟨n, .branchTooFar d⟩ ↔
      d = t.toNat - c.size ∧ ¬ (-32 ≤ d ∧ d ≤ 31) := by
  let read := fun pc => readInstruction symbols pc (Text.code text.toList)
  have hread : read c.size = placeOffset ⟨op, 0, r, 0⟩ (t.toNat - c.size) := by
    simp only [read, readInstruction_branch hb, ht]
  exact append_placeOffset_iff hlt hread d

/-- A source is refused for the first of its laid out lines that is. -/
theorem assemble_of_layout {source : String} {items : List (Numbered Item)} (hitems : itemsOf source = .ok items)
    {l : Layout} (hl : Layout.ofItems items = .ok l) {pre post : List (Numbered Line)} {x : Numbered Line}
    (hlines : l.lines = pre ++ x :: post) {c : Code} (hc : pre.foldlM (Code.appendLine l.symbols) .empty = .ok c)
    {d : Diagnostic} (hx : c.appendLine l.symbols x = .error d) : assemble source = .error d := by
  have hcode : Code.ofLayout l = .error d := by
    rw [Code.ofLayout, hlines, List.foldlM_append, hc]
    show List.foldlM _ c _ = _
    rw [List.foldlM_cons, hx]
    rfl
  simp only [assemble, hitems, hl, hcode, bind, Except.bind]

end Assembly

end Isa16
