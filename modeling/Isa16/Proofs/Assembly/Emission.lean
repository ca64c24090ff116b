import Mathlib.Algebra.GroupWithZero.Nat
import Isa16.Proofs.Assembly.Code
/-!
# The code of laid out lines

Laid out lines are read one after the other, each at the address behind the
ones before it (`Emits`). Building the code is just that, and it fails at the
first line that has no reading (`emits_of_foldlM`, `foldlM_of_emits`,
`foldlM_error`).
-/

namespace Isa16.Assembly

/-! ## Reading lines -/

/-- The laid out line is an instruction at an address. -/
def Line.Reads (symbols : SymbolTable) (addr : Nat) : Line → Instruction → Prop
  | .note _, _ | .label _, _ => False
  | .made j, i => j = i
  | .written text, i => readInstruction symbols addr (Text.code text.toList) = .ok i

/-- The instructions that laid out lines come to at an address. -/
inductive Emits (symbols : SymbolTable) : Nat → List Line → List Instruction → Prop
  | nil {addr : Nat} : Emits symbols addr [] []
  | silent {addr : Nat} {l : Line} {lines is} (hw : l.width = 0) (rest : Emits symbols addr lines is) :
      Emits symbols addr (l :: lines) is
  | read {addr : Nat} {l : Line} {i : Instruction} {lines is} (hi : l.Reads symbols addr i)
      (rest : Emits symbols (addr + 1) lines is) : Emits symbols addr (l :: lines) (i :: is)

theorem Line.Reads.width_eq {symbols : SymbolTable} {addr : Nat} {l : Line} {i : Instruction}
    (h : l.Reads symbols addr i) : l.width = 1 := by
  cases l with
  | note _ | label _ => exact h.elim
  | made _ | written _ => rfl

namespace Emits

variable {symbols : SymbolTable} {addr : Nat} {lines : List Line} {is : List Instruction}

theorem length_eq (h : Emits symbols addr lines is) : is.length = (lines.map Line.width).sum := by
  induction h with
  | nil => rfl
  | silent hw _ ih => rw [List.map_cons, List.sum_cons, hw, Nat.zero_add, ih]
  | read hi _ ih => rw [List.map_cons, List.sum_cons, hi.width_eq, Nat.add_comm, List.length_cons, ih]

theorem append {more : List Line} {js : List Instruction} (h : Emits symbols addr lines is)
    (hm : Emits symbols (addr + is.length) more js) : Emits symbols addr (lines ++ more) (is ++ js) := by
  induction h with
  | nil => exact hm
  | silent hw _ ih => exact .silent hw (ih hm)
  | read hi _ ih => exact .read hi (ih (by rwa [Nat.add_assoc, Nat.add_comm 1]))

theorem split {more : List Line} (h : Emits symbols addr (lines ++ more) is) :
    ∃ us vs, is = us ++ vs ∧ Emits symbols addr lines us ∧ Emits symbols (addr + us.length) more vs := by
  induction lines generalizing addr is with
  | nil => exact ⟨[], is, rfl, .nil, h⟩
  | cons l lines ih =>
    cases h with
    | silent hw rest =>
      obtain ⟨us, vs, rfl, hu, hv⟩ := ih rest
      exact ⟨us, vs, rfl, .silent hw hu, hv⟩
    | read hi rest =>
      obtain ⟨us, vs, rfl, hu, hv⟩ := ih rest
      exact ⟨_ :: us, vs, rfl, .read hi hu, by rwa [List.length_cons, Nat.add_comm us.length, ← Nat.add_assoc]⟩

/-- Each instruction is what some line reads as, at the address of the instruction. -/
theorem exists_line (h : Emits symbols addr lines is) {k : Nat} {i : Instruction} (hk : is[k]? = some i) :
    ∃ l ∈ lines, l.Reads symbols (addr + k) i := by
  induction h generalizing k with
  | nil => cases hk
  | silent _ _ ih =>
    obtain ⟨l, hl, hr⟩ := ih hk
    exact ⟨l, by simp [hl], hr⟩
  | read hi _ ih =>
    cases k with
    | zero =>
      cases hk
      exact ⟨_, by simp, hi⟩
    | succ k =>
      obtain ⟨l, hl, hr⟩ := ih hk
      exact ⟨l, by simp [hl], by rwa [Nat.add_assoc, Nat.add_comm 1] at hr⟩

/-- A line is silent, or reads as the instruction at its address. -/
theorem cases_of_mem (h : Emits symbols addr lines is) {x : Nat × Line} (hx : x ∈ addressed Line.width addr lines) :
    x.2.width = 0 ∨ addr ≤ x.1 ∧ ∃ i, is[x.1 - addr]? = some i ∧ x.2.Reads symbols x.1 i := by
  induction h with
  | nil => simp at hx
  | @silent addr _ _ _ hw _ ih =>
    rw [addressed_cons, hw] at hx
    rcases List.mem_cons.1 hx with rfl | hx
    · exact .inl hw
    · exact ih hx
  | @read addr _ i _ is hi _ ih =>
    rw [addressed_cons, hi.width_eq] at hx
    rcases List.mem_cons.1 hx with rfl | hx
    · exact .inr ⟨Nat.le_refl _, i, by simp, hi⟩
    · refine (ih hx).imp_right fun ⟨hle, j, hj, hread⟩ => ⟨by omega, j, ?_, hread⟩
      rw [show x.1 - addr = x.1 - (addr + 1) + 1 by omega]
      exact hj

/-- Lines can be replaced one by one by lines that read the same. -/
theorem map {symbols' : SymbolTable} {f : Nat × Line → Line} (h : Emits symbols addr lines is)
    (hs : ∀ x ∈ addressed Line.width addr lines, x.2.width = 0 → (f x).width = 0)
    (hr : ∀ x ∈ addressed Line.width addr lines, ∀ i, x.2.Reads symbols x.1 i → (f x).Reads symbols' x.1 i) :
    Emits symbols' addr ((addressed Line.width addr lines).map f) is := by
  induction h with
  | nil => exact .nil
  | silent hw _ ih =>
    rw [addressed_cons, hw] at hs hr ⊢
    obtain ⟨hs, hs'⟩ := List.forall_mem_cons.1 hs
    exact .silent (hs hw) (ih hs' (List.forall_mem_cons.1 hr).2)
  | read hi _ ih =>
    rw [addressed_cons, hi.width_eq] at hs hr ⊢
    obtain ⟨hr, hr'⟩ := List.forall_mem_cons.1 hr
    exact .read (hr _ hi) (ih (List.forall_mem_cons.1 hs).2 hr')

end Emits

/-! ## Building the code -/

/-- The instructions of code, in the order of their addresses. -/
def Code.instructions (c : Code) : List Instruction := c.entries.toList.map (·.val)

theorem Code.length_instructions (c : Code) : c.instructions.length = c.size := by
  simp [instructions, size]

theorem Code.words_eq (c : Code) : c.words.toList = c.instructions.map (·.word) := by
  simp [words, instructions]

section

variable {symbols : SymbolTable} {lines : List (Numbered Line)} {c c' : Code} {is : List Instruction}

theorem instructions_of_entries {es : List (Numbered Instruction)}
    (h : c'.entries.toList = c.entries.toList ++ es) : c'.instructions = c.instructions ++ es.map (·.val) := by
  rw [Code.instructions, h, List.map_append, Code.instructions]

theorem append_of_read {n : Nat} {read : Nat → Except Cause Instruction} {i : Instruction} (hlt : c.size < 65536)
    (h : read c.size = .ok i) :
    ∃ c', c.append n read = .ok c' ∧ c'.entries.toList = c.entries.toList ++ [⟨n, i⟩] := by
  unfold Code.size at h hlt
  unfold Code.append
  rw [dif_pos hlt, h]
  exact ⟨_, rfl, by simp⟩

theorem append_error {n : Nat} {read : Nat → Except Cause Instruction} {cause : Cause} (hlt : c.size < 65536)
    (h : read c.size = .error cause) : c.append n read = .error ⟨n, cause⟩ := by
  unfold Code.size at h hlt
  unfold Code.append
  rw [dif_pos hlt, h]
  rfl

theorem appendLine_of_silent {x : Numbered Line} (h : x.val.width = 0) : c.appendLine symbols x = .ok c := by
  obtain ⟨n, l⟩ := x
  cases l with
  | note _ | label _ => rfl
  | made _ | written _ => cases h

theorem appendLine_of_reads {x : Numbered Line} {i : Instruction} (hlt : c.size < 65536)
    (h : x.val.Reads symbols c.size i) :
    ∃ c', c.appendLine symbols x = .ok c' ∧ c'.entries.toList = c.entries.toList ++ [⟨x.line, i⟩] := by
  obtain ⟨n, l⟩ := x
  cases l with
  | note _ | label _ => exact h.elim
  | made j =>
    rw [Code.appendLine]
    exact append_of_read hlt (congrArg Except.ok h)
  | written text =>
    rw [Code.appendLine]
    exact append_of_read hlt h

theorem appendLine_eq_ok {x : Numbered Line} (h : c.appendLine symbols x = .ok c') :
    (x.val.width = 0 ∧ c' = c) ∨
      ∃ i, x.val.Reads symbols c.size i ∧ c'.entries.toList = c.entries.toList ++ [⟨x.line, i⟩] := by
  obtain ⟨n, l⟩ := x
  cases l with
  | note _ | label _ =>
    cases h
    exact .inl ⟨rfl, rfl⟩
  | made j =>
    rw [Code.appendLine] at h
    obtain ⟨i, hi, h⟩ := append_eq_ok h
    exact .inr ⟨i, Except.ok.inj hi, h⟩
  | written text =>
    rw [Code.appendLine] at h
    obtain ⟨i, hi, h⟩ := append_eq_ok h
    exact .inr ⟨i, hi, h⟩

theorem size_of_instructions (h : c'.instructions = c.instructions ++ is) : c'.size = c.size + is.length := by
  rw [← c'.length_instructions, h, List.length_append, c.length_instructions]

theorem emits_of_foldlM (h : lines.foldlM (Code.appendLine symbols) c = .ok c') :
    ∃ is, Emits symbols c.size (lines.map (·.val)) is ∧ c'.instructions = c.instructions ++ is := by
  induction lines generalizing c with
  | nil =>
    cases h
    exact ⟨[], .nil, by simp⟩
  | cons x lines ih =>
    rw [List.foldlM_cons] at h
    obtain ⟨d, hd, h⟩ := bind_eq_ok_iff.1 h
    obtain ⟨is, his, hc'⟩ := ih h
    obtain ⟨hw, rfl⟩ | ⟨i, hi, hd⟩ := appendLine_eq_ok hd
    · exact ⟨is, .silent hw his, hc'⟩
    · have hinst := instructions_of_entries hd
      rw [size_of_instructions hinst] at his
      exact ⟨i :: is, .read hi his, by rw [hc', hinst, List.append_assoc]; rfl⟩

theorem foldlM_of_emits (h : Emits symbols c.size (lines.map (·.val)) is) (hle : c.size + is.length ≤ 65536) :
    ∃ c', lines.foldlM (Code.appendLine symbols) c = .ok c' ∧ c'.instructions = c.instructions ++ is := by
  induction lines generalizing c is with
  | nil =>
    cases h
    exact ⟨c, rfl, by simp⟩
  | cons x lines ih =>
    rw [List.map_cons] at h
    cases h with
    | silent hw rest =>
      obtain ⟨c', hc', hinst⟩ := ih rest hle
      exact ⟨c', by rw [List.foldlM_cons, appendLine_of_silent hw]; exact hc', hinst⟩
    | @read _ _ i _ is hi rest =>
      rw [List.length_cons] at hle
      obtain ⟨d, hd, hentries⟩ := appendLine_of_reads (by omega) hi
      have hdinst := instructions_of_entries hentries
      have hsize := size_of_instructions hdinst
      obtain ⟨c', hc', hinst⟩ := ih (hsize ▸ rest) (by rw [hsize, List.length_map, List.length_singleton]; omega)
      exact ⟨c', by rw [List.foldlM_cons, hd]; exact hc', by rw [hinst, hdinst, List.append_assoc]; rfl⟩

/-- The code of lines is refused at the first line that is refused. -/
theorem foldlM_error {n : Nat} {text : String} {cause : Cause} {behind : List (Numbered Line)}
    (h : Emits symbols c.size (lines.map (·.val)) is) (hlt : c.size + is.length < 65536)
    (he : readInstruction symbols (c.size + is.length) (Text.code text.toList) = .error cause) :
    (lines ++ ⟨n, .written text⟩ :: behind).foldlM (Code.appendLine symbols) c = .error ⟨n, cause⟩ := by
  obtain ⟨d, hd, hinst⟩ := foldlM_of_emits h (Nat.le_of_lt hlt)
  rw [← size_of_instructions hinst] at hlt he
  have happend : d.appendLine symbols ⟨n, .written text⟩ = .error ⟨n, cause⟩ := by
    rw [Code.appendLine]
    exact append_error hlt he
  rw [List.foldlM_append, hd]
  show List.foldlM _ d _ = _
  rw [List.foldlM_cons, happend]
  rfl

end

end Isa16.Assembly
