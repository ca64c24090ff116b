import Mathlib.Data.List.Forall2
import Isa16.Assembly.Diagnostic
/-!
# Readings of lists

A stage of the assembler reads a list element by element in `Except`. When the
whole reading succeeds, each element was read: `mapM_eq_ok_iff` turns a reading
of a list into `List.Forall₂`, which the later modules cut, join and follow by
induction. When it fails, it fails at one element, and all elements before that
were read (`exists_of_mapM_error`, `exists_of_foldlM_error`).
-/

namespace Isa16

variable {α β γ ε : Type}

theorem bind_eq_ok_iff {x : Except ε α} {f : α → Except ε β} {b : β} :
    x >>= f = .ok b ↔ ∃ a, x = .ok a ∧ f a = .ok b := by
  cases x <;> simp [bind, Except.bind]

theorem map_eq_ok_iff {x : Except ε α} {f : α → β} {b : β} :
    x.map f = .ok b ↔ ∃ a, x = .ok a ∧ f a = b := by
  cases x <;> simp [Except.map]

/-- A value that was computed, and what a test says about it. -/
theorem exists_ok_of_any {x : Except ε α} {p : α → Bool} (h : x.toOption.any p = true) :
    ∃ a, x = .ok a ∧ p a = true := by
  cases x with
  | ok a => exact ⟨a, rfl, h⟩
  | error e => cases h

/-- A refusal that was computed. -/
theorem eq_error_of_test [DecidableEq ε] {x : Except ε α} {e : ε}
    (h : (match x with | .ok _ => false | .error e' => decide (e' = e)) = true) : x = .error e := by
  cases x with
  | ok a => cases h
  | error e' => rw [of_decide_eq_true h]

theorem atLine_eq_ok_iff {n : Nat} {x : Except Assembly.Cause α} {a : α} :
    Assembly.atLine n x = .ok a ↔ x = .ok a := by
  cases x <;> simp [Assembly.atLine]

/-- A list is read when each of its elements is. -/
theorem mapM_eq_ok_iff {f : α → Except ε β} {xs : List α} {ys : List β} :
    xs.mapM f = .ok ys ↔ List.Forall₂ (fun x y => f x = .ok y) xs ys := by
  induction xs generalizing ys with
  | nil => simp [pure, Except.pure, eq_comm]
  | cons x xs ih =>
    rw [List.mapM_cons, bind_eq_ok_iff, List.forall₂_cons_left_iff]
    constructor
    · rintro ⟨y, hy, h⟩
      obtain ⟨rest, hr, h⟩ := bind_eq_ok_iff.1 h
      cases h
      exact ⟨y, rest, hy, ih.1 hr, rfl⟩
    · rintro ⟨y, rest, hy, hr, rfl⟩
      exact ⟨y, hy, bind_eq_ok_iff.2 ⟨rest, ih.2 hr, rfl⟩⟩

/-- Lists whose elements are read alike are read alike. -/
theorem mapM_eq_mapM {f : α → Except ε β} {xs ys : List α} (h : List.Forall₂ (fun x y => f y = f x) xs ys) :
    ys.mapM f = xs.mapM f := by
  induction h with
  | nil => rfl
  | cons hx _ ih => rw [List.mapM_cons, List.mapM_cons, hx, ih]

/-! ## Readings that fail -/

theorem bind_eq_error_iff {x : Except ε α} {f : α → Except ε β} {e : ε} :
    x >>= f = .error e ↔ x = .error e ∨ ∃ a, x = .ok a ∧ f a = .error e := by
  cases x <;> simp [bind, Except.bind]

theorem map_eq_error_iff {x : Except ε α} {f : α → β} {e : ε} : x.map f = .error e ↔ x = .error e := by
  cases x <;> simp [Except.map]

theorem atLine_eq_error_iff {n : Nat} {x : Except Assembly.Cause α} {d : Assembly.Diagnostic} :
    Assembly.atLine n x = .error d ↔ d.line = n ∧ x = .error d.cause := by
  obtain ⟨line, cause⟩ := d
  cases x <;> simp [Assembly.atLine, eq_comm]

theorem exists_of_mapM_error {f : α → Except ε β} {xs : List α} {e : ε} (h : xs.mapM f = .error e) :
    ∃ pre x post ys, xs = pre ++ x :: post ∧ List.Forall₂ (fun x y => f x = .ok y) pre ys ∧ f x = .error e := by
  induction xs with
  | nil => cases h
  | cons x xs ih =>
    rw [List.mapM_cons] at h
    rcases bind_eq_error_iff.1 h with hx | ⟨y, hy, h⟩
    · exact ⟨[], x, xs, [], rfl, .nil, hx⟩
    · rcases bind_eq_error_iff.1 h with h | ⟨ys, -, h⟩
      · obtain ⟨pre, z, post, ys, rfl, hpre, hz⟩ := ih h
        exact ⟨x :: pre, z, post, y :: ys, rfl, .cons hy hpre, hz⟩
      · cases h

theorem exists_of_foldlM_error {f : β → α → Except ε β} {xs : List α} {b : β} {e : ε} (h : xs.foldlM f b = .error e) :
    ∃ pre x post c, xs = pre ++ x :: post ∧ pre.foldlM f b = .ok c ∧ f c x = .error e := by
  induction xs generalizing b with
  | nil => cases h
  | cons x xs ih =>
    rw [List.foldlM_cons] at h
    rcases bind_eq_error_iff.1 h with hx | ⟨c, hc, h⟩
    · exact ⟨[], x, xs, b, rfl, rfl, hx⟩
    · obtain ⟨pre, z, post, d, rfl, hpre, hz⟩ := ih h
      exact ⟨x :: pre, z, post, d, rfl, by rw [List.foldlM_cons, hc]; exact hpre, hz⟩

/-- The first element of a list that has a fault: all elements before it are good. -/
inductive FirstFault (good : α → Prop) (fault : α → ε → Prop) : List α → ε → Prop
  | here {x : α} {xs : List α} {e : ε} (h : fault x e) : FirstFault good fault (x :: xs) e
  | there {x : α} {xs : List α} {e : ε} (h : good x) (rest : FirstFault good fault xs e) :
      FirstFault good fault (x :: xs) e

theorem FirstFault.exists_split {good : α → Prop} {fault : α → ε → Prop} {xs : List α} {e : ε}
    (h : FirstFault good fault xs e) :
    ∃ pre x post, xs = pre ++ x :: post ∧ (∀ y ∈ pre, good y) ∧ fault x e := by
  induction h with
  | @here x xs _ hx => exact ⟨[], x, xs, rfl, by simp, hx⟩
  | @there y _ _ hy _ ih =>
    obtain ⟨pre, x, post, rfl, hpre, hx⟩ := ih
    exact ⟨y :: pre, x, post, rfl, List.forall_mem_cons.2 ⟨hy, hpre⟩, hx⟩

/-- A list is refused for the first element that is. -/
theorem mapM_eq_error_iff {f : α → Except ε β} {xs : List α} {e : ε} :
    xs.mapM f = .error e ↔ FirstFault (fun x => ∃ y, f x = .ok y) (fun x e => f x = .error e) xs e := by
  induction xs with
  | nil =>
    constructor
    · intro h
      cases h
    · rintro ⟨⟩
  | cons x xs ih =>
    rw [List.mapM_cons, bind_eq_error_iff]
    constructor
    · rintro (hx | ⟨y, hy, h⟩)
      · exact .here hx
      · rcases bind_eq_error_iff.1 h with h | ⟨ys, -, h⟩
        · exact .there ⟨y, hy⟩ (ih.1 h)
        · cases h
    · intro h
      cases h with
      | here hx => exact .inl hx
      | there hx rest =>
        obtain ⟨y, hy⟩ := hx
        exact .inr ⟨y, hy, bind_eq_error_iff.2 (.inl (ih.2 rest))⟩

/-! ## Elements and what they were read as -/

theorem forall₂_append_left_iff {R : α → β → Prop} {xs ys : List α} {zs : List β} :
    List.Forall₂ R (xs ++ ys) zs ↔
      ∃ us vs, List.Forall₂ R xs us ∧ List.Forall₂ R ys vs ∧ zs = us ++ vs := by
  induction xs generalizing zs with
  | nil => simp
  | cons x xs ih =>
    simp only [List.cons_append, List.forall₂_cons_left_iff, ih]
    constructor
    · rintro ⟨b, _, hb, ⟨us, vs, hu, hv, rfl⟩, rfl⟩
      exact ⟨b :: us, vs, ⟨b, us, hb, hu, rfl⟩, hv, rfl⟩
    · rintro ⟨_, vs, ⟨b, us, hb, hu, rfl⟩, hv, rfl⟩
      exact ⟨b, us ++ vs, hb, ⟨us, vs, hu, hv, rfl⟩, rfl⟩

/-- Each thing read comes from an element. -/
theorem exists_of_mem_right {R : α → β → Prop} {xs : List α} {ys : List β} (h : List.Forall₂ R xs ys)
    {y : β} (hy : y ∈ ys) : ∃ x ∈ xs, R x y := by
  induction h with
  | nil => cases hy
  | cons hab _ ih =>
    rcases List.mem_cons.1 hy with rfl | hy
    · exact ⟨_, by simp, hab⟩
    · obtain ⟨x, hx, hr⟩ := ih hy
      exact ⟨x, by simp [hx], hr⟩

/-- Each element is read to something. -/
theorem exists_of_mem_left {R : α → β → Prop} {xs : List α} {ys : List β} (h : List.Forall₂ R xs ys)
    {x : α} (hx : x ∈ xs) : ∃ y ∈ ys, R x y :=
  exists_of_mem_right h.flip hx

end Isa16
