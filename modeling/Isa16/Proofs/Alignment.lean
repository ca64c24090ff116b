import Isa16.Proofs.Traversal
/-!
# Two runs side by side

Two computations agree when both succeed, with related values, or both are
refused, with related errors (`Agrees`). Two lists are aligned when they are
related element by element, once the idle ones on either side are left out
(`Aligned`). Reading aligned lists element by element agrees if reading two
related elements does, as long as idle elements are read as idle ones
(`Aligned.mapM`).
-/

namespace Isa16

variable {α β γ δ ε ε' : Type}

/-! ## Computations -/

inductive Agrees (E : ε → ε' → Prop) (R : α → β → Prop) : Except ε α → Except ε' β → Prop
  | ok {a : α} {b : β} (h : R a b) : Agrees E R (.ok a) (.ok b)
  | error {e : ε} {e' : ε'} (h : E e e') : Agrees E R (.error e) (.error e')

namespace Agrees

variable {E : ε → ε' → Prop} {R : α → β → Prop} {S : γ → δ → Prop} {x : Except ε α} {y : Except ε' β}

theorem bind {f : α → Except ε γ} {g : β → Except ε' δ} (h : Agrees E R x y)
    (hf : ∀ a b, R a b → Agrees E S (f a) (g b)) : Agrees E S (x >>= f) (y >>= g) := by
  cases h with
  | ok hab => exact hf _ _ hab
  | error he => exact .error he

theorem map {f : α → γ} {g : β → δ} (h : Agrees E R x y) (hf : ∀ a b, R a b → S (f a) (g b)) :
    Agrees E S (x.map f) (y.map g) := by
  cases h with
  | ok hab => exact .ok (hf _ _ hab)
  | error he => exact .error he

theorem imp {R' : α → β → Prop} (h : Agrees E R x y) (hR : ∀ a b, R a b → R' a b) : Agrees E R' x y := by
  cases h with
  | ok hab => exact .ok (hR _ _ hab)
  | error he => exact .error he

/-- A computation agrees with itself. -/
theorem refl (x : Except ε α) : Agrees Eq Eq x x := by
  cases x with
  | ok a => exact .ok rfl
  | error e => exact .error rfl

theorem exists_ok (h : Agrees E R x y) {a : α} (hx : x = .ok a) : ∃ b, y = .ok b ∧ R a b := by
  cases h with
  | ok hab =>
    cases hx
    exact ⟨_, rfl, hab⟩
  | error _ => cases hx

theorem exists_error (h : Agrees E R x y) {e : ε} (hx : x = .error e) : ∃ e', y = .error e' ∧ E e e' := by
  cases h with
  | ok _ => cases hx
  | error he =>
    cases hx
    exact ⟨_, rfl, he⟩

end Agrees

/-! ## Lists -/

inductive Aligned (idle : α → Prop) (idle' : β → Prop) (same : α → β → Prop) : List α → List β → Prop
  | nil : Aligned idle idle' same [] []
  | left {x : α} {xs : List α} {ys : List β} (h : idle x) (rest : Aligned idle idle' same xs ys) :
      Aligned idle idle' same (x :: xs) ys
  | right {y : β} {xs : List α} {ys : List β} (h : idle' y) (rest : Aligned idle idle' same xs ys) :
      Aligned idle idle' same xs (y :: ys)
  | both {x : α} {y : β} {xs : List α} {ys : List β} (h : same x y) (rest : Aligned idle idle' same xs ys) :
      Aligned idle idle' same (x :: xs) (y :: ys)

namespace Aligned

variable {idle : α → Prop} {idle' : β → Prop} {same : α → β → Prop} {xs us : List α} {ys vs : List β}

theorem of_forall₂ (h : List.Forall₂ same xs ys) : Aligned idle idle' same xs ys := by
  induction h with
  | nil => exact .nil
  | cons h _ ih => exact .both h ih

/-- What is left out by a test has to be idle. -/
theorem of_filter {p : α → Bool} {q : β → Bool} (hp : ∀ x ∈ xs, p x = false → idle x)
    (hq : ∀ y ∈ ys, q y = false → idle' y) (h : List.Forall₂ same (xs.filter p) (ys.filter q)) :
    Aligned idle idle' same xs ys := by
  induction xs generalizing ys with
  | nil =>
    -- All that there is on the other side is left out.
    induction ys with
    | nil => exact .nil
    | cons y ys ih =>
      obtain ⟨hy, hq⟩ := List.forall_mem_cons.1 hq
      cases hqy : q y with
      | false =>
        rw [List.filter_cons_of_neg (by simp [hqy])] at h
        exact .right (hy hqy) (ih hq h)
      | true => simp [hqy] at h
  | cons x xs ih =>
    obtain ⟨hx, hp⟩ := List.forall_mem_cons.1 hp
    cases hpx : p x with
    | false =>
      rw [List.filter_cons_of_neg (by simp [hpx])] at h
      exact .left (hx hpx) (ih hp hq h)
    | true =>
      -- The partner of `x` is the first on the other side that is not left out.
      rw [List.filter_cons_of_pos hpx] at h
      induction ys with
      | nil => simp at h
      | cons y ys ihy =>
        obtain ⟨hy, hq⟩ := List.forall_mem_cons.1 hq
        cases hqy : q y with
        | false =>
          rw [List.filter_cons_of_neg (by simp [hqy])] at h
          exact .right (hy hqy) (ihy hq h)
        | true =>
          rw [List.filter_cons_of_pos hqy] at h
          cases h with
          | cons hxy hrest => exact .both hxy (ih hp hq hrest)

theorem append (h : Aligned idle idle' same xs ys) (h' : Aligned idle idle' same us vs) :
    Aligned idle idle' same (xs ++ us) (ys ++ vs) := by
  induction h with
  | nil => exact h'
  | left hx _ ih => exact .left hx ih
  | right hy _ ih => exact .right hy ih
  | both hxy _ ih => exact .both hxy ih

variable {pass : γ → Prop} {pass' : δ → Prop} {like : γ → δ → Prop}

theorem flatMap {f : α → List γ} {g : β → List δ} (h : Aligned idle idle' same xs ys)
    (hleft : ∀ x, idle x → ∀ u ∈ f x, pass u) (hright : ∀ y, idle' y → ∀ v ∈ g y, pass' v)
    (hboth : ∀ x y, same x y → Aligned pass pass' like (f x) (g y)) :
    Aligned pass pass' like (xs.flatMap f) (ys.flatMap g) := by
  have left {us : List γ} (hu : ∀ u ∈ us, pass u) : Aligned pass pass' like us [] := by
    induction us with
    | nil => exact .nil
    | cons u us ih =>
      obtain ⟨hu, hus⟩ := List.forall_mem_cons.1 hu
      exact .left hu (ih hus)
  have right {vs : List δ} (hv : ∀ v ∈ vs, pass' v) : Aligned pass pass' like [] vs := by
    induction vs with
    | nil => exact .nil
    | cons v vs ih =>
      obtain ⟨hv, hvs⟩ := List.forall_mem_cons.1 hv
      exact .right hv (ih hvs)
  induction h with
  | nil => exact .nil
  | left hx _ ih => exact (left (hleft _ hx)).append ih
  | right hy _ ih => exact (right (hright _ hy)).append ih
  | both hxy _ ih => exact (hboth _ _ hxy).append ih

theorem map {f : α → γ} {g : β → δ} (h : Aligned idle idle' same xs ys) (hleft : ∀ x, idle x → pass (f x))
    (hright : ∀ y, idle' y → pass' (g y)) (hboth : ∀ x y, same x y → like (f x) (g y)) :
    Aligned pass pass' like (xs.map f) (ys.map g) := by
  induction h with
  | nil => exact .nil
  | left hx _ ih => exact .left (hleft _ hx) ih
  | right hy _ ih => exact .right (hright _ hy) ih
  | both hxy _ ih => exact .both (hboth _ _ hxy) ih

/-- Aligned lists are read alike. -/
theorem mapM {E : ε → ε' → Prop} {f : α → Except ε γ} {g : β → Except ε' δ} (h : Aligned idle idle' same xs ys)
    (hleft : ∀ x, idle x → ∃ u, f x = .ok u ∧ pass u) (hright : ∀ y, idle' y → ∃ v, g y = .ok v ∧ pass' v)
    (hboth : ∀ x y, same x y → Agrees E like (f x) (g y)) :
    Agrees E (Aligned pass pass' like) (xs.mapM f) (ys.mapM g) := by
  induction h with
  | nil => exact .ok .nil
  | @left x xs ys hx _ ih =>
    obtain ⟨u, hu, hpass⟩ := hleft x hx
    rw [List.mapM_cons, hu]
    generalize xs.mapM f = us at ih
    generalize ys.mapM g = vs at ih
    cases ih with
    | ok h => exact .ok (.left hpass h)
    | error h => exact .error h
  | @right y xs ys hy _ ih =>
    obtain ⟨v, hv, hpass⟩ := hright y hy
    rw [List.mapM_cons, hv]
    generalize xs.mapM f = us at ih
    generalize ys.mapM g = vs at ih
    cases ih with
    | ok h => exact .ok (.right hpass h)
    | error h => exact .error h
  | @both x y xs ys hxy _ ih =>
    rw [List.mapM_cons, List.mapM_cons]
    refine (hboth x y hxy).bind fun u v huv => ih.bind fun us vs hrest => ?_
    exact .ok (.both huv hrest)

end Aligned

end Isa16
