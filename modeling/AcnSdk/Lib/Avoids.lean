/-
Failures that a computation does not end with.

`Avoids e x` is a weakest precondition: that `x` does not fail with `e` is computed along its steps.
Where no other failure is possible, such a computation has a result.

* `avoids_bind` — what a computation and its continuation have to avoid.
* `FailsOnly.exists_ok` — a computation that avoids its only failure.
* `relabel` — a failure is counted as another, so that it is told apart where it comes from.
-/

import Mathlib.Tactic.Common

namespace AcnSdk.Lib

variable {ε β γ : Type} {e : ε} {x : Except ε β}

/-- The computation does not fail with `e`. -/
def Avoids (e : ε) (x : Except ε β) : Prop := x ≠ .error e

/-- The computation can only fail with `e`. -/
def FailsOnly (e : ε) (x : Except ε β) : Prop := ∀ e', x = .error e' → e' = e

@[simp] theorem avoids_ok (e : ε) (b : β) : Avoids e (.ok b : Except ε β) := by
  intro same
  cases same

@[simp] theorem not_avoids_error (e : ε) : ¬ Avoids e (.error e : Except ε β) :=
  fun avoids => avoids rfl

theorem avoids_bind (e : ε) (x : Except ε β) (f : β → Except ε γ) :
    Avoids e (x.bind f) ↔ Avoids e x ∧ ∀ b, x = .ok b → Avoids e (f b) := by
  cases x with
  | error e' =>
      constructor
      · intro avoids
        refine ⟨fun same => avoids ?_, fun b same => by cases same⟩
        cases same
        rfl
      · rintro ⟨avoids, -⟩ same
        cases same
        exact avoids rfl
  | ok b =>
      constructor
      · intro avoids
        refine ⟨avoids_ok e b, fun b' same => ?_⟩
        cases same
        exact avoids
      · rintro ⟨-, avoids⟩
        exact avoids b rfl

theorem avoids_then (e : ε) (x : Except ε β) (f : β → Except ε γ) :
    Avoids e (x >>= f) ↔ Avoids e x ∧ ∀ b, x = .ok b → Avoids e (f b) :=
  avoids_bind e x f

/-- A continuation that never fails with `e`. -/
theorem avoids_last {f : β → Except ε γ} (x : Except ε β) (last : ∀ b, Avoids e (f b)) :
    Avoids e (x.bind f) ↔ Avoids e x := by
  rw [avoids_bind]
  exact and_iff_left fun b _ => last b

theorem avoids_map (f : β → γ) (x : Except ε β) : Avoids e (x.map f) ↔ Avoids e x := by
  cases x with
  | error e' =>
      refine not_congr ⟨fun same => ?_, fun same => ?_⟩
      · cases same
        rfl
      · cases same
        rfl
  | ok b => exact iff_of_true (avoids_ok e (f b)) (avoids_ok e b)

theorem failsOnly_ok (e : ε) (b : β) : FailsOnly e (.ok b : Except ε β) := by
  intro e' same
  cases same

theorem failsOnly_error (e : ε) : FailsOnly e (.error e : Except ε β) := by
  intro e' same
  cases same
  rfl

theorem FailsOnly.bind {f : β → Except ε γ} (first : FailsOnly e x)
    (next : ∀ b, FailsOnly e (f b)) : FailsOnly e (x.bind f) := by
  cases x with
  | error e' =>
      intro e'' same
      cases same
      exact first _ rfl
  | ok b => exact next b

theorem FailsOnly.avoids {e' : ε} (only : FailsOnly e x) (ne : e' ≠ e) : Avoids e' x :=
  fun same => ne (only e' same)

/-- A continuation with the same condition for all results, after what can only fail with `e`. -/
theorem FailsOnly.avoids_bind {f : β → Except ε γ} {Q : Prop} (only : FailsOnly e x)
    (next : ∀ b, Avoids e (f b) ↔ Q) : Avoids e (x.bind f) ↔ Avoids e x ∧ Q := by
  cases x with
  | error e' =>
      obtain rfl := only e' rfl
      exact iff_of_false (not_avoids_error _) fun both => not_avoids_error _ both.1
  | ok b => exact (next b).trans (and_iff_right (avoids_ok e b)).symm

theorem FailsOnly.exists_ok (only : FailsOnly e x) (avoids : Avoids e x) : ∃ b, x = .ok b := by
  cases x with
  | error e' =>
      obtain rfl := only e' rfl
      exact absurd rfl avoids
  | ok b => exact ⟨b, rfl⟩

/-! ### Failures told apart -/

section

variable [DecidableEq ε]

/-- The failure `e` counts as `e'`. -/
def relabel (e e' : ε) (x : Except ε β) : Except ε β :=
  x.mapError fun failure => if failure = e then e' else failure

@[simp] theorem relabel_ok (e e' : ε) (b : β) : relabel e e' (.ok b) = .ok b := rfl

theorem relabel_bind (e e' : ε) (x : Except ε β) (f : β → Except ε γ) :
    relabel e e' (x.bind f) = (relabel e e' x).bind fun b => relabel e e' (f b) := by
  cases x <;> rfl

theorem avoids_relabel {e' : ε} (ne : e' ≠ e) (x : Except ε β) : Avoids e (relabel e e' x) := by
  cases x with
  | ok b => exact avoids_ok e b
  | error failure =>
      intro same
      injection same with same
      dsimp only at same
      split at same
      · exact ne same
      · next differs => exact differs same

theorem relabel_relabel {e' : ε} (ne : e' ≠ e) (x : Except ε β) :
    relabel e e' (relabel e e' x) = relabel e e' x := by
  cases x with
  | ok b => rfl
  | error failure =>
      change Except.error (if (if failure = e then e' else failure) = e then e' else _) = _
      rw [if_neg]
      · rfl
      · split
        · exact ne
        · next differs => exact differs

end

end AcnSdk.Lib
