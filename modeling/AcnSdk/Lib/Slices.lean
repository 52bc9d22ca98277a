/-
Cutting a list into slices.

All slices have the same length but the last, which may be shorter.
-/

import Mathlib.Data.List.Basic

namespace AcnSdk.Lib

variable {α : Type} {size : Nat}

/-- The slices of a list, from the front on. -/
inductive Slices (size : Nat) : List α → List (List α) → Prop where
  | nil : Slices size [] []
  | cons {l : List α} {slices : List (List α)} (some : l ≠ [])
      (rest : Slices size (l.drop size) slices) : Slices size l (l.take size :: slices)

namespace Slices

variable {l : List α} {slices : List (List α)}

theorem flatten_eq (cut : Slices size l slices) : slices.flatten = l := by
  induction cut with
  | nil => rfl
  | cons _ _ ih => rw [List.flatten_cons, ih, List.take_append_drop]

theorem ne_nil (cut : Slices size l slices) (pos : 0 < size) : ∀ slice ∈ slices, slice ≠ [] := by
  induction cut with
  | nil => exact List.forall_mem_nil _
  | @cons l slices some _ ih =>
      rw [List.forall_mem_cons]
      refine ⟨?_, ih⟩
      rw [ne_eq, List.take_eq_nil_iff, not_or]
      exact ⟨Nat.ne_of_gt pos, some⟩

theorem length_le (cut : Slices size l slices) :
    ∀ slice ∈ slices, slice.length ≤ min l.length size := by
  induction cut with
  | nil => exact List.forall_mem_nil _
  | @cons l slices _ _ ih =>
      rw [List.forall_mem_cons]
      refine ⟨?_, fun slice mem => ?_⟩
      · rw [List.length_take]
        exact Nat.le_of_eq (Nat.min_comm _ _)
      · have := ih slice mem
        rw [List.length_drop] at this
        omega

/-- The first slice is as long as it can be. -/
theorem first (cut : Slices size l slices) (some : l ≠ []) :
    ∃ slice rest, slices = slice :: rest ∧ slice.length = min l.length size := by
  cases cut with
  | nil => exact absurd rfl some
  | cons _ _ => exact ⟨_, _, rfl, by rw [List.length_take, Nat.min_comm]⟩

end Slices

end AcnSdk.Lib
