/-
Functions with fuel.

A loop without a bound of its own is a function of the fuel it may use, with
`none` for running out. It computes a result when every large enough amount of
fuel gives that result, so a result does not depend on the amount and a function
that is `none` at every amount is one that does not return.
-/

import Mathlib.Tactic.Common

namespace AcnSdk.Lib

variable {α β : Type}

/-- Enough fuel makes `f` give `a`. -/
def Computes (f : Nat → Option α) (a : α) : Prop :=
  ∃ enough, ∀ fuel, enough ≤ fuel → f fuel = some a

namespace Computes

theorem unique {f : Nat → Option α} {a b : α} (ha : Computes f a) (hb : Computes f b) : a = b := by
  obtain ⟨m, hm⟩ := ha
  obtain ⟨n, hn⟩ := hb
  have := hm (max m n) (Nat.le_max_left _ _)
  rw [hn (max m n) (Nat.le_max_right _ _)] at this
  exact (Option.some.inj this).symm

theorem of_eq {f : Nat → Option α} {a : α} (h : ∀ fuel, f (fuel + 1) = some a) : Computes f a := by
  refine ⟨1, fun fuel hf => ?_⟩
  obtain ⟨k, rfl⟩ : ∃ k, fuel = k + 1 := ⟨fuel - 1, by omega⟩
  exact h k

/-- A step that hands its fuel on computes what it hands it to. -/
theorem step {f g : Nat → Option α} {a : α} (h : ∀ fuel, f (fuel + 1) = g fuel)
    (hg : Computes g a) : Computes f a := by
  obtain ⟨n, hn⟩ := hg
  refine ⟨n + 1, fun fuel hf => ?_⟩
  obtain ⟨k, rfl⟩ : ∃ k, fuel = k + 1 := ⟨fuel - 1, by omega⟩
  rw [h, hn k (by omega)]

/-- A step that first runs `g` and goes on with its result. -/
theorem step_bind {f : Nat → Option α} {g : Nat → Option β} {k : Nat → Option α} {b : β} {a : α}
    (h : ∀ fuel, g fuel = some b → f (fuel + 1) = k fuel)
    (hg : Computes g b) (hk : Computes k a) : Computes f a := by
  obtain ⟨m, hm⟩ := hg
  obtain ⟨n, hn⟩ := hk
  refine ⟨max m n + 1, fun fuel hf => ?_⟩
  obtain ⟨j, rfl⟩ : ∃ j, fuel = j + 1 := ⟨fuel - 1, by omega⟩
  rw [h j (hm j (by omega)), hn j (by omega)]

theorem map {f : Nat → Option α} {a : α} (h : Computes f a) (g : α → β) :
    Computes (fun fuel => (f fuel).map g) (g a) := by
  obtain ⟨n, hn⟩ := h
  exact ⟨n, fun fuel hf => by simp [hn fuel hf]⟩

end Computes

/-- No amount of fuel, from some amount on, makes `f` give a result. -/
def Diverges (f : Nat → Option α) : Prop :=
  ∃ enough, ∀ fuel, enough ≤ fuel → f fuel = none

namespace Diverges

theorem not_computes {f : Nat → Option α} (h : Diverges f) (a : α) : ¬ Computes f a := by
  rintro ⟨m, hm⟩
  obtain ⟨n, hn⟩ := h
  have := hm (max m n) (Nat.le_max_left _ _)
  rw [hn (max m n) (Nat.le_max_right _ _)] at this
  exact absurd this (by simp)

theorem of_none {f : Nat → Option α} (h : ∀ fuel, f fuel = none) : Diverges f :=
  ⟨0, fun fuel _ => h fuel⟩

/-- A step that first runs `g` does not come back if `g` does not. -/
theorem step {f : Nat → Option α} {g : Nat → Option β}
    (h : ∀ fuel, g fuel = none → f (fuel + 1) = none) (hg : Diverges g) : Diverges f := by
  obtain ⟨n, hn⟩ := hg
  refine ⟨n + 1, fun fuel hf => ?_⟩
  obtain ⟨k, rfl⟩ : ∃ k, fuel = k + 1 := ⟨fuel - 1, by omega⟩
  exact h k (hn k (by omega))

/-- Nor does it if `g` comes back and what it goes on with does not. -/
theorem step_bind {f : Nat → Option α} {g : Nat → Option β} {k : Nat → Option α} {b : β}
    (h : ∀ fuel, g fuel = some b → f (fuel + 1) = k fuel)
    (hg : Computes g b) (hk : Diverges k) : Diverges f := by
  obtain ⟨m, hm⟩ := hg
  obtain ⟨n, hn⟩ := hk
  refine ⟨max m n + 1, fun fuel hf => ?_⟩
  obtain ⟨j, rfl⟩ : ∃ j, fuel = j + 1 := ⟨fuel - 1, by omega⟩
  rw [h j (hm j (by omega)), hn j (by omega)]

theorem map {f : Nat → Option α} (h : Diverges f) (g : α → β) :
    Diverges fun fuel => (f fuel).map g := by
  obtain ⟨n, hn⟩ := h
  exact ⟨n, fun fuel hf => by simp [hn fuel hf]⟩

end Diverges

end AcnSdk.Lib
