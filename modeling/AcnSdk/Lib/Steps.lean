/-
Going on until nothing more can be done.

A partial step takes an item off a list. `Steps` are the items of a number of steps, and
`takeAll` are those of all steps that are possible. Both agree if each step makes the
list shorter.
-/

import Mathlib.Data.List.Basic

namespace AcnSdk.Lib

variable {α β : Type}

inductive Steps (step : List α → Option (β × List α)) : List α → List β → List α → Prop where
  | refl (a : List α) : Steps step a [] a
  | cons {a b c : List α} {x : β} {xs : List β} (first : step a = some (x, b))
      (rest : Steps step b xs c) : Steps step a (x :: xs) c

/-- At most `fuel` steps. -/
def takeUpTo (step : List α → Option (β × List α)) : Nat → List α → List β × List α
  | 0, a => ([], a)
  | fuel + 1, a =>
      match step a with
      | none => ([], a)
      | some (x, b) => ((x :: (takeUpTo step fuel b).1), (takeUpTo step fuel b).2)

/-- All steps. -/
def takeAll (step : List α → Option (β × List α)) (a : List α) : List β × List α :=
  takeUpTo step (a.length + 1) a

section

variable {step : List α → Option (β × List α)} (shorter : ∀ a x b, step a = some (x, b) →
  b.length < a.length) {a b : List α} {xs : List β}

include shorter

theorem Steps.length_le (steps : Steps step a xs b) : b.length ≤ a.length := by
  induction steps with
  | refl a => exact Nat.le_refl _
  | cons first rest ih => exact Nat.le_trans ih (Nat.le_of_lt (shorter _ _ _ first))

theorem takeUpTo_steps (fuel : Nat) (enough : a.length < fuel) :
    Steps step a (takeUpTo step fuel a).1 (takeUpTo step fuel a).2 ∧
      step (takeUpTo step fuel a).2 = none := by
  induction fuel generalizing a with
  | zero => omega
  | succ fuel ih =>
      rw [takeUpTo]
      cases first : step a with
      | none => exact ⟨.refl a, first⟩
      | some p =>
          obtain ⟨rest, ends⟩ := ih (a := p.2) (by have := shorter a p.1 p.2 first; omega)
          exact ⟨.cons first rest, ends⟩

theorem takeAll_steps (a : List α) : Steps step a (takeAll step a).1 (takeAll step a).2 ∧
    step (takeAll step a).2 = none :=
  takeUpTo_steps shorter _ (Nat.lt_succ_self _)

/-- All steps are those that end where no more is possible. -/
theorem Steps.takeAll_eq (steps : Steps step a xs b) (ends : step b = none) :
    takeAll step a = (xs, b) := by
  obtain ⟨all, all_end⟩ := takeAll_steps shorter a
  generalize takeAll step a = taken at *
  obtain ⟨ys, c⟩ := taken
  dsimp only at *
  clear shorter
  induction steps generalizing ys with
  | refl a =>
      cases all with
      | refl => rfl
      | cons first rest =>
          rw [ends] at first
          cases first
  | cons first rest ih =>
      cases all with
      | refl =>
          rw [all_end] at first
          cases first
      | cons first' rest' =>
          rw [first] at first'
          cases first'
          cases ih ends _ rest'
          rfl

end

end AcnSdk.Lib
