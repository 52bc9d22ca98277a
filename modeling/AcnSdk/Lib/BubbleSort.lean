/-
Bubble sort: passes over the list that exchange neighbours, until a pass changes nothing.

* `bubblePass_perm`, `bubblePass_sorted` — what a pass does, and what it says if it changes
  nothing.
* `bubbleSort_ends` — enough passes leave a list whose neighbours are in order.
-/

import Mathlib.Data.List.Chain
import Mathlib.Order.Defs.Unbundled

namespace AcnSdk.Lib

variable {α : Type} (le : α → α → Prop) [DecidableRel le]

/-- One pass, and whether it changed anything. -/
def bubblePass : α → List α → List α × Bool
  | x, [] => ([x], false)
  | x, y :: rest =>
      if le x y then (x :: (bubblePass y rest).1, (bubblePass y rest).2)
      else (y :: (bubblePass x rest).1, true)

/-- At most `fuel` passes. -/
def bubbleSort : Nat → List α → Option (List α)
  | 0, _ => none
  | _ + 1, [] => some []
  | fuel + 1, x :: l =>
      if (bubblePass le x l).2 then bubbleSort fuel (bubblePass le x l).1
        else some (bubblePass le x l).1

/-- The pairs in the wrong order. -/
def inversions : List α → Nat
  | [] => 0
  | x :: l => (l.filter fun y => ¬ le x y).length + inversions l

theorem inversions_le (l : List α) : inversions le l ≤ l.length * l.length := by
  induction l with
  | nil => exact Nat.le_refl _
  | cons x l ih =>
      have := List.length_filter_le (fun y => decide (¬ le x y)) l
      rw [inversions, List.length_cons, Nat.add_mul, Nat.mul_add]
      omega

theorem bubblePass_perm (x : α) (l : List α) : (bubblePass le x l).1.Perm (x :: l) := by
  induction l generalizing x with
  | nil => exact List.Perm.refl _
  | cons y rest ih =>
      rw [bubblePass]
      split
      · exact (ih y).cons x
      · exact ((ih x).cons y).trans (List.Perm.swap x y rest)

/-- A pass that changes nothing finds all neighbours in order. -/
theorem bubblePass_sorted {x : α} {l : List α} (same : (bubblePass le x l).2 = false) :
    (bubblePass le x l).1 = x :: l ∧ (x :: l).IsChain le := by
  induction l generalizing x with
  | nil => exact ⟨rfl, .singleton x⟩
  | cons y rest ih =>
      rw [bubblePass] at same ⊢
      by_cases ordered : le x y
      · rw [if_pos ordered] at same ⊢
        obtain ⟨eq, chain⟩ := ih same
        exact ⟨congrArg (x :: ·) eq, .cons_cons ordered chain⟩
      · rw [if_neg ordered] at same
        cases same

section

variable {le} {r : α → α → Prop} [DecidableRel r] [Std.Total r]

/-- Each exchange leaves fewer inversions, in every total order in which what is exchanged stands
in the wrong order. -/
theorem bubblePass_inversions (agrees : ∀ x y, ¬ le x y → ¬ r x y) (x : α) (l : List α) :
    inversions r (bubblePass le x l).1 + (bubblePass le x l).2.toNat ≤ inversions r (x :: l) := by
  induction l generalizing x with
  | nil => exact Nat.le_refl _
  | cons y rest ih =>
      have filter_eq : ∀ z u, ((bubblePass le u rest).1.filter fun v => ¬ r z v).length =
          ((u :: rest).filter fun v => ¬ r z v).length :=
        fun z u => ((bubblePass_perm le u rest).filter _).length_eq
      rw [bubblePass]
      by_cases ordered : le x y
      · rw [if_pos ordered]
        dsimp only
        rw [inversions, inversions, filter_eq]
        have := ih y
        omega
      · have wrong : ¬ r x y := agrees x y ordered
        have back : r y x := (Std.Total.total x y).resolve_left wrong
        rw [if_neg ordered]
        dsimp only
        rw [inversions, inversions, inversions, filter_eq,
          List.filter_cons_of_neg (by simpa using back),
          List.filter_cons_of_pos (by simpa using wrong), List.length_cons]
        have := ih x
        rw [inversions] at this
        have flag : true.toNat = 1 := rfl
        omega

/-- With more passes than inversions, the passes come to an end, with all neighbours in order. -/
theorem bubbleSort_ends (agrees : ∀ x y, ¬ le x y → ¬ r x y) {fuel : Nat} {l : List α}
    (enough : inversions r l < fuel) :
    ∃ sorted, bubbleSort le fuel l = some sorted ∧ sorted.Perm l ∧ sorted.IsChain le := by
  induction fuel generalizing l with
  | zero => exact absurd enough (Nat.not_lt_zero _)
  | succ fuel ih =>
      cases l with
      | nil => exact ⟨[], rfl, .refl _, .nil⟩
      | cons x l =>
          have fewer := bubblePass_inversions agrees x l
          have perm := bubblePass_perm le x l
          rw [bubbleSort]
          cases changed : (bubblePass le x l).2 with
          | false =>
              obtain ⟨eq, chain⟩ := bubblePass_sorted le changed
              rw [if_neg (by decide), eq]
              exact ⟨x :: l, rfl, .refl _, chain⟩
          | true =>
              rw [changed] at fewer
              have flag : true.toNat = 1 := rfl
              obtain ⟨sorted, eq, perm', ordered⟩ := ih (l := (bubblePass le x l).1) (by omega)
              rw [if_pos rfl]
              exact ⟨sorted, eq, perm'.trans perm, ordered⟩

end

end AcnSdk.Lib
