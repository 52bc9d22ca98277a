/-
Trying again until an attempt succeeds.

`retry` makes attempts, each with the next answer of a sequence, until one does not fail or no retry
is left.

* `retry_rule` — what holds afterwards, from what one attempt does.
-/

import Mathlib.Tactic.Common

namespace AcnSdk.Lib

variable {σ ι : Type}

/-- The state that attempts lead to, whether the last one succeeded, and how many there were. -/
structure Tried (σ : Type) where
  state : σ
  success : Bool
  attempts : Nat

/-- `attempt` fails with a negative result. `again` runs before each of the `left` retries. -/
def retry (attempt : ι → σ → σ × Int) (again : σ → σ) : Nat → (Nat → ι) → σ → Tried σ
  | 0, answers, s => ⟨(attempt (answers 0) s).1, decide (0 ≤ (attempt (answers 0) s).2), 1⟩
  | left + 1, answers, s =>
      if 0 ≤ (attempt (answers 0) s).2 then ⟨(attempt (answers 0) s).1, true, 1⟩
      else
        let tried := retry attempt again left (fun i => answers (i + 1))
          (again (attempt (answers 0) s).1)
        { tried with attempts := tried.attempts + 1 }

variable {attempt : ι → σ → σ × Int} {again : σ → σ}

theorem retry_attempts_pos (left : Nat) (answers : Nat → ι) (s : σ) :
    0 < (retry attempt again left answers s).attempts := by
  cases left with
  | zero => exact Nat.one_pos
  | succ left =>
      rw [retry]
      split_ifs
      · exact Nat.one_pos
      · exact Nat.succ_pos _

/-- `Before` holds before each attempt, `Failed` after one that fails. -/
theorem retry_rule (Before Done Failed : σ → Prop)
    (done : ∀ i s, Before s → 0 ≤ (attempt i s).2 → Done (attempt i s).1)
    (failed : ∀ i s, Before s → (attempt i s).2 < 0 → Failed (attempt i s).1)
    (onward : ∀ s, Failed s → Before (again s)) (left : Nat) (answers : Nat → ι) {s : σ}
    (before : Before s) :
    ((retry attempt again left answers s).success = true →
      Done (retry attempt again left answers s).state) ∧
    ((retry attempt again left answers s).success = false →
      Failed (retry attempt again left answers s).state) := by
  induction left generalizing answers s with
  | zero =>
      constructor
      · intro success
        exact done _ _ before (of_decide_eq_true success)
      · intro gaveUp
        exact failed _ _ before (Int.not_le.mp (of_decide_eq_false gaveUp))
  | succ left ih =>
      rw [retry]
      split_ifs with success
      · constructor
        · intro _
          exact done _ _ before success
        · intro gaveUp
          exact absurd gaveUp (by decide)
      · exact ih _ (onward _ (failed _ _ before (Int.not_le.mp success)))

/-- What one attempt and `again` keep is kept. -/
theorem retry_keeps (Kept : σ → Prop) (attempted : ∀ i s, Kept s → Kept (attempt i s).1)
    (onward : ∀ s, Kept s → Kept (again s)) (left : Nat) (answers : Nat → ι) {s : σ}
    (kept : Kept s) : Kept (retry attempt again left answers s).state := by
  obtain ⟨done, failed⟩ := retry_rule Kept Kept Kept (fun i s kept _ => attempted i s kept)
    (fun i s kept _ => attempted i s kept) onward left answers kept
  cases ended : (retry attempt again left answers s).success with
  | true => exact done ended
  | false => exact failed ended

theorem exists_le_succ {P : Nat → Prop} (n : Nat) :
    (∃ i ≤ n + 1, P i) ↔ P 0 ∨ ∃ i ≤ n, P (i + 1) := by
  constructor
  · rintro ⟨i, le, holds⟩
    cases i with
    | zero => exact .inl holds
    | succ i => exact .inr ⟨i, Nat.le_of_succ_le_succ le, holds⟩
  · rintro (holds | ⟨i, le, holds⟩)
    · exact ⟨0, Nat.zero_le _, holds⟩
    · exact ⟨i + 1, Nat.succ_le_succ le, holds⟩

/-- If the result of an attempt only depends on its answer, one of the answers has to be right. -/
theorem retry_success_iff (r : ι → Int) (results : ∀ i s, (attempt i s).2 = r i) (left : Nat)
    (answers : Nat → ι) (s : σ) :
    (retry attempt again left answers s).success = true ↔ ∃ i ≤ left, 0 ≤ r (answers i) := by
  induction left generalizing answers s with
  | zero => simp [retry, results]
  | succ left ih =>
      rw [retry, results, exists_le_succ]
      split_ifs with success
      · exact iff_of_true rfl (.inl success)
      · rw [or_iff_right success]
        exact ih _ _

/-- The answer at which attempts end, if only answers that fail come before it. -/
def FirstAnswer (r : ι → Int) (answers : Nat → ι) (i : Nat) : Prop :=
  0 ≤ r (answers i) ∧ ∀ j < i, r (answers j) < 0

theorem retry_attempts_eq {r : ι → Int} (results : ∀ i s, (attempt i s).2 = r i) {left : Nat}
    {answers : Nat → ι} {s : σ} (success : (retry attempt again left answers s).success = true) :
    ∃ i ≤ left, FirstAnswer r answers i ∧
      (retry attempt again left answers s).attempts = i + 1 := by
  induction left generalizing answers s with
  | zero =>
      have right := of_decide_eq_true success
      rw [results] at right
      exact ⟨0, Nat.le_refl _, ⟨right, fun j lt => absurd lt (Nat.not_lt_zero j)⟩, rfl⟩
  | succ left ih =>
      rw [retry] at success ⊢
      split_ifs at success ⊢ with right
      · rw [results] at right
        exact ⟨0, Nat.zero_le _, ⟨right, fun j lt => absurd lt (Nat.not_lt_zero j)⟩, rfl⟩
      · obtain ⟨i, le, ⟨ends, before⟩, attempts⟩ := ih success
        rw [results, Int.not_le] at right
        refine ⟨i + 1, Nat.succ_le_succ le, ⟨ends, fun j lt => ?_⟩, congrArg (· + 1) attempts⟩
        cases j with
        | zero => exact right
        | succ j => exact before j (Nat.lt_of_succ_lt_succ lt)

theorem FirstAnswer.unique {r : ι → Int} {answers : Nat → ι} {i j : Nat}
    (one : FirstAnswer r answers i) (other : FirstAnswer r answers j) : i = j := by
  apply Nat.le_antisymm
  · exact Nat.not_lt.mp fun lt => Int.not_le.mpr (one.2 j lt) other.1
  · exact Nat.not_lt.mp fun lt => Int.not_le.mpr (other.2 i lt) one.1

/-- Attempts that all fail leave a mark if it was there or one of their answers makes it. -/
theorem retry_mark_iff (Mark : σ → Prop) {Makes : ι → Prop}
    (makes : ∀ i s, (attempt i s).2 < 0 → (Mark (attempt i s).1 ↔ Mark s ∨ Makes i))
    (onward : ∀ s, Mark (again s) ↔ Mark s) {left : Nat} {answers : Nat → ι} {s : σ}
    (gaveUp : (retry attempt again left answers s).success = false) :
    Mark (retry attempt again left answers s).state ↔
      Mark s ∨ ∃ i ≤ left, Makes (answers i) := by
  induction left generalizing answers s with
  | zero =>
      rw [retry, makes _ _ (Int.not_le.mp (of_decide_eq_false gaveUp))]
      simp
  | succ left ih =>
      rw [retry] at gaveUp ⊢
      split_ifs at gaveUp ⊢ with success
      rw [exists_le_succ, ← or_assoc, ← makes _ _ (Int.not_le.mp success)]
      exact (ih gaveUp).trans (or_congr_left (onward _))

end AcnSdk.Lib
