/-
Words made of bit fields.

A field that stands above another one decides a comparison of the two words, so that
words compare as their fields do, from the highest on. Lists of numbers stand for the
fields when the order is stated.
-/

import Mathlib.Data.Nat.Bitwise
import Mathlib.Data.List.Lex
import Mathlib.Tactic.Common

namespace AcnSdk.Lib

variable {m n : Nat}

/-- The value of two fields. -/
theorem toNat_append_eq (x : BitVec m) (y : BitVec n) :
    (x ++ y).toNat = x.toNat * 2 ^ n + y.toNat := by
  rw [BitVec.toNat_append, ← Nat.shiftLeft_add_eq_or_of_lt y.isLt, Nat.shiftLeft_eq]

theorem append_inj {x x' : BitVec m} {y y' : BitVec n} (eq : x ++ y = x' ++ y') :
    x = x' ∧ y = y' := by
  have y_lt := y.isLt
  have y_lt' := y'.isLt
  have values := congrArg BitVec.toNat eq
  rw [toNat_append_eq, toNat_append_eq, mul_comm, mul_comm x'.toNat] at values
  constructor
  · apply BitVec.eq_of_toNat_eq
    have quotients := congrArg (· / 2 ^ n) values
    simpa only [Nat.mul_add_div (Nat.two_pow_pos n), Nat.div_eq_of_lt y_lt,
      Nat.div_eq_of_lt y_lt', Nat.add_zero] using quotients
  · apply BitVec.eq_of_toNat_eq
    have rests := congrArg (· % 2 ^ n) values
    simpa only [Nat.mul_add_mod, Nat.mod_eq_of_lt y_lt, Nat.mod_eq_of_lt y_lt'] using rests

/-- The upper field decides, and the lower one where the upper ones are the same. -/
theorem append_lt_append_iff {x x' : BitVec m} {y y' : BitVec n} :
    x ++ y < x' ++ y' ↔ x < x' ∨ x = x' ∧ y < y' := by
  have y_lt := y.isLt
  have y_lt' := y'.isLt
  rw [BitVec.lt_def, BitVec.lt_def, BitVec.lt_def, toNat_append_eq, toNat_append_eq]
  rcases Nat.lt_trichotomy x.toNat x'.toNat with less | same | more
  · have step : (x.toNat + 1) * 2 ^ n ≤ x'.toNat * 2 ^ n := Nat.mul_le_mul_right _ less
    rw [Nat.succ_mul] at step
    exact ⟨fun _ => .inl less, fun _ => by omega⟩
  · have eq := BitVec.eq_of_toNat_eq same
    subst eq
    simp
  · have step : (x'.toNat + 1) * 2 ^ n ≤ x.toNat * 2 ^ n := Nat.mul_le_mul_right _ more
    rw [Nat.succ_mul] at step
    constructor
    · intro lt
      omega
    · rintro (less | ⟨rfl, _⟩)
      · omega
      · exact absurd more (Nat.lt_irrefl _)

/-- A field in front of other fields. -/
theorem append_lt_cons {x x' : BitVec m} {y y' : BitVec n} {l l' : List Nat}
    (lower : y < y' ↔ l < l') : x ++ y < x' ++ y' ↔ x.toNat :: l < x'.toNat :: l' := by
  rw [append_lt_append_iff, List.cons_lt_cons_iff, BitVec.lt_def, lower, BitVec.toNat_inj]

theorem lt_singleton {x x' : BitVec m} : x < x' ↔ [x.toNat] < [x'.toNat] := by
  rw [List.cons_lt_cons_iff, BitVec.lt_def]
  simp

/-- Lists whose fronts have the same length. -/
theorem list_append_lt_iff {l l' s s' : List Nat} (length : l.length = l'.length) :
    l ++ s < l' ++ s' ↔ l < l' ∨ l = l' ∧ s < s' := by
  induction l generalizing l' with
  | nil =>
      obtain rfl := List.eq_nil_of_length_eq_zero length.symm
      simp
  | cons x l ih =>
      cases l' with
      | nil => exact absurd length (Nat.succ_ne_zero _)
      | cons x' l' =>
          rw [List.cons_append, List.cons_append, List.cons_lt_cons_iff, List.cons_lt_cons_iff,
            ih (Nat.succ.inj length), List.cons.injEq]
          tauto

end AcnSdk.Lib
