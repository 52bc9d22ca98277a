/-
Pointers into blocks, and sizes that are doubled in a word.

Pointers into one block have a difference, and so have two NULL pointers. Elsewhere there is none,
which is a fault.

* `doubleUntil_eq`, `doubleUntil_endless` — a size is doubled until it is enough, unless it has to
  leave the word: then it becomes 0 and stays so.
-/

import AcnSdk.Lib.Heap
import Mathlib.Algebra.Order.Ring.Nat
import Mathlib.Tactic.Ring

namespace AcnSdk.Lib

/-! ### Pointers -/

/-- NULL, or a position in a block. -/
inductive Ptr where
  | null
  | into (block : Addr) (offset : Nat)
deriving DecidableEq, Repr

namespace Ptr

/-- Where in its block a pointer is. -/
def offset : Ptr → Nat
  | null => 0
  | into _ i => i

/-- `p - q`. -/
def diff : Ptr → Ptr → Except Fault Int
  | null, null => .ok 0
  | into a i, into b j => if a = b then .ok (i - j) else .error .released
  | _, _ => .error .nullPointer

/-- `p + n`. -/
def add (p : Ptr) (n : Int) : Except Fault Ptr :=
  match p with
  | null => .error .nullPointer
  | into a i => if 0 ≤ i + n then .ok (into a (i + n).toNat) else .error .overflow

variable {a : Addr}

theorem diff_into (i j : Nat) : diff (into a i) (into a j) = .ok ((i : Int) - j) := if_pos rfl

theorem add_into (i n : Nat) : add (into a i) n = .ok (into a (i + n)) := by
  have sum : ((i : Int) + n).toNat = i + n := by omega
  rw [add, if_pos (by omega), sum]

end Ptr

/-! ### Sizes -/

/-- A number in a word, as `size_t`. -/
def sizeT (bits : Nat) (n : Int) : Nat := (n % 2 ^ bits).toNat

theorem sizeT_natCast {bits n : Nat} (fits : n < 2 ^ bits) : sizeT bits n = n := by
  have small : (n : Int) < 2 ^ bits := by exact_mod_cast fits
  rw [sizeT, Int.emod_eq_of_lt (Int.natCast_nonneg n) small, Int.toNat_natCast]

/-- A number below 0 is a large one. -/
theorem sizeT_neg {bits k : Nat} (pos : 0 < k) (fits : k ≤ 2 ^ bits) :
    sizeT bits (-(k : Int)) = 2 ^ bits - k := by
  have shifted : (-(k : Int)) % 2 ^ bits = 2 ^ bits - k := by
    have bound : (k : Int) ≤ 2 ^ bits := by exact_mod_cast fits
    rw [← Int.add_emod_right, Int.emod_eq_of_lt (by omega) (by omega)]
    ring
  rw [sizeT, shifted]
  have cast : ((2 ^ bits : Nat) : Int) = 2 ^ bits := by norm_cast
  omega

/-- `do n *= 2; while (n < target)`, in a word. A size that has become 0 is not doubled any more. -/
def doubleUntil (bits target : Nat) : Nat → Nat → Except Fault Nat
  | 0, _ => .error .endless
  | fuel + 1, n =>
      if n * 2 % 2 ^ bits < target then doubleUntil bits target fuel (n * 2 % 2 ^ bits)
      else .ok (n * 2 % 2 ^ bits)

section

variable {bits target : Nat}

theorem doubleUntil_zero (pos : 0 < target) (fuel : Nat) :
    doubleUntil bits target fuel 0 = .error .endless := by
  induction fuel with
  | zero => rfl
  | succ fuel ih => rw [doubleUntil, Nat.zero_mul, Nat.zero_mod, if_pos pos, ih]

theorem two_pow_mul_two_mod {k : Nat} (below : k + 1 < bits) :
    2 ^ k * 2 % 2 ^ bits = 2 ^ (k + 1) := by
  rw [← Nat.pow_succ]
  exact Nat.mod_eq_of_lt (Nat.pow_lt_pow_right (by decide) below)

theorem doubleUntil_eq {k : Nat} (fits : target ≤ 2 ^ (bits - 1)) (less : 2 ^ k < target)
    (fuel : Nat) (enough : bits ≤ k + fuel) :
    ∃ j, j < bits ∧ doubleUntil bits target fuel (2 ^ k) = .ok (2 ^ j) ∧ target ≤ 2 ^ j := by
  induction fuel generalizing k with
  | zero =>
      have small := (Nat.pow_lt_pow_iff_right (a := 2) (by decide)).mp
          (Nat.lt_of_lt_of_le less fits)
      omega
  | succ fuel ih =>
      have small := (Nat.pow_lt_pow_iff_right (a := 2) (by decide)).mp
          (Nat.lt_of_lt_of_le less fits)
      rw [doubleUntil, two_pow_mul_two_mod (by omega)]
      split
      · next again => exact ih again (by omega)
      · next done => exact ⟨k + 1, by omega, rfl, Nat.not_lt.mp done⟩

theorem doubleUntil_endless {k : Nat} (beyond : 2 ^ (bits - 1) < target) (below : k < bits)
    (fuel : Nat) : doubleUntil bits target fuel (2 ^ k) = .error .endless := by
  induction fuel generalizing k with
  | zero => rfl
  | succ fuel ih =>
      rw [doubleUntil]
      by_cases last : k + 1 = bits
      · have whole : 2 ^ k * 2 % 2 ^ bits = 0 := by
          rw [← last, Nat.pow_succ, Nat.mod_self]
        rw [whole, if_pos (Nat.zero_lt_of_lt beyond)]
        exact doubleUntil_zero (Nat.zero_lt_of_lt beyond) fuel
      · have inside : k + 1 < bits := by omega
        have less : 2 ^ (k + 1) < target :=
          Nat.lt_of_le_of_lt (Nat.pow_le_pow_right (by decide) (by omega)) beyond
        rw [two_pow_mul_two_mod inside, if_pos less]
        exact ih inside

end

end AcnSdk.Lib
