/-
Bitmaps: sets of numbers, one bit each, in a block of bytes.

A bit outside the block is clear, and stays so. The lemmas say which bits an operation
changes.
-/

import Mathlib.Data.List.GetD
import AcnSdk.Lib.Bytes

namespace AcnSdk.Lib

/-- The bit `k` of a byte. -/
def mask (k : Nat) : Byte := 1 <<< UInt8.ofNat k

/-- `bits[i >> 3] & (1 << (i % 8))`. -/
def bitAt (bits : Bytes) (i : Nat) : Bool := bits.getD (i >>> 3) 0 &&& mask (i % 8) != 0

/-- `bits[i >> 3] |= (1 << (i % 8))`. -/
def setBit (bits : Bytes) (i : Nat) : Bytes :=
  bits.set (i >>> 3) (bits.getD (i >>> 3) 0 ||| mask (i % 8))

/-- `bits[i >> 3] &= ~(1 << (i % 8))`. -/
def clearBit (bits : Bytes) (i : Nat) : Bytes :=
  bits.set (i >>> 3) (bits.getD (i >>> 3) 0 &&& ~~~mask (i % 8))

/-! ### One byte -/

theorem mask_getLsbD {k j : Nat} (hk : k < 8) (hj : j < 8) :
    (mask k).toBitVec.getLsbD j = decide (k = j) := by
  have all : ∀ k j : Fin 8, (mask k).toBitVec.getLsbD j = decide (k.val = j.val) := by decide
  exact all ⟨k, hk⟩ ⟨j, hj⟩

theorem and_mask_ne_zero (x : Byte) {k : Nat} (hk : k < 8) :
    (x &&& mask k != 0) = x.toBitVec.getLsbD k := by
  have bits : ∀ j, j < 8 → (x &&& mask k).toBitVec.getLsbD j =
      (x.toBitVec.getLsbD j && decide (k = j)) := by
    intro j hj
    rw [UInt8.toBitVec_and, BitVec.getLsbD_and, mask_getLsbD hk hj]
  cases value : x.toBitVec.getLsbD k with
  | true =>
      have differ : x &&& mask k ≠ 0 := by
        intro zero
        have := bits k hk
        rw [zero, value] at this
        simp at this
      simpa using differ
  | false =>
      have zero : x &&& mask k = 0 := by
        apply UInt8.toBitVec_inj.mp
        apply BitVec.eq_of_getLsbD_eq
        intro j hj
        rw [bits j hj]
        by_cases same : k = j
        · subst same
          simp [value]
        · simp [same]
      simp [zero]

/-! ### All bits -/

theorem bitAt_eq (bits : Bytes) (i : Nat) :
    bitAt bits i = (bits.getD (i / 8) 0).toBitVec.getLsbD (i % 8) := by
  rw [bitAt, and_mask_ne_zero _ (Nat.mod_lt _ (by decide)), Nat.shiftRight_eq_div_pow]

theorem bitAt_of_ge {bits : Bytes} {i : Nat} (outside : 8 * bits.length ≤ i) :
    bitAt bits i = false := by
  have past : bits.length ≤ i / 8 := by omega
  rw [bitAt_eq, List.getD_eq_default _ _ past]
  simp

theorem bitAt_replicate (k i : Nat) : bitAt (List.replicate k 0) i = false := by
  rw [bitAt_eq]
  by_cases inside : i / 8 < k
  · rw [List.getD_replicate _ inside]
    simp
  · rw [List.getD_eq_default _ _ (by simpa using inside)]
    simp

@[simp] theorem length_setBit (bits : Bytes) (i : Nat) : (setBit bits i).length = bits.length := by
  simp [setBit]

@[simp] theorem length_clearBit (bits : Bytes) (i : Nat) :
    (clearBit bits i).length = bits.length := by
  simp [clearBit]

theorem bitAt_setBit {bits : Bytes} {i : Nat} (inside : i < 8 * bits.length) (j : Nat) :
    bitAt (setBit bits i) j = (decide (i = j) || bitAt bits j) := by
  have byte_lt : i / 8 < bits.length := by omega
  have hi : i % 8 < 8 := Nat.mod_lt _ (by decide)
  have hj : j % 8 < 8 := Nat.mod_lt _ (by decide)
  rw [bitAt_eq, bitAt_eq, setBit, Nat.shiftRight_eq_div_pow]
  by_cases same : i / 8 = j / 8
  · rw [← same, List.getD_eq_getElem _ _ (by simpa using byte_lt), List.getElem_set_self,
      UInt8.toBitVec_or, BitVec.getLsbD_or, mask_getLsbD hi hj]
    have : (i % 8 = j % 8) ↔ i = j := by omega
    simp only [this]
    rw [Bool.or_comm]
  · have differ : i ≠ j := fun e => same (by rw [e])
    rw [decide_eq_false differ, Bool.false_or, List.getD_eq_getElem?_getD,
      List.getElem?_set_ne same,
      ← List.getD_eq_getElem?_getD]

theorem bitAt_clearBit (bits : Bytes) (i j : Nat) :
    bitAt (clearBit bits i) j = (!decide (i = j) && bitAt bits j) := by
  have hi : i % 8 < 8 := Nat.mod_lt _ (by decide)
  have hj : j % 8 < 8 := Nat.mod_lt _ (by decide)
  rw [bitAt_eq, bitAt_eq, clearBit, Nat.shiftRight_eq_div_pow]
  by_cases same : i / 8 = j / 8
  · rw [← same]
    by_cases inside : i / 8 < bits.length
    · rw [List.getD_eq_getElem _ _ (by simpa using inside), List.getElem_set_self,
        UInt8.toBitVec_and, BitVec.getLsbD_and, UInt8.toBitVec_not, BitVec.getLsbD_not,
        mask_getLsbD hi hj]
      have : (i % 8 = j % 8) ↔ i = j := by omega
      simp only [this, hj, decide_true, Bool.true_and]
      rw [Bool.and_comm]
    · rw [List.getD_eq_default _ _ (by simpa using inside),
        List.getD_eq_default _ _ (by simpa using inside)]
      simp
  · have differ : i ≠ j := fun e => same (by rw [e])
    rw [decide_eq_false differ, Bool.not_false, Bool.true_and, List.getD_eq_getElem?_getD,
      List.getElem?_set_ne same, ← List.getD_eq_getElem?_getD]

/-! ### Ranges of bits -/

/-- Setting `n` bits from `i` on. -/
def setBits (bits : Bytes) (i : Nat) : Nat → Bytes
  | 0 => bits
  | n + 1 => setBits (setBit bits i) (i + 1) n

/-- Clearing `n` bits from `i` on. -/
def clearBits (bits : Bytes) (i : Nat) : Nat → Bytes
  | 0 => bits
  | n + 1 => clearBits (clearBit bits i) (i + 1) n

@[simp] theorem length_setBits (bits : Bytes) (i n : Nat) :
    (setBits bits i n).length = bits.length := by
  induction n generalizing bits i with
  | zero => rfl
  | succ n ih => rw [setBits, ih, length_setBit]

@[simp] theorem length_clearBits (bits : Bytes) (i n : Nat) :
    (clearBits bits i n).length = bits.length := by
  induction n generalizing bits i with
  | zero => rfl
  | succ n ih => rw [clearBits, ih, length_clearBit]

theorem bitAt_setBits {bits : Bytes} {i n : Nat} (inside : i + n ≤ 8 * bits.length) (j : Nat) :
    bitAt (setBits bits i n) j = (decide (i ≤ j ∧ j < i + n) || bitAt bits j) := by
  induction n generalizing bits i with
  | zero =>
      have none : ¬ (i ≤ j ∧ j < i + 0) := by omega
      rw [setBits, decide_eq_false none, Bool.false_or]
  | succ n ih =>
      have rest : i + 1 + n ≤ 8 * (setBit bits i).length := by
        rw [length_setBit]
        omega
      have split : (i ≤ j ∧ j < i + (n + 1)) ↔ (i + 1 ≤ j ∧ j < i + 1 + n) ∨ i = j := by omega
      rw [setBits, ih rest, bitAt_setBit (by omega), ← Bool.or_assoc, ← Bool.decide_or]
      simp only [split]

theorem bitAt_clearBits (bits : Bytes) (i n j : Nat) :
    bitAt (clearBits bits i n) j = (!decide (i ≤ j ∧ j < i + n) && bitAt bits j) := by
  induction n generalizing bits i with
  | zero =>
      have none : ¬ (i ≤ j ∧ j < i + 0) := by omega
      rw [clearBits, decide_eq_false none, Bool.not_false, Bool.true_and]
  | succ n ih =>
      have split : (i ≤ j ∧ j < i + (n + 1)) ↔ (i + 1 ≤ j ∧ j < i + 1 + n) ∨ i = j := by omega
      rw [clearBits, ih, bitAt_clearBit, ← Bool.and_assoc, ← Bool.not_or, ← Bool.decide_or]
      simp only [split]

end AcnSdk.Lib
