/-
Numbers in base 128, one digit a byte, the lowest first. Every byte but the last has its
highest bit set.

* `digits_numeral`, `value_digits` — what `digits` writes is such a numeral, of the number.
* `length_digits_le` — how long it is.
-/

import AcnSdk.Lib.Bytes

namespace AcnSdk.Lib

/-- The digits of a number; `fuel` is a bound on how many there are. -/
def digits : Nat → Nat → Bytes
  | 0, _ => []
  | fuel + 1, n =>
      if 0 < n / 128 then UInt8.ofNat (n % 128 + 128) :: digits fuel (n / 128) else [UInt8.ofNat n]

/-- The number. -/
def digitsValue : Bytes → Nat
  | [] => 0
  | d :: ds => d.toNat % 128 + 128 * digitsValue ds

/-- A complete numeral. -/
inductive Numeral : Bytes → Prop where
  | last {d : Byte} (lt : d.toNat < 128) : Numeral [d]
  | more {d : Byte} {ds : Bytes} (ge : 128 ≤ d.toNat) (rest : Numeral ds) : Numeral (d :: ds)

theorem digitsValue_lt (ds : Bytes) : digitsValue ds < 128 ^ ds.length := by
  induction ds with
  | nil => exact Nat.one_pos
  | cons d ds ih =>
      rw [digitsValue, List.length_cons, Nat.pow_succ]
      have := Nat.mod_lt d.toNat (show 0 < 128 by decide)
      omega

theorem Numeral.length_pos {ds : Bytes} (numeral : Numeral ds) : 0 < ds.length := by
  cases numeral with
  | last lt => exact Nat.succ_pos _
  | more ge rest => exact Nat.succ_pos _

theorem toNat_more (n : Nat) : (UInt8.ofNat (n % 128 + 128)).toNat = n % 128 + 128 := by
  rw [UInt8.toNat_ofNat']
  omega

theorem toNat_last {n : Nat} (lt : n < 128) : (UInt8.ofNat n).toNat = n := by
  rw [UInt8.toNat_ofNat']
  omega

theorem digits_numeral {fuel n : Nat} (enough : n < 128 ^ fuel) (pos : 0 < fuel) :
    Numeral (digits fuel n) := by
  induction fuel generalizing n with
  | zero => exact absurd pos (Nat.lt_irrefl 0)
  | succ fuel ih =>
      rw [digits]
      split
      · next more =>
          have lt : n / 128 < 128 ^ fuel := by
            rw [Nat.pow_succ] at enough
            exact Nat.div_lt_of_lt_mul (by omega)
          refine .more (by rw [toNat_more]; omega) (ih lt ?_)
          by_contra none
          rw [show fuel = 0 by omega, Nat.pow_zero] at lt
          omega
      · next less => exact .last (by rw [toNat_last (by omega)]; omega)

theorem value_digits {fuel n : Nat} (enough : n < 128 ^ fuel) :
    digitsValue (digits fuel n) = n := by
  induction fuel generalizing n with
  | zero =>
      rw [Nat.pow_zero] at enough
      rw [digits, digitsValue]
      omega
  | succ fuel ih =>
      have lt : n / 128 < 128 ^ fuel := by
        rw [Nat.pow_succ] at enough
        exact Nat.div_lt_of_lt_mul (by omega)
      rw [digits]
      split
      · rw [digitsValue, ih lt, toNat_more]
        omega
      · rw [digitsValue, digitsValue, toNat_last (by omega)]
        omega

theorem digits_length_pos {fuel n : Nat} (pos : 0 < fuel) : 0 < (digits fuel n).length := by
  obtain ⟨fuel, rfl⟩ := Nat.exists_eq_succ_of_ne_zero (Nat.ne_of_gt pos)
  rw [digits]
  split <;> exact Nat.succ_pos _

theorem length_digits_le {fuel n k : Nat} (small : n < 128 ^ k) (pos : 0 < k) :
    (digits fuel n).length ≤ k := by
  induction fuel generalizing n k with
  | zero => exact Nat.zero_le k
  | succ fuel ih =>
      rw [digits]
      split
      · next more =>
          obtain ⟨j, rfl⟩ := Nat.exists_eq_succ_of_ne_zero (Nat.ne_of_gt pos)
          have lt : n / 128 < 128 ^ j := by
            rw [Nat.succ_eq_add_one, Nat.pow_succ] at small
            exact Nat.div_lt_of_lt_mul (by omega)
          have j_pos : 0 < j := by
            by_contra none
            rw [show j = 0 by omega, Nat.pow_zero] at lt
            omega
          rw [List.length_cons]
          exact Nat.succ_le_succ (ih lt j_pos)
      · exact pos

theorem lt_length_digits {fuel n k : Nat} (large : 128 ^ k ≤ n) (lt : k < fuel) :
    k < (digits fuel n).length := by
  induction k generalizing fuel n with
  | zero => exact (digits_length_pos (by omega))
  | succ k ih =>
      obtain ⟨fuel, rfl⟩ :=
        Nat.exists_eq_succ_of_ne_zero (Nat.ne_of_gt (Nat.lt_of_le_of_lt (Nat.zero_le _) lt))
      have next : 128 ^ k ≤ n / 128 := by
        rw [Nat.pow_succ] at large
        exact (Nat.le_div_iff_mul_le (by decide)).mpr large
      have more : 0 < n / 128 := Nat.lt_of_lt_of_le (Nat.pow_pos (by decide)) next
      rw [digits, if_pos more, List.length_cons]
      exact Nat.succ_lt_succ (ih next (Nat.lt_of_succ_lt_succ lt))

end AcnSdk.Lib
