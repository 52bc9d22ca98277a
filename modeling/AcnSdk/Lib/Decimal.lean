/-
Decimal numerals: the digits of a natural number and the number of a digit
string.
-/

import AcnSdk.Lib.Bytes
import Mathlib.Tactic.Ring

namespace AcnSdk.Lib

open Ascii

/-- The character of a digit below ten. -/
def digitChar (d : Nat) : Byte := UInt8.ofNat (0x30 + d)

/-- The digits of `n` put in front of `acc`. -/
def decimalFrom : Nat → Nat → Bytes → Bytes
  | 0, _, acc => acc
  | fuel + 1, n, acc =>
      if n < 10 then digitChar n :: acc
      else decimalFrom fuel (n / 10) (digitChar (n % 10) :: acc)

/-- The decimal numeral of `n`, without leading zeros. -/
def decimal (n : Nat) : Bytes := decimalFrom (n + 1) n []

/-- The number that a digit string denotes, leading zeros allowed. -/
def decimalValue (s : Bytes) : Nat := s.foldl (fun v c => v * 10 + (c.toNat - 0x30)) 0

theorem digitChar_toNat {d : Nat} (h : d < 10) : (digitChar d).toNat = 0x30 + d := by
  simp only [digitChar, UInt8.toNat_ofNat']
  omega

theorem isDigit_iff (c : Byte) : isDigit c = true ↔ 0x30 ≤ c.toNat ∧ c.toNat ≤ 0x39 := by
  simp [isDigit, UInt8.le_iff_toNat_le, zero, nine]

theorem isDigit_digitChar {d : Nat} (h : d < 10) : isDigit (digitChar d) = true := by
  rw [isDigit_iff, digitChar_toNat h]
  omega

/-- The digits split off in front of `acc`: nothing but digits, at most `k` of a
number below `10 ^ k`, no leading zero, and worth the number. -/
theorem decimalFrom_spec : ∀ fuel n acc, n < fuel → ∃ ds, decimalFrom fuel n acc = ds ++ acc ∧
    (∀ c ∈ ds, isDigit c = true) ∧ decimalValue ds = n ∧
    (∀ k, n < 10 ^ k → 0 < k → ds.length ≤ k) ∧ ds ≠ [] ∧ (peek ds = zero → ds = [zero]) := by
  intro fuel
  induction fuel with
  | zero => intro n acc h; omega
  | succ fuel ih =>
      intro n acc h
      by_cases small : n < 10
      · refine ⟨[digitChar n], by simp [decimalFrom, small], ?_, ?_, ?_, by simp, ?_⟩
        · simpa using isDigit_digitChar small
        · simp [decimalValue, digitChar_toNat small]
        · intro k _ hk; exact hk
        · intro hz; simpa using hz
      · obtain ⟨ds, eq, digits, value, length, nonempty, leading⟩ :=
          ih (n / 10) (digitChar (n % 10) :: acc) (by omega)
        have last : n % 10 < 10 := Nat.mod_lt _ (by omega)
        refine ⟨ds ++ [digitChar (n % 10)], by simp [decimalFrom, small, eq], ?_, ?_,
          ?_, by simp, ?_⟩
        · intro c hc
          rcases List.mem_append.mp hc with hc | hc
          · exact digits c hc
          · rw [List.mem_singleton.mp hc]; exact isDigit_digitChar last
        · rw [decimalValue, List.foldl_append] at *
          simp only [value, List.foldl_cons, List.foldl_nil, digitChar_toNat last]
          omega
        · intro k hn hk
          obtain ⟨k, rfl⟩ : ∃ m, k = m + 1 := ⟨k - 1, by omega⟩
          have hlt : n / 10 < 10 ^ k := by
            rw [Nat.pow_succ] at hn
            omega
          have hpos : 0 < k := by
            rcases Nat.eq_zero_or_pos k with rfl | h
            · simp at hlt; omega
            · exact h
          have := length k hlt hpos
          simp
          omega
        · intro hz
          -- a leading zero would make the leading part zero, but `n` has two digits
          have lead : peek ds = zero := by
            cases ds with
            | nil => exact absurd rfl nonempty
            | cons d ds => simpa using hz
          rw [leading lead] at value
          simp [decimalValue, zero] at value
          omega

theorem decimal_spec (n : Nat) : (∀ c ∈ decimal n, isDigit c = true) ∧
    decimalValue (decimal n) = n ∧ (∀ k, n < 10 ^ k → 0 < k → (decimal n).length ≤ k) ∧
    decimal n ≠ [] ∧ (peek (decimal n) = zero → decimal n = [zero]) := by
  obtain ⟨ds, eq, spec⟩ := decimalFrom_spec (n + 1) n [] (by omega)
  rw [List.append_nil] at eq
  rw [decimal, eq]
  exact spec

theorem decimal_plain (n : Nat) : 0 ∉ decimal n := fun mem =>
  absurd ((decimal_spec n).1 0 mem) (by decide)

/-- `%0*d`: the numeral with zeros in front, so that it has at least `width` digits. -/
def decimalPadded (width n : Nat) : Bytes :=
  List.replicate (width - (decimal n).length) zero ++ decimal n

theorem decimalPadded_digits (width n : Nat) : ∀ c ∈ decimalPadded width n, isDigit c = true := by
  intro c mem
  rcases List.mem_append.mp mem with mem | mem
  · rw [List.eq_of_mem_replicate mem]
    decide
  · exact (decimal_spec n).1 c mem

theorem decimalPadded_length {width n : Nat} (fits : n < 10 ^ width) (pos : 0 < width) :
    (decimalPadded width n).length = width := by
  have short := (decimal_spec n).2.2.1 width fits pos
  rw [decimalPadded, List.length_append, List.length_replicate]
  omega

/-- Zeros in front do not count. -/
theorem decimalPadded_value (width n : Nat) : decimalValue (decimalPadded width n) = n := by
  have zeros : ∀ k, (List.replicate k zero).foldl (fun v c => v * 10 + (c.toNat - 0x30)) 0 = 0 := by
    intro k
    induction k with
    | zero => rfl
    | succ k ih =>
        rw [List.replicate_succ', List.foldl_append, ih]
        rfl
  rw [decimalPadded, decimalValue, List.foldl_append, zeros]
  exact (decimal_spec n).2.1

end AcnSdk.Lib
