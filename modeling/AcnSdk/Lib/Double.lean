/-
Finite double precision numbers: their values, `modf`, and the conversions from and to `int`.

The conversion of a number beyond `int` is undefined in C. What a machine makes of it is a
parameter.

* `toInt_eq_iff` — the integers that `int` holds are converted exactly, and no others.
-/

import Mathlib.Data.Rat.Floor
import Mathlib.Tactic.NormNum

namespace AcnSdk.Lib

/-- The number `mantissa * 2 ^ exponent`. -/
structure Double where
  mantissa : Int
  exponent : Int
  mantissa_lt : mantissa.natAbs < 2 ^ 53
  exponent_ge : -1074 ≤ exponent
  exponent_le : exponent ≤ 971

namespace Double

def value (d : Double) : ℚ := d.mantissa * 2 ^ d.exponent

/-- The integral part of `modf`: the value without what follows the point. -/
def integral (d : Double) : Int := if d.value < 0 then ⌈d.value⌉ else ⌊d.value⌋

/-- The result of `modf`. -/
def fraction (d : Double) : ℚ := d.value - d.integral

/-- `(int)d`. -/
def toInt (outside : Double → BitVec 32) (d : Double) : Int :=
  if -2 ^ 31 ≤ d.integral ∧ d.integral < 2 ^ 31 then d.integral else (outside d).toInt

/-- Integers of 53 bits are doubles, and so is the next one. -/
def ofInt (n : Int) (exact : n.natAbs ≤ 2 ^ 53) : Double :=
  if less : n.natAbs < 2 ^ 53 then ⟨n, 0, less, by omega, by omega⟩
  else ⟨n / 2, 1, by omega, by omega, by omega⟩

section

variable {n : Int} {d : Double}

theorem value_ofInt (exact : n.natAbs ≤ 2 ^ 53) : (ofInt n exact).value = n := by
  rw [ofInt]
  split
  · rw [value, zpow_zero, mul_one]
  · have even : n = n / 2 * 2 := by omega
    rw [value, zpow_one]
    exact_mod_cast even.symm

theorem integral_of_value (whole : d.value = n) : d.integral = n := by
  rw [integral, whole, Int.ceil_intCast, Int.floor_intCast, ite_self]

theorem fraction_of_value (whole : d.value = n) : d.fraction = 0 := by
  rw [fraction, integral_of_value whole, whole, sub_self]

/-- The result of a conversion is an `int`, whatever the number. -/
theorem toInt_bounds (outside : Double → BitVec 32) (d : Double) :
    -2 ^ 31 ≤ d.toInt outside ∧ d.toInt outside < 2 ^ 31 := by
  rw [toInt]
  split
  case isTrue fits => exact fits
  case isFalse => exact ⟨BitVec.le_toInt (outside d), BitVec.toInt_lt⟩

/-- So only the integers that `int` holds stay as they are. -/
theorem toInt_eq_iff (outside : Double → BitVec 32) (whole : d.value = n) :
    d.toInt outside = n ↔ -2 ^ 31 ≤ n ∧ n < 2 ^ 31 := by
  constructor
  · intro same
    exact same ▸ toInt_bounds outside d
  · intro fits
    rw [toInt, integral_of_value whole, if_pos fits]

end

end Double

end AcnSdk.Lib
