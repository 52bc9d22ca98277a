/-
The texts of integers in number nodes, over doubles as the machine has them.

`emit_number` prints an integral number with `"%d"`, after a conversion to `int`.

* `integerPrinted_iff` — the integers of `int` are printed, and no others.
-/

import AcnSdk.Json.Encode
import AcnSdk.Json.TextRoundTrip
import AcnSdk.Lib.Double

namespace AcnSdk.Json

open AcnSdk.Lib Ascii

theorem signed_fits {i : Int} (fits : FitsInt i) : (signed i).length < 64 := by
  rw [← wrapInt_eq fits]
  exact signed_wrapInt_fits i

/-- A numeral is that of one integer. -/
theorem signed_inj {i j : Int} : signed i = signed j ↔ i = j := by
  constructor
  · intro same
    rw [← strtodInt_signed i, same, strtodInt_signed]
  · exact congrArg signed

/-- The C library with `modf`, and `"%d"` of `(int)num`, as they are on doubles. `outside` is the
conversion of numbers that `int` does not hold. -/
def Libc.onDoubles (libc : Libc Double) (outside : Double → BitVec 32) : Libc Double :=
  { libc with
    hasFraction := fun num => 0 < num.fraction ∨ num.fraction < 0
    printInt := fun num => signed (num.toInt outside)
    printInt_fits := fun num => signed_fits (num.toInt_bounds outside) }

/-- The number `num` is printed as the numeral of `n`, and a node is as long as that. -/
structure IntegerPrinted {ν : Type} (libc : Libc ν) (num : ν) (n : Int) : Prop where
  printed : emitNumber libc num = signed n
  counted : ∀ key, jsonSize libc (.scalar key (.number num)) = keySize key + (signed n).length

theorem emitNumber_whole (libc : Libc Double) (outside : Double → BitVec 32)
    {num : Double} {n : Int}
    (whole : num.value = n) :
    emitNumber (libc.onDoubles outside) num = signed (num.toInt outside) := by
  have no_fraction : (libc.onDoubles outside).hasFraction num = false := by
    simp [Libc.onDoubles, Double.fraction_of_value whole]
  have buffer : numberBuffer (libc.onDoubles outside) num = signed (num.toInt outside) := by
    rw [numberBuffer, no_fraction, if_neg Bool.false_ne_true]
    rfl
  rw [emitNumber, buffer, if_pos (numberIsValid_signed _)]

/-- An integer that a double holds exactly is printed in decimal if it is an `int`, and otherwise
something else is. -/
theorem integerPrinted_iff (libc : Libc Double) (outside : Double → BitVec 32) {n : Int}
    (exact : n.natAbs ≤ 2 ^ 53) :
    IntegerPrinted (libc.onDoubles outside) (Double.ofInt n exact) n ↔ FitsInt n := by
  have whole := Double.value_ofInt exact
  have text := emitNumber_whole libc outside whole
  have converted := Double.toInt_eq_iff outside whole
  constructor
  · intro integer
    exact converted.mp (signed_inj.mp (text.symm.trans integer.printed))
  · intro fits
    rw [converted.mpr fits] at text
    refine ⟨text, fun key => ?_⟩
    rw [jsonSize, text]

/-! ### Where the least `int` stands for all numbers beyond -/

/-- A C library that reads the integers which are doubles, and prints what is left of them. -/
def Libc.double : Libc Double where
  hasFraction _ := false
  printGeneral num := signed (wrapInt num.integral)
  printFixed num := signed (wrapInt num.integral)
  printInt num := signed (wrapInt num.integral)
  strtod s :=
    if exact : (strtodInt s).natAbs ≤ 2 ^ 53 then .ofInt (strtodInt s) exact
    else .ofInt 0 (by decide)
  printGeneral_fits _ := signed_wrapInt_fits _
  printFixed_fits _ := signed_wrapInt_fits _
  printInt_fits _ := signed_wrapInt_fits _
  strtod_delimited num rest valid delimited := by
    have same := Libc.int.strtod_delimited num rest valid delimited
    simp only [show strtodInt (num ++ rest) = strtodInt num from same]

/-- The numbers of a machine that converts to the least `int` what `int` does not hold. -/
def leastLibc : Libc Double := Libc.double.onDoubles fun _ => BitVec.intMin 32

theorem integerPrinted_iff_hundred :
    IntegerPrinted leastLibc (.ofInt 100 (by decide)) 100 ↔ FitsInt 100 :=
  integerPrinted_iff Libc.double _ (by decide)

/-- The milliseconds of a day in May 2018. -/
theorem not_integerPrinted_milliseconds :
    ¬ IntegerPrinted leastLibc (.ofInt 1526910032173 (by decide)) 1526910032173 := by
  intro integer
  have text : emitNumber leastLibc (.ofInt 1526910032173 (by decide)) = signed (-2147483648) := by
    rw [leastLibc, emitNumber_whole Libc.double _ (Double.value_ofInt _), Double.toInt,
      Double.integral_of_value (Double.value_ofInt _), if_neg (by decide)]
    rfl
  exact absurd (signed_inj.mp (text.symm.trans integer.printed)) (by decide)

end AcnSdk.Json
