/-
Times of day, `timestamp_t` of `src/time/time.h` and `src/time/time.c`.

The fields share two words of 32 bits, from the lowest bit of each on in the order in which
they are declared. Whether the time of day or the date comes first depends on `__LE_MODE__`.
`timestamp_less` compares the words, the first one first.

* `timestampLess_iff` — it is the order of the pairs of words.
* `timestampLess_chronological_iff` — when it is the chronological order.
-/

import AcnSdk.Lib.BitField
import Mathlib.Data.Prod.Lex

namespace AcnSdk.Time

open AcnSdk.Lib

/-- `timestamp_t`. -/
@[ext] structure Timestamp where
  dummy : BitVec 5
  msec : BitVec 10
  sec : BitVec 6
  min : BitVec 6
  hour : BitVec 5
  day : BitVec 5
  mon : BitVec 4
  year : BitVec 23
deriving DecidableEq

/-- `timestamp_t` with all bits 0. -/
def Timestamp.zero : Timestamp := ⟨0, 0, 0, 0, 0, 0, 0, 0⟩

/-- Whether `__LE_MODE__` is set. -/
inductive Layout where
  | leMode | plain
deriving DecidableEq, Repr

/-- The word of the time of day, from its highest field on. -/
def Timestamp.timeWord (t : Timestamp) : BitVec 32 :=
  t.hour ++ (t.min ++ (t.sec ++ (t.msec ++ t.dummy)))

/-- The word of the date, from its highest field on. -/
def Timestamp.dateWord (t : Timestamp) : BitVec 32 := t.year ++ (t.mon ++ t.day)

/-- The words in memory. -/
def Layout.words (layout : Layout) (t : Timestamp) : BitVec 32 × BitVec 32 :=
  match layout with
  | .leMode => (t.timeWord, t.dateWord)
  | .plain => (t.dateWord, t.timeWord)

/-- `timestamp_less`. -/
def timestampLess (layout : Layout) (t1 t2 : Timestamp) : Int :=
  let data1 := layout.words t1
  let data2 := layout.words t2
  if data1.1 < data2.1 then 1
  else if data1.1 = data2.1 then
    if data1.2 < data2.2 then 1 else 0
  else 0

/-! ### Order of the words -/

/-- The words as a pair that is compared from its first part on. -/
def Layout.key (layout : Layout) (t : Timestamp) : ℕ ×ₗ ℕ :=
  toLex ((layout.words t).1.toNat, (layout.words t).2.toNat)

theorem words_inj (layout : Layout) {a b : Timestamp} (eq : layout.words a = layout.words b) :
    a = b := by
  have both : a.timeWord = b.timeWord ∧ a.dateWord = b.dateWord := by
    cases layout with
    | leMode => exact Prod.mk.inj eq
    | plain => exact (Prod.mk.inj eq).symm
  obtain ⟨time, date⟩ := both
  obtain ⟨hour, time⟩ := append_inj time
  obtain ⟨min, time⟩ := append_inj time
  obtain ⟨sec, time⟩ := append_inj time
  obtain ⟨msec, dummy⟩ := append_inj time
  obtain ⟨year, date⟩ := append_inj date
  obtain ⟨mon, day⟩ := append_inj date
  exact Timestamp.ext dummy msec sec min hour day mon year

theorem key_injective (layout : Layout) : Function.Injective layout.key := by
  intro a b eq
  have parts := Prod.mk.inj (toLex.injective eq)
  exact words_inj layout
    (Prod.ext (BitVec.eq_of_toNat_eq parts.1) (BitVec.eq_of_toNat_eq parts.2))

/-- The first word decides, and the second one where the first ones are the same. -/
theorem timestampLess_eq_one (layout : Layout) (a b : Timestamp) :
    timestampLess layout a b = 1 ↔ (layout.words a).1 < (layout.words b).1 ∨
      (layout.words a).1 = (layout.words b).1 ∧ (layout.words a).2 < (layout.words b).2 := by
  rw [timestampLess]
  split_ifs with first same second
  · exact iff_of_true rfl (.inl first)
  · exact iff_of_true rfl (.inr ⟨same, second⟩)
  · exact iff_of_false zero_ne_one (not_or.mpr ⟨first, fun h => second h.2⟩)
  · exact iff_of_false zero_ne_one (not_or.mpr ⟨first, fun h => same h.1⟩)

/-- `timestamp_less` is a strict total order on the contents of the words. -/
theorem timestampLess_iff (layout : Layout) (a b : Timestamp) :
    timestampLess layout a b = 1 ↔ layout.key a < layout.key b := by
  rw [timestampLess_eq_one, Layout.key, Layout.key, Prod.Lex.toLex_lt_toLex, BitVec.toNat_inj]
  rfl

/-- The result is 1 or 0. -/
theorem timestampLess_ne_zero (layout : Layout) (a b : Timestamp) :
    timestampLess layout a b ≠ 0 ↔ timestampLess layout a b = 1 := by
  unfold timestampLess
  dsimp only
  split_ifs <;> decide

/-! ### Order of the fields -/

/-- Year, month and day. -/
def Timestamp.date (t : Timestamp) : List ℕ := [t.year.toNat, t.mon.toNat, t.day.toNat]

/-- Hour, minute, second and millisecond. -/
def Timestamp.time (t : Timestamp) : List ℕ :=
  [t.hour.toNat, t.min.toNat, t.sec.toNat, t.msec.toNat]

/-- The chronological order: year first, millisecond last. -/
def Timestamp.Earlier (a b : Timestamp) : Prop := a.date ++ a.time < b.date ++ b.time

instance (a b : Timestamp) : Decidable (a.Earlier b) :=
  inferInstanceAs (Decidable (_ < _))

/-- Fields in the ranges of a calendar and a clock. The year has no range of its own. -/
structure Timestamp.InRange (t : Timestamp) : Prop where
  mon : 1 ≤ t.mon.toNat ∧ t.mon.toNat ≤ 12
  day : 1 ≤ t.day.toNat ∧ t.day.toNat ≤ 31
  hour : t.hour.toNat ≤ 23
  min : t.min.toNat ≤ 59
  sec : t.sec.toNat ≤ 59
  msec : t.msec.toNat ≤ 999
  dummy : t.dummy = 0

theorem dateWord_lt_iff (a b : Timestamp) : a.dateWord < b.dateWord ↔ a.date < b.date :=
  append_lt_cons (append_lt_cons lt_singleton)

/-- Words of the time of day compare as times of day, if the padding is the same. -/
theorem timeWord_lt_iff {a b : Timestamp} (same : a.dummy = b.dummy) :
    a.timeWord < b.timeWord ↔ a.time < b.time := by
  have lowest : a.msec ++ a.dummy < b.msec ++ b.dummy ↔ [a.msec.toNat] < [b.msec.toNat] := by
    rw [append_lt_append_iff, same, ← lt_singleton]
    simp
  exact append_lt_cons (append_lt_cons (append_lt_cons lowest))

/-- The chronological order in terms of the two words. -/
theorem earlier_iff {a b : Timestamp} (same : a.dummy = b.dummy) :
    a.Earlier b ↔ a.dateWord < b.dateWord ∨ a.date = b.date ∧ a.timeWord < b.timeWord := by
  rw [dateWord_lt_iff, timeWord_lt_iff same]
  exact list_append_lt_iff rfl

theorem date_eq_iff (a b : Timestamp) : a.date = b.date ↔ a.dateWord = b.dateWord := by
  constructor
  · intro eq
    obtain ⟨year, mon, day⟩ : a.year = b.year ∧ a.mon = b.mon ∧ a.day = b.day := by
      simpa [Timestamp.date, BitVec.toNat_inj] using eq
    rw [Timestamp.dateWord, Timestamp.dateWord, year, mon, day]
  · intro eq
    obtain ⟨year, rest⟩ := append_inj eq
    obtain ⟨mon, day⟩ := append_inj rest
    rw [Timestamp.date, Timestamp.date, year, mon, day]

theorem time_eq_iff {a b : Timestamp} (same : a.dummy = b.dummy) :
    a.time = b.time ↔ a.timeWord = b.timeWord := by
  constructor
  · intro eq
    obtain ⟨hour, min, sec, msec⟩ :
        a.hour = b.hour ∧ a.min = b.min ∧ a.sec = b.sec ∧ a.msec = b.msec := by
      simpa [Timestamp.time, BitVec.toNat_inj] using eq
    rw [Timestamp.timeWord, Timestamp.timeWord, hour, min, sec, msec, same]
  · intro eq
    obtain ⟨hour, rest⟩ := append_inj eq
    obtain ⟨min, rest⟩ := append_inj rest
    obtain ⟨sec, rest⟩ := append_inj rest
    obtain ⟨msec, -⟩ := append_inj rest
    rw [Timestamp.time, Timestamp.time, hour, min, sec, msec]

/-- The two layouts compare the same parts in a different order. -/
def Layout.Agrees (layout : Layout) (a b : Timestamp) : Prop :=
  layout = .plain ∨ a.date = b.date ∨ a.time = b.time ∨ (a.date < b.date ↔ a.time < b.time)

/-- `timestamp_less` is chronological where the date comes first, and elsewhere as far as the two
parts do not contradict each other. -/
theorem timestampLess_chronological_iff (layout : Layout) {a b : Timestamp}
    (same : a.dummy = b.dummy) :
    (timestampLess layout a b = 1 ↔ a.Earlier b) ↔ layout.Agrees a b := by
  rw [timestampLess_eq_one, earlier_iff same, Layout.Agrees, date_eq_iff, time_eq_iff same,
    ← dateWord_lt_iff, ← timeWord_lt_iff same]
  cases layout with
  | plain => exact iff_of_true Iff.rfl (.inl rfl)
  | leMode =>
      simp only [Layout.words, reduceCtorEq, false_or]
      generalize a.dateWord = d
      generalize b.dateWord = d'
      generalize a.timeWord = t
      generalize b.timeWord = t'
      rw [BitVec.lt_def, BitVec.lt_def, ← BitVec.toNat_inj, ← BitVec.toNat_inj]
      omega

end AcnSdk.Time
