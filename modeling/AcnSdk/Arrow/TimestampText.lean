/-
Times of day as texts, `timestamp_string` of `src/time/time.c`, and back with `timestamp_parse`.

The text has a number of fixed length for each field, and a mark behind each by which
`timestamp_parse` finds its end.

* `timestampString_roundTrips` — what is written is read back.
-/

import AcnSdk.Arrow.State
import AcnSdk.Lib.CBuffer

namespace AcnSdk.Arrow

open AcnSdk.Lib AcnSdk.Time Ascii

/-- The text of `"%04d-%02d-%02dT%02d:%02d:%02d.%03dZ"`. -/
def timestampFormat (ts : Timestamp) : Bytes :=
  decimalPadded 4 ts.year.toNat ++ [minus] ++ decimalPadded 2 ts.mon.toNat ++ [minus] ++
    decimalPadded 2 ts.day.toNat ++ [0x54] ++ decimalPadded 2 ts.hour.toNat ++ [colon] ++
    decimalPadded 2 ts.min.toNat ++ [colon] ++ decimalPadded 2 ts.sec.toNat ++ [dot] ++
    decimalPadded 3 ts.msec.toNat ++ [0x5A]

/-- `timestamp_string`. -/
def timestampString (ts : Timestamp) (s : Bytes) : Except Fault Bytes :=
  Lib.snprintf s 25 (timestampFormat ts)

/-! ### One field -/

/-- `atoi` of a number of at most nine digits. -/
theorem atoi_decimalPadded {width n : Nat} (fits : n < 10 ^ width) (short : width ≤ 9) :
    atoi (decimalPadded width n) = n := by
  have nonempty : decimalPadded width n ≠ [] :=
    List.append_ne_nil_of_right_ne_nil _ (decimal_spec n).2.2.2.1
  have small : n < 10 ^ 9 := Nat.lt_of_lt_of_le fits (Nat.pow_le_pow_right (by decide) short)
  rw [atoi, strtol, numberAt_decimal (decimalPadded_digits width n) nonempty, decimalPadded_value,
    toLong_of_lt (by omega) (by omega), toInt32_of_lt (by omega) (by omega)]

/-- A field is read up to its mark. -/
theorem parseField_decimalPadded {width n : Nat} {mark : Byte} {rest : Bytes} {t : Timestamp}
    {store : Int → Timestamp} {next : Bytes → Timestamp → Except Fault (Timestamp × Int)}
    (fits : n < 10 ^ width) (pos : 0 < width) (short : width < 8) (is_mark : isDigit mark = false) :
    parseField (decimalPadded width n ++ ([mark] ++ rest)) [mark] t store next =
      next rest (store n) := by
  have apart : mark ∉ decimalPadded width n := by
    intro mem
    rw [decimalPadded_digits width n mark mem] at is_mark
    cases is_mark
  have copied : copyTill (decimalPadded width n ++ ([mark] ++ rest)) [mark] 8 =
      .ok (some (decimalPadded width n, rest)) := by
    apply copyTill_eq (not_prefix_of_not_mem apart)
    rw [decimalPadded_length fits pos]
    exact short
  have number : copyTillToInt (decimalPadded width n ++ ([mark] ++ rest)) [mark] =
      .ok (some (n, rest)) := by
    rw [copyTillToInt, copied, ← atoi_decimalPadded fits (by omega)]
    rfl
  rw [parseField, number]
  rfl

/-! ### The whole text -/

section

variable {ts : Timestamp}

theorem timestampFormat_length (year : ts.year.toNat ≤ 9999) (msec : ts.msec.toNat ≤ 999) :
    (timestampFormat ts).length = 24 := by
  have mon := ts.mon.isLt
  have day := ts.day.isLt
  have hour := ts.hour.isLt
  have min := ts.min.isLt
  have sec := ts.sec.isLt
  simp only [timestampFormat, List.length_append, List.length_singleton]
  rw [decimalPadded_length (by omega) (by decide), decimalPadded_length (by omega) (by decide),
    decimalPadded_length (by omega) (by decide), decimalPadded_length (by omega) (by decide),
    decimalPadded_length (by omega) (by decide), decimalPadded_length (by omega) (by decide),
    decimalPadded_length (by omega) (by decide)]

theorem timestampFormat_plain (ts : Timestamp) : 0 ∉ timestampFormat ts := by
  have digits : ∀ width n, 0 ∉ decimalPadded width n := fun width n mem =>
    absurd (decimalPadded_digits width n 0 mem) (by decide)
  simp only [timestampFormat, List.mem_append, digits, List.mem_singleton, false_or]
  decide

/-- Reading the text that was written, over any time. -/
theorem timestampParse_timestampFormat (t : Timestamp) (year : ts.year.toNat ≤ 9999)
    (msec : ts.msec.toNat ≤ 999) :
    timestampParse t (timestampFormat ts) = .ok ({ ts with dummy := t.dummy }, 0) := by
  have mon := ts.mon.isLt
  have day := ts.day.isLt
  have hour := ts.hour.isLt
  have min := ts.min.isLt
  have sec := ts.sec.isLt
  rw [← List.append_nil (timestampFormat ts), timestampFormat]
  simp only [List.append_assoc]
  rw [timestampParse, parseField_decimalPadded (by omega) (by decide) (by decide) (by decide),
    parseField_decimalPadded (by omega) (by decide) (by decide) (by decide),
    parseField_decimalPadded (by omega) (by decide) (by decide) (by decide),
    parseField_decimalPadded (by omega) (by decide) (by decide) (by decide),
    parseField_decimalPadded (by omega) (by decide) (by decide) (by decide),
    parseField_decimalPadded (by omega) (by decide) (by decide) (by decide),
    parseField_decimalPadded (by omega) (by decide) (by decide) (by decide)]
  simp [pure, Except.pure]

end

/-- A time is written to a buffer of 25 bytes as it is, and read back with all its fields; the
numbers fit into their buffers on the way. -/
theorem timestampString_roundTrips (ts : Timestamp) (s : Bytes) (room : 25 ≤ s.length)
    (year : ts.year.toNat ≤ 9999) (msec : ts.msec.toNat ≤ 999) :
    ∃ s', timestampString ts s = .ok s' ∧ s'.length = s.length ∧ (cstr s').length + 1 ≤ 25 ∧
      cstr s' = timestampFormat ts ∧
      ∀ t, timestampParse t (cstr s') = .ok ({ ts with dummy := t.dummy }, 0) := by
  have length_eq := timestampFormat_length year msec
  obtain ⟨s', run, same, starts⟩ :=
    snprintf_eq s (timestampFormat_plain ts) (show _ < 25 by omega) (by omega)
  refine ⟨s', run, same, ?_, starts.cstr_eq, ?_⟩
  · rw [starts.cstr_eq, length_eq]
  · intro t
    rw [starts.cstr_eq]
    exact timestampParse_timestampFormat t year msec

/-- `2018-05-21T13:40:32.173Z`. -/
theorem timestampString_roundTrips_may : ∃ s',
    timestampString ⟨0, 173, 32, 40, 13, 21, 5, 2018⟩ (List.replicate 25 0) = .ok s' ∧
      s'.length = (List.replicate 25 (0 : Byte)).length ∧ (cstr s').length + 1 ≤ 25 ∧
      cstr s' = timestampFormat ⟨0, 173, 32, 40, 13, 21, 5, 2018⟩ ∧
      ∀ t : Timestamp, timestampParse t (cstr s') =
        .ok (⟨t.dummy, 173, 32, 40, 13, 21, 5, 2018⟩, 0) :=
  timestampString_roundTrips ⟨0, 173, 32, 40, 13, 21, 5, 2018⟩ (List.replicate 25 0) (by decide)
    (by decide) (by decide)

end AcnSdk.Arrow
