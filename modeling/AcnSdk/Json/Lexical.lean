/-
The lexical layer of `src/json/json.c`: UTF-8 characters, `\u` escapes, numbers
and string literals, as the recursive parser and the recursive emitter use them.

Code points are natural numbers. A masked and shifted byte of the source is
written with `%` and `*`; the bit fields it joins are disjoint, so `|` is `+`.
The C library enters as the record `Libc`.

`emit_string` asserts that its text is in valid UTF-8, as `json.h` asks of every string
and key. This is left out: a build without assertions goes on with another text. The
standard build, with `__USE_STD__` and without `NDEBUG`, stops; `Json.PointerEncode` has
the assertion.
-/

import AcnSdk.Json.Node
import AcnSdk.Lib.Decimal

namespace AcnSdk.Json

open AcnSdk.Lib Ascii

/-! ### UTF-8 characters -/

/-- `(b & 0xC0) == 0x80`: a continuation byte. -/
def isContinuation (b : Byte) : Bool := 0x80 ≤ b && b ≤ 0xBF

/-- `utf8_validate_cz`: the length of the UTF-8 character at the front of `s`,
zero if it is invalid or clipped. -/
def utf8ValidateCz (s : Bytes) : Nat :=
  let c := peek s
  let c1 := peek (s.drop 1)
  let c2 := peek (s.drop 2)
  let c3 := peek (s.drop 3)
  if c ≤ 0x7F then 1
  else if c ≤ 0xC1 then 0
  else if c ≤ 0xDF then
    if !isContinuation c1 then 0 else 2
  else if c ≤ 0xEF then
    if c == 0xE0 && c1 < 0xA0 then 0
    else if c == 0xED && c1 > 0x9F then 0
    else if !isContinuation c1 then 0
    else if !isContinuation c2 then 0
    else 3
  else if c ≤ 0xF4 then
    if c == 0xF0 && c1 < 0x90 then 0
    else if c == 0xF4 && c1 > 0x8F then 0
    else if !isContinuation c1 then 0
    else if !isContinuation c2 then 0
    else if !isContinuation c3 then 0
    else 4
  else 0

/-- The loop of `utf8_validate`; every round moves at least one byte on. -/
def utf8ValidateFrom : Nat → Bytes → Bool
  | 0, _ => false
  | fuel + 1, s =>
      if peek s = 0 then true
      else if utf8ValidateCz s = 0 then false
      else utf8ValidateFrom fuel (s.drop (utf8ValidateCz s))

/-- `utf8_validate`. -/
def utf8Validate (s : Bytes) : Bool := utf8ValidateFrom (s.length + 1) s

theorem utf8ValidateCz_ascii {c : Byte} (s : Bytes) (h : c ≤ 0x7F) :
    utf8ValidateCz (c :: s) = 1 := by
  simp only [utf8ValidateCz, peek_cons, h, if_true]

/-- Continuation bytes that are read at the front of a text are there: the
terminator is none. -/
theorem continuations {n : Nat} {s : Bytes} (h : ∀ i < n, isContinuation (peek (s.drop i)) = true) :
    ∃ mid rest, s = mid ++ rest ∧ mid.length = n ∧ ∀ b ∈ mid, isContinuation b = true := by
  induction n generalizing s with
  | zero => exact ⟨[], s, rfl, rfl, by simp⟩
  | succ n ih =>
      have first : isContinuation (peek s) = true := h 0 (by omega)
      cases s with
      | nil => exact absurd first (by decide)
      | cons c s =>
          obtain ⟨mid, rest, rfl, len, all⟩ := ih (s := s) fun i hi => h (i + 1) (by omega)
          exact ⟨c :: mid, rest, rfl, by rw [List.length_cons, len],
            List.forall_mem_cons.mpr ⟨first, all⟩⟩

/-- A length that is not zero has passed a test that leads to zero. -/
theorem passed {p : Prop} [Decidable p] {a n : Nat} (len : n + 1 = if p then 0 else a) :
    ¬ p ∧ n + 1 = a := by
  by_cases fails : p
  · rw [if_pos fails] at len
    cases len
  · rw [if_neg fails] at len
    exact ⟨fails, len⟩

theorem passed_continuation {b : Byte} {a n : Nat}
    (len : n + 1 = if !isContinuation b then 0 else a) : isContinuation b = true ∧ n + 1 = a := by
  obtain ⟨passes, len⟩ := passed len
  exact ⟨by simpa using passes, len⟩

/-- A valid character beyond ASCII has two, three or four bytes, by its lead byte. -/
theorem utf8ValidateCz_cases {c : Byte} {s : Bytes} (h : ¬ c ≤ 0x7F)
    (valid : utf8ValidateCz (c :: s) ≠ 0) :
    (¬ c ≤ 0xC1 ∧ c ≤ 0xDF ∧ isContinuation (peek s) = true ∧ utf8ValidateCz (c :: s) = 2) ∨
      (¬ c ≤ 0xDF ∧ c ≤ 0xEF ∧ ¬ (c = 0xE0 ∧ peek s < 0xA0) ∧ ¬ (c = 0xED ∧ 0x9F < peek s) ∧
        isContinuation (peek s) = true ∧ isContinuation (peek (s.drop 1)) = true ∧
        utf8ValidateCz (c :: s) = 3) ∨
      (¬ c ≤ 0xEF ∧ c ≤ 0xF4 ∧ ¬ (c = 0xF0 ∧ peek s < 0x90) ∧ ¬ (c = 0xF4 ∧ 0x8F < peek s) ∧
        isContinuation (peek s) = true ∧ isContinuation (peek (s.drop 1)) = true ∧
        isContinuation (peek (s.drop 2)) = true ∧ utf8ValidateCz (c :: s) = 4) := by
  obtain ⟨n, len⟩ := Nat.exists_eq_succ_of_ne_zero valid
  rw [len]
  replace len := len.symm
  simp only [utf8ValidateCz, peek_cons, h, if_false, List.drop_succ_cons, List.drop_zero] at len
  obtain ⟨lead, len⟩ := passed len
  by_cases two : c ≤ 0xDF
  · rw [if_pos two] at len
    obtain ⟨cont, len⟩ := passed_continuation len
    exact .inl ⟨lead, two, cont, len⟩
  rw [if_neg two] at len
  by_cases three : c ≤ 0xEF
  · rw [if_pos three] at len
    obtain ⟨least, len⟩ := passed len
    obtain ⟨most, len⟩ := passed len
    obtain ⟨cont, len⟩ := passed_continuation len
    obtain ⟨cont', len⟩ := passed_continuation len
    exact .inr (.inl ⟨two, three, by simpa using least, by simpa using most, cont, cont', len⟩)
  rw [if_neg three] at len
  by_cases four : c ≤ 0xF4
  · rw [if_pos four] at len
    obtain ⟨least, len⟩ := passed len
    obtain ⟨most, len⟩ := passed len
    obtain ⟨cont, len⟩ := passed_continuation len
    obtain ⟨cont', len⟩ := passed_continuation len
    obtain ⟨cont'', len⟩ := passed_continuation len
    exact .inr (.inr ⟨three, four, by simpa using least, by simpa using most, cont, cont', cont'',
      len⟩)
  · rw [if_neg four] at len
    cases len

/-- It is followed by its continuation bytes. -/
theorem utf8ValidateCz_multi {c : Byte} {s : Bytes} (h : ¬ c ≤ 0x7F)
    (valid : utf8ValidateCz (c :: s) ≠ 0) :
    ∃ mid rest, s = mid ++ rest ∧ utf8ValidateCz (c :: s) = mid.length + 1 ∧
      ∀ b ∈ mid, isContinuation b = true := by
  obtain ⟨n, length, reads⟩ : ∃ n, utf8ValidateCz (c :: s) = n + 1 ∧
      ∀ i < n, isContinuation (peek (s.drop i)) = true := by
    rcases utf8ValidateCz_cases h valid with ⟨-, -, cont, len⟩ | ⟨-, -, -, -, cont, cont', len⟩ |
      ⟨-, -, -, -, cont, cont', cont'', len⟩
    · refine ⟨1, len, fun i bound => ?_⟩
      match i with
      | 0 => exact cont
    · refine ⟨2, len, fun i bound => ?_⟩
      match i with
      | 0 => exact cont
      | 1 => exact cont'
    · refine ⟨3, len, fun i bound => ?_⟩
      match i with
      | 0 => exact cont
      | 1 => exact cont'
      | 2 => exact cont''
  obtain ⟨mid, rest, eq, rfl, all⟩ := continuations reads
  exact ⟨mid, rest, eq, length, all⟩

/-- `utf8_read_char`: the code point at the front of `s` and its length. -/
def utf8ReadChar (s : Bytes) : Nat × Nat :=
  let c := (peek s).toNat
  let c1 := (peek (s.drop 1)).toNat
  let c2 := (peek (s.drop 2)).toNat
  let c3 := (peek (s.drop 3)).toNat
  if c ≤ 0x7F then (c, 1)
  else if c ≤ 0xDF then (c % 0x20 * 0x40 + c1 % 0x40, 2)
  else if c ≤ 0xEF then (c % 0x10 * 0x1000 + c1 % 0x40 * 0x40 + c2 % 0x40, 3)
  else (c % 0x8 * 0x40000 + c1 % 0x40 * 0x1000 + c2 % 0x40 * 0x40 + c3 % 0x40, 4)

theorem utf8ReadChar_ascii {c : Byte} (s : Bytes) (h : c ≤ 0x7F) :
    utf8ReadChar (c :: s) = (c.toNat, 1) := by
  have small : c.toNat ≤ 0x7F := UInt8.le_iff_toNat_le.mp h
  simp only [utf8ReadChar, peek_cons, small, if_true]

/-- `utf8_write_char`. -/
def utf8WriteChar (unicode : Nat) : Bytes :=
  if unicode ≤ 0x7F then [UInt8.ofNat unicode]
  else if unicode ≤ 0x7FF then
    [UInt8.ofNat (0xC0 + unicode / 0x40), UInt8.ofNat (0x80 + unicode % 0x40)]
  else if unicode ≤ 0xFFFF then
    [UInt8.ofNat (0xE0 + unicode / 0x1000), UInt8.ofNat (0x80 + unicode / 0x40 % 0x40),
      UInt8.ofNat (0x80 + unicode % 0x40)]
  else
    [UInt8.ofNat (0xF0 + unicode / 0x40000), UInt8.ofNat (0x80 + unicode / 0x1000 % 0x40),
      UInt8.ofNat (0x80 + unicode / 0x40 % 0x40), UInt8.ofNat (0x80 + unicode % 0x40)]

/-- `from_surrogate_pair`. -/
def fromSurrogatePair (uc lc : Nat) : Option Nat :=
  if 0xD800 ≤ uc ∧ uc ≤ 0xDBFF ∧ 0xDC00 ≤ lc ∧ lc ≤ 0xDFFF then
    some (0x10000 + (uc % 0x400 * 0x400 + lc % 0x400))
  else none

/-- `to_surrogate_pair`. -/
def toSurrogatePair (unicode : Nat) : Nat × Nat :=
  let n := unicode - 0x10000
  (0xD800 + n / 0x400 % 0x400, 0xDC00 + n % 0x400)

/-! ### Hexadecimal quadruples -/

/-- The value of one hexadecimal digit of `parse_hex16`, capital or lowercase. -/
def hexValue (c : Byte) : Option Nat :=
  if 0x30 ≤ c ∧ c ≤ 0x39 then some (c.toNat - 0x30)
  else if 0x41 ≤ c ∧ c ≤ 0x46 then some (c.toNat - 0x41 + 10)
  else if 0x61 ≤ c ∧ c ≤ 0x66 then some (c.toNat - 0x61 + 10)
  else none

/-- The loop of `parse_hex16` over its remaining `n` digits. -/
def parseHexDigits : Nat → Nat → Bytes → Option (Nat × Bytes)
  | 0, ret, s => some (ret, s)
  | n + 1, ret, s =>
      match hexValue (peek s) with
      | some d => parseHexDigits n (ret * 16 + d) s.tail
      | none => none

/-- `parse_hex16`: exactly four hexadecimal characters. -/
def parseHex16 (s : Bytes) : Option (Nat × Bytes) := parseHexDigits 4 0 s

/-- One character of the table `"0123456789ABCDEF"`. -/
def hexChar (n : Nat) : Byte := UInt8.ofNat (if n < 10 then 0x30 + n else 0x41 + (n - 10))

/-- `write_hex16`. -/
def writeHex16 (val : Nat) : Bytes :=
  [hexChar (val / 0x1000 % 0x10), hexChar (val / 0x100 % 0x10), hexChar (val / 0x10 % 0x10),
    hexChar (val % 0x10)]

/-! ### Numbers -/

/-- `if ( !is_digit(*s) ) return false; do s++; while ( is_digit(*s) );` -/
def parseDigits (s : Bytes) : Option Bytes :=
  if isDigit (peek s) then some (s.dropWhile isDigit) else none

/-- `'-'?` -/
def parseMinus (s : Bytes) : Bytes := if peek s = minus then s.tail else s

/-- `(0 | [1-9][0-9]*)` -/
def parseIntegral (s : Bytes) : Option Bytes :=
  if peek s = zero then some s.tail else parseDigits s

/-- `('.' [0-9]+)?` -/
def parseFraction (s : Bytes) : Option Bytes :=
  if peek s = dot then parseDigits s.tail else some s

/-- `([Ee] [+-]? [0-9]+)?` -/
def parseExponent (s : Bytes) : Option Bytes :=
  if peek s = 0x45 ∨ peek s = 0x65 then
    let s := s.tail
    parseDigits (if peek s = plus ∨ peek s = minus then s.tail else s)
  else some s

/-- `parse_number` without its result: the text after the number at the front. -/
def parseNumber (s : Bytes) : Option Bytes := do
  let s ← parseIntegral (parseMinus s)
  let s ← parseFraction s
  parseExponent s

/-- `number_is_valid`. -/
def numberIsValid (num : Bytes) : Bool :=
  match parseNumber num with
  | some rest => peek rest == 0
  | none => false

/-- The C library functions that `json.c` applies to doubles. `modf` is asked
only whether the fraction is nonzero; the `printf` results are the texts that
`emit_number` formats into its 64-byte buffer; `strtod` converts the number at
the front of a text, so a delimiter after a number does not change its value. -/
structure Libc (ν : Type) where
  hasFraction : ν → Bool
  printGeneral : ν → Bytes
  printFixed : ν → Bytes
  printInt : ν → Bytes
  strtod : Bytes → ν
  printGeneral_fits : ∀ num, (printGeneral num).length < 64
  printFixed_fits : ∀ num, (printFixed num).length < 64
  printInt_fits : ∀ num, (printInt num).length < 64
  strtod_delimited : ∀ num rest, numberIsValid num = true →
    (peek rest = 0 ∨ isSpace (peek rest) = true ∨ peek rest = comma ∨ peek rest = rbrack ∨
      peek rest = rbrace) → strtod (num ++ rest) = strtod num

/-- A delimiter ends the digits at the front of a text. -/
theorem takeWhile_isDigit_append {num rest : Bytes} (h : isDigit (peek rest) = false) :
    (num ++ rest).takeWhile isDigit = num.takeWhile isDigit := by
  induction num with
  | nil => cases rest <;> simp_all
  | cons c num ih =>
      simp only [List.cons_append, List.takeWhile_cons, ih]

/-- A C library whose numbers are the natural numbers: `%d` prints the value
that `int` keeps of them and `strtod` reads the digits at the front. -/
def Libc.nat : Libc Nat where
  hasFraction _ := false
  printGeneral num := decimal (num % 2 ^ 31)
  printFixed num := decimal (num % 2 ^ 31)
  printInt num := decimal (num % 2 ^ 31)
  strtod s := decimalValue (s.takeWhile isDigit)
  printGeneral_fits _ := lt_of_le_of_lt ((decimal_spec _).2.2.1 10 (by omega) (by omega)) (by omega)
  printFixed_fits _ := lt_of_le_of_lt ((decimal_spec _).2.2.1 10 (by omega) (by omega)) (by omega)
  printInt_fits _ := lt_of_le_of_lt ((decimal_spec _).2.2.1 10 (by omega) (by omega)) (by omega)
  strtod_delimited num rest _ delimited := by
    rw [takeWhile_isDigit_append]
    cases rest with
    | nil => rfl
    | cons c rest =>
        rcases delimited with h | h | h | h | h
        · rw [h]; decide
        · simp only [peek_cons, isSpace, Bool.or_eq_true, beq_iff_eq] at h ⊢
          rcases h with ((h | h) | h) | h <;> rw [h] <;> decide
        all_goals rw [h]; decide

/-- A decimal numeral is the integral part of a number, without a sign. -/
theorem parseIntegral_decimal (n : Nat) :
    peek (decimal n) ≠ minus ∧ parseIntegral (decimal n) = some [] := by
  obtain ⟨digits, -, -, nonempty, leading⟩ := decimal_spec n
  obtain ⟨d, ds, eq⟩ := List.exists_cons_of_ne_nil nonempty
  have hd : isDigit (peek (decimal n)) = true := by
    rw [eq]
    exact digits d (eq ▸ List.mem_cons_self)
  have sign : peek (decimal n) ≠ minus := by
    intro same
    rw [same] at hd
    exact absurd hd (by decide)
  refine ⟨sign, ?_⟩
  rw [parseIntegral]
  split_ifs with hz
  · rw [leading hz]
    rfl
  · rw [parseDigits, if_pos hd, List.dropWhile_eq_nil_iff.mpr digits]

theorem parseNumber_decimal (n : Nat) : parseNumber (decimal n) = some [] := by
  obtain ⟨sign, integral⟩ := parseIntegral_decimal n
  rw [parseNumber, parseMinus, if_neg sign, integral]
  rfl

/-- A decimal numeral is a valid number. -/
theorem numberIsValid_decimal (n : Nat) : numberIsValid (decimal n) = true := by
  rw [numberIsValid, parseNumber_decimal]
  rfl

/-- And so is one with a sign. -/
theorem parseNumber_minus (n : Nat) : parseNumber (minus :: decimal n) = some [] := by
  rw [parseNumber, parseMinus, peek_cons, if_pos rfl, List.tail_cons, (parseIntegral_decimal n).2]
  rfl

variable {ν : Type} (libc : Libc ν)

/-- The text `emit_number` formats into its buffer: `"%.16g"`, or `"%d.%03d"`
where there is no floating point output, or `"%d"` of an integral number. -/
def numberBuffer (num : ν) : Bytes :=
  if libc.hasFraction num then
    if numberIsValid (libc.printGeneral num) then libc.printGeneral num
    else libc.printFixed num
  else libc.printInt num

/-- `null` -/
def nullText : Bytes := [0x6E, 0x75, 0x6C, 0x6C]

/-- `true` and `false` -/
def boolText (b : Bool) : Bytes :=
  if b then [0x74, 0x72, 0x75, 0x65] else [0x66, 0x61, 0x6C, 0x73, 0x65]

/-- `emit_number`. -/
def emitNumber (num : ν) : Bytes :=
  if numberIsValid (numberBuffer libc num) then numberBuffer libc num else nullText

/-- The number text fits the 64-byte buffer with its terminator. -/
theorem emitNumber_length (num : ν) : (emitNumber libc num).length < 64 := by
  have general := libc.printGeneral_fits num
  have fixed := libc.printFixed_fits num
  have int := libc.printInt_fits num
  unfold emitNumber numberBuffer
  split_ifs <;> first | assumption | simp [nullText]

/-! ### String literals -/

/-- `escape_unicode` of `emit_string`. -/
def escapeUnicode : Bool := false

/-- The two-character escape `emit_string` writes for a byte, if it has one. -/
def shortEscape (c : Byte) : Option Byte :=
  if c = dquote then some dquote
  else if c = bslash then some bslash
  else if c = 0x08 then some 0x62
  else if c = 0x0C then some 0x66
  else if c = lf then some 0x6E
  else if c = cr then some 0x72
  else if c = tab then some 0x74
  else none

/-- The `\uXXXX` escape of a code point, a surrogate pair beyond the basic plane. -/
def unicodeEscape (unicode : Nat) : Bytes :=
  if unicode ≤ 0xFFFF then [bslash, 0x75] ++ writeHex16 unicode
  else
    let pair := toSurrogatePair unicode
    [bslash, 0x75] ++ writeHex16 pair.1 ++ [bslash, 0x75] ++ writeHex16 pair.2

/-- The replacement character U+FFFD. -/
def replacementChar : Bytes :=
  if escapeUnicode then [bslash, 0x75, 0x46, 0x46, 0x46, 0x44] else [0xEF, 0xBF, 0xBD]

/-- The loop of `emit_string`; every round moves at least one byte on. -/
def emitStringBody : Nat → Bytes → Bytes
  | 0, _ => []
  | fuel + 1, s =>
      if peek s = 0 then []
      else
        match shortEscape (peek s) with
        | some e => bslash :: e :: emitStringBody fuel s.tail
        | none =>
            if utf8ValidateCz s = 0 then replacementChar ++ emitStringBody fuel s.tail
            else if peek s < 0x1F ∨ (0x80 ≤ peek s ∧ escapeUnicode = true) then
              unicodeEscape (utf8ReadChar s).1 ++ emitStringBody fuel (s.drop (utf8ReadChar s).2)
            else
              s.take (utf8ValidateCz s) ++ emitStringBody fuel (s.drop (utf8ValidateCz s))

/-- `emit_string`. -/
def emitString (str : Bytes) : Bytes :=
  dquote :: emitStringBody (str.length + 1) str ++ [dquote]

end AcnSdk.Json
