/-
The recursive parser of `src/json/json.c`.

`s` is the rest of the text, as the pointer `*sp` of the source is, so a function
that moves the pointer returns the new rest. `parse_value` and the two loops that
call it back have fuel; `jsonDecode_iff` of the next module shows that
`json_decode` never runs out of it.

* `ReadsChar` — the characters of a string literal, one case for each kind.
* `parseString_iff` — `parse_string` accepts what is made of such characters.
-/

import AcnSdk.Json.Lexical

namespace AcnSdk.Json

open AcnSdk.Lib Ascii

/-! ### Spaces and literals -/

/-- `skip_space`. -/
def skipSpace (s : Bytes) : Bytes := s.dropWhile isSpace

/-- `expect_literal`. -/
def expectLiteral (str s : Bytes) : Option Bytes :=
  if str.isPrefixOf s then some (s.drop str.length) else none

/-! ### Strings -/

/-- The `\u` case of `parse_string`: four digits, or two surrogates. -/
def parseUnicode (s : Bytes) : Option (Bytes × Bytes) :=
  match parseHex16 s with
  | none => none
  | some (uc, s) =>
      if 0xD800 ≤ uc ∧ uc ≤ 0xDFFF then
        if peek s = bslash ∧ peek s.tail = 0x75 then
          match parseHex16 (s.drop 2) with
          | none => none
          | some (lc, s) => (fromSurrogatePair uc lc).map fun unicode => (utf8WriteChar unicode, s)
        else none
      else if uc = 0 then none
      else some (utf8WriteChar uc, s)

/-- The byte that a two-character escape stands for. -/
def escapeValue (c : Byte) : Option Byte :=
  if c = dquote ∨ c = bslash ∨ c = slash then some c
  else if c = 0x62 then some 0x08
  else if c = 0x66 then some 0x0C
  else if c = 0x6E then some lf
  else if c = 0x72 then some cr
  else if c = 0x74 then some tab
  else none

/-- What `parse_string` does after a backslash. -/
def parseEscape (s : Bytes) : Option (Bytes × Bytes) :=
  match escapeValue (peek s) with
  | some v => some ([v], s.tail)
  | none => if peek s = 0x75 then parseUnicode s.tail else none

/-- One character of a string literal: what is written for it and the text after
it. -/
def parseChar (s : Bytes) : Option (Bytes × Bytes) :=
  if peek s = bslash then parseEscape s.tail
  else if peek s ≤ 0x1F then none
  else if utf8ValidateCz s = 0 then none
  else some (s.take (utf8ValidateCz s), s.drop (utf8ValidateCz s))

/-- The loop of `parse_string`; every round moves at least one byte on. -/
def parseStringBody : Nat → Bytes → Option (Bytes × Bytes)
  | 0, _ => none
  | fuel + 1, s =>
      if peek s = dquote then some ([], s.tail)
      else
        match parseChar s with
        | none => none
        | some (c, s) => (parseStringBody fuel s).map fun (out, s) => (c ++ out, s)

/-- `parse_string`. -/
def parseString (s : Bytes) : Option (Bytes × Bytes) :=
  if peek s = dquote then parseStringBody s.length s.tail else none

/-! ### Values -/

section Values

variable {ν : Type} (libc : Libc ν)

/-- The cases of `parse_value` for values without children. -/
def parseScalar (s : Bytes) : Option (Scalar ν × Bytes) :=
  if peek s = 0x6E then (expectLiteral nullText s).map fun s => (.null, s)
  else if peek s = 0x66 then (expectLiteral (boolText false) s).map fun s => (.bool false, s)
  else if peek s = 0x74 then (expectLiteral (boolText true) s).map fun s => (.bool true, s)
  else if peek s = dquote then (parseString s).map fun (str, s) => (.string str, s)
  else (parseNumber s).map fun rest => (.number (libc.strtod s), rest)

mutual

/-- `parse_value`. -/
def parseValue : Nat → Bytes → Option (JsonNode ν × Bytes)
  | 0, _ => none
  | fuel + 1, s =>
      if peek s = lbrack then parseArray fuel s
      else if peek s = lbrace then parseObject fuel s
      else (parseScalar libc s).map fun (value, s) => (.scalar none value, s)

/-- `parse_array`. -/
def parseArray : Nat → Bytes → Option (JsonNode ν × Bytes)
  | 0, _ => none
  | fuel + 1, s =>
      if peek s = lbrack then
        let s := skipSpace s.tail
        if peek s = rbrack then some (.container none .array [], s.tail)
        else parseElements fuel [] s
      else none

/-- The loop of `parse_array`, with the elements read so far. -/
def parseElements : Nat → List (JsonNode ν) → Bytes → Option (JsonNode ν × Bytes)
  | 0, _, _ => none
  | fuel + 1, done, s =>
      match parseValue fuel s with
      | none => none
      | some (element, s) =>
          let s := skipSpace s
          if peek s = rbrack then some (.container none .array (done ++ [element]), s.tail)
          else if peek s = comma then parseElements fuel (done ++ [element]) (skipSpace s.tail)
          else none

/-- `parse_object`. -/
def parseObject : Nat → Bytes → Option (JsonNode ν × Bytes)
  | 0, _ => none
  | fuel + 1, s =>
      if peek s = lbrace then
        let s := skipSpace s.tail
        if peek s = rbrace then some (.container none .object [], s.tail)
        else parseMembers fuel [] s
      else none

/-- The loop of `parse_object`, with the members read so far. -/
def parseMembers : Nat → List (JsonNode ν) → Bytes → Option (JsonNode ν × Bytes)
  | 0, _, _ => none
  | fuel + 1, done, s =>
      match parseString s with
      | none => none
      | some (key, s) =>
          let s := skipSpace s
          if peek s = colon then
            match parseValue fuel (skipSpace s.tail) with
            | none => none
            | some (value, s) =>
                let s := skipSpace s
                let done := done ++ [value.withKey (some key)]
                if peek s = rbrace then some (.container none .object done, s.tail)
                else if peek s = comma then parseMembers fuel done (skipSpace s.tail)
                else none
          else none

end

/-- `json_decode`. -/
def jsonDecode (json : Bytes) : Option (JsonNode ν) :=
  match parseValue libc (3 * json.length + 1) (skipSpace json) with
  | none => none
  | some (ret, s) => if peek (skipSpace s) = 0 then some ret else none

end Values

/-! ### What a literal is made of -/

/-- A part of the text was read: `rest` is what is left of `s`. -/
def Shorter (rest s : Bytes) : Prop := ∃ c front, s = c :: (front ++ rest)

theorem Shorter.length_lt {rest s : Bytes} (h : Shorter rest s) : rest.length < s.length := by
  obtain ⟨c, front, rfl⟩ := h
  rw [List.length_cons, List.length_append]
  omega

theorem Shorter.trans {r s t : Bytes} (h : Shorter r s) (h' : Shorter s t) : Shorter r t := by
  obtain ⟨c, front, rfl⟩ := h
  obtain ⟨c', front', rfl⟩ := h'
  exact ⟨c', front' ++ c :: front, by simp⟩

theorem Shorter.append {rest s : Bytes} (h : Shorter rest s) (front : Bytes) :
    Shorter rest (front ++ s) := by
  obtain ⟨c, mid, rfl⟩ := h
  cases front with
  | nil => exact ⟨c, mid, rfl⟩
  | cons d front => exact ⟨d, front ++ c :: mid, by simp⟩

theorem Shorter.not_mem {b : Byte} {rest s : Bytes} (h : Shorter rest s) (free : b ∉ s) :
    b ∉ rest := by
  obtain ⟨c, front, rfl⟩ := h
  simp only [List.mem_cons, List.mem_append, not_or] at free
  exact free.2.2

/-- Spaces are skipped at the front only. -/
theorem skipSpace_eq (s : Bytes) :
    ∃ front, s = front ++ skipSpace s ∧ ∀ b ∈ front, isSpace b = true :=
  ⟨s.takeWhile isSpace, (List.takeWhile_append_dropWhile).symm, fun _ => List.mem_takeWhile_imp⟩

theorem Shorter.of_skipSpace {rest s : Bytes} (h : Shorter rest (skipSpace s)) :
    Shorter rest s := by
  obtain ⟨front, eq, -⟩ := skipSpace_eq s
  rw [eq]
  exact h.append front

theorem Shorter.tail {c : Byte} {rest s : Bytes} (h : Shorter rest s) : Shorter rest (c :: s) :=
  h.append [c]

/-- A byte other than the terminator that is read at the front of a text is there. -/
theorem eq_cons_of_peek {c : Byte} {s : Bytes} (h : peek s = c) (ne : c ≠ 0) : s = c :: s.tail := by
  cases s with
  | nil => exact absurd h.symm ne
  | cons b s =>
      rw [peek_cons] at h
      rw [h]
      rfl

theorem hexValue_lt {c : Byte} {d : Nat} (h : hexValue c = some d) : d < 16 := by
  unfold hexValue at h
  split_ifs at h with digit capital small <;> cases h <;>
    simp only [UInt8.le_iff_toNat_le, UInt8.reduceToNat] at * <;> omega

/-- The digits that `parse_hex16` reads. -/
theorem parseHexDigits_eq {n ret v : Nat} {s rest : Bytes}
    (h : parseHexDigits n ret s = some (v, rest)) :
    v < (ret + 1) * 16 ^ n ∧
      ∃ ds, s = ds ++ rest ∧ ds.length = n ∧ ∀ d ∈ ds, (hexValue d).isSome = true := by
  induction n generalizing ret s with
  | zero =>
      cases h
      exact ⟨by omega, [], rfl, rfl, by simp⟩
  | succ n ih =>
      rw [parseHexDigits] at h
      cases value : hexValue (peek s) with
      | none =>
          rw [value] at h
          cases h
      | some d =>
          rw [value] at h
          obtain ⟨bound, ds, eq, len, hex⟩ := ih h
          have there : s = peek s :: s.tail := by
            refine eq_cons_of_peek rfl fun zero => ?_
            rw [zero] at value
            cases value
          rw [eq] at there
          refine ⟨lt_of_lt_of_le bound ?_, peek s :: ds, there, by rw [List.length_cons, len],
            List.forall_mem_cons.mpr ⟨by rw [value]; rfl, hex⟩⟩
          calc (ret * 16 + d + 1) * 16 ^ n ≤ ((ret + 1) * 16) * 16 ^ n := by
                have := hexValue_lt value
                exact Nat.mul_le_mul_right _ (by omega)
            _ = (ret + 1) * 16 ^ (n + 1) := by rw [Nat.pow_succ, Nat.mul_assoc, Nat.mul_comm 16]

theorem utf8WriteChar_length (unicode : Nat) :
    (utf8WriteChar unicode).length ≤ 4 ∧
    (unicode ≤ 0xFFFF → (utf8WriteChar unicode).length ≤ 3) := by
  unfold utf8WriteChar
  split_ifs <;> simp
  omega

/-- A byte of a literal that stands for itself. -/
def ordinary (b : Byte) : Prop := b ≠ 0 ∧ b ≠ dquote ∧ b ≠ bslash

/-- One character of a literal: its text, its value and the text after it. -/
inductive ReadsChar : Bytes → Bytes → Bytes → Prop where
  | echo {front rest : Bytes} (some : front ≠ []) (each : ∀ b ∈ front, ordinary b) :
      ReadsChar (front ++ rest) front rest
  | escape {e v : Byte} {rest : Bytes} (value : escapeValue e = some v) :
      ReadsChar (bslash :: e :: rest) [v] rest
  | unicode {ds out rest : Bytes} (four : ds.length = 4)
      (hex : ∀ d ∈ ds, (hexValue d).isSome = true) (short : out.length ≤ 3) :
      ReadsChar (bslash :: 0x75 :: (ds ++ rest)) out rest
  | pair {ds ds' out rest : Bytes} (four : ds.length = 4)
      (hex : ∀ d ∈ ds, (hexValue d).isSome = true) (four' : ds'.length = 4)
      (hex' : ∀ d ∈ ds', (hexValue d).isSome = true) (short : out.length ≤ 4) :
      ReadsChar (bslash :: 0x75 :: (ds ++ bslash :: 0x75 :: (ds' ++ rest))) out rest

theorem ReadsChar.shorter {s c rest : Bytes} (h : ReadsChar s c rest) : Shorter rest s := by
  cases h with
  | echo some _ =>
      obtain ⟨b, front, rfl⟩ := List.exists_cons_of_ne_nil some
      exact ⟨b, front, rfl⟩
  | @escape e _ _ _ => exact ⟨bslash, [e], rfl⟩
  | @unicode ds _ _ _ _ _ => exact ⟨bslash, 0x75 :: ds, rfl⟩
  | @pair ds ds' _ _ _ _ _ _ _ => exact ⟨bslash, 0x75 :: (ds ++ bslash :: 0x75 :: ds'), by simp⟩

theorem parseUnicode_reads {s c rest : Bytes} (h : parseUnicode s = some (c, rest)) :
    ReadsChar (bslash :: 0x75 :: s) c rest := by
  unfold parseUnicode at h
  cases first : parseHex16 s with
  | none => simp [first] at h
  | some r =>
      obtain ⟨uc, s₁⟩ := r
      simp only [first] at h
      obtain ⟨bound, ds, rfl, four, hex⟩ := parseHexDigits_eq first
      split_ifs at h with surrogate low
      · cases second : parseHex16 (s₁.drop 2) with
        | none => simp [second] at h
        | some r =>
            obtain ⟨lc, s₂⟩ := r
            simp only [second, Option.map_eq_some_iff, Prod.mk.injEq] at h
            obtain ⟨unicode, -, rfl, rfl⟩ := h
            obtain ⟨-, ds', eq, four', hex'⟩ := parseHexDigits_eq second
            have one := eq_cons_of_peek low.1 (by decide)
            have two := eq_cons_of_peek low.2 (by decide)
            have split : s₁ = bslash :: 0x75 :: (ds' ++ s₂) := by
              rw [one, two, ← eq, ← List.drop_one, ← List.drop_one, List.drop_drop]
            rw [split]
            exact .pair four hex four' hex' (utf8WriteChar_length unicode).1
      · cases h
        exact .unicode four hex ((utf8WriteChar_length uc).2 (by omega))

theorem escapeValue_ne_zero {c v : Byte} (h : escapeValue c = some v) : c ≠ 0 := by
  rintro rfl
  cases h

theorem parseEscape_reads {s c rest : Bytes} (h : parseEscape s = some (c, rest)) :
    ReadsChar (bslash :: s) c rest := by
  unfold parseEscape at h
  cases value : escapeValue (peek s) with
  | some v =>
      simp only [value, Option.some.injEq, Prod.mk.injEq] at h
      obtain ⟨rfl, rfl⟩ := h
      have there := eq_cons_of_peek rfl (escapeValue_ne_zero value)
      rw [there]
      exact .escape value
  | none =>
      simp only [value] at h
      split_ifs at h with u
      rw [eq_cons_of_peek u (by decide)]
      exact parseUnicode_reads h

/-- Past ASCII nothing is special. -/
theorem ordinary_of_continuation {b : Byte} (h : isContinuation b = true) : ordinary b := by
  refine ⟨?_, ?_, ?_⟩ <;>
  · rintro rfl
    exact absurd h (by decide)

theorem ordinary_of_lead {b : Byte} (h : ¬ b ≤ 0x7F) : ordinary b := by
  refine ⟨?_, ?_, ?_⟩ <;>
  · rintro rfl
    exact absurd h (by decide)

/-- What `parse_string` reads as one character. -/
theorem parseChar_reads {s c rest : Bytes} (h : parseChar s = some (c, rest))
    (ne : peek s ≠ dquote) :
    ReadsChar s c rest := by
  unfold parseChar at h
  split_ifs at h with escape control invalid
  · rw [eq_cons_of_peek escape (by decide)]
    exact parseEscape_reads h
  · simp only [Option.some.injEq, Prod.mk.injEq] at h
    obtain ⟨rfl, rfl⟩ := h
    cases s with
    | nil => exact absurd (by decide) control
    | cons b s =>
        rw [peek_cons] at escape control ne
        by_cases ascii : b ≤ 0x7F
        · rw [utf8ValidateCz_ascii s ascii]
          have self : ordinary b := ⟨fun e => control (by rw [e]; decide), ne, escape⟩
          exact (.echo (by simp) (by simpa using self) : ReadsChar ([b] ++ s) [b] s)
        · obtain ⟨mid, rest, rfl, len, each⟩ := utf8ValidateCz_multi ascii invalid
          rw [len, List.take_succ_cons, List.drop_succ_cons, List.take_left, List.drop_left]
          have ordinary : ∀ c ∈ b :: mid, ordinary c := List.forall_mem_cons.mpr
            ⟨ordinary_of_lead ascii, fun b hb => ordinary_of_continuation (each b hb)⟩
          exact (.echo (by simp) ordinary : ReadsChar ((b :: mid) ++ rest) (b :: mid) rest)

/-- The characters of a literal after its opening quote: their text, their value and
the text after the closing quote. -/
inductive Chars : Bytes → Bytes → Bytes → Prop where
  | close (rest : Bytes) : Chars (dquote :: rest) [] rest
  | char {s c s₁ out rest : Bytes} (ne : peek s ≠ dquote) (one : parseChar s = some (c, s₁))
      (more : Chars s₁ out rest) : Chars s (c ++ out) rest

theorem Chars.shorter {s out rest : Bytes} (h : Chars s out rest) : Shorter rest s := by
  induction h with
  | close rest => exact ⟨dquote, [], rfl⟩
  | char ne one _ ih => exact ih.trans (parseChar_reads one ne).shorter

theorem parseStringBody_sound {fuel : Nat} {s out rest : Bytes}
    (h : parseStringBody fuel s = some (out, rest)) : Chars s out rest := by
  induction fuel generalizing s out with
  | zero => cases h
  | succ fuel ih =>
      rw [parseStringBody] at h
      split_ifs at h with quote
      · cases h
        have there := eq_cons_of_peek quote (by decide)
        rw [there]
        exact .close _
      cases one : parseChar s with
      | none => simp [one] at h
      | some r =>
          simp only [one, Option.map_eq_some_iff, Prod.mk.injEq] at h
          obtain ⟨⟨out, _⟩, more, rfl, rfl⟩ := h
          exact .char quote one (ih more)

theorem parseStringBody_complete {s out rest : Bytes} (h : Chars s out rest) (fuel : Nat)
    (enough : s.length ≤ fuel) : parseStringBody fuel s = some (out, rest) := by
  induction h generalizing fuel with
  | close rest =>
      obtain ⟨fuel, rfl⟩ : ∃ k, fuel = k + 1 :=
        ⟨fuel - 1, by rw [List.length_cons] at enough; omega⟩
      simp [parseStringBody]
  | char ne one more ih =>
      have shorter := (parseChar_reads one ne).shorter.length_lt
      obtain ⟨fuel, rfl⟩ : ∃ k, fuel = k + 1 := ⟨fuel - 1, by omega⟩
      simp [parseStringBody, ne, one, ih fuel (by omega)]

/-- What `parse_string` accepts. -/
theorem parseString_iff {s out rest : Bytes} :
    parseString s = some (out, rest) ↔ ∃ s₁, s = dquote :: s₁ ∧ Chars s₁ out rest := by
  unfold parseString
  constructor
  · intro h
    split_ifs at h with quote
    exact ⟨s.tail, eq_cons_of_peek quote (by decide), parseStringBody_sound h⟩
  · rintro ⟨s₁, rfl, chars⟩
    rw [peek_cons, if_pos rfl]
    exact parseStringBody_complete chars _ (by simp)

/-! ### Numbers in a text -/

/-- `(0 | [1-9][0-9]*) ('.' [0-9]+)?`: a number without sign and exponent. -/
def parseDecimal (s : Bytes) : Option Bytes := (parseIntegral s).bind parseFraction

theorem parseNumber_eq (s : Bytes) :
    parseNumber s = (parseDecimal (parseMinus s)).bind parseExponent := by
  simp only [parseNumber, parseDecimal, Option.bind_eq_bind, Option.bind_assoc]

/-- A byte at which a number ends. -/
def Stops (rest : Bytes) : Prop :=
  isDigit (peek rest) = false ∧ peek rest ≠ dot ∧ peek rest ≠ minus ∧ peek rest ≠ plus ∧
    peek rest ≠ 0x45 ∧ peek rest ≠ 0x65

theorem Stops.ne_zero {rest : Bytes} (h : Stops rest) : peek rest ≠ zero := by
  intro eq
  have := h.1
  rw [eq] at this
  exact absurd this (by decide)

section Append

variable {rest : Bytes} (stops : Stops rest)

include stops

theorem parseDigits_append (x : Bytes) :
    parseDigits (x ++ rest) = (parseDigits x).map (· ++ rest) := by
  have drop : ∀ y : Bytes, (y ++ rest).dropWhile isDigit = y.dropWhile isDigit ++ rest := by
    intro y
    induction y with
    | nil => cases rest <;> simp_all [Stops]
    | cons c y ih =>
        by_cases digit : isDigit c = true
        · simp [digit, ih]
        · simp [digit]
  cases x with
  | nil => simp [parseDigits, stops.1, show isDigit 0 = false from rfl]
  | cons c x =>
      have whole := drop (c :: x)
      by_cases digit : isDigit c = true
      · simp only [parseDigits, List.cons_append, peek_cons, digit, if_true,
          Option.map_some] at whole ⊢
        rw [whole]
      · simp [parseDigits, digit]

theorem parseMinus_append (x : Bytes) : parseMinus (x ++ rest) = parseMinus x ++ rest := by
  cases x with
  | nil =>
      rw [List.nil_append, parseMinus, if_neg stops.2.2.1]
      rfl
  | cons c x =>
      by_cases sign : c = minus
      · simp [parseMinus, sign]
      · simp [parseMinus, sign]

theorem parseIntegral_append (x : Bytes) :
    parseIntegral (x ++ rest) = (parseIntegral x).map (· ++ rest) := by
  have digits := parseDigits_append stops x
  cases x with
  | nil =>
      rw [List.nil_append, parseIntegral, if_neg stops.ne_zero]
      exact digits
  | cons c x =>
      by_cases lead : c = zero
      · simp [parseIntegral, lead]
      · simpa [parseIntegral, lead] using digits

theorem parseFraction_append (x : Bytes) :
    parseFraction (x ++ rest) = (parseFraction x).map (· ++ rest) := by
  cases x with
  | nil =>
      rw [List.nil_append, parseFraction, if_neg stops.2.1]
      rfl
  | cons c x =>
      have digits := parseDigits_append stops x
      by_cases point : c = dot
      · simpa [parseFraction, point] using digits
      · simp [parseFraction, point]

/-- The digits of an exponent, after its sign. -/
theorem parseSigned_append (x : Bytes) :
    parseDigits (if peek (x ++ rest) = plus ∨ peek (x ++ rest) = minus then (x ++ rest).tail
        else x ++ rest) =
      (parseDigits (if peek x = plus ∨ peek x = minus then x.tail else x)).map (· ++ rest) := by
  have digits := parseDigits_append stops x
  cases x with
  | nil =>
      have unsigned : ¬ (peek rest = plus ∨ peek rest = minus) := by
        simp [stops.2.2.1, stops.2.2.2.1]
      rw [List.nil_append, if_neg unsigned]
      exact digits
  | cons c x =>
      have digits' := parseDigits_append stops x
      by_cases sign : c = plus ∨ c = minus
      · simpa [sign] using digits'
      · simpa [sign] using digits

theorem parseExponent_append (x : Bytes) :
    parseExponent (x ++ rest) = (parseExponent x).map (· ++ rest) := by
  cases x with
  | nil =>
      have none : ¬ (peek rest = 0x45 ∨ peek rest = 0x65) := by
        simp [stops.2.2.2.2.1, stops.2.2.2.2.2]
      rw [List.nil_append, parseExponent, if_neg none]
      rfl
  | cons c x =>
      have digits := parseSigned_append stops x
      by_cases e : c = 0x45 ∨ c = 0x65
      · simp only [parseExponent, List.cons_append, peek_cons, List.tail_cons, e, if_true]
        exact digits
      · simp [parseExponent, e]

/-- A number is read in the same way whatever stands after it. -/
theorem parseDecimal_append (x : Bytes) :
    parseDecimal (x ++ rest) = (parseDecimal x).map (· ++ rest) := by
  simp only [parseDecimal, parseIntegral_append stops]
  cases parseIntegral x with
  | none => rfl
  | some y => exact parseFraction_append stops y

theorem parseNumber_append (x : Bytes) :
    parseNumber (x ++ rest) = (parseNumber x).map (· ++ rest) := by
  simp only [parseNumber_eq, parseMinus_append stops, parseDecimal_append stops]
  cases parseDecimal (parseMinus x) with
  | none => rfl
  | some y => exact parseExponent_append stops y

end Append

/-! ### What a number consumes -/

theorem Shorter.of_suffix {r s t : Bytes} (h : Shorter s t) (suffix : r <:+ s) : Shorter r t := by
  obtain ⟨c, front, rfl⟩ := h
  obtain ⟨mid, rfl⟩ := suffix
  exact ⟨c, front ++ mid, by simp⟩

theorem Shorter.suffix {r s : Bytes} (h : Shorter r s) : r <:+ s := by
  obtain ⟨c, front, rfl⟩ := h
  exact ⟨c :: front, rfl⟩

theorem parseDigits_eq {s rest : Bytes} (h : parseDigits s = some rest) :
    ∃ d ds, s = d :: (ds ++ rest) ∧ ∀ c ∈ d :: ds, isDigit c = true := by
  unfold parseDigits at h
  split_ifs at h with digit
  cases h
  cases s with
  | nil => cases digit
  | cons d s =>
      rw [peek_cons] at digit
      refine ⟨d, s.takeWhile isDigit, ?_,
        List.forall_mem_cons.mpr ⟨digit, fun _ => List.mem_takeWhile_imp⟩⟩
      simp [digit, List.takeWhile_append_dropWhile]

/-- A number without sign and exponent is made of digits and dots. -/
theorem parseDecimal_digits {s rest : Bytes} (h : parseDecimal s = some rest) :
    ∃ d ds, s = d :: (ds ++ rest) ∧ ∀ c ∈ d :: ds, isDigit c = true ∨ c = dot := by
  obtain ⟨s₁, integral, fraction⟩ := Option.bind_eq_some_iff.mp h
  have first : ∃ d ds, s = d :: (ds ++ s₁) ∧ ∀ c ∈ d :: ds, isDigit c = true := by
    unfold parseIntegral at integral
    split_ifs at integral with zero
    · cases integral
      exact ⟨_, [], eq_cons_of_peek zero (by decide), List.forall_mem_singleton.mpr (by decide)⟩
    · exact parseDigits_eq integral
  obtain ⟨d, ds, rfl, digits⟩ := first
  unfold parseFraction at fraction
  split_ifs at fraction with point
  · obtain ⟨f, fs, eq, digits'⟩ := parseDigits_eq fraction
    refine ⟨d, ds ++ dot :: f :: fs, ?_, ?_⟩
    · rw [eq_cons_of_peek point (by decide), eq]
      simp
    · intro c mem
      simp only [List.mem_cons, List.mem_append] at mem digits digits'
      grind
  · cases fraction
    exact ⟨d, ds, rfl, fun c mem => .inl (digits c mem)⟩

theorem parseExponent_suffix {s rest : Bytes} (h : parseExponent s = some rest) : rest <:+ s := by
  unfold parseExponent at h
  split_ifs at h with e
  · obtain ⟨d, ds, eq, -⟩ := parseDigits_eq h
    refine (Shorter.suffix ⟨d, ds, eq⟩).trans ?_
    by_cases sign : peek s.tail = plus ∨ peek s.tail = minus
    · rw [if_pos sign]
      exact (List.tail_suffix _).trans (List.tail_suffix _)
    · rw [if_neg sign]
      exact List.tail_suffix _
  · cases h
    exact List.suffix_refl _

theorem parseNumber_shorter {s rest : Bytes} (h : parseNumber s = some rest) : Shorter rest s := by
  rw [parseNumber_eq] at h
  obtain ⟨s₁, decimal, exponent⟩ := Option.bind_eq_some_iff.mp h
  obtain ⟨d, ds, eq, -⟩ := parseDecimal_digits decimal
  have first : Shorter s₁ s := by
    have there : Shorter s₁ (parseMinus s) := ⟨d, ds, eq⟩
    unfold parseMinus at there
    split_ifs at there with sign
    · rw [eq_cons_of_peek sign (by decide)]
      exact there.tail
    · exact there
  exact first.of_suffix (parseExponent_suffix exponent)

end AcnSdk.Json
