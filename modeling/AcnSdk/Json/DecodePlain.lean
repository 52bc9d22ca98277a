/-
Where the two decoders read the same text in the same way.

`Lexicon.plain` is the part of the JSON lexicon that the parse machines read as the
recursive parser does: no `null`, numbers without sign and exponent, in strings only
the escapes `\"`, `\\`, `\/`, `\n` and `\t`, no backslash in keys, and no empty
container.

* `Chars.stream` — what the machine makes of any string literal: it is in step to the
  closing quote and differs from the parser unless all escapes are of that kind.
* `Chars.streamKey` — what it makes of any key.
* `Document.stream_of_plain` — plain documents are read as the tree they denote.
-/

import AcnSdk.Json.DecodeSync

namespace AcnSdk.Json

open AcnSdk.Lib Ascii Stack

variable {ν : Type}

/-! ### The plain lexicon -/

/-- The escapes that both decoders know. -/
def simpleEscape (e : Byte) : Bool :=
  e == dquote || e == bslash || e == slash || e == 0x6E || e == 0x74

/-- From the opening quote to the closing one there are no other escapes. -/
def simpleEscapes : Bytes → Bool
  | [] => true
  | [_] => true
  | c :: e :: s =>
      if c = dquote then true
      else if c = bslash then simpleEscape e && simpleEscapes s
      else simpleEscapes (e :: s)

/-- From the opening quote to the closing one there is no backslash. -/
def noEscapes (s : Bytes) : Bool := !(s.takeWhile (· != dquote)).contains bslash

/-- A scalar that both decoders read, at the front of `s`. -/
def plainScalar (s rest : Bytes) : Scalar ν → Prop
  | .null => False
  | .bool _ => True
  | .string _ => simpleEscapes s.tail = true
  | .number _ => parseDecimal s = some rest

/-- The part of JSON that both decoders read. -/
def Lexicon.plain (libc : Libc ν) : Lexicon ν where
  scalar s value rest := parseScalar libc s = some (value, rest) ∧ plainScalar s rest value
  key s key rest := parseString s = some (key, rest) ∧ noEscapes s.tail = true
  empty := False

theorem Document.json_of_plain {libc : Libc ν} {s : Bytes} {node : JsonNode ν}
    (h : Document (.plain libc) s node) : Document (.json libc) s node := by
  obtain ⟨rest, derives, ended⟩ := h
  refine ⟨rest, derives.mono ?_ ?_ ?_, ended⟩
  · intro s value rest reads
    exact reads.1
  · intro s key rest reads
    exact reads.1
  · exact False.elim

/-! ### Strings -/

/-- The machine knows exactly the simple escapes. -/
theorem escapeByte_eq_iff {e v : Byte} (value : escapeValue e = some v) :
    escapeByte e = v ↔ simpleEscape e = true := by
  unfold escapeValue at value
  split_ifs at value with self b f n r t <;> cases value
  · rcases self with rfl | rfl | rfl <;> decide
  · subst b; decide
  · subst f; decide
  · subst n; decide
  · subst r; decide
  · subst t; decide

theorem ordinary_of_hex {d : Byte} (h : (hexValue d).isSome = true) : ordinary d := by
  refine ⟨?_, ?_, ?_⟩ <;>
  · rintro rfl
    exact absurd h (by decide)

theorem simpleEscapes_close (s : Bytes) : simpleEscapes (dquote :: s) = true := by
  cases s with
  | nil => rfl
  | cons e s => rw [simpleEscapes, if_pos rfl]

theorem simpleEscapes_ordinary {front : Bytes} (each : ∀ b ∈ front, ordinary b) (s : Bytes) :
    simpleEscapes (front ++ s) = simpleEscapes s := by
  induction front with
  | nil => rfl
  | cons c front ih =>
      rw [List.forall_mem_cons] at each
      rw [← ih each.2, List.cons_append]
      cases front ++ s with
      | nil => rfl
      | cons e s => rw [simpleEscapes, if_neg each.1.2.1, if_neg each.1.2.2]

theorem simpleEscapes_escape (e : Byte) (s : Bytes) :
    simpleEscapes (bslash :: e :: s) = (simpleEscape e && simpleEscapes s) := by
  rw [simpleEscapes, if_neg (by decide), if_pos rfl]

theorem StreamChars.ordinary {front s out rest : Bytes} (each : ∀ b ∈ front, ordinary b)
    (more : StreamChars s out rest) : StreamChars (front ++ s) (front ++ out) rest := by
  induction front with
  | nil => exact more
  | cons c front ih =>
      rw [List.forall_mem_cons] at each
      exact .echo each.1.2.1 each.1.2.2 (ih each.2)

theorem zero_not_mem_ordinary {front : Bytes} (each : ∀ b ∈ front, ordinary b) : 0 ∉ front :=
  fun mem => (each 0 mem).1 rfl

/-- What the machine makes of a string literal of the parser: it ends at the same
quote, and it is the same string exactly if all escapes are simple. -/
theorem Chars.stream {s out rest : Bytes} (h : Chars s out rest) :
    ∃ read, StreamChars s read rest ∧ 0 ∉ read ∧ out.length ≤ read.length ∧
      (read = out ↔ simpleEscapes s = true) := by
  induction h with
  | close rest => exact ⟨[], .close rest, by simp, by simp, by simp [simpleEscapes_close]⟩
  | @char s c s₁ out rest ne one _ ih =>
      obtain ⟨read, chars, free, longer, same⟩ := ih
      cases parseChar_reads one ne with
      | echo _ each =>
          refine ⟨c ++ read, chars.ordinary each, ?_, by simpa using longer, ?_⟩
          · simp [free, zero_not_mem_ordinary each]
          · rw [simpleEscapes_ordinary each, ← same, List.append_right_inj]
      | @escape e v _ value =>
          refine ⟨escapeByte e :: read, .escape chars, ?_, by simpa using longer, ?_⟩
          · simp [free, Ne.symm (escapeByte_ne_zero (escapeValue_ne_zero value))]
          · rw [simpleEscapes_escape, Bool.and_eq_true, ← same, ← escapeByte_eq_iff value]
            simp
      | @unicode ds _ _ four hex short =>
          have each : ∀ d ∈ ds, Json.ordinary d := fun d hd => ordinary_of_hex (hex d hd)
          have more : read.length + 5 = (escapeByte 0x75 :: (ds ++ read)).length := by
            simp only [List.length_cons, List.length_append, four]
            omega
          refine ⟨escapeByte 0x75 :: (ds ++ read), .escape (chars.ordinary each), ?_, ?_, ?_⟩
          · simp [free, zero_not_mem_ordinary each, show (0 : Byte) ≠ escapeByte 0x75 by decide]
          · rw [List.length_append, ← more]
            omega
          · rw [simpleEscapes_escape]
            refine iff_of_false (fun eq => ?_) (by simp [show simpleEscape 0x75 = false by decide])
            have := congrArg List.length eq
            rw [List.length_append, ← more] at this
            omega
      | @pair ds ds' _ _ four hex four' hex' short =>
          have each : ∀ d ∈ ds, Json.ordinary d := fun d hd => ordinary_of_hex (hex d hd)
          have each' : ∀ d ∈ ds', Json.ordinary d := fun d hd => ordinary_of_hex (hex' d hd)
          have more : read.length + 10 =
              (escapeByte 0x75 :: (ds ++ escapeByte 0x75 :: (ds' ++ read))).length := by
            simp only [List.length_cons, List.length_append, four, four']
            omega
          refine ⟨escapeByte 0x75 :: (ds ++ escapeByte 0x75 :: (ds' ++ read)),
            .escape (.ordinary each (.escape (chars.ordinary each'))), ?_, ?_, ?_⟩
          · simp [free, zero_not_mem_ordinary each, zero_not_mem_ordinary each',
              show (0 : Byte) ≠ escapeByte 0x75 by decide]
          · rw [List.length_append, ← more]
            omega
          · rw [simpleEscapes_escape]
            refine iff_of_false (fun eq => ?_) (by simp [show simpleEscape 0x75 = false by decide])
            have := congrArg List.length eq
            rw [List.length_append, ← more] at this
            omega

/-! ### Keys -/

theorem noEscapes_iff {k : Bytes} (plain : dquote ∉ k) (rest : Bytes) :
    noEscapes (k ++ dquote :: rest) = true ↔ bslash ∉ k := by
  have all : ∀ c ∈ k, (c != dquote) = true := fun c mem => by
    have : c ≠ dquote := fun e => plain (e ▸ mem)
    simpa using this
  have front : (k ++ dquote :: rest).takeWhile (· != dquote) = k := by
    rw [List.takeWhile_append_of_pos all]
    simp
  rw [noEscapes, front]
  simp

/-- What is between the quotes of a key: `k` as the machine reads it and `out` as the
parser does. They agree if there is no backslash; otherwise the parser has a quote
inside or less bytes. -/
def KeyReads (k out : Bytes) (same : Prop) : Prop :=
  (bslash ∉ k ∧ out = k ∧ same) ∨ (bslash ∈ k ∧ (dquote ∈ out ∨ out.length < k.length))

/-- Two keys that agree have no backslash. -/
theorem KeyReads.of_eq {k out : Bytes} {same : Prop} (h : KeyReads k out same) (plain : dquote ∉ k)
    (eq : out = k) : bslash ∉ k ∧ same := by
  rcases h with ⟨free, -, same⟩ | ⟨-, quote | shorter⟩
  · exact ⟨free, same⟩
  · exact absurd (eq ▸ quote) plain
  · rw [eq] at shorter
    exact absurd shorter (lt_irrefl _)

/-- More text with an escape in it. -/
theorem KeyReads.escaped {k out : Bytes} {same same' : Prop} (h : KeyReads k out same)
    {front value : Bytes} (escape : bslash ∈ front) (shorter : value.length < front.length) :
    KeyReads (front ++ k) (value ++ out) same' := by
  refine .inr ⟨List.mem_append_left _ escape, ?_⟩
  rw [List.mem_append, List.length_append, List.length_append]
  rcases h with ⟨-, rfl, -⟩ | ⟨-, quote | less⟩
  · exact .inr (by omega)
  · exact .inl (.inr quote)
  · exact .inr (by omega)

/-- What the machine makes of a key of the parser. -/
theorem Chars.streamKey {s out rest : Bytes} (h : Chars s out rest) :
    ∃ k rest', s = k ++ dquote :: rest' ∧ dquote ∉ k ∧ 0 ∉ k ∧ KeyReads k out (rest' = rest) := by
  induction h with
  | close rest => exact ⟨[], rest, rfl, by simp, by simp, .inl ⟨by simp, rfl, rfl⟩⟩
  | @char s c s₁ out rest ne one _ ih =>
      obtain ⟨k, rest', rfl, plain, free, reads⟩ := ih
      cases parseChar_reads one ne with
      | echo _ each =>
          have quote : dquote ∉ c := fun mem => (each _ mem).2.1 rfl
          have slash : bslash ∉ c := fun mem => (each _ mem).2.2 rfl
          refine ⟨c ++ k, rest', by simp, by simp [quote, plain],
            by simp [zero_not_mem_ordinary each, free], ?_⟩
          rcases reads with ⟨no, rfl, same⟩ | ⟨yes, quote | less⟩
          · exact .inl ⟨by simp [slash, no], rfl, same⟩
          · exact .inr ⟨by simp [yes], .inl (by simp [quote])⟩
          · exact .inr ⟨by simp [yes], .inr (by simpa using less)⟩
      | @escape e v _ value =>
          by_cases quote : e = dquote
          · -- the machine takes the escaped quote for the closing one
            subst quote
            cases value
            exact ⟨[bslash], k ++ dquote :: rest', rfl, by decide, by decide,
              .inr ⟨by decide, .inl (by simp)⟩⟩
          · have nonzero := escapeValue_ne_zero value
            refine ⟨[bslash, e] ++ k, rest', by simp, ?_, ?_, reads.escaped (by simp) (by simp)⟩
            · simp [plain, Ne.symm quote]
            · simp [free, Ne.symm nonzero]
      | @unicode ds _ _ four hex short =>
          have each : ∀ d ∈ ds, Json.ordinary d := fun d hd => ordinary_of_hex (hex d hd)
          have quote : dquote ∉ ds := fun mem => (each _ mem).2.1 rfl
          refine ⟨bslash :: 0x75 :: ds ++ k, rest', by simp, ?_, ?_,
            reads.escaped (by simp) (by simp [four]; omega)⟩
          · simp [plain, quote]
          · simp [free, zero_not_mem_ordinary each]
      | @pair ds ds' _ _ four hex four' hex' short =>
          have each : ∀ d ∈ ds, Json.ordinary d := fun d hd => ordinary_of_hex (hex d hd)
          have each' : ∀ d ∈ ds', Json.ordinary d := fun d hd => ordinary_of_hex (hex' d hd)
          have quote : dquote ∉ ds := fun mem => (each _ mem).2.1 rfl
          have quote' : dquote ∉ ds' := fun mem => (each' _ mem).2.1 rfl
          refine ⟨bslash :: 0x75 :: (ds ++ bslash :: 0x75 :: ds') ++ k, rest', by simp, ?_, ?_,
            reads.escaped (by simp) (by simp [four, four']; omega)⟩
          · simp [plain, quote, quote']
          · simp [free, zero_not_mem_ordinary each, zero_not_mem_ordinary each']

/-! ### Plain texts -/

section Plain

variable {libc : Libc ν}

theorem Delimited.stops {rest : Bytes} (h : Delimited rest) : Stops rest := by
  have each : ∀ b : Byte, isSpace b = true ∨ b = comma ∨ b = rbrack ∨ b = rbrace →
      isDigit b = false ∧ b ≠ dot ∧ b ≠ minus ∧ b ≠ plus ∧ b ≠ 0x45 ∧ b ≠ 0x65 := by
    intro b delimiter
    simp only [isSpace, Bool.or_eq_true, beq_iff_eq] at delimiter
    rcases delimiter with (((rfl | rfl) | rfl) | rfl) | rfl | rfl | rfl <;> decide
  exact each _ h

/-- A number without sign and exponent is one to both decoders. -/
theorem decimal_stream {s rest : Bytes} (decimal : parseDecimal s = some rest)
    (delimited : Delimited rest) : StreamScalar libc s (.number (libc.strtod s)) rest := by
  obtain ⟨d, ds, rfl, digits⟩ := parseDecimal_digits decimal
  have numeric : ∀ c ∈ d :: ds, isNumeric c = true := fun c mem => by
    simpa [isNumeric] using digits c mem
  have free : 0 ∉ d :: ds := fun mem => absurd (numeric 0 mem) (by decide)
  have whole : parseDecimal (d :: ds) = some [] := by
    have append := parseDecimal_append delimited.stops (d :: ds)
    rw [List.cons_append, decimal] at append
    obtain ⟨left, parsed, eq⟩ := Option.map_eq_some_iff.mp append.symm
    obtain rfl : left = [] := by simpa using eq
    exact parsed
  have valid : numberIsValid (d :: ds) = true := by
    have sign : d ≠ minus := fun e => absurd (numeric d List.mem_cons_self) (by rw [e]; decide)
    have parsed : parseNumber (d :: ds) = some [] := by
      rw [parseNumber_eq, parseMinus, peek_cons, if_neg sign, whole]
      rfl
    simp [numberIsValid, parsed]
  have value : libc.strtod (d :: ds ++ rest) = libc.strtod (cstr (d :: ds)) := by
    rw [cstr_eq_self free]
    exact libc.strtod_delimited _ _ valid (.inr delimited)
  have read : StreamScalar libc (d :: ds ++ rest) (.number (libc.strtod (cstr (d :: ds)))) rest :=
    .number (by simp) numeric rest
  rwa [← value] at read

theorem plain_scalar_stream {s rest : Bytes} {value : Scalar ν} (delimited : Delimited rest)
    (h : (Lexicon.plain libc).scalar s value rest) : StreamScalar libc s value rest := by
  obtain ⟨parsed, plain⟩ := h
  rcases parseScalar_cases parsed with ⟨-, rfl⟩ | ⟨b, rfl, rfl⟩ | ⟨out, literal, rfl⟩ | ⟨-, rfl⟩
  · exact plain.elim
  · exact .bool b rest
  · obtain ⟨s₁, rfl, chars⟩ := parseString_iff.mp literal
    obtain ⟨read, stream, free, -, same⟩ := chars.stream
    obtain rfl := same.mpr plain
    have string : StreamScalar libc (dquote :: s₁) (.string (cstr read)) rest := .string stream
    rwa [cstr_eq_self free] at string
  · exact decimal_stream plain delimited

theorem plain_key_stream {s key rest : Bytes} (h : (Lexicon.plain libc).key s key rest) :
    StreamKey s key rest := by
  obtain ⟨literal, plain⟩ := h
  obtain ⟨s₁, rfl, chars⟩ := parseString_iff.mp literal
  obtain ⟨k, rest', rfl, quote, free, reads⟩ := chars.streamKey
  rw [List.tail_cons, noEscapes_iff quote] at plain
  rcases reads with ⟨-, rfl, rfl⟩ | ⟨escape, -⟩
  · have read : StreamKey (dquote :: (key ++ dquote :: rest')) (cstr key) rest' := .key quote rest'
    rwa [cstr_eq_self free] at read
  · exact absurd escape plain

/-- A plain text is in the language of the machines. -/
theorem Derives.stream_of_plain {part : Part ν} {s rest : Bytes} {node : JsonNode ν}
    (h : Derives (.plain libc) part s node rest) :
    match part with
    | .value => (Delimited rest ∨ ∃ kind cs, node = .container none kind cs) →
        Derives (.stream libc) .value s node rest
    | .child kind done => Derives (.stream libc) (.child kind done) s node rest
    | .after kind done => Derives (.stream libc) (.after kind done) s node rest := by
  induction h with
  | scalar reads =>
      rintro (delimited | ⟨kind, cs, ⟨⟩⟩)
      exact .scalar (plain_scalar_stream delimited reads)
  | empty allowed _ => exact absurd allowed id
  | container _ ih => exact fun _ => .container ih
  | element _ more ih ih' => exact .element (ih (.inl more.delimited)) ih'
  | member reads sep _ more ih ih' =>
      exact .member (plain_key_stream reads) sep (ih (.inl more.delimited)) ih'
  | close close => exact .close close
  | next sep _ ih => exact .next sep ih

theorem Document.stream_of_plain {s : Bytes} {kind : Container} {cs : List (JsonNode ν)}
    (h : Document (.plain libc) s (.container none kind cs)) :
    Document (.stream libc) s (.container none kind cs) := by
  obtain ⟨rest, derives, ended⟩ := h
  exact ⟨rest, derives.stream_of_plain (.inr ⟨kind, cs, rfl⟩), ended⟩

end Plain

/-! ### Bytes that the machine rejects -/

section Accepts

variable {libc : Libc ν} {key : Option Bytes} {below : List (Open ν)}

/-- The machine reads the text to its end. -/
def Accepts (libc : Libc ν) (st : Stack ν) (s : Bytes) : Prop := ∃ fin, st.run libc s = some fin

theorem Accepts.congr {st st' : Stack ν} {s s' : Bytes} (same : st.run libc s = st'.run libc s')
    (h : Accepts libc st s) : Accepts libc st' s' := by
  rwa [Accepts, ← same]

theorem Accepts.step {st st' : Stack ν} {byte : Byte} {s : Bytes}
    (stepped : st.step libc byte = some st')
    (h : Accepts libc st (byte :: s)) : Accepts libc st' s :=
  h.congr (run_of_step stepped s)

theorem not_accepts {st : Stack ν} {byte : Byte} (stepped : st.step libc byte = none) (s : Bytes) :
    ¬ Accepts libc st (byte :: s) := by
  rintro ⟨fin, ran⟩
  rw [run_cons, stepped] at ran
  cases ran

/-- A byte that the machine does not know after a value. -/
def stuck (byte : Byte) : Bool :=
  !isSpace byte && byte != rbrace && byte != rbrack && byte != comma && !isDigit byte &&
    byte != dot &&
    byte != lbrace && byte != lbrack && byte != dquote && byte != 0x66 && byte != 0x74

theorem stepValueEnd_stuck {byte : Byte} (h : stuck byte = true) (node : JsonNode ν) :
    stepValueEnd key node below byte = none := by
  simp only [stuck, Bool.and_eq_true, Bool.not_eq_true', bne_iff_ne] at h
  rw [stepValueEnd.eq_def]
  cases below <;> simp [h]

theorem step_numberBody_stuck {byte : Byte} (h : stuck byte = true) (buffer : Bytes) :
    step libc ⟨.numberBody key buffer, below⟩ byte = none := by
  have rejected : stepValueEnd key (.scalar none (.number (libc.strtod (cstr buffer)))) below byte =
      none := stepValueEnd_stuck h _
  simp only [stuck, Bool.and_eq_true, Bool.not_eq_true', bne_iff_ne] at h
  simpa [step, stepNumberBody, h] using rejected

theorem step_valueInit_stuck {byte : Byte} (h : stuck byte = true) :
    step libc ⟨.valueInit key, below⟩ byte = none := by
  have rejected : step libc ⟨.numberBody key [], below⟩ byte = none := step_numberBody_stuck h []
  simp only [stuck, Bool.and_eq_true, Bool.not_eq_true', bne_iff_ne] at h
  simpa [step, stepValueInit, h] using rejected

/-- A number that the machine gets over has no sign and no exponent. -/
theorem number_plain {s rest : Bytes} (number : parseNumber s = some rest)
    (h : Accepts libc ⟨.valueInit key, below⟩ s) : parseDecimal s = some rest := by
  rw [parseNumber_eq] at number
  obtain ⟨s₁, decimal, exponent⟩ := Option.bind_eq_some_iff.mp number
  have unsigned : peek s ≠ minus := by
    intro sign
    rw [eq_cons_of_peek sign (by decide)] at h
    exact not_accepts (step_valueInit_stuck (by decide)) _ h
  rw [parseMinus, if_neg unsigned] at decimal
  unfold parseExponent at exponent
  split_ifs at exponent with e
  · -- the machine stops at the exponent
    obtain ⟨d, ds, rfl, digits⟩ := parseDecimal_digits decimal
    have numeric : ∀ c ∈ d :: ds, isNumeric c = true := fun c mem => by
      simpa [isNumeric] using digits c mem
    rw [List.forall_mem_cons] at numeric
    have later := (h.step (step_numeric numeric.1)).congr (run_numberBody numeric.2 s₁ [d])
    rcases e with e | e
    · rw [eq_cons_of_peek e (by decide)] at later
      exact absurd later (not_accepts (step_numberBody_stuck (by decide) _) _)
    · rw [eq_cons_of_peek e (by decide)] at later
      exact absurd later (not_accepts (step_numberBody_stuck (by decide) _) _)
  · rw [decimal, exponent]

end Accepts

end AcnSdk.Json
