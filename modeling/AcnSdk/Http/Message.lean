/-
The format of an HTTP response, and how the client reads it.

A header line is a key and a value, a size line is a number in base 16 with an extension
behind it, and a chunk is a size line, its data and a line end. What the headers announce
is read off them. The lemmas say that the client takes off the stream what was put there,
as long as it fits.
-/

import AcnSdk.Http.Reading

namespace AcnSdk.Http

open AcnSdk.Lib AcnSdk.Data AcnSdk.Arrow Prog Ascii

/-! ### Lines -/

/-- Neither a character that ends a line nor one that ends a string. -/
structure Plain (s : Bytes) : Prop where
  no_cr : cr ∉ s
  no_lf : lf ∉ s
  no_nul : 0 ∉ s

theorem Plain.append {s t : Bytes} (left : Plain s) (right : Plain t) : Plain (s ++ t) := by
  constructor
  · exact fun mem => (List.mem_append.mp mem).elim left.no_cr right.no_cr
  · exact fun mem => (List.mem_append.mp mem).elim left.no_lf right.no_lf
  · exact fun mem => (List.mem_append.mp mem).elim left.no_nul right.no_nul

theorem Plain.cstr_line {s : Bytes} (plain : Plain s) : cstr (s ++ crlf) = s ++ crlf := by
  apply cstr_eq_self
  intro mem
  rcases List.mem_append.mp mem with inside | ending
  · exact plain.no_nul inside
  · exact absurd ending (by decide)

theorem splitLine_plain {s : Bytes} (plain : cr ∉ s) (rest : Bytes) :
    splitLine (s ++ crlf ++ rest) = some (s ++ crlf, rest) := by
  induction s with
  | nil => rfl
  | cons c s ih =>
      obtain ⟨other, plain⟩ := not_or.mp (fun mem => plain (List.mem_cons.mpr mem))
      have rest_eq := ih plain
      obtain ⟨d, t, eq⟩ : ∃ d t, s ++ crlf ++ rest = d :: t := by
        cases s with
        | nil => exact ⟨cr, lf :: rest, rfl⟩
        | cons d s => exact ⟨d, s ++ crlf ++ rest, rfl⟩
      rw [List.cons_append, List.cons_append, eq, splitLine, if_neg (fun h => other h.1.symm), ← eq,
        rest_eq]
      rfl

theorem nextLine_plain {size : Nat} {s : Bytes} (plain : cr ∉ s) (fits : s.length + 2 < size)
    (rest : Bytes) : nextLine size (s ++ crlf ++ rest) = some (s ++ crlf, rest) := by
  rw [nextLine, splitLine_plain plain, Option.filter_some, if_pos]
  simpa [crlf] using fits

/-- The text before the line end. -/
theorem copyTill_crlf {s : Bytes} {room : Nat} (plain : cr ∉ s) (fits : s.length < room) :
    copyTill (s ++ crlf) crlf room = .ok (some (s, [])) := by
  have copied : copyTill (s ++ (crlf ++ [])) crlf room = .ok (some (s, [])) :=
    copyTill_eq (not_prefix_of_not_mem plain) fits
  rwa [List.append_nil] at copied

theorem copyTill_crlf_overflow {s : Bytes} {room : Nat} (plain : cr ∉ s) (long : room ≤ s.length) :
    copyTill (s ++ crlf) crlf room = .error .overflow := by
  have copied : copyTill (s ++ (crlf ++ [])) crlf room = .error .overflow :=
    copyTill_overflow (not_prefix_of_not_mem plain) long
  rwa [List.append_nil] at copied

/-! ### Headers -/

/-- A header that can be told apart from what is around it. -/
structure IsHeader (key value : Bytes) : Prop where
  plain_key : Plain key
  plain_value : Plain value
  no_separator : ¬ separator <:+: key

/-- A header fits into the buffers. -/
structure HeaderFits (cfg : Config) (key value : Bytes) : Prop where
  line : (key ++ separator ++ value).length + 2 < cfg.ringbufferSize
  key : key.length < cfg.keySize
  value : value.length < cfg.chunkSize

/-- The line of a header. -/
def headerText (h : Bytes × Bytes) : Bytes := h.1 ++ separator ++ h.2 ++ crlf

theorem header_text {cfg : Config} {key value : Bytes} (valid : IsHeader key value)
    (fits : HeaderFits cfg key value) (rest : Bytes) :
    header cfg (headerText (key, value) ++ rest) = some ((key, value), rest) := by
  have plain_separator : Plain separator := ⟨by decide, by decide, by decide⟩
  have plain := (valid.plain_key.append plain_separator).append valid.plain_value
  have found := nextLine_plain plain.no_cr fits.line rest
  have first : copyTill (cstr (key ++ separator ++ value ++ crlf)) separator cfg.keySize =
      .ok (some (key, value ++ crlf)) := by
    rw [plain.cstr_line, List.append_assoc, List.append_assoc]
    refine copyTill_eq ?_ fits.key
    intro a b split nonempty start
    obtain ⟨c, b, rfl⟩ := List.exists_cons_of_ne_nil nonempty
    rw [separator, List.cons_append, List.cons_prefix_cons] at start
    obtain ⟨rfl, start⟩ := start
    cases b with
    | nil => exact absurd (List.cons_prefix_cons.mp start).1 (by decide)
    | cons d b =>
        rw [List.cons_append, List.cons_prefix_cons] at start
        obtain ⟨rfl, -⟩ := start
        exact valid.no_separator ⟨a, b, by simp [split, separator]⟩
  have second := copyTill_crlf valid.plain_value.no_cr fits.value
  have nonblank : (key ++ separator ++ value ++ crlf).length - 2 ≠ 0 := by
    simp only [List.length_append, separator, crlf, List.length_cons, List.length_nil]
    omega
  rw [header, headerText, found]
  dsimp only
  rw [if_neg nonblank, first]
  dsimp only
  rw [second]

/-! ### What the headers announce -/

/-- The headers announce chunks. -/
def Chunked (headers : List (Bytes × Bytes)) : Prop :=
  ∃ h ∈ headers, h.1 = transferEncodingText ∧ (h.2 = chunkedTextUpper ∨ h.2 = chunkedText)

/-- The length that the last header about it announces. -/
def announced (headers : List (Bytes × Bytes)) : Int :=
  headers.foldl (fun n h => if h.1 = contentLengthText then numberAt 10 h.2 else n) 0

theorem setHeader_isChunked (res : Response) (h : Bytes × Bytes) :
    (res.setHeader h.1 h.2).isChunked ≠ 0 ↔ res.isChunked ≠ 0 ∨
      h.1 = transferEncodingText ∧ (h.2 = chunkedTextUpper ∨ h.2 = chunkedText) := by
  have differ : contentLengthText ≠ transferEncodingText := by decide
  unfold Response.setHeader
  by_cases length : h.1 = contentLengthText
  · have other : h.1 ≠ transferEncodingText := fun e => differ (length.symm.trans e)
    simp [length, differ]
  · by_cases encoding : h.1 = transferEncodingText
    · by_cases chunked : h.2 = chunkedTextUpper ∨ h.2 = chunkedText
      · simp [encoding, differ.symm, chunked]
      · simp [encoding, differ.symm, chunked]
    · simp [length, encoding]

theorem setHeaders_isChunked (headers : List (Bytes × Bytes)) (res : Response) :
    (res.setHeaders headers).isChunked ≠ 0 ↔ res.isChunked ≠ 0 ∨ Chunked headers := by
  induction headers generalizing res with
  | nil => simp [Response.setHeaders, Chunked]
  | cons h headers ih =>
      have step : (res.setHeaders (h :: headers)) =
          (res.setHeader h.1 h.2).setHeaders headers := rfl
      rw [step, ih, setHeader_isChunked, or_assoc]
      simp only [Chunked, List.exists_mem_cons_iff]

/-- The length that the client takes for the announced one. -/
def takenLength (headers : List (Bytes × Bytes)) : Int := toInt32 (toLong (announced headers))

theorem toInt32_word (n : Int) : toInt32 ((n % 2 ^ 32).toNat : Int) = toInt32 n := by
  rw [Int.toNat_of_nonneg (Int.emod_nonneg _ (by decide))]
  exact Int.emod_bmod ..

theorem toInt32_toInt32 (n : Int) : toInt32 (toInt32 n) = toInt32 n := Int.bmod_bmod ..

theorem setHeaders_length (headers : List (Bytes × Bytes)) (res : Response) (n : Int)
    (start : toInt32 res.recvContentLength = toInt32 (toLong n)) :
    toInt32 (res.setHeaders headers).recvContentLength = toInt32 (toLong
      (headers.foldl (fun n h => if h.1 = contentLengthText then numberAt 10 h.2 else n) n)) := by
  induction headers generalizing res n with
  | nil => exact start
  | cons h headers ih =>
      apply ih
      dsimp only
      unfold Response.setHeader
      by_cases length : h.1 = contentLengthText
      · rw [if_pos length, if_pos length, toInt32_word, atoi, toInt32_toInt32]
        rfl
      · rw [if_neg length, if_neg length]
        split
        · split
          · exact start
          · exact start
        · exact start

/-! ### Size lines -/

/-- What may stand behind the size of a chunk. -/
def Extension (s : Bytes) : Prop := Plain s ∧ (s = [] ∨ s.head? = some 0x3B)

/-- A line with the size of a chunk: digits in base 16, and an extension. -/
def SizeLine (line : Bytes) (n : Nat) : Prop :=
  ∃ digits extension, line = digits ++ extension ++ crlf ∧ digits ≠ [] ∧
    (∀ c ∈ digits, isDigitOf 16 c = true) ∧ Extension extension ∧ numeralValue 16 digits = n

theorem plain_of_digits {base : Nat} {s : Bytes} (small : base ≤ 16)
    (digits : ∀ c ∈ s, isDigitOf base c = true) : Plain s := by
  have other : ∀ c : Byte, isDigitOf base c = true → 0x30 ≤ c.toNat := by
    intro c digit
    have := isDigitOf_bounds small digit
    omega
  constructor
  · exact fun mem => absurd (other _ (digits _ mem)) (by decide)
  · exact fun mem => absurd (other _ (digits _ mem)) (by decide)
  · exact fun mem => absurd (other _ (digits _ mem)) (by decide)

namespace SizeLine

variable {line : Bytes} {n : Nat} (size : SizeLine line n)

include size

theorem plain : ∃ s, line = s ++ crlf ∧ Plain s := by
  obtain ⟨digits, extension, rfl, -, all, valid, -⟩ := size
  exact ⟨digits ++ extension, rfl, (plain_of_digits (by decide) all).append valid.1⟩

theorem split (rest : Bytes) : splitLine (line ++ rest) = some (line, rest) := by
  obtain ⟨s, rfl, plain⟩ := size.plain
  exact splitLine_plain plain.no_cr rest

/-- The size that the client reads, unless it is too long. -/
theorem number : copyTillHexToInt (cstr line) crlf =
    if line.length < 10 then .ok (some ((n : Int), [])) else .error .overflow := by
  obtain ⟨digits, extension, rfl, nonempty, all, valid, value⟩ := size
  have plain := (plain_of_digits (by decide) all).append valid.1
  have ends : ∀ c ∈ extension.head?, isDigitOf 16 c = false ∧ c ≠ 0x78 ∧ c ≠ 0x58 := by
    intro c mem
    rcases valid.2 with rfl | head
    · cases mem
    · rw [head] at mem
      cases mem
      decide
  have number := numberAt_digits (by decide) all nonempty ends
  have length : (digits ++ extension ++ crlf).length = (digits ++ extension).length + 2 :=
    List.length_append
  rw [plain.cstr_line, copyTillHexToInt]
  by_cases short : (digits ++ extension).length < 8
  · have small : n < 16 ^ 7 := by
      rw [← value]
      apply Nat.lt_of_lt_of_le (numeralValue_lt all)
      apply Nat.pow_le_pow_right (by decide)
      rw [List.length_append] at short
      omega
    have read : toInt32 (strtol 16 (digits ++ extension)) = n := by
      rw [strtol, number, value, toLong_of_lt (by omega) (by omega),
        toInt32_of_lt (by omega) (by omega)]
    rw [copyTill_crlf plain.no_cr short, if_pos (by omega)]
    exact congrArg (fun n => Except.ok (some (n, []))) read
  · rw [copyTill_crlf_overflow plain.no_cr (by omega), if_neg (by omega)]
    rfl

end SizeLine

/-- A line with a size is found if it is not too long for a line. -/
theorem SizeLine.found (cfg : Config) {line : Bytes} {n : Nat} (size : SizeLine line n)
    (short : line.length < 10) (rest : Bytes) :
    nextLine cfg.ringbufferSize (line ++ rest) = some (line, rest) := by
  have line_lt := cfg.line_lt
  rw [lineChunk] at line_lt
  have fits : line.length < cfg.ringbufferSize := by omega
  rw [nextLine, size.split, Option.filter_some, if_pos (decide_eq_true fits)]

/-! ### Chunks -/

namespace Chunk

/-- The text of a chunk. -/
def text (c : Chunk) : Bytes := c.sizeLine ++ c.data ++ c.endLine

/-- A chunk as it should be. -/
structure WellFormed (c : Chunk) : Prop where
  size : SizeLine c.sizeLine c.data.length
  nonempty : c.data ≠ []
  ends : c.endLine = crlf

end Chunk

/-- A chunk is read as it was written, if it fits. -/
theorem chunk_text {cfg : Config} {limit : Nat} {c : Chunk} (wellFormed : c.WellFormed)
    (short : c.sizeLine.length < 10) (fits : min c.data.length cfg.chunkSize ≤ limit)
    (rest : Bytes) :
    chunk cfg limit (c.text ++ rest) = some (c, rest) := by
  have line_lt := cfg.line_lt
  rw [lineChunk] at line_lt
  have found : nextLine cfg.ringbufferSize (c.sizeLine ++ (c.data ++ (c.endLine ++ rest))) =
      some (c.sizeLine, c.data ++ (c.endLine ++ rest)) := wellFormed.size.found cfg short _
  have number := wellFormed.size.number
  rw [if_pos short] at number
  have pos := List.length_pos_iff.mpr wellFormed.nonempty
  have ends : nextLine cfg.chunkSize (crlf ++ rest) = some (crlf, rest) := by
    have two_lt : crlf.length < cfg.chunkSize := by
      rw [Config.chunkSize, show crlf.length = 2 from rfl]
      omega
    rw [nextLine, show splitLine (crlf ++ rest) = some (crlf, rest) from rfl, Option.filter_some,
      if_pos (decide_eq_true two_lt)]
  have there : (c.data.length : Int).toNat ≤ (c.data ++ (c.endLine ++ rest)).length := by
    rw [List.length_append]
    omega
  rw [Chunk.text, List.append_assoc, List.append_assoc, chunk, found]
  dsimp only
  rw [number]
  dsimp only
  rw [if_pos ⟨by omega, there, by omega⟩]
  simp only [Int.toNat_natCast, List.drop_left, List.take_left, wellFormed.ends, ends]
  rw [← wellFormed.ends]

theorem chunks_steps {cfg : Config} (limit : Nat) {chunks : List Chunk} (ok : ∀ c ∈ chunks,
      c.WellFormed ∧ c.sizeLine.length < 10 ∧ min c.data.length cfg.chunkSize ≤ limit)
    (rest : Bytes) :
    Steps (chunk cfg limit) ((chunks.map Chunk.text).flatten ++ rest) chunks rest := by
  induction chunks with
  | nil => exact .refl rest
  | cons c chunks ih =>
      obtain ⟨wellFormed, short, fits⟩ := ok c List.mem_cons_self
      rw [List.map_cons, List.flatten_cons, List.append_assoc]
      exact .cons (chunk_text wellFormed short fits _)
        (ih fun c mem => ok c (List.mem_cons_of_mem _ mem))

end AcnSdk.Http
