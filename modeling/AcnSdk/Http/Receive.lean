/-
Receiving a response, however it is segmented.

A `Message` is a response with its framing: a body of the announced length, or chunks up to
one of size zero.

* `received_iff` — a message arrives as it was sent, in pieces that are not too long,
  exactly if it comes in chunks or its length fits into an `int`.
-/

import AcnSdk.Http.Framing

namespace AcnSdk.Http

open AcnSdk.Lib AcnSdk.Data AcnSdk.Arrow Prog

/-! ### Messages -/

/-- `HTTP/1.1 200 OK`. -/
def statusText : Bytes := versionText ++ [0x32, 0x30, 0x30] ++ okText

/-- Every header about the length says `n`, and there is one. -/
structure Announces (headers : List (Bytes × Bytes)) (n : Nat) : Prop where
  exists_length : ∃ h ∈ headers, h.1 = contentLengthText
  numeral : ∀ h ∈ headers, h.1 = contentLengthText →
    h.2 ≠ [] ∧ (∀ c ∈ h.2, isDigit c = true) ∧ decimalValue h.2 = n

/-- How a body is put into the payload. The size of a chunk has at most seven digits. -/
inductive Framed (headers : List (Bytes × Bytes)) (payload body : Bytes) : Prop where
  | sized (sized : ¬ Chunked headers) (announces : Announces headers body.length)
      (payload_eq : payload = body)
  | chunked {chunks : List Chunk} {last rest : Bytes} (chunked : Chunked headers)
      (wellFormed : ∀ c ∈ chunks, c.WellFormed ∧ c.sizeLine.length < 10) (zero : SizeLine last 0)
      (short : last.length < 10)
      (payload_eq : payload = (chunks.map Chunk.text).flatten ++ (last ++ rest))
      (body_eq : body = chunkData chunks)

/-- A response that the client should be able to receive. -/
structure Message (cfg : Config) where
  headers : List (Bytes × Bytes)
  payload : Bytes
  body : Bytes
  headers_ok : ∀ h ∈ headers, IsHeader h.1 h.2 ∧ HeaderFits cfg h.1 h.2
  framed : Framed headers payload body

namespace Message

variable {cfg : Config}

/-- The bytes on the wire. -/
def text (m : Message cfg) : Bytes :=
  statusText ++ crlf ++ ((m.headers.map headerText).flatten ++ (crlf ++ m.payload))

/-- The message arrives whole on every network, if the handler does not refuse it. -/
def IsReceived (m : Message cfg) : Prop :=
  ∀ handler : List Bytes → Bytes → Int, (∀ pieces piece, 0 ≤ handler pieces piece) →
    ∀ fails amount s, Arriving cfg fails amount s m.text → ∀ fuel ≥ 2 * m.text.length + 6,
      ∃ res, result (receive cfg (clientSource cfg fuel) handler fuel .init s) = .ok (0, res) ∧
        Received cfg res m.body

end Message

/-! ### Reading a message -/

section

variable {cfg : Config}

theorem headers_steps {headers : List (Bytes × Bytes)}
    (ok : ∀ h ∈ headers, IsHeader h.1 h.2 ∧ HeaderFits cfg h.1 h.2) (rest : Bytes) :
    Steps (header cfg) ((headers.map headerText).flatten ++ rest) headers rest := by
  induction headers with
  | nil => exact .refl rest
  | cons h headers ih =>
      obtain ⟨valid, fits⟩ := ok h List.mem_cons_self
      have first := header_text valid fits ((headers.map headerText).flatten ++ rest)
      rw [List.map_cons, List.flatten_cons, List.append_assoc]
      exact .cons first (ih fun h mem => ok h (List.mem_cons_of_mem _ mem))

theorem crlf_next (payload : Bytes) :
    nextLine cfg.ringbufferSize (crlf ++ payload) = some (crlf, payload) := by
  have line_lt := cfg.line_lt
  rw [lineChunk] at line_lt
  have fits : ([] : Bytes).length + 2 < cfg.ringbufferSize := by
    rw [List.length_nil]
    omega
  exact nextLine_plain (by simp) fits payload

/-- The client gets to the payload. -/
theorem Message.opens (m : Message cfg) : Opens cfg m.text m.headers m.payload := by
  have line_lt := cfg.line_lt
  rw [lineChunk] at line_lt
  have status : nextLine cfg.ringbufferSize m.text = some (statusText ++ crlf, _) :=
    nextLine_plain (by decide) (by rw [show statusText.length = 15 from rfl]; omega) _
  have none_short : takeAll (shortLine cfg) m.text = ([], m.text) := by
    apply (Steps.refl m.text).takeAll_eq shortLine_smaller
    rw [shortLine, status]
    rfl
  have blank : header cfg (crlf ++ m.payload) = none := by
    rw [header, crlf_next]
    rfl
  have taken := (headers_steps m.headers_ok (crlf ++ m.payload)).takeAll_eq header_smaller blank
  have accepted : statusCode (statusText ++ crlf) = .ok (some (200, [])) := rfl
  have found : nextLine cfg.ringbufferSize (takeAll (shortLine cfg) m.text).2 =
      some (statusText ++ crlf, (m.headers.map headerText).flatten ++ (crlf ++ m.payload)) := by
    rw [none_short]
    exact status
  exact .intro (.intro found (by decide) accepted taken) (crlf_next m.payload) rfl

theorem foldl_announced {headers : List (Bytes × Bytes)} {n : Int}
    (same : ∀ h ∈ headers, h.1 = contentLengthText → numberAt 10 h.2 = n) (start : Int)
    (found : start = n ∨ ∃ h ∈ headers, h.1 = contentLengthText) :
    headers.foldl (fun n h => if h.1 = contentLengthText then numberAt 10 h.2 else n)
      start = n := by
  induction headers generalizing start with
  | nil => exact found.resolve_right (by simp)
  | cons h headers ih =>
      rw [List.foldl_cons]
      apply ih fun h mem => same h (List.mem_cons_of_mem _ mem)
      by_cases key : h.1 = contentLengthText
      · rw [if_pos key]
        exact .inl (same h List.mem_cons_self key)
      · rw [if_neg key]
        refine found.imp_right fun ⟨h', mem, key'⟩ => ?_
        rcases List.mem_cons.mp mem with rfl | later
        · exact absurd key' key
        · exact ⟨h', later, key'⟩

theorem Announces.announced_eq {headers : List (Bytes × Bytes)} {n : Nat}
    (announces : Announces headers n) : announced headers = n := by
  apply foldl_announced _ _ (.inr announces.exists_length)
  intro h mem key
  obtain ⟨nonempty, digits, value⟩ := announces.numeral h mem key
  rw [numberAt_decimal digits nonempty, value]

theorem takenLength_of_lt {headers : List (Bytes × Bytes)} {n : Nat}
    (announces : Announces headers n)
    (small : n < 2 ^ 31) : (takenLength headers).toNat = n := by
  rw [takenLength, announces.announced_eq, toLong_of_lt (by omega) (by omega),
    toInt32_of_lt (by omega) (by omega), Int.toNat_natCast]

theorem takenLength_lt (headers : List (Bytes × Bytes)) : (takenLength headers).toNat < 2 ^ 31 := by
  have := toInt32_lt (toLong (announced headers))
  rw [takenLength]
  omega

/-- A message in chunks is read to its end. -/
theorem Message.leaves_chunked (m : Message cfg) (chunked : Chunked m.headers) :
    Leaves cfg cfg.chunkSize m.text (.done m.body) := by
  cases m.framed with
  | sized sized => exact absurd chunked sized
  | @chunked chunks last rest _ wellFormed zero short payload_eq body_eq =>
      have steps := chunks_steps cfg.chunkSize (fun c mem =>
        ⟨(wellFormed c mem).1, (wellFormed c mem).2, Nat.min_le_right _ _⟩) (last ++ rest)
      have found : nextLine cfg.ringbufferSize (last ++ rest) = some (last, rest) :=
        zero.found cfg short rest
      have size := zero.number
      rw [if_pos short] at size
      have stuck : chunk cfg cfg.chunkSize (last ++ rest) = none := by
        rw [chunk, found]
        dsimp only
        rw [size]
        rfl
      have taken := steps.takeAll_eq chunk_smaller stuck
      rw [← payload_eq] at taken
      rw [body_eq]
      exact m.opens.leaves_chunked chunked taken (.last found size (by decide))

/-- Of a message with an announced length, as much is read as the client takes for it. -/
theorem Message.leaves_sized (m : Message cfg) (sized : ¬ Chunked m.headers) :
    Announces m.headers m.body.length ∧ (takenLength m.headers).toNat ≤ m.body.length ∧
      Leaves cfg cfg.chunkSize m.text (.done (m.body.take (takenLength m.headers).toNat)) := by
  cases m.framed with
  | chunked chunked => exact absurd chunked sized
  | sized _ announces payload_eq =>
      have there : (takenLength m.headers).toNat ≤ m.body.length := by
        by_cases small : m.body.length < 2 ^ 31
        · exact Nat.le_of_eq (takenLength_of_lt announces small)
        · have := takenLength_lt m.headers
          omega
      refine ⟨announces, there, m.opens.leaves_sized sized ?_⟩
      rw [payload_eq]
      exact sizedEnds_there there

/-- A response that is read to its end reaches the handler on every network. -/
theorem receive_done {handler : List Bytes → Bytes → Int} {fails : Bool} {amount : Nat → Nat → Nat}
    {s : Session} {stream body : Bytes} {fuel : Nat} (fits : cfg.chunkSize ≤ cfg.scratch)
    (accepts : ∀ pieces piece, 0 ≤ handler pieces piece)
    (leaves : Leaves cfg cfg.chunkSize stream (.done body))
    (arriving : Arriving cfg fails amount s stream)
    (enough : 2 * stream.length + 6 ≤ fuel) :
    ∃ res, result (receive cfg (clientSource cfg fuel) handler fuel .init s) = .ok (0, res) ∧
      Received cfg res body := by
  have polite : ∀ i len, len ≤ cfg.chunkSize → min len (max 1 (amount i len)) ≤ cfg.scratch := by
    intro i len small
    omega
  rw [receive_stream handler .init polite arriving enough]
  rcases receive_handler cfg fails cfg.chunkSize handler fuel .init stream with
    same | ⟨⟨pieces, piece, refuses⟩, -⟩
  · rw [same]
    have gives : Outcome.Gives cfg fails _ (.done body) :=
      receive_leaves leaves (show stream.length + 1 < fuel by omega)
    exact gives
  · exact absurd (accepts pieces piece) (Int.not_le.mpr refuses)

theorem Message.not_isReceived {m : Message cfg} (fits : cfg.chunkSize ≤ cfg.scratch)
    (sized : ¬ Chunked m.headers) (large : 2 ^ 31 ≤ m.body.length) : ¬ m.IsReceived := by
  intro received
  obtain ⟨-, -, leaves⟩ := m.leaves_sized sized
  have accepts : ∀ pieces piece, 0 ≤ accept pieces piece := fun _ _ => Int.le_refl 0
  have arriving := start_arriving cfg m.text true oneByOne
  obtain ⟨res, eq, whole⟩ := received accept accepts _ _ _ arriving _ (Nat.le_refl _)
  obtain ⟨res', eq', part⟩ := receive_done fits accepts leaves arriving (Nat.le_refl _)
  rw [eq] at eq'
  cases eq'
  have lengths := congrArg List.length (whole.flatten_eq.symm.trans part.flatten_eq)
  rw [List.length_take] at lengths
  have := takenLength_lt m.headers
  omega

/-- A message arrives whole exactly if it comes in chunks or its length fits into an `int`. -/
theorem received_iff (fits : cfg.chunkSize ≤ cfg.scratch) (m : Message cfg) :
    m.IsReceived ↔ Chunked m.headers ∨ m.body.length < 2 ^ 31 := by
  constructor
  · intro received
    by_contra neither
    rw [not_or] at neither
    exact Message.not_isReceived fits neither.1 (Nat.not_lt.mp neither.2) received
  · intro either handler accepts fails amount s arriving fuel enough
    by_cases chunked : Chunked m.headers
    · exact receive_done fits accepts (m.leaves_chunked chunked) arriving enough
    · have small := either.resolve_left chunked
      obtain ⟨announces, -, leaves⟩ := m.leaves_sized chunked
      rw [takenLength_of_lt announces small, List.take_length] at leaves
      exact receive_done fits accepts leaves arriving enough

end

/-- The standard sizes, with a buffer that holds a whole chunk. -/
def Config.roomy : Config where
  ringbufferSize := 1024
  scratch := 512
  line_lt := Config.standard.line_lt
  size_lt := Config.standard.size_lt
  line_le := by decide

/-- A message with nothing but a length in its headers. -/
def lengthMessage (digits body : Bytes) (nonempty : digits ≠ []) (short : digits.length < 256)
    (numeral : ∀ c ∈ digits, isDigit c = true) (value : decimalValue digits = body.length) :
    Message .roomy where
  headers := [(contentLengthText, digits)]
  payload := body
  body := body
  headers_ok := by
    intro h mem
    obtain rfl := List.mem_singleton.mp mem
    dsimp only
    have plain := plain_of_digits (by decide) fun c mem => isDigitOf_ten c (numeral c mem)
    refine ⟨⟨⟨by decide, by decide, by decide⟩, plain, by decide⟩, ?_, by decide, ?_⟩
    · simp only [List.length_append, contentLengthText, separator, List.length_cons,
        List.length_nil, Config.roomy]
      omega
    · exact Nat.lt_trans short (by decide)
  framed := by
    refine .sized ?_ ⟨⟨_, List.mem_cons_self, rfl⟩, ?_⟩ rfl
    · rintro ⟨h, mem, encoding, -⟩
      obtain rfl := List.mem_singleton.mp mem
      exact absurd (show contentLengthText = transferEncodingText from encoding) (by decide)
    · intro h mem _
      obtain rfl := List.mem_singleton.mp mem
      exact ⟨nonempty, numeral, value⟩

/-- `Content-Length: 2`, and two bytes. -/
theorem received_two :
    (lengthMessage [0x32] [0x68, 0x69] (by decide) (by decide) (List.all_eq_true.mp (by decide))
      (by decide)).IsReceived :=
  (received_iff (by decide) _).mpr (.inr (by decide))

/-- `Content-Length: 2147483648`, and as many bytes. -/
theorem not_received_large : ¬ (lengthMessage
    [0x32, 0x31, 0x34, 0x37, 0x34, 0x38, 0x33, 0x36, 0x34, 0x38] (List.replicate (2 ^ 31) 0)
    (by decide) (by decide) (List.all_eq_true.mp (by decide))
    (by rw [List.length_replicate]; decide)).IsReceived := by
  apply Message.not_isReceived (by decide)
  · rintro ⟨h, mem, encoding, -⟩
    obtain rfl := List.mem_singleton.mp mem
    exact absurd (show contentLengthText = transferEncodingText from encoding) (by decide)
  · exact Nat.le_of_eq List.length_replicate.symm

end AcnSdk.Http
