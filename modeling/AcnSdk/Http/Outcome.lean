/-
How the client leaves a stream of bytes.

`Leaves cfg limit stream outcome` says where the client gets to on a stream and what it finds
there. It is about the bytes: lines that are there, cut off or too long, and numbers in
them.

* `leaves_total` — there is always such an outcome.
* `receive_leaves` — it decides what the client returns, and what the handler gets.
-/

import AcnSdk.Http.Reading

namespace AcnSdk.Http

open AcnSdk.Lib AcnSdk.Data AcnSdk.Arrow Prog

/-- How the client leaves a stream. -/
inductive Outcome where
  /-- Something does not fit into its buffer. -/
  | overflow
  /-- The response is refused. -/
  | refused
  /-- The stream ends, and the client waits for more. -/
  | missing
  /-- The stream ends, the client waits for more, but takes an error for the end of the
  response. -/
  | unnoticed (body : Bytes)
  /-- The response is read. -/
  | done (body : Bytes)
deriving DecidableEq, Repr

/-! ### The payload -/

section Payload

variable (cfg : Config) (limit : Nat)

/-- A payload of `n` bytes. -/
inductive SizedEnds (n : Int) (stream : Bytes) : Outcome → Prop where
  | empty (nonpos : n ≤ 0) : SizedEnds n stream (.done [])
  | complete (pos : 0 < n) (there : n.toNat ≤ stream.length)
      (fits : min n.toNat cfg.chunkSize ≤ limit) : SizedEnds n stream (.done (stream.take n.toNat))
  | missing (short : stream.length < n.toNat)
      (fits : min (min n.toNat cfg.chunkSize) stream.length ≤ limit) : SizedEnds n stream .missing
  | overlong (beyond : limit < min (min n.toNat cfg.chunkSize) stream.length) :
      SizedEnds n stream .overflow

/-- The end of the chunks: `stream` does not start with a chunk that can be read, and `body` are
the data of those before. -/
inductive ChunksEnd (body stream : Bytes) : Outcome → Prop where
  | sizeCut (cut : Cut cfg.ringbufferSize stream) : ChunksEnd body stream (.unnoticed body)
  | sizeOverlong (beyond : Overlong cfg.ringbufferSize stream) : ChunksEnd body stream .overflow
  | numberOverlong {line rest : Bytes}
      (found : nextLine cfg.ringbufferSize stream = some (line, rest))
      (long : LongBefore crlf (cstr line) 8) : ChunksEnd body stream .overflow
  | noNumber {line rest : Bytes} (found : nextLine cfg.ringbufferSize stream = some (line, rest))
      (none : copyTillHexToInt (cstr line) crlf = .ok none) : ChunksEnd body stream (.done body)
  | last {line rest p : Bytes} {n : Int}
      (found : nextLine cfg.ringbufferSize stream = some (line, rest))
      (size : copyTillHexToInt (cstr line) crlf = .ok (some (n, p))) (nonpos : n ≤ 0) :
      ChunksEnd body stream (.done body)
  | data {line rest p : Bytes} {n : Int} {outcome : Outcome}
      (found : nextLine cfg.ringbufferSize stream = some (line, rest))
      (size : copyTillHexToInt (cstr line) crlf = .ok (some (n, p)))
      (incomplete : SizedEnds cfg limit n rest outcome) (not_done : ∀ data, outcome ≠ .done data) :
      ChunksEnd body stream outcome
  | endCut {line rest p : Bytes} {n : Int}
      (found : nextLine cfg.ringbufferSize stream = some (line, rest))
      (size : copyTillHexToInt (cstr line) crlf = .ok (some (n, p))) (pos : 0 < n)
      (there : n.toNat ≤ rest.length) (fits : min n.toNat cfg.chunkSize ≤ limit)
      (cut : Cut cfg.chunkSize (rest.drop n.toNat)) :
      ChunksEnd body stream (.unnoticed (body ++ rest.take n.toNat))
  | endOverlong {line rest p : Bytes} {n : Int}
      (found : nextLine cfg.ringbufferSize stream = some (line, rest))
      (size : copyTillHexToInt (cstr line) crlf = .ok (some (n, p))) (pos : 0 < n)
      (there : n.toNat ≤ rest.length) (fits : min n.toNat cfg.chunkSize ≤ limit)
      (beyond : Overlong cfg.chunkSize (rest.drop n.toNat)) : ChunksEnd body stream .overflow

/-- The data of some chunks. -/
def chunkData (chunks : List Chunk) : Bytes := (chunks.map Chunk.data).flatten

/-- The payload that the headers announce. -/
inductive PayloadEnds (res : Response) (stream : Bytes) : Outcome → Prop where
  | sized {outcome : Outcome} (sized : res.isChunked = 0)
      (ends : SizedEnds cfg limit (toInt32 res.recvContentLength) stream outcome) :
      PayloadEnds res stream outcome
  | chunked {chunks : List Chunk} {rest : Bytes} {outcome : Outcome} (chunked : res.isChunked ≠ 0)
      (taken : takeAll (chunk cfg limit) stream = (chunks, rest))
      (ends : ChunksEnd cfg limit (chunkData chunks) rest outcome) : PayloadEnds res stream outcome

/-! ### The headers and the status line -/

/-- The end of the headers: `stream` does not start with a header. -/
inductive HeadersEnd (res : Response) (stream : Bytes) : Outcome → Prop where
  | cutUnnoticed (cut : Cut cfg.ringbufferSize stream)
      (nothing : res.isChunked ≠ 0 ∨ toInt32 res.recvContentLength ≤ 0) :
      HeadersEnd res stream (.unnoticed [])
  | cutMissing (cut : Cut cfg.ringbufferSize stream) (sized : res.isChunked = 0)
      (pos : 0 < toInt32 res.recvContentLength) : HeadersEnd res stream .missing
  | overlong (beyond : Overlong cfg.ringbufferSize stream) : HeadersEnd res stream .overflow
  | fieldOverlong {line rest : Bytes}
      (found : nextLine cfg.ringbufferSize stream = some (line, rest))
      (nonblank : line.length - 2 ≠ 0) (long : LongField cfg line) : HeadersEnd res stream .overflow
  | refused {line rest : Bytes} (found : nextLine cfg.ringbufferSize stream = some (line, rest))
      (nonblank : line.length - 2 ≠ 0) (bad : header cfg stream = none)
      (short : ¬ LongField cfg line) : HeadersEnd res stream .refused
  | blank {line rest : Bytes} {outcome : Outcome}
      (found : nextLine cfg.ringbufferSize stream = some (line, rest)) (blank : line.length - 2 = 0)
      (ends : PayloadEnds cfg limit res rest outcome) : HeadersEnd res stream outcome

/-- The code in a status line. -/
def statusCode (line : Bytes) : Except Fault (Option (Int × Bytes)) :=
  match strstr versionText (cstr (line.take (line.length - 2))) with
  | none => .ok none
  | some p => copyTillToInt (p.drop 9) okText

/-- The code in a status line is too long for a number. -/
def LongCode (line : Bytes) : Prop :=
  ∃ p, strstr versionText (cstr (line.take (line.length - 2))) = some p ∧
    LongBefore okText (p.drop 9) 8

/-- The response after the status line and the headers. -/
def Response.opened (code : Int) (headers : List (Bytes × Bytes)) : Response :=
  { Response.init.setCode code with isChunked := 0 }.setHeaders headers

/-- The status line: `stream` does not start with a short line. -/
inductive StatusEnds (stream : Bytes) : Outcome → Prop where
  | cut (cut : Cut cfg.ringbufferSize stream) : StatusEnds stream .missing
  | overlong (beyond : Overlong cfg.ringbufferSize stream) : StatusEnds stream .overflow
  | codeOverlong {line rest : Bytes}
      (found : nextLine cfg.ringbufferSize stream = some (line, rest))
      (long : ¬ line.length - 2 < 10) (beyond : LongCode line) : StatusEnds stream .overflow
  | refused {line rest : Bytes} (found : nextLine cfg.ringbufferSize stream = some (line, rest))
      (long : ¬ line.length - 2 < 10)
      (none : statusCode line = .ok none) : StatusEnds stream .refused
  | accepted {line rest p : Bytes} {code : Int} {headers : List (Bytes × Bytes)} {after : Bytes}
      {outcome : Outcome} (found : nextLine cfg.ringbufferSize stream = some (line, rest))
      (long : ¬ line.length - 2 < 10) (accepted : statusCode line = .ok (some (code, p)))
      (taken : takeAll (header cfg) rest = (headers, after))
      (ends : HeadersEnd cfg limit (.opened code headers) after outcome) : StatusEnds stream outcome

/-- Where the client gets to on a stream. -/
def Leaves (stream : Bytes) (outcome : Outcome) : Prop :=
  StatusEnds cfg limit (takeAll (shortLine cfg) stream).2 outcome

end Payload

/-! ### There is always an outcome -/

section Total

variable (cfg : Config) (limit : Nat)

theorem sizedEnds_total (n : Int) (stream : Bytes) :
    ∃ outcome, SizedEnds cfg limit n stream outcome := by
  by_cases nonpos : n ≤ 0
  · exact ⟨_, .empty nonpos⟩
  by_cases beyond : limit < min (min n.toNat cfg.chunkSize) stream.length
  · exact ⟨_, .overlong beyond⟩
  by_cases short : stream.length < n.toNat
  · exact ⟨_, .missing short (Nat.not_lt.mp beyond)⟩
  · exact ⟨_, .complete (by omega) (by omega) (by omega)⟩

theorem statusCode_error_iff {line : Bytes} {e : Fault} :
    statusCode line = .error e ↔ e = .overflow ∧ LongCode line := by
  rw [statusCode, LongCode]
  cases strstr versionText (cstr (line.take (line.length - 2))) with
  | none => simp
  | some p => simp [copyTillToInt_error_iff]

theorem chunksEnd_total {stream : Bytes} (stuck : chunk cfg limit stream = none) (body : Bytes) :
    ∃ outcome, ChunksEnd cfg limit body stream outcome := by
  rcases line_cases cfg.ringbufferSize stream with ⟨line, rest, found⟩ | cut | beyond
  · cases size : copyTillHexToInt (cstr line) crlf with
    | error e => exact ⟨_, .numberOverlong found (copyTillHexToInt_error_iff.mp size).2⟩
    | ok number =>
        cases number with
        | none => exact ⟨_, .noNumber found size⟩
        | some number =>
            obtain ⟨n, p⟩ := number
            obtain ⟨outcome, ends⟩ := sizedEnds_total cfg limit n rest
            cases ends with
            | empty nonpos => exact ⟨_, .last found size nonpos⟩
            | missing short fits => exact ⟨_, .data found size (.missing short fits) (by simp)⟩
            | overlong beyond => exact ⟨_, .data found size (.overlong beyond) (by simp)⟩
            | complete pos there fits =>
                rcases line_cases cfg.chunkSize (rest.drop n.toNat) with
                  ⟨endLine, rest', found'⟩ | cut | beyond
                · simp [chunk, found, size, pos, there, fits, found'] at stuck
                · exact ⟨_, .endCut found size pos there fits cut⟩
                · exact ⟨_, .endOverlong found size pos there fits beyond⟩
  · exact ⟨_, .sizeCut cut⟩
  · exact ⟨_, .sizeOverlong beyond⟩

theorem payloadEnds_total (res : Response) (stream : Bytes) :
    ∃ outcome, PayloadEnds cfg limit res stream outcome := by
  by_cases sized : res.isChunked = 0
  · obtain ⟨outcome, ends⟩ := sizedEnds_total cfg limit (toInt32 res.recvContentLength) stream
    exact ⟨outcome, .sized sized ends⟩
  · have stuck : chunk cfg limit (takeAll (chunk cfg limit) stream).2 = none :=
      (takeAll_steps chunk_smaller stream).2
    obtain ⟨outcome, ends⟩ := chunksEnd_total cfg limit stuck _
    exact ⟨outcome, .chunked sized rfl ends⟩

theorem headersEnd_total {stream : Bytes} (stuck : header cfg stream = none) (res : Response) :
    ∃ outcome, HeadersEnd cfg limit res stream outcome := by
  rcases line_cases cfg.ringbufferSize stream with ⟨line, rest, found⟩ | cut | beyond
  · by_cases blank : line.length - 2 = 0
    · obtain ⟨outcome, ends⟩ := payloadEnds_total cfg limit res rest
      exact ⟨outcome, .blank found blank ends⟩
    by_cases long : LongField cfg line
    · exact ⟨_, .fieldOverlong found blank long⟩
    · exact ⟨_, .refused found blank stuck long⟩
  · by_cases nothing : res.isChunked ≠ 0 ∨ toInt32 res.recvContentLength ≤ 0
    · exact ⟨_, .cutUnnoticed cut nothing⟩
    · rw [not_or, not_not, Int.not_le] at nothing
      exact ⟨_, .cutMissing cut nothing.1 nothing.2⟩
  · exact ⟨_, .overlong beyond⟩

theorem leaves_total (stream : Bytes) : ∃ outcome, Leaves cfg limit stream outcome := by
  have stuck : shortLine cfg (takeAll (shortLine cfg) stream).2 = none :=
    (takeAll_steps shortLine_smaller stream).2
  unfold Leaves
  generalize (takeAll (shortLine cfg) stream).2 = stream at *
  rcases line_cases cfg.ringbufferSize stream with ⟨line, rest, found⟩ | cut | beyond
  · have long : ¬ line.length - 2 < 10 := by
      intro short
      simp [shortLine, found] at stuck
      omega
    cases status : statusCode line with
    | error e => exact ⟨_, .codeOverlong found long (statusCode_error_iff.mp status).2⟩
    | ok code =>
        cases code with
        | none => exact ⟨_, .refused found long status⟩
        | some code =>
            have stuck : header cfg (takeAll (header cfg) rest).2 = none :=
              (takeAll_steps header_smaller rest).2
            obtain ⟨outcome, ends⟩ := headersEnd_total cfg limit stuck
              (.opened code.1 (takeAll (header cfg) rest).1)
            exact ⟨outcome, .accepted found long status rfl ends⟩
  · exact ⟨_, .cut cut⟩
  · exact ⟨_, .overlong beyond⟩

end Total

/-! ### What the client returns -/

section Result

variable {cfg : Config} {fails : Bool} {limit fuel fuel' : Nat} {res : Response}
    {stream rest : Bytes}

/-- The handler got `body` in pieces that are not too long. -/
structure Received (cfg : Config) (res : Response) (body : Bytes) : Prop where
  flatten_eq : res.pieces.flatten = body
  small : ∀ piece ∈ res.pieces, piece.length ≤ cfg.chunkSize

theorem Received.nil (fresh : res.pieces = []) : Received cfg res [] := by
  constructor
  · rw [fresh, List.flatten_nil]
  · simp [fresh]

theorem Received.append {body more : Bytes} {pieces : List Bytes} (received : Received cfg res body)
    (flatten_eq : pieces.flatten = more) (small : ∀ piece ∈ pieces, piece.length ≤ cfg.chunkSize) :
    Received cfg { res with pieces := res.pieces ++ pieces } (body ++ more) := by
  constructor
  · rw [List.flatten_append, received.flatten_eq, flatten_eq]
  · intro piece mem
    rcases List.mem_append.mp mem with old | new
    · exact received.small piece old
    · exact small piece new

/-- What an outcome means for the client that fails or waits at the end of the stream. -/
def Outcome.Gives (cfg : Config) (fails : Bool) (answer : Except Fault (Int × Response)) :
    Outcome → Prop
  | .overflow => answer = .error .overflow
  | .refused => ∃ res, answer = .ok (-1, res)
  | .missing => if fails then ∃ res, answer = .ok (-1, res) else answer = .error .endless
  | .unnoticed body =>
      if fails then ∃ res, answer = .ok (0, res) ∧ Received cfg res body
      else answer = .error .endless
  | .done body => ∃ res, answer = .ok (0, res) ∧ Received cfg res body

theorem Outcome.Gives.ne_overflow {outcome : Outcome} {answer : Except Fault (Int × Response)}
    (gives : outcome.Gives cfg fails answer) (fits : outcome ≠ .overflow) :
    answer ≠ .error .overflow := by
  cases outcome with
  | overflow => exact absurd rfl fits
  | refused =>
      obtain ⟨res, eq⟩ := gives
      simp [eq]
  | missing =>
      cases fails with
      | true =>
          obtain ⟨res, eq⟩ := gives
          simp [eq]
      | false => simp [show answer = .error .endless from gives]
  | unnoticed body =>
      cases fails with
      | true =>
          obtain ⟨res, eq, -⟩ := gives
          simp [eq]
      | false => simp [show answer = .error .endless from gives]
  | done body =>
      obtain ⟨res, eq, -⟩ := gives
      simp [eq]

theorem receiveChunks_sized {outcome : Outcome} (errors : Nat) (sized : res.isChunked = 0)
    (fresh : res.pieces = [])
    (ends : SizedEnds cfg limit (toInt32 res.recvContentLength) stream outcome)
    (enough : stream.length + 1 < fuel) :
    outcome.Gives cfg fails
      (result (receiveChunks cfg (streamSource fails limit) accept fuel errors res stream)) := by
  obtain ⟨fuel, rfl⟩ : ∃ k, fuel = k + 2 := ⟨fuel - 2, by omega⟩
  have start : Received cfg res [] := .nil fresh
  have length : nextLength cfg (streamSource fails limit) res =
      pure (toInt32 res.recvContentLength) :=
    if_neg (not_not.mpr sized)
  generalize toInt32 res.recvContentLength = n at *
  rw [receiveChunks, bind_apply, length, pure_apply, ok_bind]
  dsimp only
  cases ends with
  | empty nonpos =>
      rw [if_pos nonpos]
      exact ⟨res, rfl, start⟩
  | complete pos there fits =>
      have fueled : n.toNat < fuel + 1 := by omega
      obtain ⟨pieces, whole, small, eq⟩ := receiveChunk_found errors res there fits fueled
      rw [if_neg (by omega), bind_apply, eq, ok_bind]
      dsimp only
      rw [if_pos sized]
      have received := start.append whole small
      rw [List.nil_append] at received
      exact ⟨_, rfl, received⟩
  | missing short fits =>
      have fueled : stream.length < fuel + 1 := by omega
      obtain ⟨res', rest, eq⟩ := receiveChunk_short errors res short fits fueled
      rw [if_neg (by omega), bind_apply, eq]
      cases fails with
      | true => exact ⟨res', rfl⟩
      | false => rfl
  | overlong beyond =>
      rw [if_neg (by omega), bind_apply, receiveChunk_overlong errors res beyond]
      rfl

/-- No size is there for the next chunk. -/
theorem receiveChunks_cut (errors : Nat) (chunked : res.isChunked ≠ 0)
    (cut : Cut cfg.ringbufferSize stream) :
    result (receiveChunks cfg (streamSource fails limit) accept (fuel + 1) errors res stream) =
      if fails then .ok (0, res) else .error .endless := by
  rw [receiveChunks, nextLength_chunked chunked, getChunkedPayloadSize, bind_apply, bind_apply,
    waitLine_cut cut]
  cases fails <;> rfl

theorem receiveChunks_end {outcome : Outcome} {body : Bytes} (errors : Nat)
    (chunked : res.isChunked ≠ 0) (received : Received cfg res body)
    (ends : ChunksEnd cfg limit body stream outcome) (enough : stream.length < fuel) :
    outcome.Gives cfg fails
      (result (receiveChunks cfg (streamSource fails limit) accept fuel errors res stream)) := by
  obtain ⟨fuel, rfl⟩ : ∃ k, fuel = k + 1 := ⟨fuel - 1, by omega⟩
  cases ends with
  | sizeCut cut =>
      rw [receiveChunks_cut errors chunked cut]
      cases fails with
      | true => exact ⟨res, rfl, received⟩
      | false => rfl
  | sizeOverlong beyond =>
      rw [receiveChunks, nextLength_chunked chunked, getChunkedPayloadSize, bind_apply, bind_apply,
        waitLine_overlong beyond]
      rfl
  | numberOverlong found long =>
      rw [receiveChunks, nextLength_chunked chunked, getChunkedPayloadSize, bind_apply, bind_apply,
        waitLine_found found]
      have failed := copyTillHexToInt_error_iff.mpr ⟨rfl, long⟩
      simp only [ok_bind, bind_apply, failed, lift_error, error_bind]
      rfl
  | noNumber found none =>
      rw [receiveChunks, nextLength_chunked chunked, getChunkedPayloadSize, bind_apply, bind_apply,
        waitLine_found found]
      simp only [ok_bind, bind_apply, none, lift_ok, pure_apply]
      exact ⟨res, rfl, received⟩
  | last found size nonpos =>
      rw [receiveChunks, bind_apply, nextLength_found chunked found size, ok_bind]
      dsimp only
      rw [if_pos nonpos]
      exact ⟨res, rfl, received⟩
  | @data line rest p n _ found size incomplete not_done =>
      have shorter := nextLine_length found
      rw [receiveChunks, bind_apply, nextLength_found chunked found size, ok_bind]
      dsimp only
      cases incomplete with
      | empty nonpos => exact absurd rfl (not_done _)
      | complete pos there fits => exact absurd rfl (not_done _)
      | missing short fits =>
          have fueled : rest.length < fuel := by omega
          obtain ⟨res', rest, eq⟩ := receiveChunk_short errors res short fits fueled
          rw [if_neg (by omega), bind_apply, eq]
          cases fails with
          | true => exact ⟨res', rfl⟩
          | false => rfl
      | overlong beyond =>
          obtain ⟨fuel, rfl⟩ : ∃ k, fuel = k + 1 := ⟨fuel - 1, by omega⟩
          rw [if_neg (by omega), bind_apply, receiveChunk_overlong errors res beyond]
          rfl
  | @endCut line rest p n found size pos there fits cut =>
      have shorter := nextLine_length found
      obtain ⟨fuel, rfl⟩ : ∃ k, fuel = k + 1 := ⟨fuel - 1, by omega⟩
      have fueled : n.toNat < fuel + 1 := by omega
      obtain ⟨pieces, whole, small, eq⟩ := receiveChunk_found errors res there fits fueled
      rw [receiveChunks, bind_apply, nextLength_found chunked found size, ok_bind]
      dsimp only
      rw [if_neg (by omega), bind_apply, eq, ok_bind]
      dsimp only
      rw [if_neg chunked, bind_apply, waitLine_cut cut]
      cases fails with
      | true =>
          have nothing : Cut cfg.ringbufferSize [] := ⟨rfl, cfg.ringbufferSize_pos⟩
          have still : { res with pieces := res.pieces ++ pieces }.isChunked ≠ 0 := chunked
          exact ⟨_, receiveChunks_cut errors still nothing, received.append whole small⟩
      | false => rfl
  | @endOverlong line rest p n found size pos there fits beyond =>
      have shorter := nextLine_length found
      have fueled : n.toNat < fuel := by omega
      obtain ⟨pieces, whole, small, eq⟩ := receiveChunk_found errors res there fits fueled
      rw [receiveChunks, bind_apply, nextLength_found chunked found size, ok_bind]
      dsimp only
      rw [if_neg (by omega), bind_apply, eq, ok_bind]
      dsimp only
      rw [if_neg chunked, bind_apply, waitLine_overlong beyond]
      rfl

theorem receivePayload_ends {outcome : Outcome} (fresh : res.pieces = [])
    (ends : PayloadEnds cfg limit res stream outcome) (enough : stream.length + 1 < fuel) :
    outcome.Gives cfg fails
      (result (receivePayload cfg (streamSource fails limit) accept fuel res stream)) := by
  cases ends with
  | sized sized ends => exact receiveChunks_sized 0 sized fresh ends enough
  | @chunked chunks rest _ chunked taken ends =>
      have steps : Steps (chunk cfg limit) stream chunks rest := by
        have all : Steps (chunk cfg limit) stream _ _ := (takeAll_steps chunk_smaller stream).1
        rwa [taken] at all
      have enough' : stream.length < fuel := by omega
      obtain ⟨fuel', pieces, fueled, whole, small, eq⟩ :=
        receiveChunks_steps chunked 0 steps enough'
      have start : Received cfg res [] := .nil fresh
      rw [receivePayload, eq]
      exact receiveChunks_end 0 chunked (start.append whole small) ends fueled

/-- What `default_http_client_do` makes of the answer of its last step. -/
theorem Outcome.Gives.close {outcome : Outcome} {x : Except Fault ((Int × Response) × Bytes)}
    (gives : outcome.Gives cfg fails (result x)) :
    outcome.Gives cfg fails (result (x.bind fun r =>
      (if r.1.1 < 0 then pure (-1, r.1.2) else pure (0, r.1.2) : Prog Bytes (Int × Response))
        r.2)) := by
  have same : ∀ ret : Int, (ret = 0 ∨ ret = -1) → ∀ res, result x = .ok (ret, res) →
      result (x.bind fun r =>
        (if r.1.1 < 0 then pure (-1, r.1.2)
          else pure (0, r.1.2) : Prog Bytes (Int × Response)) r.2) =
        .ok (ret, res) := by
    intro ret code res eq
    rcases x with e | ⟨⟨ret', res'⟩, s⟩
    · cases eq
    · cases eq
      rcases code with rfl | rfl <;> rfl
  have fault : ∀ e, result x = .error e → x = .error e := by
    intro e eq
    cases x with
    | error f =>
        cases eq
        rfl
    | ok r => cases eq
  cases outcome with
  | overflow =>
      rw [fault _ gives]
      rfl
  | refused =>
      obtain ⟨res, eq⟩ := gives
      exact ⟨res, same _ (.inr rfl) res eq⟩
  | missing =>
      cases fails with
      | true =>
          obtain ⟨res, eq⟩ := gives
          exact ⟨res, same _ (.inr rfl) res eq⟩
      | false =>
          rw [fault _ gives]
          rfl
  | unnoticed body =>
      cases fails with
      | true =>
          obtain ⟨res, eq, received⟩ := gives
          exact ⟨res, same _ (.inl rfl) res eq, received⟩
      | false =>
          rw [fault _ gives]
          rfl
  | done body =>
      obtain ⟨res, eq, received⟩ := gives
      exact ⟨res, same _ (.inl rfl) res eq, received⟩

theorem receive_headersEnd {outcome : Outcome} (fresh : res.pieces = [])
    (ends : HeadersEnd cfg limit res stream outcome) (enough : stream.length < fuel)
    (enough' : stream.length + 1 < fuel') :
    outcome.Gives cfg fails (result
      ((receiveHeaders cfg (streamSource fails limit) fuel res >>= fun r =>
        if r.1 < 0 then pure (-1, r.2)
        else receivePayload cfg (streamSource fails limit) accept fuel' r.2 >>= fun r =>
          if r.1 < 0 then pure (-1, r.2) else pure (0, r.2)) stream)) := by
  obtain ⟨fuel, rfl⟩ : ∃ k, fuel = k + 1 := ⟨fuel - 1, by omega⟩
  have nothing : Cut cfg.ringbufferSize [] := ⟨rfl, cfg.ringbufferSize_pos⟩
  have enough_rest : ([] : Bytes).length + 1 < fuel' := by
    rw [List.length_nil]
    omega
  rw [bind_apply]
  cases ends with
  | cutUnnoticed cut nothing_more =>
      rw [receiveHeaders_cut res cut]
      cases fails with
      | false => rfl
      | true =>
          have read : Outcome.Gives cfg true (result (receivePayload cfg (streamSource true limit)
              accept fuel' res [])) (.unnoticed []) := by
            by_cases chunked : res.isChunked = 0
            · have nonpos := nothing_more.resolve_left (not_not.mpr chunked)
              have ends : PayloadEnds cfg limit res [] (.done []) := .sized chunked (.empty nonpos)
              have gives : Outcome.Gives cfg true _ _ := receivePayload_ends fresh ends enough_rest
              exact gives
            · exact receivePayload_ends fresh (.chunked chunked rfl (.sizeCut nothing)) enough_rest
          rw [if_pos rfl, ok_bind]
          dsimp only
          rw [if_neg (by decide), bind_apply]
          exact read.close
  | cutMissing cut sized pos =>
      rw [receiveHeaders_cut res cut]
      cases fails with
      | false => rfl
      | true =>
          have short : ([] : Bytes).length < (toInt32 res.recvContentLength).toNat := by
            rw [List.length_nil]
            omega
          have missing : SizedEnds cfg limit (toInt32 res.recvContentLength) [] .missing :=
            .missing short (by simp)
          rw [if_pos rfl, ok_bind]
          dsimp only
          rw [if_neg (by decide), bind_apply]
          exact (receivePayload_ends fresh (.sized sized missing) enough_rest).close
  | overlong beyond =>
      rw [receiveHeaders_overlong res beyond]
      rfl
  | fieldOverlong found nonblank long =>
      rw [receiveHeaders_long res found nonblank long]
      rfl
  | refused found nonblank bad short =>
      rw [receiveHeaders_bad res found nonblank bad short]
      exact ⟨res, rfl⟩
  | blank found blank ends =>
      have shorter := nextLine_length found
      rw [receiveHeaders_blank res found blank, ok_bind]
      dsimp only
      rw [if_neg (by decide), bind_apply]
      exact (receivePayload_ends fresh ends (by omega)).close

theorem setHeaders_pieces (headers : List (Bytes × Bytes)) (res : Response) :
    (res.setHeaders headers).pieces = res.pieces := by
  induction headers generalizing res with
  | nil => rfl
  | cons h headers ih =>
      have first : (res.setHeader h.1 h.2).pieces = res.pieces := by
        unfold Response.setHeader
        split
        · rfl
        · split
          · split <;> rfl
          · rfl
      exact (ih _).trans first

/-- What `receive_response` makes of the status line. -/
theorem receiveResponse_line {line : Bytes}
    (status : waitStatus cfg (streamSource fails limit) fuel stream = .ok (some line, rest)) :
    receiveResponse cfg (streamSource fails limit) fuel res stream =
      (statusCode line).bind fun code =>
        .ok (match code with | none => (-1, res) | some (code, _) => (0, res.setCode code),
          rest) := by
  have clear : (streamSource fails limit).clear stream = .ok ((), stream) := rfl
  rw [receiveResponse, bind_apply, clear, ok_bind, bind_apply, status, ok_bind, statusCode]
  dsimp only
  cases strstr versionText (cstr (line.take (line.length - 2))) with
  | none => rfl
  | some p =>
      dsimp only
      rcases copyTillToInt (p.drop 9) okText with e | code
      · rfl
      · cases code <;> rfl

/-- The outcome decides what the client returns. -/
theorem receive_leaves {outcome : Outcome} (leaves : Leaves cfg limit stream outcome)
    (enough : stream.length + 1 < fuel) :
    outcome.Gives cfg fails
      (result (receive cfg (streamSource fails limit) accept fuel .init stream)) := by
  have steps : Steps (shortLine cfg) stream _ _ := (takeAll_steps shortLine_smaller stream).1
  have shorter := steps.length_le shortLine_smaller
  obtain ⟨fuel', enough', eq⟩ : ∃ fuel', _ ∧
      waitStatus cfg (streamSource fails limit) fuel stream = _ :=
    waitStatus_steps steps (by omega)
  obtain ⟨fuel', rfl⟩ : ∃ k, fuel' = k + 1 := ⟨fuel' - 1, by omega⟩
  unfold Leaves at leaves
  generalize (takeAll (shortLine cfg) stream).2 = stream' at *
  have clear : (streamSource fails limit).clear stream = .ok ((), stream) := rfl
  rw [receive, bind_apply, clear, ok_bind, bind_apply]
  dsimp only
  cases leaves with
  | cut cut =>
      rw [waitStatus_cut cut] at eq
      rw [receiveResponse, bind_apply, clear, ok_bind, bind_apply, eq]
      cases fails with
      | true => exact ⟨_, rfl⟩
      | false => rfl
  | overlong beyond =>
      rw [waitStatus_overlong beyond] at eq
      rw [receiveResponse, bind_apply, clear, ok_bind, bind_apply, eq]
      rfl
  | codeOverlong found long beyond =>
      rw [waitStatus_found found long] at eq
      rw [receiveResponse_line eq, statusCode_error_iff.mpr ⟨rfl, beyond⟩]
      rfl
  | refused found long none =>
      rw [waitStatus_found found long] at eq
      rw [receiveResponse_line eq, none]
      exact ⟨_, rfl⟩
  | @accepted line rest p code headers after _ found long accepted taken ends =>
      have shorter' := nextLine_length found
      have steps' : Steps (header cfg) rest headers after := by
        have all : Steps (header cfg) rest _ _ := (takeAll_steps header_smaller rest).1
        rwa [taken] at all
      have shorter'' := steps'.length_le header_smaller
      rw [waitStatus_found found long] at eq
      rw [receiveResponse_line eq, accepted, ok_bind, ok_bind]
      dsimp only
      rw [if_neg (by decide), bind_apply]
      obtain ⟨fuel'', enough'', eq'⟩ : ∃ fuel'', _ ∧
          receiveHeaders cfg (streamSource fails limit) fuel
          { Response.init.setCode code with isChunked := 0 } rest = _ :=
        receiveHeaders_steps _ steps' (by omega)
      rw [eq']
      have fresh : (Response.opened code headers).pieces = [] := setHeaders_pieces headers _
      exact receive_headersEnd fresh ends enough'' (by omega)

end Result

/-! ### Handlers -/

section Handler

variable (cfg : Config) (fails : Bool) (limit : Nat) (handler : List Bytes → Bytes → Int)

/-- A handler that takes everything, or the client gives up. -/
theorem receiveChunk_handler (fuel chunkLen errors : Nat) (res : Response) (stream : Bytes) :
    receiveChunk cfg (streamSource fails limit) handler fuel chunkLen errors res stream =
        receiveChunk cfg (streamSource fails limit) accept fuel chunkLen errors res stream ∨
      (∃ pieces piece, handler pieces piece < 0) ∧ ∃ res' rest,
        receiveChunk cfg (streamSource fails limit) handler fuel chunkLen errors res stream =
          .ok ((none, res'), rest) := by
  induction fuel generalizing chunkLen errors res stream with
  | zero => exact .inl rfl
  | succ fuel ih =>
      rw [receiveChunk, receiveChunk]
      by_cases done : chunkLen = 0
      · rw [if_pos done, if_pos done]
        exact .inl rfl
      rw [if_neg done, if_neg done]
      dsimp only
      rw [bind_apply, bind_apply]
      rcases (streamSource fails limit).getPiece (min chunkLen cfg.chunkSize) errors stream with
        e | ⟨piece, rest⟩
      · rw [error_bind, error_bind]
        exact .inl rfl
      rw [ok_bind, ok_bind]
      cases piece with
      | none =>
          dsimp only
          exact .inl rfl
      | some piece =>
          obtain ⟨piece, errors⟩ := piece
          dsimp only
          rw [if_neg (show ¬ accept res.pieces piece < 0 from Int.lt_irrefl 0)]
          by_cases refuses : handler res.pieces piece < 0
          · rw [if_pos refuses]
            exact .inr ⟨⟨_, _, refuses⟩, _, _, rfl⟩
          · rw [if_neg refuses]
            exact ih _ _ _ _

theorem receiveChunks_handler (fuel errors : Nat) (res : Response) (stream : Bytes) :
    receiveChunks cfg (streamSource fails limit) handler fuel errors res stream =
        receiveChunks cfg (streamSource fails limit) accept fuel errors res stream ∨
      (∃ pieces piece, handler pieces piece < 0) ∧ ∃ res' rest,
        receiveChunks cfg (streamSource fails limit) handler fuel errors res stream =
          .ok ((-1, res'), rest) := by
  induction fuel generalizing errors res stream with
  | zero => exact .inl rfl
  | succ fuel ih =>
      rw [receiveChunks, receiveChunks, bind_apply, bind_apply]
      rcases nextLength cfg (streamSource fails limit) res stream with e | ⟨chunkLen, rest⟩
      · rw [error_bind, error_bind]
        exact .inl rfl
      rw [ok_bind, ok_bind]
      dsimp only
      by_cases nonpos : chunkLen ≤ 0
      · rw [if_pos nonpos, if_pos nonpos]
        exact .inl rfl
      rw [if_neg nonpos, if_neg nonpos, bind_apply, bind_apply]
      rcases receiveChunk_handler cfg fails limit handler fuel chunkLen.toNat errors res rest with
        same | ⟨refuses, res', rest', gives⟩
      · rw [same]
        rcases receiveChunk cfg (streamSource fails limit) accept fuel chunkLen.toNat errors
          res rest with
          e | ⟨⟨errors, res⟩, rest⟩
        · rw [error_bind, error_bind]
          exact .inl rfl
        rw [ok_bind, ok_bind]
        cases errors with
        | none =>
            dsimp only
            exact .inl rfl
        | some errors =>
            dsimp only
            by_cases sized : res.isChunked = 0
            · rw [if_pos sized, if_pos sized]
              exact .inl rfl
            rw [if_neg sized, if_neg sized, bind_apply, bind_apply]
            rcases (streamSource fails limit).waitLine cfg.chunkSize rest with e | ⟨line, rest⟩
            · rw [error_bind, error_bind]
              exact .inl rfl
            · exact ih _ _ _
      · rw [gives]
        exact .inr ⟨refuses, _, _, rfl⟩

/-- Only a handler that refuses a piece makes a difference: the client returns an error. -/
theorem receive_handler (fuel : Nat) (res : Response) (stream : Bytes) :
    result (receive cfg (streamSource fails limit) handler fuel res stream) =
        result (receive cfg (streamSource fails limit) accept fuel res stream) ∨
      (∃ pieces piece, handler pieces piece < 0) ∧ ∃ res',
        result (receive cfg (streamSource fails limit) handler fuel res stream) =
          .ok (-1, res') := by
  have clear : (streamSource fails limit).clear stream = .ok ((), stream) := rfl
  rw [receive, receive, bind_apply, bind_apply, clear, ok_bind, ok_bind, bind_apply, bind_apply]
  rcases receiveResponse cfg (streamSource fails limit) fuel res stream with e | ⟨⟨ret, res⟩, rest⟩
  · rw [error_bind, error_bind]
    exact .inl rfl
  rw [ok_bind, ok_bind]
  dsimp only
  by_cases refused : ret < 0
  · rw [if_pos refused, if_pos refused]
    exact .inl rfl
  rw [if_neg refused, if_neg refused, bind_apply, bind_apply]
  rcases receiveHeaders cfg (streamSource fails limit) fuel { res with isChunked := 0 } rest with
    e | ⟨⟨ret, res⟩, rest⟩
  · rw [error_bind, error_bind]
    exact .inl rfl
  rw [ok_bind, ok_bind]
  dsimp only
  by_cases refused : ret < 0
  · rw [if_pos refused, if_pos refused]
    exact .inl rfl
  rw [if_neg refused, if_neg refused, bind_apply, bind_apply, receivePayload, receivePayload]
  rcases receiveChunks_handler cfg fails limit handler fuel 0 res rest with
    same | ⟨refuses, res', rest', gives⟩
  · rw [same]
    exact .inl rfl
  · rw [gives]
    exact .inr ⟨refuses, _, rfl⟩

end Handler

end AcnSdk.Http
