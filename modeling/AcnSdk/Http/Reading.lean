/-
How the client reads a stream of bytes.

The three loops of the client take lines, headers and chunks off the stream as long as
they find some: `shortLine`, `header` and `chunk` are what one round takes off. The rest of
each loop, and so of the client, is decided where that ends: a line can be there, be cut
off by the end of the stream, or not fit.
-/

import AcnSdk.Http.Refine
import AcnSdk.Lib.Steps

namespace AcnSdk.Http

open AcnSdk.Lib AcnSdk.Data AcnSdk.Arrow Prog

/-! ### Lines -/

/-- The first line, if it fits into `size` bytes with its terminator. -/
def nextLine (size : Nat) (stream : Bytes) : Option (Bytes × Bytes) :=
  (splitLine stream).filter fun p => p.1.length < size

/-- The stream ends before a line does. -/
def Cut (size : Nat) (stream : Bytes) : Prop := splitLine stream = none ∧ stream.length < size

/-- The next line does not fit. -/
def Overlong (size : Nat) (stream : Bytes) : Prop :=
  match splitLine stream with
  | some (line, _) => size ≤ line.length
  | none => size ≤ stream.length

theorem line_cases (size : Nat) (stream : Bytes) :
    (∃ line rest, nextLine size stream = some (line, rest)) ∨ Cut size stream ∨
      Overlong size stream := by
  unfold nextLine Cut Overlong
  cases found : splitLine stream with
  | none =>
      right
      by_cases short : stream.length < size
      · exact .inl ⟨rfl, short⟩
      · exact .inr (Nat.not_lt.mp short)
  | some p =>
      by_cases fits : p.1.length < size
      · exact .inl ⟨p.1, p.2, by simp [fits]⟩
      · exact .inr (.inr (Nat.not_lt.mp fits))

theorem nextLine_eq {size : Nat} {stream line rest : Bytes}
    (found : nextLine size stream = some (line, rest)) :
    splitLine stream = some (line, rest) ∧ line.length < size ∧ stream = line ++ rest ∧
      2 ≤ line.length := by
  unfold nextLine at found
  obtain ⟨split, fits⟩ := Option.filter_eq_some_iff.mp found
  obtain ⟨whole, long⟩ := splitLine_eq split
  exact ⟨split, by simpa using fits, whole, long⟩

theorem nextLine_length {size : Nat} {stream line rest : Bytes}
    (found : nextLine size stream = some (line, rest)) : rest.length + 2 ≤ stream.length := by
  obtain ⟨-, -, whole, long⟩ := nextLine_eq found
  rw [whole, List.length_append]
  omega

section Source

variable {fails : Bool} {limit size : Nat} {stream line rest : Bytes}

theorem waitLine_found (found : nextLine size stream = some (line, rest)) :
    (streamSource fails limit).waitLine size stream = .ok (some line, rest) := by
  obtain ⟨split, fits, -, -⟩ := nextLine_eq found
  simp only [streamSource, split, fits, if_true]

theorem waitLine_cut (cut : Cut size stream) :
    (streamSource fails limit).waitLine size stream =
      if fails then .ok (none, []) else .error .endless := by
  simp only [streamSource, cut.1, cut.2, if_true]

theorem waitLine_overlong (beyond : Overlong size stream) :
    (streamSource fails limit).waitLine size stream = .error .overflow := by
  cases found : splitLine stream with
  | some l =>
      rw [Overlong, found] at beyond
      simp only [streamSource, found]
      exact if_neg (Nat.not_lt.mpr beyond)
  | none =>
      rw [Overlong, found] at beyond
      simp only [streamSource, found]
      exact if_neg (Nat.not_lt.mpr beyond)

end Source

/-! ### What one round takes off -/

section Rounds

variable (cfg : Config)

/-- A line before the status line. -/
def shortLine (stream : Bytes) : Option (Bytes × Bytes) :=
  (nextLine cfg.ringbufferSize stream).filter fun p => p.1.length - 2 < 10

/-- A header line: its key and its value. -/
def header (stream : Bytes) : Option ((Bytes × Bytes) × Bytes) :=
  match nextLine cfg.ringbufferSize stream with
  | none => none
  | some (line, rest) =>
      if line.length - 2 = 0 then none
      else
        match copyTill (cstr line) separator cfg.keySize with
        | .ok (some (key, p)) =>
            match copyTill p crlf cfg.chunkSize with
            | .ok (some (value, _)) => some ((key, value), rest)
            | _ => none
        | _ => none

structure Chunk where
  sizeLine : Bytes
  data : Bytes
  endLine : Bytes
deriving DecidableEq, Repr

/-- A chunk: the line with its size, the data in pieces of at most `limit` bytes, and another
line. -/
def chunk (limit : Nat) (stream : Bytes) : Option (Chunk × Bytes) :=
  match nextLine cfg.ringbufferSize stream with
  | none => none
  | some (line, rest) =>
      match copyTillHexToInt (cstr line) crlf with
      | .ok (some (n, _)) =>
          if 0 < n ∧ n.toNat ≤ rest.length ∧ min n.toNat cfg.chunkSize ≤ limit then
            match nextLine cfg.chunkSize (rest.drop n.toNat) with
            | some (endLine, rest') => some (⟨line, rest.take n.toNat, endLine⟩, rest')
            | none => none
          else none
      | _ => none

variable {cfg}

theorem shortLine_smaller (stream line rest : Bytes)
    (found : shortLine cfg stream = some (line, rest)) :
    rest.length < stream.length := by
  have := nextLine_length (Option.filter_eq_some_iff.mp found).1
  omega

theorem header_eq {stream rest key value : Bytes}
    (found : header cfg stream = some ((key, value), rest)) :
    ∃ line p q, nextLine cfg.ringbufferSize stream = some (line, rest) ∧ line.length - 2 ≠ 0 ∧
      copyTill (cstr line) separator cfg.keySize = .ok (some (key, p)) ∧
      copyTill p crlf cfg.chunkSize = .ok (some (value, q)) := by
  unfold header at found
  split at found
  · cases found
  split at found
  · cases found
  split at found
  · split at found
    · cases found
      exact ⟨_, _, _, ‹_›, ‹_›, ‹_›, ‹_›⟩
    · cases found
  · cases found

theorem header_smaller (stream : Bytes) (h : Bytes × Bytes) (rest : Bytes)
    (found : header cfg stream = some (h, rest)) : rest.length < stream.length := by
  obtain ⟨line, p, q, next, -⟩ := header_eq found
  have := nextLine_length next
  omega

theorem chunk_eq {limit : Nat} {stream rest' : Bytes} {c : Chunk}
    (found : chunk cfg limit stream = some (c, rest')) :
    ∃ (rest p : Bytes) (n : Int), nextLine cfg.ringbufferSize stream = some (c.sizeLine, rest) ∧
      copyTillHexToInt (cstr c.sizeLine) crlf = .ok (some (n, p)) ∧ 0 < n ∧ n.toNat ≤ rest.length ∧
      min n.toNat cfg.chunkSize ≤ limit ∧ c.data = rest.take n.toNat ∧
      nextLine cfg.chunkSize (rest.drop n.toNat) = some (c.endLine, rest') := by
  unfold chunk at found
  split at found
  · cases found
  split at found
  · split at found
    · next size =>
        split at found
        · cases found
          exact ⟨_, _, _, ‹_›, ‹_›, size.1, size.2.1, size.2.2, rfl, ‹_›⟩
        · cases found
    · cases found
  · cases found

theorem chunk_smaller {limit : Nat} (stream : Bytes) (c : Chunk) (rest' : Bytes)
    (found : chunk cfg limit stream = some (c, rest')) : rest'.length < stream.length := by
  obtain ⟨rest, p, n, next, -, -, -, -, -, ends⟩ := chunk_eq found
  have := nextLine_length next
  have := nextLine_length ends
  rw [List.length_drop] at this
  omega

end Rounds

/-! ### The loops -/

section Loops

variable {cfg : Config} {fails : Bool} {limit fuel : Nat} {stream rest : Bytes}

theorem waitStatus_steps {skipped : List Bytes} (steps : Steps (shortLine cfg) stream skipped rest)
    (enough : stream.length < fuel) :
    ∃ fuel', rest.length < fuel' ∧ waitStatus cfg (streamSource fails limit) fuel stream =
      waitStatus cfg (streamSource fails limit) fuel' rest := by
  induction steps generalizing fuel with
  | refl a => exact ⟨fuel, enough, rfl⟩
  | @cons a b c line lines first _ ih =>
      obtain ⟨fuel, rfl⟩ : ∃ k, fuel = k + 1 := ⟨fuel - 1, by omega⟩
      have smaller := shortLine_smaller _ _ _ first
      obtain ⟨found, short⟩ := Option.filter_eq_some_iff.mp first
      have enough_rest : b.length < fuel := by omega
      obtain ⟨fuel', enough', eq⟩ := ih enough_rest
      refine ⟨fuel', enough', Eq.trans ?_ eq⟩
      rw [waitStatus, bind_apply, waitLine_found found, ok_bind]
      exact congrFun (if_pos (by simpa using short)) b

theorem waitStatus_found {line : Bytes}
    (found : nextLine cfg.ringbufferSize stream = some (line, rest))
    (long : ¬ line.length - 2 < 10) :
    waitStatus cfg (streamSource fails limit) (fuel + 1) stream = .ok (some line, rest) := by
  rw [waitStatus, bind_apply, waitLine_found found, ok_bind]
  exact congrFun (if_neg long) rest

theorem waitStatus_cut (cut : Cut cfg.ringbufferSize stream) :
    waitStatus cfg (streamSource fails limit) (fuel + 1) stream =
      if fails then .ok (none, []) else .error .endless := by
  rw [waitStatus, bind_apply, waitLine_cut cut]
  cases fails <;> rfl

theorem waitStatus_overlong (beyond : Overlong cfg.ringbufferSize stream) :
    waitStatus cfg (streamSource fails limit) (fuel + 1) stream = .error .overflow := by
  rw [waitStatus, bind_apply, waitLine_overlong beyond]
  rfl

/-- What the headers say. -/
def Response.setHeaders (res : Response) (headers : List (Bytes × Bytes)) : Response :=
  headers.foldl (fun res h => res.setHeader h.1 h.2) res

theorem receiveHeaders_steps {headers : List (Bytes × Bytes)} (res : Response)
    (steps : Steps (header cfg) stream headers rest) (enough : stream.length < fuel) :
    ∃ fuel', rest.length < fuel' ∧ receiveHeaders cfg (streamSource fails limit) fuel res stream =
      receiveHeaders cfg (streamSource fails limit) fuel' (res.setHeaders headers) rest := by
  induction steps generalizing fuel res with
  | refl a => exact ⟨fuel, enough, rfl⟩
  | @cons a b c h headers first _ ih =>
      obtain ⟨fuel, rfl⟩ : ∃ k, fuel = k + 1 := ⟨fuel - 1, by omega⟩
      have smaller := header_smaller _ _ _ first
      obtain ⟨line, p, q, found, nonblank, key, value⟩ := header_eq first
      have enough_rest : b.length < fuel := by omega
      obtain ⟨fuel', enough', eq⟩ := ih (res.setHeader h.1 h.2) enough_rest
      refine ⟨fuel', enough', Eq.trans ?_ eq⟩
      rw [receiveHeaders, bind_apply, waitLine_found found, ok_bind]
      simp only [nonblank, if_false, bind_apply, key, lift_ok, ok_bind, value]

theorem receiveHeaders_blank {line : Bytes} (res : Response)
    (found : nextLine cfg.ringbufferSize stream = some (line, rest)) (blank : line.length - 2 = 0) :
    receiveHeaders cfg (streamSource fails limit) (fuel + 1) res stream = .ok ((0, res), rest) := by
  rw [receiveHeaders, bind_apply, waitLine_found found, ok_bind]
  simp only [blank, if_true, pure_apply]

theorem receiveHeaders_cut (res : Response) (cut : Cut cfg.ringbufferSize stream) :
    receiveHeaders cfg (streamSource fails limit) (fuel + 1) res stream =
      if fails then .ok ((0, res), []) else .error .endless := by
  rw [receiveHeaders, bind_apply, waitLine_cut cut]
  cases fails <;> rfl

theorem receiveHeaders_overlong (res : Response) (beyond : Overlong cfg.ringbufferSize stream) :
    receiveHeaders cfg (streamSource fails limit) (fuel + 1) res stream = .error .overflow := by
  rw [receiveHeaders, bind_apply, waitLine_overlong beyond]
  rfl

/-- The key or the value of a line does not fit. -/
def LongField (cfg : Config) (line : Bytes) : Prop :=
  LongBefore separator (cstr line) cfg.keySize ∨
    ∃ key p, copyTill (cstr line) separator cfg.keySize = .ok (some (key, p)) ∧
      LongBefore crlf p cfg.chunkSize

theorem receiveHeaders_long {line : Bytes} (res : Response)
    (found : nextLine cfg.ringbufferSize stream = some (line, rest))
    (nonblank : line.length - 2 ≠ 0)
    (long : LongField cfg line) :
    receiveHeaders cfg (streamSource fails limit) (fuel + 1) res stream = .error .overflow := by
  rw [receiveHeaders, bind_apply, waitLine_found found, ok_bind]
  rcases long with key | ⟨key, p, first, second⟩
  · have failed := copyTill_error_iff.mpr ⟨rfl, key⟩
    simp only [nonblank, if_false, bind_apply, failed, lift_error, error_bind]
  · have failed := copyTill_error_iff.mpr ⟨rfl, second⟩
    simp only [nonblank, if_false, bind_apply, first, lift_ok, ok_bind, failed, lift_error,
      error_bind]

/-- A line that is not a header. -/
theorem receiveHeaders_bad {line : Bytes} (res : Response)
    (found : nextLine cfg.ringbufferSize stream = some (line, rest))
    (nonblank : line.length - 2 ≠ 0)
    (bad : header cfg stream = none) (short : ¬ LongField cfg line) :
    receiveHeaders cfg (streamSource fails limit) (fuel + 1) res stream =
      .ok ((-1, res), rest) := by
  unfold header at bad
  rw [found] at bad
  simp only [nonblank, if_false] at bad
  rw [receiveHeaders, bind_apply, waitLine_found found, ok_bind]
  simp only [nonblank, if_false, bind_apply]
  cases key : copyTill (cstr line) separator cfg.keySize with
  | error e => exact absurd (.inl (copyTill_error_iff.mp key).2) short
  | ok k =>
      cases k with
      | none => rfl
      | some k =>
          rw [key] at bad
          dsimp only at bad
          simp only [lift_ok, ok_bind, bind_apply]
          cases value : copyTill k.2 crlf cfg.chunkSize with
          | error e =>
              exact absurd (.inr ⟨k.1, k.2, key, (copyTill_error_iff.mp value).2⟩) short
          | ok v =>
              cases v with
              | none => rfl
              | some v =>
                  rw [value] at bad
                  cases bad

end Loops

/-! ### The payload -/

/-- A handler that takes everything. -/
def accept : List Bytes → Bytes → Int := fun _ _ => 0

section Payload

variable {cfg : Config} {fails : Bool} {limit fuel : Nat} {stream rest : Bytes}

/-- All bytes of a chunk are there. -/
theorem receiveChunk_found {chunkLen : Nat} (errors : Nat) (res : Response)
    (enough : chunkLen ≤ stream.length) (fits : min chunkLen cfg.chunkSize ≤ limit)
    (fueled : chunkLen < fuel) :
    ∃ pieces, pieces.flatten = stream.take chunkLen ∧
    (∀ piece ∈ pieces, piece.length ≤ cfg.chunkSize) ∧
      receiveChunk cfg (streamSource fails limit) accept fuel chunkLen errors res stream =
        .ok ((some errors, { res with pieces := res.pieces ++ pieces }), stream.drop chunkLen) := by
  have pos := cfg.chunkSize_pos
  induction fuel generalizing chunkLen res stream with
  | zero => omega
  | succ fuel ih =>
      rw [receiveChunk]
      by_cases done : chunkLen = 0
      · subst done
        refine ⟨[], by simp, by simp, ?_⟩
        rw [if_pos rfl, List.append_nil, List.drop_zero]
        rfl
      · generalize need_eq : min chunkLen cfg.chunkSize = need at *
        have piece : (streamSource fails limit).getPiece need errors stream =
            .ok (some (stream.take need, errors), stream.drop need) := by
          simp only [streamSource]
          rw [if_neg (by omega), if_pos (by omega)]
        have rest_enough : chunkLen - need ≤ (stream.drop need).length := by
          rw [List.length_drop]
          omega
        obtain ⟨pieces, whole, small, eq⟩ :=
          ih { res with pieces := res.pieces ++ [stream.take need] }
          rest_enough (by omega) (by omega)
        refine ⟨stream.take need :: pieces, ?_, ?_, ?_⟩
        · rw [List.flatten_cons, whole, ← List.take_add,
            show need + (chunkLen - need) = chunkLen by omega]
        · intro p mem
          rcases List.mem_cons.mp mem with rfl | later
          · rw [List.length_take]
            omega
          · exact small p later
        · rw [List.drop_drop, show need + (chunkLen - need) = chunkLen by omega] at eq
          rw [if_neg done, bind_apply, piece, ok_bind]
          simp only [accept, Int.lt_irrefl, if_false]
          simpa [accept] using eq

/-- Bytes of a chunk are missing. -/
theorem receiveChunk_short {chunkLen : Nat} (errors : Nat) (res : Response)
    (short : stream.length < chunkLen)
    (fits : min (min chunkLen cfg.chunkSize) stream.length ≤ limit)
    (fueled : stream.length < fuel) :
    ∃ res' rest, receiveChunk cfg (streamSource fails limit) accept fuel chunkLen errors
      res stream =
      if fails then .ok ((none, res'), rest) else .error .endless := by
  have pos := cfg.chunkSize_pos
  induction fuel generalizing chunkLen res stream with
  | zero => omega
  | succ fuel ih =>
      rw [receiveChunk, if_neg (by omega)]
      generalize need_eq : min chunkLen cfg.chunkSize = need at *
      by_cases missing : stream.length < need
      · have none : (streamSource fails limit).getPiece need errors stream =
            if fails then .ok (none, stream) else .error .endless := by
          simp only [streamSource]
          rw [if_neg (by omega), if_neg (by omega)]
        refine ⟨res, stream, ?_⟩
        rw [bind_apply, none]
        cases fails <;> rfl
      · have piece : (streamSource fails limit).getPiece need errors stream =
            .ok (some (stream.take need, errors), stream.drop need) := by
          simp only [streamSource]
          rw [if_neg (by omega), if_pos (by omega)]
        have length : (stream.drop need).length = stream.length - need := List.length_drop
        have rest_short : (stream.drop need).length < chunkLen - need := by omega
        obtain ⟨res', rest, eq⟩ := ih { res with pieces := res.pieces ++ [stream.take need] }
          rest_short (by omega) (by omega)
        refine ⟨res', rest, ?_⟩
        rw [bind_apply, piece, ok_bind, ← eq]
        simp [accept]

/-- More bytes of a chunk arrive than fit. -/
theorem receiveChunk_overlong {chunkLen : Nat} (errors : Nat) (res : Response)
    (beyond : limit < min (min chunkLen cfg.chunkSize) stream.length) :
    receiveChunk cfg (streamSource fails limit) accept (fuel + 1) chunkLen errors res stream =
      .error .overflow := by
  have piece : (streamSource fails limit).getPiece (min chunkLen cfg.chunkSize) errors stream =
      .error .overflow := by
    simp only [streamSource, if_pos beyond]
  rw [receiveChunk, if_neg (by omega), bind_apply, piece]
  rfl

/-! ### Chunks -/

variable {res : Response} (chunked : res.isChunked ≠ 0)

include chunked

theorem nextLength_chunked : nextLength cfg (streamSource fails limit) res =
    getChunkedPayloadSize cfg (streamSource fails limit) := if_pos chunked

/-- The size of the next chunk is there. -/
theorem nextLength_found {line p : Bytes} {n : Int}
    (found : nextLine cfg.ringbufferSize stream = some (line, rest))
    (size : copyTillHexToInt (cstr line) crlf = .ok (some (n, p))) :
    nextLength cfg (streamSource fails limit) res stream = .ok (n, rest) := by
  rw [nextLength_chunked chunked, getChunkedPayloadSize, bind_apply, waitLine_found found, ok_bind]
  simp only [bind_apply, size, lift_ok, ok_bind, pure_apply]

theorem receiveChunks_steps {chunks : List Chunk} (errors : Nat)
    (steps : Steps (chunk cfg limit) stream chunks rest) (enough : stream.length < fuel) :
    ∃ fuel' pieces, rest.length < fuel' ∧ pieces.flatten = (chunks.map Chunk.data).flatten ∧
      (∀ piece ∈ pieces, piece.length ≤ cfg.chunkSize) ∧
      receiveChunks cfg (streamSource fails limit) accept fuel errors res stream =
        receiveChunks cfg (streamSource fails limit) accept fuel' errors
          { res with pieces := res.pieces ++ pieces } rest := by
  induction steps generalizing fuel res with
  | refl a => exact ⟨fuel, [], enough, rfl, by simp, by simp⟩
  | @cons a b c h chunks first _ ih =>
      obtain ⟨fuel, rfl⟩ : ∃ k, fuel = k + 1 := ⟨fuel - 1, by omega⟩
      have smaller := chunk_smaller _ _ _ first
      obtain ⟨rest', p, n, found, size, pos, there, fits, data, ends⟩ := chunk_eq first
      have longer := nextLine_length found
      have fueled : n.toNat < fuel := by omega
      have enough_rest : b.length < fuel := by omega
      obtain ⟨pieces, whole, small, eq⟩ := receiveChunk_found errors res there fits fueled
      have still : { res with pieces := res.pieces ++ pieces }.isChunked ≠ 0 := chunked
      obtain ⟨fuel', more, enough', whole', small', eq'⟩ := ih still enough_rest
      refine ⟨fuel', pieces ++ more, enough', ?_, ?_, ?_⟩
      · rw [List.flatten_append, whole, whole', ← data, List.map_cons, List.flatten_cons]
      · intro piece mem
        rcases List.mem_append.mp mem with old | new
        · exact small piece old
        · exact small' piece new
      · rw [← List.append_assoc]
        refine Eq.trans ?_ eq'
        rw [receiveChunks, bind_apply, nextLength_found chunked found size, ok_bind]
        dsimp only
        rw [if_neg (by omega), bind_apply, eq, ok_bind]
        dsimp only
        rw [if_neg chunked, bind_apply, waitLine_found ends, ok_bind]

end Payload

end AcnSdk.Http
