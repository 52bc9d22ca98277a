/-
The client on the socket does what it does on the stream.

* `receive_sim` — receiving over two sources that offer the same lines and pieces gives
  the same response.
* `receive_stream` — the source of the program and the stream of bytes are two such
  sources, on every network that returns no more bytes than fit; on any other one
  (`receive_stream_or_overflow`) there may be an overflow first, though only
  (`receive_stream_or_overlong`) if a piece of the stream is too long.
-/

import AcnSdk.Http.Stream

namespace AcnSdk.Http

open AcnSdk.Lib AcnSdk.Data AcnSdk.Arrow Prog

/-! ### Two sources -/

section Generic

variable {σ τ : Type}

/-- Two sources that offer the same. `start` relates the states before the queue is
cleared, `related` those from then on. -/
structure SourceSim (escape : Fault → Prop) (cfg : Config) (start related : σ → τ → Prop)
    (x : Source σ) (y : Source τ) : Prop where
  waitLine : ∀ size, 0 < size →
    Sim escape related (x.waitLine size) (y.waitLine size) fun _ => related
  getPiece : ∀ needToRead errors, needToRead ≤ cfg.chunkSize →
    Sim escape related (x.getPiece needToRead errors) (y.getPiece needToRead errors)
      fun b s t => b.isSome = true → related s t
  begin : Sim escape start x.clear y.clear fun _ s t => start s t ∧ related s t
  clear : Sim escape related x.clear y.clear fun _ _ _ => True

variable {escape : Fault → Prop} {cfg : Config} {start related : σ → τ → Prop} {x : Source σ}
  {y : Source τ} (sim : SourceSim escape cfg start related x y)

include sim

theorem waitStatus_sim (fuel : Nat) :
    Sim escape related (waitStatus cfg x fuel) (waitStatus cfg y fuel) fun _ => related := by
  induction fuel with
  | zero => exact .throw _
  | succ fuel ih =>
      refine .bind (sim.waitLine _ cfg.ringbufferSize_pos) fun line => ?_
      cases line with
      | none => exact .pure fun _ _ h => h
      | some line =>
          dsimp only
          split
          · exact ih
          · exact .pure fun _ _ h => h

theorem receiveResponse_sim (fuel : Nat) (res : Response) :
    Sim escape start (receiveResponse cfg x fuel res) (receiveResponse cfg y fuel res)
      fun _ => related := by
  refine .bind sim.begin fun _ => ?_
  refine .bind ((waitStatus_sim sim fuel).weaken (fun _ _ h => h.2) fun _ _ _ h => h) fun line => ?_
  cases line with
  | none => exact .pure fun _ _ h => h
  | some line =>
      dsimp only
      split
      · exact .pure fun _ _ h => h
      · refine .bind (.lift _ fun _ _ _ h => h) fun code => ?_
        cases code with
        | none => exact .pure fun _ _ h => h
        | some code => exact .pure fun _ _ h => h

theorem receiveHeaders_sim (fuel : Nat) (res : Response) :
    Sim escape related (receiveHeaders cfg x fuel res) (receiveHeaders cfg y fuel res)
      fun _ => related := by
  induction fuel generalizing res with
  | zero => exact .throw _
  | succ fuel ih =>
      refine .bind (sim.waitLine _ cfg.ringbufferSize_pos) fun line => ?_
      cases line with
      | none => exact .pure fun _ _ h => h
      | some line =>
          dsimp only
          split
          · exact .pure fun _ _ h => h
          refine .bind (.lift _ fun _ _ _ h => h) fun key => ?_
          cases key with
          | none => exact .pure fun _ _ h => h
          | some key =>
              refine .bind (.lift _ fun _ _ _ h => h) fun value => ?_
              cases value with
              | none => exact .pure fun _ _ h => h
              | some value => exact ih _

theorem getChunkedPayloadSize_sim :
    Sim escape related (getChunkedPayloadSize cfg x) (getChunkedPayloadSize cfg y)
      fun _ => related := by
  refine .bind (sim.waitLine _ cfg.ringbufferSize_pos) fun line => ?_
  cases line with
  | none => exact .pure fun _ _ h => h
  | some line =>
      refine .bind (.lift _ fun _ _ _ h => h) fun size => ?_
      cases size with
      | none => exact .pure fun _ _ h => h
      | some size => exact .pure fun _ _ h => h

theorem nextLength_sim (res : Response) :
    Sim escape related (nextLength cfg x res) (nextLength cfg y res) fun _ => related := by
  unfold nextLength
  split
  · exact getChunkedPayloadSize_sim sim
  · exact .pure fun _ _ h => h

variable (handler : List Bytes → Bytes → Int)

theorem receiveChunk_sim (fuel chunkLen errors : Nat) (res : Response) :
    Sim escape related (receiveChunk cfg x handler fuel chunkLen errors res)
      (receiveChunk cfg y handler fuel chunkLen errors res)
      fun b s t => b.1.isSome = true → related s t := by
  induction fuel generalizing chunkLen errors res with
  | zero => exact .throw _
  | succ fuel ih =>
      rw [receiveChunk, receiveChunk]
      split
      · exact .pure fun _ _ h _ => h
      refine .bind (sim.getPiece _ _ (Nat.min_le_right _ _)) fun piece => ?_
      cases piece with
      | none => exact .pure fun _ _ _ some => by cases some
      | some piece =>
          dsimp only
          split
          · refine .bind (sim.clear.weaken (fun _ _ h => h rfl) fun _ _ _ h => h) fun _ => ?_
            exact .pure fun _ _ _ some => by cases some
          · exact (ih _ _ _).weaken (fun _ _ h => h rfl) fun _ _ _ h => h

theorem receiveChunks_sim (fuel errors : Nat) (res : Response) :
    Sim escape related (receiveChunks cfg x handler fuel errors res)
      (receiveChunks cfg y handler fuel errors res) fun _ _ _ => True := by
  induction fuel generalizing errors res with
  | zero => exact .throw _
  | succ fuel ih =>
      rw [receiveChunks, receiveChunks]
      refine .bind (nextLength_sim sim res) fun chunkLen => ?_
      split
      · exact .pure fun _ _ _ => trivial
      refine .bind (receiveChunk_sim sim handler fuel _ errors res) ?_
      rintro ⟨errors, res⟩
      cases errors with
      | none => exact .pure fun _ _ _ => trivial
      | some errors =>
          dsimp only
          split
          · exact .pure fun _ _ _ => trivial
          have line := sim.waitLine _ cfg.chunkSize_pos
          exact .bind (line.weaken (fun _ _ h => h rfl) fun _ _ _ h => h) fun _ => ih errors res

/-- Receiving over two sources that offer the same. -/
theorem receive_sim (fuel : Nat) (res : Response) :
    Sim escape start (receive cfg x handler fuel res) (receive cfg y handler fuel res)
      fun _ _ _ => True := by
  refine .bind sim.begin fun _ => ?_
  refine .bind ((receiveResponse_sim sim fuel res).weaken (fun _ _ h => h.1) fun _ _ _ h => h) ?_
  rintro ⟨ret, res⟩
  dsimp only
  split
  · exact .pure fun _ _ _ => trivial
  refine .bind (receiveHeaders_sim sim fuel _) ?_
  rintro ⟨ret, res⟩
  dsimp only
  split
  · exact .pure fun _ _ _ => trivial
  refine .bind (receiveChunks_sim sim handler fuel 0 res) ?_
  rintro ⟨ret, res⟩
  dsimp only
  split
  · exact .pure fun _ _ _ => trivial
  · exact .pure fun _ _ _ => trivial

end Generic

/-! ### The socket and the stream -/

section Client

variable {cfg : Config} {fails slow : Bool} {amount : Nat → Nat → Nat} {fuel : Nat}

/-- Before the queue is cleared: the whole stream is on its way. -/
structure Arriving (cfg : Config) (fails : Bool) (amount : Nat → Nat → Nat) (s : Session)
    (stream : Bytes) : Prop where
  queue : ∃ q, Holds s.queue q
  pending : s.net.pending = stream
  total_eq : s.queue.total = cfg.ringbufferSize
  ending : s.net.ending < 0 ↔ fails = true
  amount_eq : s.net.amount = amount

/-- Enough fuel for what is unread. -/
def Fueled (fuel : Nat) (related : Session → Bytes → Prop) (s : Session) (stream : Bytes) : Prop :=
  related s stream ∧ 2 * stream.length + 6 ≤ fuel

theorem clear_arriving (slow : Bool) {s : Session} {stream : Bytes}
    (arriving : Arriving cfg fails amount s stream) :
    ∃ s', onQueue ringbufClear s = .ok ((), s') ∧ Arriving cfg fails amount s' stream ∧
      Unread cfg fails slow amount s' stream := by
  obtain ⟨⟨q, holds⟩, pending, total, ending, amounts⟩ := arriving
  obtain ⟨queue, cleared, total', holds'⟩ := holds.clear
  refine ⟨⟨queue, s.net⟩, by simp only [onQueue, cleared, ok_bind], ?_, ?_⟩
  · exact ⟨⟨[], holds'⟩, pending, total'.trans total, ending, amounts⟩
  · exact ⟨⟨[], holds', pending, fun _ => rfl⟩, total'.trans total, ending, amounts⟩

theorem clear_unread {s : Session} {stream : Bytes}
    (unread : Unread cfg fails slow amount s stream) :
    ∃ s', onQueue ringbufClear s = .ok ((), s') := by
  obtain ⟨⟨q, holds, -, -⟩, -⟩ := unread
  obtain ⟨queue, cleared, -, -⟩ := holds.clear
  exact ⟨⟨queue, s.net⟩, by simp only [onQueue, cleared, ok_bind]⟩

theorem client_waitLine {escape : Fault → Prop} {limit size : Nat}
    (one : slow = true → ∀ i, amount i lineChunk = 1) (pos : 0 < size) :
    Sim escape (Fueled fuel (Unread cfg fails slow amount)) ((clientSource cfg fuel).waitLine size)
      ((streamSource fails limit).waitLine size) fun _ =>
        Fueled fuel (Unread cfg fails slow amount) := by
  rintro s stream ⟨unread, enough⟩
  have ends : Ends escape _ (waitLineFrom cfg size size fuel [] s) _ :=
    waitLineFrom_ends cfg size fuel one escape limit unread pos rfl (by omega)
  refine ends.weaken ?_
  rintro b s' rest ⟨unread', le⟩
  exact ⟨unread', by omega⟩

theorem client_begin {escape : Fault → Prop} {limit : Nat} :
    Sim escape (Fueled fuel (Arriving cfg fails amount)) (clientSource cfg fuel).clear
      (streamSource fails limit).clear fun _ s t =>
        Fueled fuel (Arriving cfg fails amount) s t ∧
        Fueled fuel (Unread cfg fails slow amount) s t := by
  rintro s stream ⟨arriving, enough⟩
  obtain ⟨s', cleared, arriving', unread'⟩ := clear_arriving slow arriving
  simp only [clientSource, cleared]
  exact .ok ⟨⟨arriving', enough⟩, unread', enough⟩

theorem client_clear {escape : Fault → Prop} {limit : Nat} :
    Sim escape (Fueled fuel (Unread cfg fails slow amount)) (clientSource cfg fuel).clear
      (streamSource fails limit).clear fun _ _ _ => True := by
  rintro s stream ⟨unread, enough⟩
  obtain ⟨s', cleared⟩ := clear_unread unread
  simp only [clientSource, cleared]
  exact .ok trivial

/-- The source of the program offers the lines and pieces of the stream, if it does so for
the pieces. -/
theorem client_sim (slow : Bool) (amount : Nat → Nat → Nat) {escape : Fault → Prop} {limit : Nat}
    (one : slow = true → ∀ i, amount i lineChunk = 1)
    (pieces : ∀ needToRead errors, needToRead ≤ cfg.chunkSize → ∀ s stream,
      Unread cfg fails slow amount s stream → stream.length + 6 ≤ fuel →
      Ends escape (fun b s' rest => b.isSome = true →
          Unread cfg fails slow amount s' rest ∧ rest.length ≤ stream.length)
        (getPiece cfg fuel needToRead errors s)
        ((streamSource fails limit).getPiece needToRead errors stream)) :
    SourceSim escape cfg (Fueled fuel (Arriving cfg fails amount))
      (Fueled fuel (Unread cfg fails slow amount)) (clientSource cfg fuel)
      (streamSource fails limit) where
  waitLine size pos := client_waitLine one pos
  getPiece needToRead errors le := by
    rintro s stream ⟨unread, enough⟩
    refine (pieces needToRead errors le s stream unread (by omega)).weaken ?_
    intro b s' rest related some
    obtain ⟨unread', shorter⟩ := related some
    exact ⟨unread', by omega⟩
  begin := client_begin
  clear := client_clear

/-- The other way round: the stream offers the lines and pieces of the program, up to the first
piece that is too long for the buffer of `client_recv`. -/
theorem stream_sim (amount : Nat → Nat → Nat) :
    SourceSim (· = .overflow) cfg (fun stream s => Fueled fuel (Arriving cfg fails amount) s stream)
      (fun stream s => Fueled fuel (Unread cfg fails false amount) s stream)
      (streamSource fails cfg.scratch) (clientSource cfg fuel) where
  waitLine size pos := fun stream s related =>
    (client_waitLine (by simp) pos s stream related).flip _
  getPiece needToRead errors le := by
    rintro stream s ⟨unread, enough⟩
    by_cases beyond : cfg.scratch < min needToRead stream.length
    · simp only [streamSource, if_pos beyond]
      apply Ends.early
      rfl
    · have ends : Ends (fun _ => False) _ (getPiece cfg fuel needToRead errors s)
          ((streamSource fails cfg.scratch).getPiece needToRead errors stream) :=
        getPiece_polite cfg errors fuel unread le (.inr (.inr (Nat.not_lt.mp beyond)))
          beyond (by omega)
      refine (ends.flip _).weaken ?_
      intro b rest s' related some
      obtain ⟨unread', shorter⟩ := related some
      exact ⟨unread', by omega⟩
  begin := fun stream s related => (client_begin s stream related).flip _
  clear := fun stream s related => (client_clear s stream related).flip _

variable (handler : List Bytes → Bytes → Int) (res : Response) {s : Session} {stream : Bytes}

/-- However the stream is segmented, the client receives what it would receive from the
stream, or a call returns more bytes than fit. -/
theorem receive_stream_or_overflow (arriving : Arriving cfg fails amount s stream)
    (enough : 2 * stream.length + 6 ≤ fuel) :
    result (receive cfg (clientSource cfg fuel) handler fuel res s) = .error .overflow ∨
      result (receive cfg (clientSource cfg fuel) handler fuel res s) =
        result (receive cfg (streamSource fails cfg.chunkSize) handler fuel res stream) := by
  have sim : SourceSim (· = .overflow) cfg _ _ (clientSource cfg fuel)
      (streamSource fails cfg.chunkSize) :=
    client_sim false amount (by simp) fun needToRead errors le s stream unread enough =>
      getPiece_polite cfg errors fuel unread le (.inl rfl) (by omega) (by omega)
  rcases (receive_sim sim handler fuel res s stream ⟨arriving, enough⟩).result_eq with
    ⟨e, rfl, beyond⟩ | same
  · exact .inl beyond
  · exact .inr same

/-- However the stream is segmented, the client receives what it would receive from the
stream, or a piece of the stream is too long. -/
theorem receive_stream_or_overlong (arriving : Arriving cfg fails amount s stream)
    (enough : 2 * stream.length + 6 ≤ fuel) :
    result (receive cfg (streamSource fails cfg.scratch) handler fuel res stream) =
      .error .overflow ∨
      result (receive cfg (streamSource fails cfg.scratch) handler fuel res stream) =
        result (receive cfg (clientSource cfg fuel) handler fuel res s) := by
  have sim : SourceSim (· = .overflow) cfg _ _ (streamSource fails cfg.scratch)
      (clientSource cfg fuel) := stream_sim amount
  rcases (receive_sim sim handler fuel res stream s ⟨arriving, enough⟩).result_eq with
    ⟨e, rfl, beyond⟩ | same
  · exact .inl beyond
  · exact .inr same

/-- If no call returns more bytes than fit, the client receives what it would receive from
the stream. -/
theorem receive_stream (polite : ∀ i len, len ≤ cfg.chunkSize →
      min len (max 1 (amount i len)) ≤ cfg.scratch)
    (arriving : Arriving cfg fails amount s stream) (enough : 2 * stream.length + 6 ≤ fuel) :
    result (receive cfg (clientSource cfg fuel) handler fuel res s) =
      result (receive cfg (streamSource fails cfg.chunkSize) handler fuel res stream) := by
  have sim : SourceSim (fun _ => False) cfg _ _ (clientSource cfg fuel)
      (streamSource fails cfg.chunkSize) :=
    client_sim false amount (by simp) fun needToRead errors le s stream unread enough =>
      getPiece_polite cfg errors fuel unread le
        (.inr (.inl fun i len small => polite i len (Nat.le_trans small le))) (by omega) (by omega)
  rcases (receive_sim sim handler fuel res s stream ⟨arriving, enough⟩).result_eq with
    ⟨e, impossible, -⟩ | same
  · exact impossible.elim
  · exact same

/-- If lines arrive byte by byte and pieces that do not fit at once, the client receives what
it would receive from the stream up to the first such piece. -/
theorem receive_stream_greedy (one : ∀ i, amount i lineChunk = 1)
    (greedy : ∀ i len, cfg.scratch < len → len ≤ amount i len)
    (arriving : Arriving cfg fails amount s stream) (enough : 2 * stream.length + 6 ≤ fuel) :
    result (receive cfg (clientSource cfg fuel) handler fuel res s) =
      result (receive cfg (streamSource fails cfg.scratch) handler fuel res stream) := by
  have sim : SourceSim (fun _ => False) cfg _ _ (clientSource cfg fuel)
      (streamSource fails cfg.scratch) :=
    client_sim true amount (fun _ => one) fun needToRead errors le s stream unread enough =>
      getPiece_greedy cfg errors fuel greedy unread le (by omega)
  rcases (receive_sim sim handler fuel res s stream ⟨arriving, enough⟩).result_eq with
    ⟨e, impossible, -⟩ | same
  · exact impossible.elim
  · exact same

end Client

end AcnSdk.Http
