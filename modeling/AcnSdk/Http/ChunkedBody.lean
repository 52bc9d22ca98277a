/-
A chunked payload, sent and received.

`send_payload` cuts the payload into chunks of `CHUNK_SIZE` bytes, each behind a line with
its size, and `receive_payload` puts them together. `client_recv` is asked for a whole
chunk but has room for one byte less.

* `sendChunks_eq` — what is sent, chunk by chunk.
* `receivePayload_delivers` — what is received of well-formed chunks that fit.
* `roundTrips_iff` — which payloads come back.
-/

import AcnSdk.Http.Message
import AcnSdk.Http.Safety
import AcnSdk.Http.SendBody
import AcnSdk.Lib.Slices

namespace AcnSdk.Http

open AcnSdk.Lib AcnSdk.Data AcnSdk.Arrow Prog Ascii

/-! ### Size lines -/

theorem upperDigit_spec : ∀ d < 16,
    isDigitOf 16 (upperDigit d) = true ∧ (digitValue (upperDigit d)).getD 0 = d := by
  decide

/-- The digits in front of `acc`: at least as many as told, at most `k` of a number below
`16 ^ k`, and worth the number. -/
theorem upperHexFrom_spec (fuel width n : Nat) (acc : Bytes) (enough : n + width ≤ fuel)
    (pos : 0 < fuel) : ∃ ds, upperHexFrom fuel width n acc = ds ++ acc ∧ ds ≠ [] ∧
      (∀ c ∈ ds, isDigitOf 16 c = true) ∧ numeralValue 16 ds = n ∧
      ∀ k, n < 16 ^ k → width ≤ k → 0 < k → ds.length ≤ k := by
  induction fuel generalizing width n acc with
  | zero => omega
  | succ fuel ih =>
      rw [upperHexFrom]
      by_cases last : n < 16 ∧ width ≤ 1
      · obtain ⟨digit, value⟩ := upperDigit_spec n last.1
        refine ⟨[upperDigit n], by rw [if_pos last]; rfl, List.cons_ne_nil _ _, ?_, ?_, ?_⟩
        · exact List.forall_mem_singleton.mpr digit
        · rw [numeralValue, List.foldl_cons, List.foldl_nil, value, Nat.zero_mul, Nat.zero_add]
        · exact fun k _ _ pos => pos
      · rw [if_neg last]
        obtain ⟨digit, value⟩ := upperDigit_spec (n % 16) (Nat.mod_lt n (by decide))
        obtain ⟨ds, eq, some, digits, worth, length_le⟩ :=
          ih (width - 1) (n / 16) (upperDigit (n % 16) :: acc) (by omega) (by omega)
        refine ⟨ds ++ [upperDigit (n % 16)], ?_, ?_, ?_, ?_, ?_⟩
        · rw [eq, List.append_assoc, List.singleton_append]
        · exact List.append_ne_nil_of_left_ne_nil some _
        · rw [List.forall_mem_append]
          exact ⟨digits, List.forall_mem_singleton.mpr digit⟩
        · rw [numeralValue_append, worth, List.foldl_cons, List.foldl_nil, value]
          omega
        · intro k lt wide pos
          obtain ⟨k, rfl⟩ : ∃ m, k = m + 1 := ⟨k - 1, by omega⟩
          rw [List.length_append, List.length_singleton]
          rw [Nat.pow_succ] at lt
          have shorter := length_le k (by omega) (by omega)
          rcases Nat.eq_zero_or_pos k with rfl | pos
          · rw [pow_zero] at lt
            omega
          · have := shorter pos
            omega

/-- The line with a size below 4096 is one that the client reads, and has room in the buffer. -/
theorem sizeLine_spec {n : Nat} (small : n ≤ 0xFFF) :
    SizeLine (sizeLine n) n ∧ (sizeLine n).length < 6 ∧ 0 ∉ sizeLine n := by
  obtain ⟨ds, eq, some, digits, worth, length_le⟩ :=
    upperHexFrom_spec (n + 2) 2 n crlf (Nat.le_refl _) (by omega)
  have plain := (plain_of_digits (by decide) digits).no_nul
  rw [sizeLine, eq]
  refine ⟨⟨ds, [], by rw [List.append_nil], some, digits, ⟨⟨by simp, by simp, by simp⟩, Or.inl rfl⟩,
    worth⟩, ?_, ?_⟩
  · have ending : crlf.length = 2 := rfl
    have := length_le 3 (by omega) (by decide) (by decide)
    rw [List.length_append, ending]
    omega
  · rw [List.mem_append, not_or]
    exact ⟨plain, by decide⟩

/-! ### Sending -/

/-- A chunk as it is sent. -/
def chunkOf (data : Bytes) : Chunk := ⟨sizeLine data.length, data, crlf⟩

/-- The chunk without data that ends the payload. -/
def lastChunk : Bytes := sizeLine 0 ++ crlf

theorem chunkOf_wellFormed {data : Bytes} (some : data ≠ []) (small : data.length ≤ 0xFFF) :
    (chunkOf data).WellFormed :=
  ⟨(sizeLine_spec small).1, some, rfl⟩

section Sending

variable {cfg : Config} {peer : Peer}

/-- `send` takes every buffer whole. -/
def Peer.Whole (peer : Peer) : Prop := ∀ k len, peer.send k len = len

theorem handOver_whole (whole : peer.Whole) (buf : Bytes) (s : Sender) :
    handOver peer buf s = .ok ((buf.length : Int),
      { s with handed := s.handed ++ [buf], output := s.output ++ buf }) := by
  simp only [handOver, whole s.handed.length buf.length, Int.toNat_natCast, List.take_length]

theorem clientSendDirect_whole (whole : peer.Whole) (s : Sender) {buf : Bytes} {size : Nat}
    (pos : 0 < size) (small : size < 2 ^ 16) (there : size ≤ buf.length) :
    ∃ ret s', clientSendDirect peer buf size s = .ok (ret, s') ∧
      s'.output = s.output ++ buf.take size := by
  have size_eq : size % 2 ^ 16 = size := Nat.mod_eq_of_lt small
  rw [clientSendDirect_eq (by omega) (by omega), size_eq, handOver_whole whole]
  exact ⟨_, _, rfl, rfl⟩

/-- The line with the size of a chunk. -/
theorem sendSize (whole : peer.Whole) {chunk : Nat} (small : chunk ≤ 0xFFF) (s : Sender) :
    ∃ buf ret s', strcpy (List.replicate 6 0) (sizeLine chunk) = .ok buf ∧
      clientSendDirect peer buf (sizeLine chunk).length s = .ok (ret, s') ∧
      s'.output = s.output ++ sizeLine chunk := by
  obtain ⟨size, short, plain⟩ := sizeLine_spec small
  obtain ⟨text, line_eq, -⟩ := size.plain
  have pos : 0 < (sizeLine chunk).length := by
    have ending : crlf.length = 2 := rfl
    rw [line_eq, List.length_append, ending]
    omega
  obtain ⟨buf, copied, -, starts⟩ := strcpy_eq (List.replicate 6 0) plain (by
    rwa [List.length_replicate])
  obtain ⟨ret, s', sent, output⟩ :=
    clientSendDirect_whole whole s pos (by omega) starts.length_lt.le
  rw [starts.take_eq] at output
  exact ⟨buf, ret, s', copied, sent, output⟩

theorem sendCrlf (whole : peer.Whole) (s : Sender) :
    ∃ ret s', clientSendDirect peer (crlf ++ [0]) 2 s = .ok (ret, s') ∧
      s'.output = s.output ++ crlf :=
  clientSendDirect_whole whole s (by decide) (by decide) (by decide)

/-- What is sent from a place in the payload on. -/
theorem sendChunks_eq (whole : peer.Whole) (narrow : cfg.chunkSize ≤ 0xFFF) (fuel : Nat)
    (data : Bytes) (trData len : Nat) (s : Sender) (there : trData + len ≤ data.length)
    (enough : len < fuel) :
    ∃ slices s', Slices cfg.chunkSize ((data.drop trData).take len) slices ∧
      sendChunks cfg peer fuel data trData len s = .ok ((), s') ∧
      s'.output = s.output ++ (((slices.map chunkOf).map Chunk.text).flatten ++ lastChunk) := by
  induction fuel generalizing trData len s with
  | zero => omega
  | succ fuel ih =>
      have nonneg : ¬ (len : Int) < 0 := by omega
      have pos := cfg.chunkSize_pos
      rw [sendChunks, if_neg nonneg, Int.toNat_natCast]
      generalize chunk_eq : min len cfg.chunkSize = chunk
      obtain ⟨buf, ret₁, s₁, copied, sent₁, output₁⟩ :=
        sendSize whole (show chunk ≤ 0xFFF by omega) s
      by_cases done : chunk = 0
      · subst done
        obtain ⟨ret₂, s₂, sent₂, output₂⟩ := sendCrlf whole s₁
        obtain rfl : len = 0 := by omega
        refine ⟨[], s₂, .nil, ?_, ?_⟩
        · simp only [bind_apply, copied, lift_ok, ok_bind, sent₁, sent₂, ne_eq, not_true_eq_false,
            if_false, if_true, pure_apply]
        · rw [output₂, output₁, List.append_assoc]
          rfl
      · have data_there : chunk ≤ (data.drop trData).length := by
          rw [List.length_drop]
          omega
        obtain ⟨ret₂, s₂, sent₂, output₂⟩ :=
          clientSendDirect_whole whole s₁ (Nat.pos_of_ne_zero done) (by omega) data_there
        obtain ⟨ret₃, s₃, sent₃, output₃⟩ := sendCrlf whole s₂
        obtain ⟨slices, s₄, cut, sent₄, output₄⟩ :=
          ih (trData + chunk) (len - chunk) s₃ (by omega) (by omega)
        have slice_eq : ((data.drop trData).take len).take cfg.chunkSize =
            (data.drop trData).take chunk := by
          rw [List.take_take, ← chunk_eq, Nat.min_comm]
        have rest_eq : ((data.drop trData).take len).drop cfg.chunkSize =
            (data.drop (trData + chunk)).take (len - chunk) := by
          rw [List.drop_take, List.drop_drop]
          rcases le_or_gt cfg.chunkSize len with le | lt
          · rw [show chunk = cfg.chunkSize by omega]
          · rw [show len - cfg.chunkSize = 0 by omega, show len - chunk = 0 by omega,
              List.take_zero, List.take_zero]
        have some : (data.drop trData).take len ≠ [] := by
          rw [← List.length_pos_iff, List.length_take]
          omega
        rw [← rest_eq] at cut
        refine ⟨_, s₄, .cons some cut, ?_, ?_⟩
        · rw [Int.ofNat_sub (show chunk ≤ len by omega)] at sent₄
          simp only [bind_apply, copied, lift_ok, ok_bind, sent₁, sent₂, sent₃, ne_eq, done,
            not_false_eq_true, if_true, if_false, sent₄]
        · have length_eq : ((data.drop trData).take chunk).length = chunk := by
            rw [List.length_take]
            omega
          rw [output₄, output₃, output₂, output₁, slice_eq, List.map_cons, List.map_cons,
            List.flatten_cons, Chunk.text, chunkOf, length_eq]
          simp only [List.append_assoc]

/-- What is sent of a payload. -/
theorem sendPayload_chunks (whole : peer.Whole) (narrow : cfg.chunkSize ≤ 0xFFF) (s : Sender)
    {req : Request} {payload rest : Bytes} (chunked : req.isChunked = true)
    (given : req.payload = some ⟨payload ++ rest, .ofNat payload.length⟩) (some : payload ≠ [])
    (small : payload.length < 2 ^ 16) :
    ∃ slices s', Slices cfg.chunkSize payload slices ∧
      sendPayload cfg peer req s = .ok (0, s') ∧
      s'.output = s.output ++ (((slices.map chunkOf).map Chunk.text).flatten ++ lastChunk) := by
  have pos : 0 < payload.length := List.length_pos_iff.mpr some
  have toNat_eq : (UInt16.ofNat payload.length).toNat = payload.length :=
    UInt16.toNat_ofNat_of_lt' small
  have size_ne : UInt16.ofNat payload.length ≠ 0 := by
    rw [ne_eq, ← UInt16.toNat_inj, toNat_eq]
    exact pos.ne'
  have size_eq : payloadSize req = .ok payload.length := by
    rw [payloadSize, given]
    dsimp only
    rw [Payload.propertySize, if_pos size_ne, toNat_eq]
  have there : 0 + payload.length ≤ (payload ++ rest).length := by
    rw [List.length_append]
    omega
  obtain ⟨slices, s', cut, sent, output⟩ :=
    sendChunks_eq whole narrow (payload.length + 2) _ 0 payload.length s there (by omega)
  rw [List.drop_zero, List.take_left] at cut
  refine ⟨slices, s', cut, ?_, output⟩
  rw [sendPayload, size_eq, bind_apply, lift_ok, ok_bind, given]
  dsimp only
  rw [if_neg pos.ne', chunked, if_pos rfl, toInt32_of_lt (by omega) (by omega), bind_of_ok sent,
    pure_apply]

end Sending

/-! ### Receiving -/

/-- What `receive_payload` does with a stream, whatever the segmentation, however the connection
ends, and if the handler takes everything: it returns zero and hands over pieces of `payload`. -/
def Delivers (cfg : Config) (stream payload : Bytes) : Prop :=
  ∀ handler fails amount s fuel (res : Response), (∀ pieces piece, 0 ≤ handler pieces piece) →
    res.isChunked ≠ 0 → Unread cfg fails false amount s stream → 2 * stream.length + 6 ≤ fuel →
    ∃ pieces, pieces.flatten = payload ∧
      result (receivePayload cfg (clientSource cfg fuel) handler fuel res s) =
        .ok (0, { res with pieces := res.pieces ++ pieces })

section Receiving

variable {cfg : Config} {limit fuel : Nat}

/-- Chunks that fit, from the stream. -/
theorem receiveChunks_stream (fails : Bool) {chunks : List Chunk} (ok : ∀ c ∈ chunks,
      c.WellFormed ∧ c.sizeLine.length < 10 ∧ min c.data.length cfg.chunkSize ≤ limit)
    {res : Response} (chunked : res.isChunked ≠ 0)
    (enough : ((chunks.map Chunk.text).flatten ++ lastChunk).length < fuel) :
    ∃ pieces, pieces.flatten = chunkData chunks ∧
      result (receiveChunks cfg (streamSource fails limit) accept fuel 0 res
        ((chunks.map Chunk.text).flatten ++ lastChunk)) =
        .ok (0, { res with pieces := res.pieces ++ pieces }) := by
  obtain ⟨fuel', pieces, enough', whole, -, eq⟩ : ∃ fuel' pieces, _ ∧ _ ∧ _ ∧
      receiveChunks cfg (streamSource fails limit) accept fuel 0 res _ = _ :=
    receiveChunks_steps chunked 0 (chunks_steps limit ok lastChunk) enough
  refine ⟨pieces, whole, ?_⟩
  obtain ⟨fuel', rfl⟩ : ∃ k, fuel' = k + 1 := ⟨fuel' - 1, by omega⟩
  have still : { res with pieces := res.pieces ++ pieces }.isChunked ≠ 0 := chunked
  obtain ⟨size, short, -⟩ := sizeLine_spec (Nat.zero_le _)
  have number := size.number
  rw [if_pos (by omega)] at number
  have found : nextLine cfg.ringbufferSize lastChunk = some (sizeLine 0, crlf) :=
    size.found cfg (by omega) crlf
  rw [eq, receiveChunks, bind_apply, nextLength_found still found number, ok_bind]
  rfl

/-- The chunks are delivered if each fits the buffer of `client_recv`. -/
theorem receivePayload_delivers {chunks : List Chunk} (ok : ∀ c ∈ chunks,
      c.WellFormed ∧ c.sizeLine.length < 10 ∧ min c.data.length cfg.chunkSize ≤ cfg.scratch) :
    Delivers cfg ((chunks.map Chunk.text).flatten ++ lastChunk) (chunkData chunks) := by
  intro handler fails amount s fuel res accepts chunked unread enough
  obtain ⟨pieces, whole, eq⟩ := receiveChunks_stream fails ok chunked
    (show _ < fuel by omega)
  refine ⟨pieces, whole, ?_⟩
  rw [receivePayload]
  have sources : SourceSim (· = .overflow) cfg _ _ (streamSource fails cfg.scratch)
      (clientSource cfg fuel) := stream_sim amount
  have sim := receiveChunks_sim sources handler fuel 0 res
  have same : receiveChunks cfg (streamSource fails cfg.scratch) handler fuel 0 res
        ((chunks.map Chunk.text).flatten ++ lastChunk) =
      receiveChunks cfg (streamSource fails cfg.scratch) accept fuel 0 res
        ((chunks.map Chunk.text).flatten ++ lastChunk) := by
    rcases receiveChunks_handler cfg fails cfg.scratch handler fuel 0 res
        ((chunks.map Chunk.text).flatten ++ lastChunk) with same | ⟨⟨before, piece, refuses⟩, -⟩
    · exact same
    · exact absurd refuses (not_lt.mpr (accepts before piece))
  rw [← same] at eq
  rcases (sim _ s ⟨unread, enough⟩).result_eq with ⟨e, rfl, beyond⟩ | client
  · rw [eq] at beyond
    cases beyond
  · rw [← client, eq]

/-- The first chunk does not fit that buffer: `client_recv` may write past its end. -/
theorem not_delivers {first : Chunk} {chunks : List Chunk} {payload : Bytes}
    (wellFormed : first.WellFormed) (short : first.sizeLine.length < 10)
    (long : cfg.scratch < min first.data.length cfg.chunkSize) :
    ¬ Delivers cfg (((first :: chunks).map Chunk.text).flatten ++ lastChunk) payload := by
  intro delivers
  generalize stream_eq :
    ((first :: chunks).map Chunk.text).flatten ++ lastChunk = stream at delivers
  generalize fuel_eq : 2 * stream.length + 6 = fuel
  have one : ∀ i, greedy cfg i lineChunk = 1 := fun _ => if_neg (Nat.not_lt.mpr cfg.line_le)
  have all : ∀ i len, cfg.scratch < len → len ≤ greedy cfg i len := by
    intro i len long
    rw [greedy, if_pos long]
  obtain ⟨s, -, -, unread⟩ := clear_arriving true (start_arriving cfg stream true (greedy cfg))
  have sim : SourceSim (fun _ => False) cfg _ _ (clientSource cfg fuel)
      (streamSource true cfg.scratch) :=
    client_sim true (greedy cfg) (fun _ => one) fun needToRead errors le s stream unread enough =>
      getPiece_greedy cfg errors fuel all unread le (by omega)
  have res_chunked : { Response.init with isChunked := 1 }.isChunked ≠ 0 := Nat.one_ne_zero
  -- the stream ends in a fault at the first chunk
  have fault : receiveChunks cfg (streamSource true cfg.scratch) accept fuel 0
      { Response.init with isChunked := 1 } stream = .error .overflow := by
    obtain ⟨fuel, rfl⟩ : ∃ k, fuel = k + 1 + 1 := ⟨fuel - 2, by omega⟩
    have text_eq : stream = first.sizeLine ++ (first.data ++ (first.endLine ++
        ((chunks.map Chunk.text).flatten ++ lastChunk))) := by
      rw [← stream_eq, List.map_cons, List.flatten_cons, Chunk.text]
      simp only [List.append_assoc]
    have number := wellFormed.size.number
    rw [if_pos short] at number
    have found := wellFormed.size.found cfg short
      (first.data ++ (first.endLine ++ ((chunks.map Chunk.text).flatten ++ lastChunk)))
    rw [← text_eq] at found
    rw [receiveChunks, bind_apply, nextLength_found res_chunked found number, ok_bind]
    dsimp only
    rw [if_neg (by omega), bind_apply, Int.toNat_natCast, receiveChunk_overlong, error_bind]
    rw [List.length_append]
    omega
  have accepts : ∀ pieces piece, 0 ≤ accept pieces piece := fun _ _ => Int.le_refl 0
  have unread' : Unread cfg true false (greedy cfg) s stream := by
    obtain ⟨⟨q, holds, whole, -⟩, total_eq, ending, amount_eq⟩ := unread
    exact ⟨⟨q, holds, whole, fun slow => absurd slow Bool.false_ne_true⟩, total_eq,
      ending, amount_eq⟩
  obtain ⟨pieces, -, received⟩ :=
    delivers accept true _ s fuel _ accepts res_chunked unread' (by omega)
  rcases (receiveChunks_sim sim accept fuel 0 _ s stream ⟨unread, by omega⟩).result_eq with
    ⟨e, impossible, -⟩ | same
  · exact impossible
  · rw [receivePayload, same, fault] at received
    cases received

end Receiving

/-! ### There and back -/

/-- A valid encoding of the payload, whose size lines have room in six bytes. -/
def Encodes (stream payload : Bytes) : Prop :=
  ∃ chunks zero, (∀ c ∈ chunks, c.WellFormed ∧ c.sizeLine.length < 6) ∧
    SizeLine zero 0 ∧ zero.length < 6 ∧
    stream = (chunks.map Chunk.text).flatten ++ (zero ++ crlf) ∧ chunkData chunks = payload

/-- `send_payload` sends a valid encoding, and `receive_payload` delivers what was encoded. -/
def RoundTrips (cfg : Config) (peer : Peer) (req : Request) (s : Sender) (payload : Bytes) : Prop :=
  ∃ s' stream, sendPayload cfg peer req s = .ok (0, s') ∧ s'.output = s.output ++ stream ∧
    Encodes stream payload ∧ Delivers cfg stream payload

section RoundTrip

variable {cfg : Config} {peer : Peer} {req : Request} {payload rest : Bytes}

/-- The chunks of a payload. -/
theorem chunksOf_ok {slices : List Bytes} (narrow : cfg.chunkSize ≤ 0xFFF)
    (cut : Slices cfg.chunkSize payload slices) :
    ∀ c ∈ slices.map chunkOf, c.WellFormed ∧ c.sizeLine.length < 6 ∧
      c.data.length ≤ min payload.length cfg.chunkSize := by
  intro c mem
  obtain ⟨slice, mem', rfl⟩ := List.mem_map.mp mem
  have le := cut.length_le slice mem'
  have short : slice.length ≤ 0xFFF := by omega
  exact ⟨chunkOf_wellFormed (cut.ne_nil cfg.chunkSize_pos slice mem') short,
    (sizeLine_spec short).2.1, le⟩

/-- What comes back has a first chunk that fits the buffer of `client_recv`. -/
theorem RoundTrips.fits {s : Sender} (back : RoundTrips cfg peer req s payload)
    (narrow : cfg.chunkSize ≤ 0xFFF) (whole : peer.Whole) (chunked : req.isChunked = true)
    (given : req.payload = some ⟨payload ++ rest, .ofNat payload.length⟩) (some : payload ≠ [])
    (small : payload.length < 2 ^ 16) : min payload.length cfg.chunkSize ≤ cfg.scratch := by
  obtain ⟨slices, s', cut, sent, output⟩ :=
    sendPayload_chunks whole narrow s chunked given some small
  obtain ⟨s'', stream, sent', output', -, delivers⟩ := back
  cases sent.symm.trans sent'
  rw [output, List.append_right_inj] at output'
  rw [← output'] at delivers
  by_contra long
  have ok := chunksOf_ok narrow cut
  obtain ⟨slice, more, rfl, length_eq⟩ := cut.first some
  obtain ⟨wellFormed, short, -⟩ := ok (chunkOf slice) List.mem_cons_self
  refine not_delivers wellFormed (by omega) ?_ delivers
  rw [chunkOf]
  dsimp only
  omega

/-- A payload comes back exactly if its first chunk fits the buffer of `client_recv`. -/
theorem roundTrips_iff (narrow : cfg.chunkSize ≤ 0xFFF) (whole : peer.Whole) (s : Sender)
    (chunked : req.isChunked = true)
    (given : req.payload = some ⟨payload ++ rest, .ofNat payload.length⟩) (some : payload ≠ [])
    (small : payload.length < 2 ^ 16) :
    RoundTrips cfg peer req s payload ↔ min payload.length cfg.chunkSize ≤ cfg.scratch := by
  constructor
  · exact fun back => back.fits narrow whole chunked given some small
  · intro fits
    obtain ⟨slices, s', cut, sent, output⟩ :=
      sendPayload_chunks whole narrow s chunked given some small
    have ok := chunksOf_ok narrow cut
    have data_eq : chunkData (slices.map chunkOf) = payload := by
      rw [chunkData, List.map_map, ← cut.flatten_eq]
      exact congrArg List.flatten (List.map_id slices)
    have fit : ∀ c ∈ slices.map chunkOf, c.WellFormed ∧ c.sizeLine.length < 10 ∧
        min c.data.length cfg.chunkSize ≤ cfg.scratch := by
      intro c mem
      obtain ⟨wellFormed, short, le⟩ := ok c mem
      exact ⟨wellFormed, by omega, by omega⟩
    have delivers := receivePayload_delivers fit
    rw [data_eq] at delivers
    obtain ⟨zero, zero_short, -⟩ := sizeLine_spec (Nat.zero_le 0xFFF)
    refine ⟨s', _, sent, output,
      ⟨slices.map chunkOf, sizeLine 0, ?_, zero, zero_short, rfl, data_eq⟩, delivers⟩
    exact fun c mem => ⟨(ok c mem).1, (ok c mem).2.1⟩

end RoundTrip

/-- A request with a payload in chunks. -/
def putChunked (payload : Bytes) : Request :=
  { post ⟨[], List.not_mem_nil⟩ with
    isChunked := true, payload := some ⟨payload ++ [], .ofNat payload.length⟩ }

/-- A payload of two bytes. -/
theorem roundTrips_two :
    RoundTrips .standard .takesAll (putChunked [0x7B, 0x7D]) (.init .standard) [0x7B, 0x7D] :=
  (roundTrips_iff (by decide) (fun _ _ => rfl) _ rfl rfl (List.cons_ne_nil _ _) (by decide)).mpr
    (by decide)

/-- A payload of 512 bytes, for which `client_recv` has a buffer of 511. -/
theorem not_roundTrips : ¬ ∀ (cfg : Config) (peer : Peer) (req : Request) (s : Sender)
    (payload rest : Bytes), cfg.chunkSize ≤ 0xFFF → peer.Whole → req.isChunked = true →
    req.payload = some ⟨payload ++ rest, .ofNat payload.length⟩ → payload ≠ [] →
    payload.length < 2 ^ 16 → RoundTrips cfg peer req s payload := by
  intro all
  obtain ⟨payload, length_eq⟩ : ∃ payload : Bytes, payload.length = 512 :=
    ⟨List.replicate 512 0x78, List.length_replicate⟩
  have some : payload ≠ [] := by
    rintro rfl
    cases length_eq
  have small : payload.length < 2 ^ 16 := by omega
  have chunk_eq : Config.standard.chunkSize = 512 := rfl
  have scratch_eq : Config.standard.scratch = 511 := rfl
  have narrow : Config.standard.chunkSize ≤ 0xFFF := by omega
  have whole : Peer.takesAll.Whole := fun _ _ => rfl
  have back := all .standard .takesAll (putChunked payload) (.init .standard) payload []
      narrow whole
    rfl rfl some small
  have fits := back.fits narrow whole rfl rfl some small
  omega

end AcnSdk.Http
