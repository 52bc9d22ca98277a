/-
Whether a response that the client takes for complete is complete.

`Complete` is what the framing of a response asks for: the headers end with a blank line,
and then there are as many bytes as announced, or well-formed chunks up to one of size
zero.

* `sound_iff` — if the connection fails, the client returns 0 for nothing but a complete
  response, unless the stream has one of the flaws that it does not notice (`Flawed`) or
  something that does not fit (`TooLong`).
-/

import AcnSdk.Http.Message
import AcnSdk.Http.Safety

namespace AcnSdk.Http

open AcnSdk.Lib AcnSdk.Data AcnSdk.Arrow Prog

/-! ### Complete responses -/

section Complete

variable (cfg : Config) (stream : Bytes)

/-- The status line is accepted; what follows are headers, and `after` is no header. -/
inductive Accepted : List (Bytes × Bytes) → Bytes → Prop where
  | intro {status rest p after : Bytes} {code : Int} {headers : List (Bytes × Bytes)}
      (found : nextLine cfg.ringbufferSize (takeAll (shortLine cfg) stream).2 = some (status, rest))
      (long : ¬ status.length - 2 < 10) (accepted : statusCode status = .ok (some (code, p)))
      (taken : takeAll (header cfg) rest = (headers, after)) : Accepted headers after

/-- The headers end with a blank line. -/
inductive Opens : List (Bytes × Bytes) → Bytes → Prop where
  | intro {headers : List (Bytes × Bytes)} {after line payload : Bytes}
      (accepted : Accepted cfg stream headers after)
      (found : nextLine cfg.ringbufferSize after = some (line, payload))
      (blank : line.length - 2 = 0) :
      Opens headers payload

/-- The response is complete and has that body. -/
inductive Complete (body : Bytes) : Prop where
  | sized {headers : List (Bytes × Bytes)} {payload : Bytes}
      (opens : Opens cfg stream headers payload)
      (sized : ¬ Chunked headers) (there : (announced headers).toNat ≤ payload.length)
      (body_eq : body = payload.take (announced headers).toNat)
  | chunked {headers : List (Bytes × Bytes)} {payload last rest : Bytes} {chunks : List Chunk}
      (opens : Opens cfg stream headers payload) (chunked : Chunked headers)
      (wellFormed : ∀ c ∈ chunks, c.WellFormed) (zero : SizeLine last 0)
      (payload_eq : payload = (chunks.map Chunk.text).flatten ++ (last ++ rest))
      (body_eq : body = chunkData chunks)

/-- A line that ends the chunks for the client: it has no number, or none above zero. -/
def Stops (line : Bytes) : Prop :=
  copyTillHexToInt (cstr line) crlf = .ok none ∨
    ∃ n p, copyTillHexToInt (cstr line) crlf = .ok (some (n, p)) ∧ n ≤ 0

/-- What the client does not notice. -/
inductive Flawed : Prop where
  /-- The stream ends inside the headers, and so far they announce chunks or nothing. -/
  | headersCut {headers : List (Bytes × Bytes)} {after : Bytes}
      (accepted : Accepted cfg stream headers after)
      (cut : Cut cfg.ringbufferSize after) (nothing : Chunked headers ∨ takenLength headers ≤ 0)
  /-- The announced length does not fit into an `int`. -/
  | length {headers : List (Bytes × Bytes)} {payload : Bytes}
      (opens : Opens cfg stream headers payload)
      (sized : ¬ Chunked headers) (differ : (takenLength headers).toNat ≠ (announced headers).toNat)
      (there : (takenLength headers).toNat ≤ payload.length)
  /-- The stream ends before or inside the size of a chunk. -/
  | sizeCut {headers : List (Bytes × Bytes)} {payload rest : Bytes} {chunks : List Chunk}
      (opens : Opens cfg stream headers payload) (chunked : Chunked headers)
      (taken : takeAll (chunk cfg cfg.chunkSize) payload = (chunks, rest))
      (cut : Cut cfg.ringbufferSize rest)
  /-- The stream ends behind the data of a chunk. -/
  | endCut {headers : List (Bytes × Bytes)} {payload rest line after p : Bytes}
      {chunks : List Chunk}
      {n : Int} (opens : Opens cfg stream headers payload) (chunked : Chunked headers)
      (taken : takeAll (chunk cfg cfg.chunkSize) payload = (chunks, rest))
      (found : nextLine cfg.ringbufferSize rest = some (line, after))
      (size : copyTillHexToInt (cstr line) crlf = .ok (some (n, p))) (pos : 0 < n)
      (there : n.toNat ≤ after.length) (cut : Cut cfg.chunkSize (after.drop n.toNat))
  /-- The line that ends the chunks is not the size zero. -/
  | malformedLast {headers : List (Bytes × Bytes)} {payload rest line after : Bytes}
      {chunks : List Chunk}
      (opens : Opens cfg stream headers payload) (chunked : Chunked headers)
      (taken : takeAll (chunk cfg cfg.chunkSize) payload = (chunks, rest))
      (found : nextLine cfg.ringbufferSize rest = some (line, after)) (stops : Stops line)
      (malformed : ¬ SizeLine line 0)
  /-- A chunk has a malformed size, or something else than a line end behind its data. -/
  | malformedChunk {headers : List (Bytes × Bytes)} {payload rest line after : Bytes}
      {chunks : List Chunk}
      {c : Chunk} (opens : Opens cfg stream headers payload) (chunked : Chunked headers)
      (taken : takeAll (chunk cfg cfg.chunkSize) payload = (chunks, rest))
      (found : nextLine cfg.ringbufferSize rest = some (line, after)) (stops : Stops line)
      (mem : c ∈ chunks) (malformed : ¬ c.WellFormed)

end Complete

section

variable {cfg : Config} {limit : Nat} {stream : Bytes} {headers headers' : List (Bytes × Bytes)}
  {after after' payload payload' : Bytes} {outcome : Outcome}

theorem opened_isChunked (code : Int) (headers : List (Bytes × Bytes)) :
    (Response.opened code headers).isChunked ≠ 0 ↔ Chunked headers := by
  rw [Response.opened, setHeaders_isChunked]
  simp

theorem opened_length (code : Int) (headers : List (Bytes × Bytes)) :
    toInt32 (Response.opened code headers).recvContentLength = takenLength headers :=
  setHeaders_length headers _ 0 (show toInt32 ((0 : Nat) : Int) = toInt32 (toLong 0) by decide)

theorem Accepted.unique (first : Accepted cfg stream headers after)
    (second : Accepted cfg stream headers' after') : headers = headers' ∧ after = after' := by
  cases first with
  | intro found long accepted taken =>
      cases second with
      | intro found' long' accepted' taken' =>
          rw [found] at found'
          cases found'
          rw [taken] at taken'
          cases taken'
          exact ⟨rfl, rfl⟩

theorem Opens.unique (first : Opens cfg stream headers payload)
    (second : Opens cfg stream headers' payload') :
    headers = headers' ∧ payload = payload' := by
  cases first with
  | intro accepted found blank =>
      cases second with
      | intro accepted' found' blank' =>
          obtain ⟨rfl, rfl⟩ := accepted.unique accepted'
          rw [found] at found'
          cases found'
          exact ⟨rfl, rfl⟩

theorem Accepted.leaves (accepted : Accepted cfg stream headers after)
    (ends : ∀ code, HeadersEnd cfg limit (.opened code headers) after outcome) :
    Leaves cfg limit stream outcome := by
  cases accepted with
  | intro found long accepted taken => exact .accepted found long accepted taken (ends _)

theorem Opens.leaves_sized (opens : Opens cfg stream headers payload) (sized : ¬ Chunked headers)
    (ends : SizedEnds cfg limit (takenLength headers) payload outcome) :
    Leaves cfg limit stream outcome := by
  cases opens with
  | intro accepted found blank =>
      refine accepted.leaves fun code => .blank found blank (.sized ?_ ?_)
      · rw [← opened_isChunked code, not_not] at sized
        exact sized
      · rw [opened_length]
        exact ends

theorem Opens.leaves_chunked {chunks : List Chunk} {rest : Bytes}
    (opens : Opens cfg stream headers payload)
    (chunked : Chunked headers) (taken : takeAll (chunk cfg limit) payload = (chunks, rest))
    (ends : ChunksEnd cfg limit (chunkData chunks) rest outcome) :
    Leaves cfg limit stream outcome := by
  cases opens with
  | intro accepted found blank =>
      exact accepted.leaves fun code =>
        .blank found blank (.chunked ((opened_isChunked code headers).mpr chunked) taken ends)

/-- Where the client is when it takes the response for complete. -/
theorem leaves_cases (leaves : Leaves cfg limit stream outcome)
    (quiet : ∃ body, outcome = .done body ∨ outcome = .unnoticed body) :
    (∃ headers after, Accepted cfg stream headers after ∧ Cut cfg.ringbufferSize after ∧
        (Chunked headers ∨ takenLength headers ≤ 0)) ∨
      ∃ headers payload, Opens cfg stream headers payload ∧
        (¬ Chunked headers ∧ SizedEnds cfg limit (takenLength headers) payload outcome ∨
          Chunked headers ∧ ∃ chunks rest, takeAll (chunk cfg limit) payload = (chunks, rest) ∧
            ChunksEnd cfg limit (chunkData chunks) rest outcome) := by
  cases leaves with
  | cut => simp at quiet
  | overlong => simp at quiet
  | codeOverlong => simp at quiet
  | refused => simp at quiet
  | accepted found long accepted taken ends =>
      have accepted' := Accepted.intro found long accepted taken
      cases ends with
      | cutUnnoticed cut nothing =>
          rw [opened_isChunked, opened_length] at nothing
          exact .inl ⟨_, _, accepted', cut, nothing⟩
      | cutMissing => simp at quiet
      | overlong => simp at quiet
      | fieldOverlong => simp at quiet
      | refused => simp at quiet
      | blank found blank ends =>
          refine .inr ⟨_, _, .intro accepted' found blank, ?_⟩
          cases ends with
          | sized sized ends =>
              rw [opened_length] at ends
              refine .inl ⟨?_, ends⟩
              rw [← opened_isChunked, not_not]
              exact sized
          | chunked chunked taken ends =>
              exact .inr ⟨(opened_isChunked _ _).mp chunked, _, _, taken, ends⟩

/-- Enough bytes are there. -/
theorem sizedEnds_there {n : Int} (there : n.toNat ≤ payload.length) :
    SizedEnds cfg cfg.chunkSize n payload (.done (payload.take n.toNat)) := by
  by_cases pos : 0 < n
  · exact .complete pos there (Nat.min_le_right _ _)
  · have none : n.toNat = 0 := by omega
    rw [none, List.take_zero]
    exact .empty (by omega)

/-! ### Reading well-formed chunks -/

theorem SizeLine.number_eq {line p : Bytes} {n : Nat} {m : Int} (size : SizeLine line n)
    (number : copyTillHexToInt (cstr line) crlf = .ok (some (m, p))) : m = n := by
  rw [size.number] at number
  split at number
  · cases number
    rfl
  · cases number

theorem SizeLine.short {line : Bytes} {n : Nat} (size : SizeLine line n)
    (fits : copyTillHexToInt (cstr line) crlf ≠ .error .overflow) : line.length < 10 := by
  by_contra long
  rw [size.number, if_neg long] at fits
  exact fits rfl

theorem SizeLine.nextLine_eq {line rest line' rest' : Bytes} {n size : Nat}
    (sizeLine : SizeLine line n)
    (found : nextLine size (line ++ rest) = some (line', rest')) : line' = line ∧ rest' = rest := by
  have split := (Http.nextLine_eq found).1
  rw [sizeLine.split rest] at split
  cases split
  exact ⟨rfl, rfl⟩

/-- A stream that starts with a well-formed chunk does not end the chunks quietly. -/
theorem Chunk.WellFormed.not_quiet {c : Chunk} {rest body : Bytes} (wellFormed : c.WellFormed)
    (stuck : chunk cfg cfg.chunkSize (c.text ++ rest) = none)
    (ends : ChunksEnd cfg cfg.chunkSize body (c.text ++ rest) outcome) :
    ¬ ∃ body, outcome = .done body ∨ outcome = .unnoticed body := by
  rintro ⟨body', quiet⟩
  have long : copyTillHexToInt (cstr c.sizeLine) crlf = .error .overflow := by
    by_contra fits
    rw [chunk_text wellFormed (wellFormed.size.short fits) (Nat.min_le_right _ _)] at stuck
    cases stuck
  rw [Chunk.text, List.append_assoc, List.append_assoc] at ends
  cases ends with
  | sizeCut cut =>
      have none := cut.1
      rw [wellFormed.size.split] at none
      cases none
  | sizeOverlong => simp at quiet
  | numberOverlong => simp at quiet
  | noNumber found none =>
      obtain ⟨rfl, -⟩ := wellFormed.size.nextLine_eq found
      rw [long] at none
      cases none
  | last found size nonpos =>
      obtain ⟨rfl, -⟩ := wellFormed.size.nextLine_eq found
      rw [long] at size
      cases size
  | data found size incomplete not_done =>
      obtain ⟨rfl, -⟩ := wellFormed.size.nextLine_eq found
      rw [long] at size
      cases size
  | endCut found size pos there fits cut =>
      obtain ⟨rfl, -⟩ := wellFormed.size.nextLine_eq found
      rw [long] at size
      cases size
  | endOverlong => simp at quiet

/-- Well-formed chunks are what the client reads, if it gets to the end. -/
theorem chunks_unique {chunks chunks' : List Chunk} {payload rest last rest' body : Bytes}
    (wellFormed : ∀ c ∈ chunks', c.WellFormed) (zero : SizeLine last 0)
    (payload_eq : payload = (chunks'.map Chunk.text).flatten ++ (last ++ rest'))
    (steps : Steps (chunk cfg cfg.chunkSize) payload chunks rest)
    (stuck : chunk cfg cfg.chunkSize rest = none)
    (ends : ChunksEnd cfg cfg.chunkSize body rest outcome)
    (quiet : ∃ body, outcome = .done body ∨ outcome = .unnoticed body) :
    chunks = chunks' ∧ rest = last ++ rest' := by
  induction chunks' generalizing payload chunks with
  | nil =>
      rw [List.map_nil, List.flatten_nil, List.nil_append] at payload_eq
      subst payload_eq
      cases steps with
      | refl => exact ⟨rfl, rfl⟩
      | cons first _ =>
          obtain ⟨_, p, n, found, size, pos, -⟩ := chunk_eq first
          rw [(zero.nextLine_eq found).1] at size
          have := zero.number_eq size
          omega
  | cons c chunks' ih =>
      have first_ok := wellFormed c List.mem_cons_self
      rw [List.map_cons, List.flatten_cons, List.append_assoc] at payload_eq
      subst payload_eq
      cases steps with
      | refl => exact absurd quiet (first_ok.not_quiet stuck ends)
      | cons first more =>
          have text : chunk cfg cfg.chunkSize (c.text ++ ((chunks'.map Chunk.text).flatten ++
              (last ++ rest'))) = some
                (c, (chunks'.map Chunk.text).flatten ++ (last ++ rest')) := by
            apply chunk_text first_ok _ (Nat.min_le_right _ _)
            obtain ⟨_, p, n, found, size, -⟩ := chunk_eq first
            rw [Chunk.text, List.append_assoc, List.append_assoc] at found
            apply first_ok.size.short
            rw [← (first_ok.size.nextLine_eq found).1, size]
            simp
          rw [text] at first
          cases first
          obtain ⟨rfl, rfl⟩ := ih (fun c mem => wellFormed c (List.mem_cons_of_mem _ mem)) rfl more
          exact ⟨rfl, rfl⟩

/-- The chunks that the client has read are the text in front of the rest. -/
theorem steps_text {chunks : List Chunk} {payload rest : Bytes}
    (steps : Steps (chunk cfg limit) payload chunks rest) :
    payload = (chunks.map Chunk.text).flatten ++ rest := by
  induction steps with
  | refl => rfl
  | @cons a b _ c chunks first _ ih =>
      obtain ⟨after, p, n, found, size, pos, there, fits, data, ends⟩ := chunk_eq first
      obtain ⟨-, -, whole, -⟩ := nextLine_eq found
      obtain ⟨-, -, whole', -⟩ := nextLine_eq ends
      rw [List.map_cons, List.flatten_cons, List.append_assoc, ← ih, whole, Chunk.text, data,
        List.append_assoc, List.append_assoc, ← whole', List.take_append_drop]

/-! ### Flaws -/

theorem Stops.ends {line rest after body : Bytes} (stops : Stops line)
    (found : nextLine cfg.ringbufferSize rest = some (line, after)) :
    ChunksEnd cfg limit body rest (.done body) := by
  rcases stops with none | ⟨n, p, size, nonpos⟩
  · exact .noNumber found none
  · exact .last found size nonpos

/-- What the client takes for complete is complete, or has a flaw. -/
theorem complete_or_flawed {body : Bytes}
    (leaves : Leaves cfg cfg.chunkSize stream (.done body)) :
    Complete cfg stream body ∨ Flawed cfg stream := by
  rcases leaves_cases leaves ⟨body, .inl rfl⟩ with
    ⟨headers, after, accepted, cut, nothing⟩ | ⟨headers, payload, opens, sized | chunked⟩
  · exact .inr (.headersCut accepted cut nothing)
  · obtain ⟨sized, ends⟩ := sized
    by_cases differ : (takenLength headers).toNat = (announced headers).toNat
    · left
      cases ends with
      | empty nonpos =>
          have none : (announced headers).toNat = 0 := by omega
          refine .sized opens sized ?_ ?_
          · rw [none]
            exact Nat.zero_le _
          · rw [none, List.take_zero]
      | complete pos there fits =>
          rw [differ] at there ⊢
          exact .sized opens sized there rfl
    · right
      apply Flawed.length opens sized differ
      cases ends with
      | empty nonpos => omega
      | complete pos there fits => exact there
  · obtain ⟨chunked, chunks, rest, taken, ends⟩ := chunked
    have finish : ∀ {line after : Bytes}, nextLine cfg.ringbufferSize rest = some (line, after) →
        Stops line → body = chunkData chunks → Complete cfg stream body ∨ Flawed cfg stream := by
      intro line after found stops body_eq
      by_cases zero : SizeLine line 0
      · by_cases wellFormed : ∀ c ∈ chunks, c.WellFormed
        · left
          have steps : Steps (chunk cfg cfg.chunkSize) payload chunks rest := by
            have all : Steps (chunk cfg cfg.chunkSize) payload _ _ :=
              (takeAll_steps chunk_smaller payload).1
            rwa [taken] at all
          have whole := steps_text steps
          obtain ⟨-, -, rest_eq, -⟩ := nextLine_eq found
          rw [rest_eq] at whole
          exact .chunked opens chunked wellFormed zero whole body_eq
        · right
          rw [not_forall] at wellFormed
          obtain ⟨c, malformed⟩ := wellFormed
          rw [Classical.not_imp] at malformed
          exact .malformedChunk opens chunked taken found stops malformed.1 malformed.2
      · exact .inr (.malformedLast opens chunked taken found stops zero)
    cases ends with
    | noNumber found none => exact finish found (.inl none) rfl
    | last found size nonpos => exact finish found (.inr ⟨_, _, size, nonpos⟩) rfl
    | data found size incomplete not_done => exact absurd rfl (not_done _)

/-- The end of the stream is only taken for the end of a response that has a flaw. -/
theorem flawed_of_unnoticed {body : Bytes}
    (leaves : Leaves cfg cfg.chunkSize stream (.unnoticed body)) : Flawed cfg stream := by
  rcases leaves_cases leaves ⟨body, .inr rfl⟩ with
    ⟨headers, after, accepted, cut, nothing⟩ | ⟨headers, payload, opens, sized | chunked⟩
  · exact .headersCut accepted cut nothing
  · obtain ⟨sized, ends⟩ := sized
    cases ends
  · obtain ⟨chunked, chunks, rest, taken, ends⟩ := chunked
    cases ends with
    | sizeCut cut => exact .sizeCut opens chunked taken cut
    | data found size incomplete not_done => cases incomplete
    | endCut found size pos there fits cut =>
        exact .endCut opens chunked taken found size pos there cut

/-- Chunks that do not end with a line of size zero, or are malformed, are not complete. -/
theorem not_complete_of_chunks {chunks : List Chunk} {rest body : Bytes}
    (opens : Opens cfg stream headers payload) (chunked : Chunked headers)
    (taken : takeAll (chunk cfg cfg.chunkSize) payload = (chunks, rest))
    (ends : ChunksEnd cfg cfg.chunkSize (chunkData chunks) rest outcome)
    (quiet : outcome = .done body ∨ outcome = .unnoticed body)
    (flaw : ∀ last after, SizeLine last 0 → rest = last ++ after → ∃ c ∈ chunks, ¬ c.WellFormed) :
    ¬ Complete cfg stream body := by
  intro complete
  obtain ⟨steps, stuck⟩ : Steps (chunk cfg cfg.chunkSize) payload chunks rest ∧
      chunk cfg cfg.chunkSize rest = none := by
    have all : Steps (chunk cfg cfg.chunkSize) payload _ _ ∧ _ :=
      takeAll_steps chunk_smaller payload
    rwa [taken] at all
  cases complete with
  | sized opens' sized there body_eq =>
      obtain ⟨rfl, rfl⟩ := opens.unique opens'
      exact sized chunked
  | chunked opens' chunked' wellFormed zero payload_eq body_eq =>
      obtain ⟨rfl, rfl⟩ := opens.unique opens'
      obtain ⟨rfl, rest_eq⟩ :=
        chunks_unique wellFormed zero payload_eq steps stuck ends ⟨body, quiet⟩
      obtain ⟨c, mem, malformed⟩ := flaw _ _ zero rest_eq
      exact malformed (wellFormed c mem)

/-- The client returns 0 on a flawed stream, but the response is not complete. -/
theorem Flawed.leaves (flawed : Flawed cfg stream) :
    ∃ outcome body, (outcome = .done body ∨ outcome = .unnoticed body) ∧
      Leaves cfg cfg.chunkSize stream outcome ∧ ¬ Complete cfg stream body := by
  cases flawed with
  | headersCut accepted cut nothing =>
      refine ⟨.unnoticed [], [], .inr rfl, accepted.leaves fun code => .cutUnnoticed cut ?_, ?_⟩
      · rw [opened_isChunked, opened_length]
        exact nothing
      · intro complete
        obtain ⟨headers', payload, opens⟩ :
          ∃ headers payload, Opens cfg stream headers payload := by
          cases complete with
          | sized opens => exact ⟨_, _, opens⟩
          | chunked opens => exact ⟨_, _, opens⟩
        cases opens with
        | intro accepted' found blank =>
            obtain ⟨rfl, rfl⟩ := accepted.unique accepted'
            have split := (nextLine_eq found).1
            rw [cut.1] at split
            cases split
  | @length headers payload opens sized differ there =>
      refine ⟨_, _, .inl rfl, opens.leaves_sized sized (sizedEnds_there there), fun complete => ?_⟩
      cases complete with
      | sized opens' sized' there' body_eq =>
          obtain ⟨rfl, rfl⟩ := opens.unique opens'
          have lengths := congrArg List.length body_eq
          rw [List.length_take, List.length_take] at lengths
          omega
      | chunked opens' chunked =>
          obtain ⟨rfl, rfl⟩ := opens.unique opens'
          exact sized chunked
  | sizeCut opens chunked taken cut =>
      refine ⟨_, _, .inr rfl, opens.leaves_chunked chunked taken (.sizeCut cut),
        not_complete_of_chunks opens chunked taken (.sizeCut cut) (.inr rfl) ?_⟩
      rintro last after zero rfl
      have none := cut.1
      rw [zero.split] at none
      cases none
  | @endCut _ _ rest _ _ _ chunks _ opens chunked taken found size pos there cut =>
      have ends : ChunksEnd cfg cfg.chunkSize (chunkData chunks) rest _ :=
        .endCut found size pos there (Nat.min_le_right _ _) cut
      refine ⟨_, _, .inr rfl, opens.leaves_chunked chunked taken ends,
        not_complete_of_chunks opens chunked taken ends (.inr rfl) ?_⟩
      rintro last after zero rfl
      rw [(zero.nextLine_eq found).1] at size
      have := zero.number_eq size
      omega
  | malformedLast opens chunked taken found stops malformed =>
      refine ⟨_, _, .inl rfl, opens.leaves_chunked chunked taken (stops.ends found),
        not_complete_of_chunks opens chunked taken (stops.ends found) (.inl rfl) ?_⟩
      rintro last after zero rfl
      rw [(zero.nextLine_eq found).1] at malformed
      exact absurd zero malformed
  | malformedChunk opens chunked taken found stops mem malformed =>
      refine ⟨_, _, .inl rfl, opens.leaves_chunked chunked taken (stops.ends found),
        not_complete_of_chunks opens chunked taken (stops.ends found) (.inl rfl) ?_⟩
      intro last after zero rest_eq
      exact ⟨_, mem, malformed⟩

end

/-! ### Soundness -/

/-- However the stream is segmented before the connection fails, the client returns an error
or has received a complete response. -/
def Sound (cfg : Config) (stream : Bytes) : Prop :=
  ∀ handler amount send s, Sent cfg true amount stream send s → ∀ fuel ≥ 2 * stream.length + 6,
    ∃ ret res,
      result (defaultHttpClientDo cfg (clientSource cfg fuel) handler send fuel s) =
        .ok (ret, res) ∧
      (ret < 0 ∨ ret = 0 ∧ Complete cfg stream res.pieces.flatten)

theorem Outcome.Gives.quiet {cfg : Config} {outcome : Outcome} {body : Bytes}
    {answer : Except Fault (Int × Response)} (gives : outcome.Gives cfg true answer)
    (quiet : outcome = .done body ∨ outcome = .unnoticed body) :
    ∃ res, answer = .ok (0, res) ∧ Received cfg res body := by
  rcases quiet with rfl | rfl
  · exact gives
  · exact gives

theorem not_sound {cfg : Config} {stream : Bytes} (flawed : Flawed cfg stream) :
    ¬ Sound cfg stream := by
  intro sound
  obtain ⟨outcome, body, quiet, leaves, incomplete⟩ := flawed.leaves
  have gives : outcome.Gives cfg true _ := defaultHttpClientDo_oneByOne leaves (Nat.le_refl _)
  obtain ⟨res, eq, received⟩ := gives.quiet quiet
  have sent := start_sent cfg stream true oneByOne
  obtain ⟨ret, res', eq', negative | ⟨zero, complete⟩⟩ :=
    sound accept _ _ _ sent _ (Nat.le_refl _)
  · rw [eq] at eq'
    cases eq'
    exact absurd negative (by decide)
  · rw [eq] at eq'
    cases eq'
    rw [received.flatten_eq] at complete
    exact incomplete complete

/-- The client returns 0 for nothing but a complete response exactly if the stream has no flaw
that it does not notice, and everything that the client gets to fits into its buffers. -/
theorem sound_iff (cfg : Config) (stream : Bytes) :
    Sound cfg stream ↔ ¬ Flawed cfg stream ∧ ¬ TooLong cfg stream := by
  constructor
  · intro sound
    refine ⟨fun flawed => not_sound flawed sound, fun long => ?_⟩
    obtain ⟨ret, res, eq, -⟩ :=
      sound accept _ _ _ (start_sent cfg stream true (greedy cfg)) _ (Nat.le_refl _)
    cases eq.symm.trans (long.overflows true (Nat.le_refl _))
  · rintro ⟨sane, short⟩ handler amount send s sent fuel enough
    have fits : result (defaultHttpClientDo cfg (clientSource cfg fuel) handler send fuel s) ≠
        .error .overflow := defaultHttpClientDo_inBounds short sent enough
    obtain ⟨outcome, leaves⟩ := leaves_total cfg cfg.chunkSize stream
    rcases defaultHttpClientDo_cases leaves sent enough with beyond | ⟨res, refused⟩ | gives
    · exact absurd beyond fits
    · exact ⟨_, _, refused, .inl (by decide)⟩
    · cases outcome with
      | overflow => exact absurd gives fits
      | refused =>
          obtain ⟨res, eq⟩ := gives
          exact ⟨_, _, eq, .inl (by decide)⟩
      | missing =>
          obtain ⟨res, eq⟩ := gives
          exact ⟨_, _, eq, .inl (by decide)⟩
      | unnoticed body => exact absurd (flawed_of_unnoticed leaves) sane
      | done body =>
          obtain ⟨res, eq, received⟩ := gives
          refine ⟨_, _, eq, .inr ⟨rfl, ?_⟩⟩
          rw [received.flatten_eq]
          exact (complete_or_flawed leaves).resolve_right sane

/-- The connection fails right behind the status line `HTTP/1.1 200 OK`. -/
theorem not_sound_status :
    ¬ Sound .standard (versionText ++ [0x32, 0x30, 0x30] ++ okText ++ crlf) := by
  have found : nextLine Config.standard.ringbufferSize (takeAll (shortLine .standard)
      (versionText ++ [0x32, 0x30, 0x30] ++ okText ++ crlf)).2 =
        some (versionText ++ [0x32, 0x30, 0x30] ++ okText ++ crlf, []) := rfl
  have accepted : statusCode (versionText ++ [0x32, 0x30, 0x30] ++ okText ++ crlf) =
      .ok (some (200, [])) := rfl
  exact not_sound (.headersCut (.intro found (by decide) accepted rfl) ⟨rfl, by decide⟩
    (.inr (by decide)))

end AcnSdk.Http
