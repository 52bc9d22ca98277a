/-
When the client ends, and when it stays inside its buffers.

* `inBounds_iff` — nothing is written outside its buffer unless a line, a key, a value, a
  number or a piece of the payload does not fit.
* `terminates_iff` — after the peer has closed the connection, the client returns unless the
  stream ends inside a line or a payload that it waits for, or something does not fit.
-/

import AcnSdk.Http.Outcome

namespace AcnSdk.Http

open AcnSdk.Lib AcnSdk.Data AcnSdk.Arrow Prog

/-! ### The client on the socket -/

section Socket

variable {cfg : Config} {fails : Bool} {amount : Nat → Nat → Nat} {fuel : Nat}
  {handler : List Bytes → Bytes → Int} {s : Session} {stream : Bytes}

/-- The request is sent, and `stream` comes back. `send` may fail. -/
structure Sent (cfg : Config) (fails : Bool) (amount : Nat → Nat → Nat) (stream : Bytes)
    (send : Prog Session Int) (s : Session) : Prop where
  arriving : ∃ ret s', send s = .ok (ret, s') ∧ (0 ≤ ret → Arriving cfg fails amount s' stream)

/-- Nothing is received if the request is not sent. -/
theorem defaultHttpClientDo_sent {send : Prog Session Int} (src : Source Session)
    (sent : Sent cfg fails amount stream send s) :
    result (defaultHttpClientDo cfg src handler send fuel s) = .ok (-1, .init) ∨
      ∃ s', Arriving cfg fails amount s' stream ∧
        result (defaultHttpClientDo cfg src handler send fuel s) =
          result (receive cfg src handler fuel .init s') := by
  obtain ⟨ret, s', eq, arriving⟩ := sent.arriving
  rw [defaultHttpClientDo, bind_apply, eq, ok_bind]
  dsimp only
  by_cases failed : ret < 0
  · rw [if_pos failed]
    exact .inl rfl
  · rw [if_neg failed]
    exact .inr ⟨s', arriving (Int.not_lt.mp failed), rfl⟩

/-- What the client returns on any network: an error, or what the stream gives, unless
something does not fit. -/
theorem defaultHttpClientDo_cases {send : Prog Session Int} {outcome : Outcome}
    (leaves : Leaves cfg cfg.chunkSize stream outcome) (sent : Sent cfg fails amount stream send s)
    (enough : 2 * stream.length + 6 ≤ fuel) :
    result (defaultHttpClientDo cfg (clientSource cfg fuel) handler send fuel s) =
      .error .overflow ∨
      (∃ res, result (defaultHttpClientDo cfg (clientSource cfg fuel) handler send fuel s) =
        .ok (-1, res)) ∨
      outcome.Gives cfg fails
        (result (defaultHttpClientDo cfg (clientSource cfg fuel) handler send fuel s)) := by
  rcases defaultHttpClientDo_sent (clientSource cfg fuel) sent with failed | ⟨s', arriving, eq⟩
  · exact .inr (.inl ⟨_, failed⟩)
  rw [eq]
  rcases receive_stream_or_overflow handler .init arriving enough with beyond | same
  · exact .inl beyond
  rw [same]
  rcases receive_handler cfg fails cfg.chunkSize handler fuel .init stream with
    same | ⟨-, res, gives⟩
  · rw [same]
    exact .inr (.inr (receive_leaves leaves (by omega)))
  · exact .inr (.inl ⟨res, gives⟩)

/-- A client that has sent its request. -/
def Session.start (cfg : Config) (stream : Bytes) (ending : Int) (amount : Nat → Nat → Nat) :
    Session :=
  ⟨ringbufInit (List.replicate cfg.ringbufferSize 0), ⟨stream, ending, amount, 0⟩⟩

theorem start_arriving (cfg : Config) (stream : Bytes) (fails : Bool) (amount : Nat → Nat → Nat) :
    Arriving cfg fails amount (.start cfg stream (if fails then -1 else 0) amount) stream := by
  have length : (List.replicate cfg.ringbufferSize (0 : Byte)).length = cfg.ringbufferSize :=
    List.length_replicate
  have pos : 1 ≤ (List.replicate cfg.ringbufferSize (0 : Byte)).length := by
    rw [length]
    exact cfg.ringbufferSize_pos
  have small : (List.replicate cfg.ringbufferSize (0 : Byte)).length < 2 ^ 16 := by
    rw [length]
    exact cfg.size_lt
  constructor
  · exact ⟨[], init_holds pos small⟩
  · rfl
  · exact (Nat.mod_eq_of_lt small).trans length
  · cases fails <;> simp [Session.start]
  · rfl

theorem start_sent (cfg : Config) (stream : Bytes) (fails : Bool) (amount : Nat → Nat → Nat) :
    Sent cfg fails amount stream (pure 0) (.start cfg stream (if fails then -1 else 0) amount) :=
  ⟨0, _, rfl, fun _ => start_arriving cfg stream fails amount⟩

/-- One byte at a time. -/
def oneByOne : Nat → Nat → Nat := fun _ _ => 1

/-- If the bytes arrive one by one, the client returns what the stream gives. -/
theorem defaultHttpClientDo_oneByOne {outcome : Outcome}
    (leaves : Leaves cfg cfg.chunkSize stream outcome) (enough : 2 * stream.length + 6 ≤ fuel) :
    outcome.Gives cfg fails (result (defaultHttpClientDo cfg (clientSource cfg fuel) accept (pure 0)
      fuel (.start cfg stream (if fails then -1 else 0) oneByOne))) := by
  have polite : ∀ i len, len ≤ cfg.chunkSize → min len (max 1 (oneByOne i len)) ≤ cfg.scratch := by
    intro i len _
    have := cfg.line_le
    rw [lineChunk] at this
    rw [oneByOne]
    omega
  have same := receive_stream accept .init polite (start_arriving cfg stream fails oneByOne) enough
  have gives : outcome.Gives cfg fails _ :=
    receive_leaves leaves (show stream.length + 1 < fuel by omega)
  rw [← same] at gives
  exact gives

end Socket

/-! ### Bounds -/

/-- A line, a key, a value, a number or a piece of the payload that the client gets to does not
fit into its buffer. -/
def TooLong (cfg : Config) (stream : Bytes) : Prop := Leaves cfg cfg.scratch stream .overflow

/-- Nothing is written outside its buffer, however the stream is segmented and the connection
ends. What is too long makes the client return an error. -/
def InBounds (cfg : Config) (stream : Bytes) : Prop :=
  ∀ handler fails amount send s, Sent cfg fails amount stream send s →
    ∀ fuel ≥ 2 * stream.length + 6,
      result (defaultHttpClientDo cfg (clientSource cfg fuel) handler send fuel s) ≠
        .error .overflow ∧
      (TooLong cfg stream → ∃ ret res, ret < 0 ∧
        result (defaultHttpClientDo cfg (clientSource cfg fuel) handler send fuel s) =
          .ok (ret, res))

/-- Lines arrive byte by byte, and pieces that do not fit at once. -/
def greedy (cfg : Config) : Nat → Nat → Nat := fun _ len => if cfg.scratch < len then len else 1

/-- What is too long gets outside its buffer, whether the connection fails or is closed. -/
theorem TooLong.overflows {cfg : Config} {stream : Bytes} {fuel : Nat} (long : TooLong cfg stream)
    (fails : Bool) (enough : 2 * stream.length + 6 ≤ fuel) :
    result (defaultHttpClientDo cfg (clientSource cfg fuel) accept (pure 0) fuel
      (.start cfg stream (if fails then -1 else 0) (greedy cfg))) = .error .overflow := by
  have one : ∀ i, greedy cfg i lineChunk = 1 := fun _ => if_neg (Nat.not_lt.mpr cfg.line_le)
  have all : ∀ i len, cfg.scratch < len → len ≤ greedy cfg i len := by
    intro i len long
    rw [greedy, if_pos long]
  have same := receive_stream_greedy accept .init one all
    (start_arriving cfg stream fails (greedy cfg)) enough
  have gives : Outcome.Gives cfg fails _ .overflow :=
    receive_leaves long (show stream.length + 1 < fuel by omega)
  exact same.trans gives

/-- Where everything fits, nothing is written outside its buffer. -/
theorem defaultHttpClientDo_inBounds {cfg : Config} {stream : Bytes} {fails : Bool}
    {amount : Nat → Nat → Nat} {fuel : Nat} {handler : List Bytes → Bytes → Int}
    {send : Prog Session Int} {s : Session} (short : ¬ TooLong cfg stream)
    (sent : Sent cfg fails amount stream send s) (enough : 2 * stream.length + 6 ≤ fuel) :
    result (defaultHttpClientDo cfg (clientSource cfg fuel) handler send fuel s) ≠
      .error .overflow := by
  obtain ⟨outcome, leaves⟩ := leaves_total cfg cfg.scratch stream
  have gives : outcome.Gives cfg fails
      (result (receive cfg (streamSource fails cfg.scratch) accept fuel .init stream)) :=
    receive_leaves leaves (by omega)
  have fits : result (receive cfg (streamSource fails cfg.scratch) accept fuel .init stream) ≠
      .error .overflow := by
    apply gives.ne_overflow
    rintro rfl
    exact short leaves
  rcases defaultHttpClientDo_sent (clientSource cfg fuel) sent with failed | ⟨s', arriving, eq⟩
  · rw [failed]
    simp
  rw [eq]
  have stream_fits : result
      (receive cfg (streamSource fails cfg.scratch) handler fuel .init stream) ≠
      .error .overflow := by
    rcases receive_handler cfg fails cfg.scratch handler fuel .init stream with
      same | ⟨-, res, gives⟩
    · rwa [same]
    · rw [gives]
      simp
  rcases receive_stream_or_overlong handler .init arriving enough with beyond | same
  · exact absurd beyond stream_fits
  · rwa [← same]

/-- Nothing is written outside its buffer exactly if everything that the client gets to fits. -/
theorem inBounds_iff (cfg : Config) (stream : Bytes) :
    InBounds cfg stream ↔ ¬ TooLong cfg stream := by
  constructor
  · intro safe long
    exact (safe accept true _ _ _ (start_sent cfg stream true (greedy cfg)) _ (Nat.le_refl _)).1
      (long.overflows true (Nat.le_refl _))
  · intro short handler fails amount send s sent fuel enough
    exact ⟨defaultHttpClientDo_inBounds short sent enough, fun long => absurd long short⟩

/-- The line `HTTP/1.1 12345678 OK`, whose code is one digit too long. -/
theorem not_inBounds_code : ¬ InBounds .standard
    (versionText ++ [0x31, 0x32, 0x33, 0x34, 0x35, 0x36, 0x37, 0x38] ++ okText ++ crlf) := by
  have found : nextLine Config.standard.ringbufferSize
      (versionText ++ [0x31, 0x32, 0x33, 0x34, 0x35, 0x36, 0x37, 0x38] ++ okText ++ crlf) =
        some
          (versionText ++ [0x31, 0x32, 0x33, 0x34, 0x35, 0x36, 0x37, 0x38] ++ okText ++ crlf, []) :=
    rfl
  have long : LongCode (versionText ++ [0x31, 0x32, 0x33, 0x34, 0x35, 0x36, 0x37, 0x38] ++ okText ++
      crlf) :=
    ⟨_, rfl, [0x31, 0x32, 0x33, 0x34, 0x35, 0x36, 0x37, 0x38], _, rfl, rfl, by decide⟩
  have beyond : TooLong .standard
      (versionText ++ [0x31, 0x32, 0x33, 0x34, 0x35, 0x36, 0x37, 0x38] ++ okText ++ crlf) :=
    .codeOverlong found (by decide) long
  intro safe
  exact (safe accept true _ _ _ (start_sent .standard _ true (greedy .standard)) _
    (Nat.le_refl _)).1 (beyond.overflows true (Nat.le_refl _))

/-! ### Termination -/

/-- The client returns after any segmentation of the stream, if the peer has closed the
connection then. -/
def Terminates (cfg : Config) (stream : Bytes) : Prop :=
  ∀ handler amount send s, Sent cfg false amount stream send s →
    ∃ enough, ∀ fuel ≥ enough, ∃ ret res,
      result (defaultHttpClientDo cfg (clientSource cfg fuel) handler send fuel s) = .ok (ret, res)

/-- The stream ends where the client waits for more: inside the status line, the headers, a
payload, or the line before or after a chunk. -/
def EndsInside (cfg : Config) (stream : Bytes) : Prop :=
  Leaves cfg cfg.chunkSize stream .missing ∨ ∃ body,
    Leaves cfg cfg.chunkSize stream (.unnoticed body)

theorem not_terminates {cfg : Config} {stream : Bytes} (inside : EndsInside cfg stream) :
    ¬ Terminates cfg stream := by
  intro terminates
  obtain ⟨enough, ends⟩ :=
    terminates accept oneByOne (pure 0) _ (start_sent cfg stream false oneByOne)
  have fueled : 2 * stream.length + 6 ≤ max enough (2 * stream.length + 6) := Nat.le_max_right _ _
  obtain ⟨ret, res, eq⟩ := ends _ (Nat.le_max_left enough (2 * stream.length + 6))
  rcases inside with leaves | ⟨body, leaves⟩
  · have gives : Outcome.Gives cfg false _ .missing := defaultHttpClientDo_oneByOne leaves fueled
    cases eq.symm.trans gives
  · have gives : Outcome.Gives cfg false _ (.unnoticed body) :=
      defaultHttpClientDo_oneByOne leaves fueled
    cases eq.symm.trans gives

/-- The client returns after the connection is closed exactly if the stream does not end where
the client waits for more, and everything that the client gets to fits. -/
theorem terminates_iff (cfg : Config) (stream : Bytes) :
    Terminates cfg stream ↔ ¬ EndsInside cfg stream ∧ ¬ TooLong cfg stream := by
  constructor
  · intro terminates
    refine ⟨fun inside => not_terminates inside terminates, fun long => ?_⟩
    obtain ⟨enough, ends⟩ :=
      terminates accept (greedy cfg) (pure 0) _ (start_sent cfg stream false (greedy cfg))
    obtain ⟨ret, res, eq⟩ := ends _ (Nat.le_max_left enough (2 * stream.length + 6))
    cases eq.symm.trans (long.overflows false (Nat.le_max_right _ _))
  · rintro ⟨outside, short⟩ handler amount send s sent
    refine ⟨2 * stream.length + 6, fun fuel enough => ?_⟩
    have fits : result (defaultHttpClientDo cfg (clientSource cfg fuel) handler send fuel s) ≠
        .error .overflow := defaultHttpClientDo_inBounds short sent enough
    obtain ⟨outcome, leaves⟩ := leaves_total cfg cfg.chunkSize stream
    rcases defaultHttpClientDo_cases leaves sent enough with beyond | ⟨res, refused⟩ | gives
    · exact absurd beyond fits
    · exact ⟨_, res, refused⟩
    · cases outcome with
      | overflow => exact absurd gives fits
      | refused =>
          obtain ⟨res, eq⟩ := gives
          exact ⟨_, res, eq⟩
      | missing => exact absurd (.inl leaves) outside
      | unnoticed body => exact absurd (.inr ⟨body, leaves⟩) outside
      | done body =>
          obtain ⟨res, eq, -⟩ := gives
          exact ⟨_, res, eq⟩

/-- Nothing arrives before the connection is closed. -/
theorem not_terminates_nothing : ¬ Terminates .standard [] :=
  not_terminates (.inl (.cut ⟨rfl, by decide⟩))

end AcnSdk.Http
