/-
`cycle_r` called again and again on a stream of packets.

* `calls_handled` — as long as the client can take the packets, a call takes one packet whole.
* `cycleR_unhandled` — what becomes of a packet that it cannot take.
* `cycleR_inSync_iff` — after a call the stream is at a packet boundary, or the call failed, if
  and only if the packet was not too large for the client.
-/

import AcnSdk.Mqtt.Stream

namespace AcnSdk.Mqtt

open AcnSdk.Lib

/-- The bytes of some packets, one after the other. -/
def stream (ps : List Packet) : Bytes := ps.flatMap Packet.bytes

theorem stream_cons (p : Packet) (ps : List Packet) : stream (p :: ps) = p.bytes ++ stream ps :=
  List.flatMap_cons

/-- What is left to be read starts with a packet of the stream, or is nothing. -/
def AtBoundary (ps : List Packet) (left : Bytes) : Prop := ∃ n, left = stream (ps.drop n)

theorem length_stream_drop_le (ps : List Packet) {m n : Nat} (le : m ≤ n) :
    (stream (ps.drop n)).length ≤ (stream (ps.drop m)).length := by
  obtain ⟨k, rfl⟩ := Nat.exists_eq_add_of_le le
  rw [← List.drop_drop]
  generalize ps.drop m = qs
  have whole : stream qs = stream (qs.take k) ++ stream (qs.drop k) := by
    rw [stream, stream, stream, ← List.flatMap_append, List.take_append_drop]
  rw [whole, List.length_append]
  exact Nat.le_add_left _ _

/-- A part of a packet is left. -/
theorem not_atBoundary {ps rest : List Packet} {p : Packet} {n : Nat} (here : ps.drop n = p :: rest)
    {s : Bytes} (some : s ≠ []) (part : s.length < p.bytes.length) :
    ¬ AtBoundary ps (s ++ stream rest) := by
  rintro ⟨m, left⟩
  have next : ps.drop (n + 1) = rest := by
    rw [← List.drop_drop, here]
    rfl
  have pos := List.length_pos_iff.mpr some
  have length := congrArg List.length left
  rw [List.length_append] at length
  rcases Nat.lt_or_ge n m with after | before
  · have := length_stream_drop_le ps (m := n + 1) (n := m) after
    rw [next] at this
    omega
  · have := length_stream_drop_le ps before
    rw [here, stream_cons, List.length_append] at this
    omega

namespace Client

open Prog

variable {τ : Type} {env : Env} {w w' : World τ}

/-- A call of `cycle_r`. -/
structure Call (τ : Type) where
  before : World τ
  result : Int
  after : World τ

/-- `cycle_r` is called `n` times, whatever it returns. -/
def calls (env : Env) : Nat → Prog (World τ) (List (Call τ))
  | 0 => return []
  | n + 1 => do
      let before ← get
      let result ← cycleR env
      let after ← get
      let cs ← calls env n
      return ⟨before, result, after⟩ :: cs

theorem calls_succ {n : Nat} {rc : Int} {cs : List (Call τ)} {w₁ : World τ}
    (call : cycleR env w = .ok (rc, w₁)) (later : calls env n w₁ = .ok (cs, w')) :
    calls env (n + 1) w = .ok (⟨w, rc, w₁⟩ :: cs, w') := by
  rw [calls, bind_of_ok (get_apply w), bind_of_ok call, bind_of_ok (get_apply w₁),
    bind_of_ok later]
  rfl

theorem calls_succ_ok {n : Nat} {cs : List (Call τ)} (run : calls env (n + 1) w = .ok (cs, w')) :
    ∃ c cs', cs = c :: cs' ∧ c.before = w ∧ cycleR env w = .ok (c.result, c.after) ∧
      calls env n c.after = .ok (cs', w') := by
  rw [calls, bind_of_ok (get_apply w), bind_apply] at run
  obtain ⟨r, call, run⟩ := ok_of_bind run
  rw [bind_of_ok (get_apply r.2), bind_apply] at run
  obtain ⟨rs, later, run⟩ := ok_of_bind run
  cases run
  exact ⟨_, _, rfl, rfl, call, later⟩

/-- A client whose callbacks do nothing wrong, with room for what it sends. -/
structure Sound (w : World τ) : Prop where
  quiet : ∀ r ∈ w.delivery, Quiet r.callback
  room : 8 ≤ w.client.buf.length

theorem Took.sound {heads : Bytes} {p : Packet} {rest : Bytes} (took : Took heads p rest w w')
    (sound : Sound w) : Sound w' := by
  constructor
  · rw [took.delivery]
    exact sound.quiet
  · rw [took.room]
    exact sound.room

/-- There is nothing left to be read. -/
theorem cycleR_nil (full : Full env) (input : w.input = []) :
    cycleR env w = .ok (failure, w.past 1 []) := by
  have result : readResult env w 1 = failure := by
    rw [readResult, full w.reads 1, input]
    rfl
  have read : mqttread env 1 w = .ok ((failure, []), w.past 1 []) := by
    rw [mqttread_eq, readBytes, World.read, result, input, List.take_nil, List.drop_nil]
    rfl
  rw [cycleR, bind_of_ok read]
  rfl

/-- The packets are taken whole, one with each call. -/
theorem calls_handled (full : Full env) {n : Nat} {ps : List Packet} (sound : Sound w)
    (wf : ∀ p ∈ ps, p.WellFormed) (handled : ∀ p ∈ ps.take n, Handled w.client.readbuf.length p)
    (input : w.input = stream ps) :
    ∃ cs w', calls env n w = .ok (cs, w') ∧ w'.input = stream (ps.drop n) ∧ Sound w' ∧
      w'.client.readbuf.length = w.client.readbuf.length := by
  induction n generalizing w ps with
  | zero => exact ⟨[], w, rfl, input, sound, rfl⟩
  | succ n ih =>
      cases ps with
      | nil =>
          obtain ⟨cs, w', run, input', sound', length⟩ :=
            @ih (w.past 1 []) [] ⟨sound.quiet, sound.room⟩ wf
              (by rw [List.take_nil]; exact fun p mem => nomatch mem) rfl
          rw [List.drop_nil] at input' ⊢
          exact ⟨_, w', calls_succ (cycleR_nil full input) run, input', sound', length⟩
      | cons p ps =>
          rw [List.take_succ_cons] at handled
          obtain ⟨rc, w₁, call, took, -, -⟩ := cycleR_took full sound.quiet
            (wf p List.mem_cons_self) (handled p List.mem_cons_self) sound.room
            (input.trans (stream_cons p ps))
          obtain ⟨cs, w', run, input', sound', length⟩ := ih (took.sound sound)
            (fun q mem => wf q (List.mem_cons_of_mem p mem))
            (fun q mem => took.length.symm ▸ handled q (List.mem_cons_of_mem p mem)) took.input
          exact ⟨_, w', calls_succ call run, input', sound', length.trans took.length⟩

/-! ### Packets that the client cannot take -/

/-- The packets that `cycle_r` takes whole or reports, with a read buffer of `recv` bytes. -/
def Reported (recv : Nat) (p : Packet) : Prop :=
  p.body.length ≤ maxMsgLen ∧
    match p with
    | .publish topic message payload =>
        2 ≤ recv ∧ (topic.length ≤ recv ∨ (message.qos = 0 ∧ payload = []))
    | .connack _ _ | .suback _ _ => p.body.length ≤ recv
    | _ => True

theorem Handled.reported {recv : Nat} {p : Packet} (wf : p.WellFormed) (handled : Handled recv p) :
    Reported recv p := by
  refine ⟨handled.1, ?_⟩
  cases p with
  | publish topic message payload =>
      have topic_ne : 1 ≤ topic.length := wf.shape.1
      have fits : topic.length < recv := handled.2.1
      exact ⟨Nat.lt_of_le_of_lt topic_ne fits, .inl (Nat.le_of_lt fits)⟩
  | connack flags returnCode => exact handled.2
  | suback id codes => exact handled.2
  | _ => trivial

theorem readInto_overflow {i : Nat} {n : Int} (large : w.client.readbuf.length < i + n.toNat) :
    readInto env i n w = .error .overflow := by
  rw [readInto, bind_of_ok (get_apply w), if_neg (Nat.not_le.mpr large)]
  rfl

section

variable {topic payload rest : Bytes} {message : MQTTMessage}
  (wf : (Packet.publish topic message payload).WellFormed)
  (input : w.input = (Packet.publish topic message payload).body ++ rest)

include wf input

/-- A message without a payload that nobody is to answer fails before its topic is read. -/
theorem cyclePublish_empty (full : Full env) (room : 2 ≤ w.client.readbuf.length)
    (none : message.qos = 0) (empty : payload = []) :
    ∃ w', cyclePublish env (Packet.publish topic message payload).head
        (Packet.publish topic message payload).body.length w = .ok (failure, w') ∧
      w'.input = topic ++ rest ∧ w'.client.buf = w.client.buf ∧ w'.app = w.app := by
  subst empty
  have total := Packet.length_publish_body topic message []
  rw [if_neg (by omega), List.length_nil] at total
  have input : w.input = writeInt topic.length ++ (topic ++ rest) := by
    rw [input, Packet.publish_body, Packet.idField, if_neg (by omega)]
    simp only [List.append_nil, List.append_assoc]
  have gets := publishTopic_length ((Packet.publish topic message []).body.length : Int)
    (fun n => full w.reads n) input room wf.shape.2.1
  rw [if_pos (by rw [total]; omega)] at gets
  refine ⟨{ w.past 1 (topic ++ rest) with
    client.readbuf := store w.client.readbuf 0 (writeInt topic.length) }, ?_, rfl, rfl, rfl⟩
  rw [cyclePublish, bind_of_ok gets]
  rfl

/-- There is something behind the topic, which is larger than the read buffer or fills it. -/
theorem publishTopic_large (full : Full env) (room : 2 ≤ w.client.readbuf.length)
    (more : message.qos = 0 → payload ≠ []) :
    publishTopic env (Packet.publish topic message payload).body.length w =
      (do
        let len' ← readInto env 0 topic.length
        if len' ≠ topic.length then return none
        else if w.client.readbuf.length ≤ topic.length then return none
        else return some (topic.length,
          ((Packet.publish topic message payload).body.length : Int) - 2 - topic.length,
          w.client.readbuf.length - topic.length))
        { w.past 1 (topic ++ (Packet.idField message ++ (payload ++ rest))) with
          client.readbuf := store w.client.readbuf 0 (writeInt topic.length) } := by
  have total := Packet.length_publish_body topic message payload
  have input : w.input =
      writeInt topic.length ++ (topic ++ (Packet.idField message ++ (payload ++ rest))) := by
    rw [input, Packet.publish_body]
    simp only [List.append_assoc]
  have left : ¬ ((Packet.publish topic message payload).body.length : Int) - 2 ≤ topic.length := by
    rw [total]
    split
    · omega
    · next none =>
        have := List.length_pos_iff.mpr (more (by omega))
        omega
  rw [publishTopic_length _ (fun n => full w.reads n) input room wf.shape.2.1, if_neg left]

theorem cyclePublish_overflow (full : Full env) (room : 2 ≤ w.client.readbuf.length)
    (more : message.qos = 0 → payload ≠ []) (large : w.client.readbuf.length < topic.length) :
    cyclePublish env (Packet.publish topic message payload).head
      (Packet.publish topic message payload).body.length w = .error .overflow := by
  have length : (store w.client.readbuf 0 (writeInt topic.length)).length =
      w.client.readbuf.length := length_store (by change 0 + 2 ≤ _; omega)
  rw [cyclePublish, bind_apply, publishTopic_large wf input full room more, bind_apply,
    readInto_overflow]
  · rfl
  · change (store w.client.readbuf 0 (writeInt topic.length)).length < _
    omega

/-- A topic that fills the read buffer leaves no room for the payload. -/
theorem cyclePublish_filled (full : Full env) (more : message.qos = 0 → payload ≠ [])
    (room : 2 ≤ w.client.readbuf.length) (fills : topic.length = w.client.readbuf.length) :
    ∃ w', cyclePublish env (Packet.publish topic message payload).head
        (Packet.publish topic message payload).body.length w = .ok (failure, w') ∧
      w'.input = Packet.idField message ++ (payload ++ rest) ∧
      w'.client.buf = w.client.buf ∧ w'.app = w.app := by
  have length : (store w.client.readbuf 0 (writeInt topic.length)).length =
      w.client.readbuf.length := length_store (by change 0 + 2 ≤ _; omega)
  have gets := publishTopic_large wf input full room more
  rw [bind_of_ok (readInto_exact (fun n => full (w.reads + 1) n) rfl
      (by change 0 + topic.length ≤ (store w.client.readbuf 0 _).length; omega)),
    if_neg (fun ne => ne rfl), if_pos (Nat.le_of_eq fills.symm)] at gets
  let w' : World τ :=
    { w.past 2 (Packet.idField message ++ (payload ++ rest)) with
      client.readbuf := store (store w.client.readbuf 0 (writeInt topic.length)) 0 topic }
  refine ⟨w', ?_, rfl, rfl, rfl⟩
  rw [cyclePublish, bind_of_ok gets]
  rfl

end

/-- A part of the packet is left to be read, and nothing was passed on. -/
def Cut (p : Packet) (rest : Bytes) (w w' : World τ) : Prop :=
  (∃ s, s ≠ [] ∧ s.length ≤ p.body.length ∧ w'.input = s ++ rest) ∧ w'.app = w.app

/-- What becomes of a packet that the function for it does not read to the end. -/
def Breaks (run : Except Fault (Int × World τ)) (p : Packet) (rest : Bytes) (w : World τ) : Prop :=
  (¬ Reported w.client.readbuf.length p ∧ run = .error .overflow) ∨
    (Reported w.client.readbuf.length p ∧
      ∃ w', run = .ok (failure, w') ∧ Cut p rest w w' ∧ w'.client.buf = w.client.buf)

theorem cyclePublish_unhandled (full : Full env) {topic payload rest : Bytes}
    {message : MQTTMessage} (wf : (Packet.publish topic message payload).WellFormed)
    (unhandled : ¬ Handled w.client.readbuf.length (.publish topic message payload))
    (short : (Packet.publish topic message payload).body.length ≤ maxMsgLen)
    (input : w.input = (Packet.publish topic message payload).body ++ rest) :
    Breaks (cyclePublish env (Packet.publish topic message payload).head
      (Packet.publish topic message payload).body.length w) (.publish topic message payload) rest
      w := by
  have topic_ne : topic ≠ [] := List.ne_nil_of_length_pos wf.shape.1
  have total := Packet.length_publish_body topic message payload
  by_cases room : 2 ≤ w.client.readbuf.length
  · by_cases empty : message.qos = 0 ∧ payload = []
    · obtain ⟨w', run, left, buf, app⟩ := cyclePublish_empty wf input full room empty.1 empty.2
      exact .inr ⟨⟨short, room, .inr empty⟩, w', run, ⟨⟨topic, topic_ne, by omega, left⟩, app⟩, buf⟩
    · have more : message.qos = 0 → payload ≠ [] := fun none nil => empty ⟨none, nil⟩
      have large : w.client.readbuf.length ≤ topic.length :=
        Nat.not_lt.mp fun fits => unhandled ⟨short, fits, more⟩
      rcases Nat.eq_or_lt_of_le large with fills | larger
      · obtain ⟨w', run, left, buf, app⟩ := cyclePublish_filled wf input full more room fills.symm
        refine .inr ⟨⟨short, room, .inl (Nat.le_of_eq fills.symm)⟩, w', run,
          ⟨⟨Packet.idField message ++ payload, ?_, ?_, ?_⟩, app⟩, buf⟩
        · intro nil
          obtain ⟨no_id, nil⟩ := List.append_eq_nil_iff.mp nil
          have none : message.qos = 0 := by
            by_contra ne
            rw [Packet.idField, if_pos (Nat.pos_of_ne_zero ne)] at no_id
            cases no_id
          exact more none nil
        · rw [Packet.publish_body]
          simp only [List.length_append]
          omega
        · rw [left, List.append_assoc]
      · refine .inl ⟨fun reported => ?_, cyclePublish_overflow wf input full room more larger⟩
        rcases reported.2.2 with fits | none
        · exact Nat.not_le.mpr larger fits
        · exact empty none
  · refine .inl ⟨fun reported => room reported.2.1, ?_⟩
    have small : readInto env 0 2 w = .error .overflow :=
      readInto_overflow (by change _ < 0 + 2; omega)
    rw [cyclePublish, bind_apply, publishTopic, bind_apply, small]
    rfl

theorem cycled_unhandled (full : Full env) {p : Packet} (wf : p.WellFormed) {rest : Bytes}
    (unhandled : ¬ Handled w.client.readbuf.length p) (short : p.body.length ≤ maxMsgLen)
    (input : w.input = p.body ++ rest) :
    ∃ cycle, cycleCollection env p.head.type = some cycle ∧
      Breaks (cycle p.head p.body.length w) p rest w := by
  have overflows (large : w.client.readbuf.length < p.body.length) :
      readInto env 0 p.body.length w = .error .overflow := readInto_overflow (by omega)
  cases p with
  | publish topic message payload =>
      exact ⟨_, rfl, cyclePublish_unhandled full wf unhandled short input⟩
  | connack flags returnCode =>
      have large : w.client.readbuf.length < (Packet.connack flags returnCode).body.length :=
        Nat.not_le.mp fun fits => unhandled ⟨short, fits⟩
      refine ⟨_, rfl, .inl ⟨fun reported => Nat.not_le.mpr large reported.2, ?_⟩⟩
      rw [cycleConnack, bind_apply, overflows large]
      rfl
  | suback id codes =>
      have large : w.client.readbuf.length < (Packet.suback id codes).body.length :=
        Nat.not_le.mp fun fits => unhandled ⟨short, fits⟩
      refine ⟨_, rfl, .inl ⟨fun reported => Nat.not_le.mpr large reported.2, ?_⟩⟩
      rw [cycleSubscribe, bind_apply, overflows large]
      rfl
  | _ => exact absurd ⟨short, trivial⟩ unhandled

/-- What becomes of a packet that the client cannot take: a write past the end of the read buffer,
a failure, or, if it is too long, a success with its body left to be read. -/
theorem cycleR_unhandled (full : Full env) (room : 8 ≤ w.client.buf.length) {p : Packet}
    (wf : p.WellFormed) (unhandled : ¬ Handled w.client.readbuf.length p) {rest : Bytes}
    (input : w.input = p.bytes ++ rest) :
    (¬ Reported w.client.readbuf.length p ∧ (cycleR env w = .error .overflow ∨
      ∃ w', cycleR env w = .ok (1, w') ∧ Cut p rest w w')) ∨
    (Reported w.client.readbuf.length p ∧
      ∃ w', cycleR env w = .ok (failure, w') ∧ Cut p rest w w') := by
  have front := cycleR_front wf (full.exact _ _) input
  by_cases long : maxMsgLen < p.body.length
  · rw [if_pos long] at front
    have some : p.body ≠ [] := List.ne_nil_of_length_pos (Nat.lt_of_le_of_lt (Nat.zero_le _) long)
    exact .inl ⟨fun reported => Nat.not_le.mpr long reported.1,
      .inr ⟨_, front, ⟨p.body, some, Nat.le_refl _, rfl⟩, rfl⟩⟩
  · rw [if_neg long] at front
    obtain ⟨cycle, found, breaks⟩ :=
      cycled_unhandled (w := w.past (headerReads p) (p.body ++ rest)) full wf unhandled
        (Nat.not_lt.mp long) rfl
    rw [cycleBody, found] at front
    dsimp only at front
    rcases breaks with ⟨not_reported, run⟩ | ⟨reported, w₁, run, left, buf⟩
    · refine .inl ⟨not_reported, .inl ?_⟩
      rw [front, bind_apply, run]
      rfl
    · obtain ⟨rc, w', finish, outcome, beside⟩ := cycleEnd_beside env (w := w₁)
        (Nat.le_trans room (Nat.le_of_eq (congrArg List.length buf).symm)) p.head.type (.inr rfl)
      have failed : rc = failure := by
        rcases outcome with ⟨fails, -⟩ | failed
        · exact absurd fails (by decide)
        · exact failed
      subst failed
      obtain ⟨⟨s, some, part, here⟩, app⟩ := left
      refine .inr ⟨reported, w', ?_, ⟨s, some, part, beside.input.trans here⟩,
        beside.app.trans app⟩
      rw [front, bind_of_ok run]
      exact finish

/-! ### The position in the stream -/

/-- A call that ends at a packet boundary unless it fails, and takes a whole packet or fails. -/
def InSync (env : Env) (ps rest : List Packet) (w : World τ) : Prop :=
  ∃ rc w', cycleR env w = .ok (rc, w') ∧ (0 ≤ rc → AtBoundary ps w'.input) ∧
    (w'.input = stream rest ∨ rc < 0)

/-- A call that takes a whole packet. -/
def TakesWhole (env : Env) (rest : List Packet) (w : World τ) : Prop :=
  ∃ rc w', cycleR env w = .ok (rc, w') ∧ w'.input = stream rest

theorem Cut.not_whole {p : Packet} {rest : Bytes} (left : Cut p rest w w') : w'.input ≠ rest := by
  obtain ⟨⟨s, some, -, input⟩, -⟩ := left
  intro whole
  rw [input] at whole
  exact some (List.append_left_eq_self.mp whole)

theorem Cut.not_atBoundary {ps rest : List Packet} {p : Packet} {n : Nat}
    (here : ps.drop n = p :: rest) (left : Cut p (stream rest) w w') :
    ¬ AtBoundary ps w'.input := by
  obtain ⟨⟨s, some, part, input⟩, -⟩ := left
  rw [input]
  refine Mqtt.not_atBoundary here some ?_
  rw [Packet.bytes, List.length_cons, List.length_append]
  omega

section

variable (full : Full env) (sound : Sound w) {ps rest : List Packet} {p : Packet} {n : Nat}
  (here : ps.drop n = p :: rest) (wf : p.WellFormed) (input : w.input = stream (p :: rest))

include full sound wf input

theorem takesWhole_iff : TakesWhole env rest w ↔ Handled w.client.readbuf.length p := by
  rw [stream_cons] at input
  constructor
  · rintro ⟨rc, w', call, whole⟩
    by_contra unhandled
    rcases cycleR_unhandled full sound.room wf unhandled input with
      ⟨-, fault | ⟨w'', call', left⟩⟩ | ⟨-, w'', call', left⟩
    · rw [fault] at call
      cases call
    all_goals
      rw [call] at call'
      cases call'
      exact left.not_whole whole
  · intro handled
    obtain ⟨rc, w', call, took, -, -⟩ := cycleR_took full sound.quiet wf handled sound.room input
    exact ⟨rc, w', call, took.input⟩

include here

theorem inSync_iff : InSync env ps rest w ↔ Reported w.client.readbuf.length p := by
  constructor
  · rintro ⟨rc, w', call, boundary, -⟩
    by_cases handled : Handled w.client.readbuf.length p
    · exact handled.reported wf
    · rw [stream_cons] at input
      rcases cycleR_unhandled full sound.room wf handled input with
        ⟨-, fault | ⟨w'', call', left⟩⟩ | ⟨reported, -⟩
      · rw [fault] at call
        cases call
      · rw [call] at call'
        cases call'
        exact absurd (boundary (by decide)) (left.not_atBoundary here)
      · exact reported
  · intro reported
    by_cases handled : Handled w.client.readbuf.length p
    · obtain ⟨rc, w', call, whole⟩ := (takesWhole_iff full sound wf input).mpr handled
      refine ⟨rc, w', call, fun _ => ⟨n + 1, ?_⟩, .inl whole⟩
      rw [← List.drop_drop, here]
      exact whole
    · rw [stream_cons] at input
      rcases cycleR_unhandled full sound.room wf handled input with
        ⟨not_reported, -⟩ | ⟨-, w', call, -⟩
      · exact absurd reported not_reported
      · exact ⟨failure, w', call, fun pos => absurd pos (by decide), .inr (by decide)⟩

end

/-- Whatever was returned before: as long as the client could take all packets, a call takes the
next one whole if and only if the client can take it, and is in sync if and only if the packet is
taken whole or reported. -/
theorem cycleR_inSync_iff (full : Full env) (sound : Sound w) {ps : List Packet}
    (wf : ∀ p ∈ ps, p.WellFormed) (input : w.input = stream ps) (n : Nat)
    (handled : ∀ p ∈ ps.take n, Handled w.client.readbuf.length p) :
    ∃ cs w₁, calls env n w = .ok (cs, w₁) ∧ w₁.input = stream (ps.drop n) ∧
      ∀ p rest, ps.drop n = p :: rest →
        (InSync env ps rest w₁ ↔ Reported w.client.readbuf.length p) ∧
        (TakesWhole env rest w₁ ↔ Handled w.client.readbuf.length p) := by
  obtain ⟨cs, w₁, run, input₁, sound₁, length⟩ := calls_handled full sound wf handled input
  refine ⟨cs, w₁, run, input₁, fun p rest here => ?_⟩
  have wf_p : p.WellFormed := wf p (List.mem_of_mem_drop (here ▸ List.mem_cons_self))
  rw [here] at input₁
  rw [← length]
  exact ⟨inSync_iff full sound₁ here wf_p input₁, takesWhole_iff full sound₁ wf_p input₁⟩

/-- A network that gives and takes all that it is asked, and a clock that stands still. -/
def calm : Env where
  read := fun _ n => n
  lost := fun _ _ => 0
  write := fun _ n => n
  elapsed := fun _ _ => false

/-- A client with small buffers and no callbacks, connected to a peer that sends these packets. -/
def receiving (ps : List Packet) : World Unit where
  client := ⟨List.replicate 8 0, List.replicate 8 0, 0, true, 0, false⟩
  delivery := []
  input := stream ps
  output := []
  reads := 0
  writes := 0
  looks := 0
  expired := fun _ => false
  received := []
  app := ()

theorem receiving_sound (ps : List Packet) : Sound (receiving ps) where
  quiet := fun _ mem => nomatch mem
  room := Nat.le_refl 8

/-- The second of two packets. -/
theorem cycleR_inSync_ping :
    ∃ cs w₁, calls calm 1 (receiving [.plain .pingresp, .connack 0 0]) = .ok (cs, w₁) ∧
      w₁.input = stream [.connack 0 0] ∧
      ∀ p rest, [Packet.connack 0 0] = p :: rest →
        (InSync calm [.plain .pingresp, .connack 0 0] rest w₁ ↔ Reported 8 p) ∧
        (TakesWhole calm rest w₁ ↔ Handled 8 p) := by
  refine cycleR_inSync_iff (w := receiving [.plain .pingresp, .connack 0 0]) (fun _ _ => rfl)
    (receiving_sound _) ?_ rfl 1 ?_
  · intro p mem
    rcases List.mem_cons.mp mem with rfl | mem
    · have shape : MsgType.pingresp ∈ [.pingreq, .pingresp, .disconnect] := by decide
      exact ⟨shape, by decide⟩
    · obtain rfl := List.mem_singleton.mp mem
      exact ⟨trivial, by decide⟩
  · intro p mem
    obtain rfl := List.mem_singleton.mp mem
    exact ⟨Nat.zero_le _, trivial⟩

/-- A message that is longer than the client allows. -/
def longPacket : Packet := .publish [116] ⟨0, false, false, 0⟩ (List.replicate maxMsgLen 0)

theorem length_longPacket : longPacket.body.length = maxMsgLen + 3 := by
  rw [longPacket, Packet.length_publish_body, List.length_replicate]
  rfl

/-- The call is a success, and leaves the body of the packet in the stream. -/
theorem not_inSync_long :
    Full calm ∧ Sound (receiving [longPacket]) ∧ longPacket.WellFormed ∧
      (receiving [longPacket]).input = stream [longPacket] ∧
      ¬ InSync calm [longPacket] [] (receiving [longPacket]) := by
  have full : Full calm := fun _ _ => rfl
  have wf : longPacket.WellFormed := by
    refine ⟨⟨Nat.le_refl 1, by decide, Nat.zero_le 2, by decide⟩, ?_⟩
    rw [length_longPacket]
    decide
  refine ⟨full, receiving_sound _, wf, rfl, fun inSync => ?_⟩
  have reported := (inSync_iff (n := 0) full (receiving_sound _) rfl wf rfl).mp inSync
  have short := reported.1
  rw [length_longPacket] at short
  exact absurd short (by decide)

end Client

end AcnSdk.Mqtt
