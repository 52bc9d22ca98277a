/-
Runs of `cycle`.

`MQTTRun` calls it over and over, and in between the peer sends packets. `MQTTDeserialize_ack` sets
nothing, so that PUBREC and PUBREL are answered with whatever is in a local variable; and a PINGRESP
is never seen, so that nothing takes back that a ping is outstanding.

* `cycle_takes` — what a call does with a packet.
* `takeTurns_serves` — however arrivals and calls come one after the other, each packet is taken
  once and in its order, and no call that succeeds leaves one unanswered.
-/

import AcnSdk.Mqtt.BufferedRead
import AcnSdk.Mqtt.Keepalive

namespace AcnSdk.Mqtt.Client

open AcnSdk.Lib Prog

variable {τ φ : Type} {env : Env} {w w' w'' : World τ}

/-! ### The cases -/

/-- A publish packet at the front of the read buffer is understood. -/
theorem deserialize_prefix {topic payload : Bytes} {message : MQTTMessage}
    (wf : (Packet.publish topic message payload).WellFormed) {block : Bytes}
    (ahead : (Packet.publish topic message payload).bytes <+: block) :
    ∃ p, Packets.mqttDeserializePublish block = .ok (1, some p) ∧ p.topicName.text = topic ∧
      (⟨p.qos, p.retained, p.dup⟩ : Nat × Bool × Bool) =
        (message.qos, message.retained, message.dup) ∧
      p.packetid = (if 0 < message.qos then some message.id else none) ∧
      p.payloadlen = payload.length ∧ copyFrom block p.payload payload.length = .ok payload := by
  obtain ⟨⟨pos, topic_lt, qos_le, id_lt⟩, short⟩ := wf
  obtain ⟨rest, rfl⟩ := ahead
  let data : Packets.PublishData := ⟨UInt8.ofNat message.dup.toNat, message.qos,
    UInt8.ofNat message.retained.toNat, UInt16.ofNat message.id, .counted topic, payload⟩
  have bit : ∀ b : Bool, ((UInt8.ofNat b.toNat).toNat % 2 == 1) = b := by decide
  have id : (UInt16.ofNat message.id).toNat = message.id := by
    rw [UInt16.toNat_ofNat']
    exact Nat.mod_eq_of_lt id_lt
  have qos : Packets.lowBits (message.qos : Int) 4 = message.qos := by
    rw [Packets.lowBits]
    omega
  have text : (Packets.MQTTString.counted topic).text = topic :=
    (if_pos pos).trans List.take_length
  have body : (Packets.Request.publish data).body =
      (Packet.publish topic message payload).body := by
    simp only [Packets.Request.body, Packets.publishBody, Packets.MQTTString.wire,
      Packet.body, data, text, id, List.append_assoc, Int.natCast_pos]
  have length : Packets.publishLength data =
      (Packet.publish topic message payload).body.length := by
    rw [← body]
    exact (Packets.length_publishBody (.inl rfl)).symm
  have packet : (Packets.Request.publish data).packet =
      (Packet.publish topic message payload).bytes := by
    rw [Packets.Request.packet, body, Packets.Request.remLen, length, Packets.Request.header, bit,
      bit, qos]
    rfl
  obtain ⟨place, read, there, inside⟩ := Packets.deserialize_publish (p := data) (.inl rfl)
    (by rw [text]; exact topic_lt) ⟨Int.natCast_nonneg _,
      Int.ofNat_lt.mpr (Nat.lt_of_le_of_lt qos_le (by decide))⟩
    (by rw [length]; exact short) rest
  rw [packet] at read there inside
  have again : (Packets.MQTTString.counted (Packets.MQTTString.counted topic).text).text =
      topic := by
    rw [text, text]
  refine ⟨_, read, again, ?_, ?_, rfl, (copyFrom_eq ?_).trans (congrArg Except.ok there)⟩
  · simp only [Packets.PublishData.received, data, bit, Int.toNat_natCast]
  · simp only [Packets.PublishData.received, data, id, Int.natCast_pos]
  · rw [List.length_append]
    exact Nat.le_trans inside (Nat.le_add_right _ _)

/-- Something may have been sent, with the read buffer and the input as they are. If there was no
failure, this is what was written. -/
structure Posted (s : Bytes) (rc : Int) (w w' : World τ) : Prop where
  input : w'.input = w.input
  readbuf : w'.client.readbuf = w.client.readbuf
  room : w'.client.buf.length = w.client.buf.length
  output : ∃ t, w'.output = w.output ++ t ∧ (rc ≠ failure → t = s)

theorem Posted.of_beside {heads s : Bytes} {rc : Int} (beside : Beside heads w w')
    (wrote : rc ≠ failure → w'.output = w.output ++ s) : Posted s rc w w' := by
  obtain ⟨t, output, -⟩ := beside.wrote
  refine ⟨beside.input, beside.readbuf, beside.room, t, output, fun sent => ?_⟩
  exact List.append_cancel_left (output.symm.trans (wrote sent))

theorem Posted.nothing (rc : Int) (w : World τ) : Posted [] rc w w :=
  ⟨rfl, rfl, rfl, [], (List.append_nil _).symm, fun _ => rfl⟩

theorem success_of_ne {rc : Int} (outcome : rc = success ∨ rc = failure) (ne : rc ≠ failure) :
    rc = success := outcome.resolve_right ne

/-- An acknowledgement. -/
theorem postAck_posts (env : Env) (type : MsgType) (id : Nat) (room : 8 ≤ w.client.buf.length) :
    ∃ rc w', postAck env type id w = .ok (rc, w') ∧ (rc = success ∨ rc = failure) ∧
      Posted (ackPacket type id) rc w w' ∧ w'.app = w.app ∧
      w'.client.pingOutstanding = w.client.pingOutstanding := by
  have fits : (ackPacket type id).length ≤ w.client.buf.length := by
    change 4 ≤ _
    omega
  have serialize : mqttSerializeAck type id w = .ok (4, w.filled (ackPacket type id)) := by
    rw [mqttSerializeAck, bind_of_ok (get_apply w), if_neg (by omega),
      bind_of_ok (putBuf_front fits)]
    rfl
  obtain ⟨rc, w', run, outcome, beside⟩ := sendSerialized_beside env type id room
  have send := run
  rw [bind_of_ok serialize, if_neg (by decide)] at send
  have stored : (w.filled (ackPacket type id)).client.buf.take 4 = ackPacket type id := rfl
  refine ⟨rc, w', run, outcome, .of_beside beside fun sent => ?_, beside.app, ?_⟩
  · obtain rfl := success_of_ne outcome sent
    exact (sendPacket_wrote send).1.trans (congrArg (w.output ++ ·) stored)
  · exact (Sends.keeps _ _ (sendPacket_sends _ _ _ _ _ send)).outstanding

/-- The end of a call: it may send a ping, but not while one is outstanding. -/
theorem cycleAlive_ends (env : Env) (room : 8 ≤ w.client.buf.length) :
    ∃ rc pinged w', cycleAlive env success w = .ok (rc, w') ∧
      (rc = success ∨ rc = failure) ∧
      Posted (if pinged then zeroPacket .pingreq else []) rc w w' ∧ w'.app = w.app ∧
      w'.client.pingOutstanding = (w.client.pingOutstanding || pinged) ∧
      (pinged = true → w.client.pingOutstanding = false) := by
  obtain ⟨rc, w', run, outcome, beside⟩ := keepalive_beside env room
  have ends : cycleAlive env success w = .ok (rc, w') := by
    rw [cycleAlive, bind_of_ok run]
    rcases outcome with rfl | rfl <;> rfl
  -- without a ping the output is the same and so is the flag
  have quiet (outstanding : w'.client.pingOutstanding = w.client.pingOutstanding)
      (output : rc = success → w'.output = w.output) :
      ∃ rc pinged w', cycleAlive env success w = .ok (rc, w') ∧
        (rc = success ∨ rc = failure) ∧
        Posted (if pinged then zeroPacket .pingreq else []) rc w w' ∧ w'.app = w.app ∧
        w'.client.pingOutstanding = (w.client.pingOutstanding || pinged) ∧
        (pinged = true → w.client.pingOutstanding = false) := by
    refine ⟨rc, false, w', ends, outcome, .of_beside beside fun sent => ?_, beside.app, ?_,
      fun eq => absurd eq Bool.false_ne_true⟩
    · rw [output (success_of_ne outcome sent)]
      exact (List.append_nil _).symm
    · rw [outstanding, Bool.or_false]
  rw [keepalive, bind_of_ok (get_apply w)] at run
  by_cases off : w.client.keepAliveInterval = 0
  · rw [if_pos off] at run
    cases run
    exact quiet rfl fun _ => rfl
  · obtain ⟨w₁, look, client, output⟩ := connectionExpired_eq env w
    rw [if_neg off, bind_of_ok look] at run
    split at run
    · by_cases outstanding : w.client.pingOutstanding = true
      · rw [if_pos outstanding] at run
        cases run
        exact quiet (congrArg (·.pingOutstanding) client) fun eq => absurd eq (by decide)
      · rw [if_neg outstanding] at run
        have idle : w.client.pingOutstanding = false := Bool.eq_false_of_not_eq_true outstanding
        rw [← client] at idle
        obtain ⟨-, ⟨rfl, set, pinged⟩ | ⟨rfl, clear, -⟩⟩ := sendPing_cases
          (show 2 ≤ w₁.client.buf.length by rw [client]; omega) idle run
        · rw [client] at idle
          refine ⟨success, true, w', ends, outcome, .of_beside beside fun _ => ?_, beside.app, ?_,
            fun _ => idle⟩
          · rw [pinged, output]
            rfl
          · rw [set, idle]
            rfl
        · rw [client] at idle
          exact quiet (clear.trans idle.symm) fun eq => absurd eq (by decide)
    · cases run
      exact quiet (congrArg (·.pingOutstanding) client) fun _ => output

/-- The answer to a packet. That to PUBREC or PUBREL does not go by its packet id. -/
def answerTo (unset : Nat) : Packet → Bytes
  | .publish _ message _ =>
      if message.qos = 1 then ackPacket .puback message.id
      else if message.qos = 2 then ackPacket .pubrec message.id
      else []
  | .ack .pubrec _ => ackPacket .pubrel unset
  | .ack .pubrel _ => ackPacket .pubcomp unset
  | _ => []

/-- The calls of handlers that a packet leads to. A message without a packet id has any. -/
def handed (s : Session φ) (unset : Nat) : Packet → List (MessageData φ)
  | .publish topic message payload =>
      (deliverMessage s.handlers s.default topic).2.map
        (MessageData.mk · topic { message with id := if 0 < message.qos then message.id else unset }
          payload)
  | _ => []

/-- The calls are recorded. -/
def Session.call (s : Session φ) (calls : List (MessageData φ)) : Session φ :=
  { s with calls := s.calls ++ calls }

/-- What the `switch` does: these handlers are called and this is the answer, unless it fails. -/
structure Switched (calls : List (MessageData φ)) (answer : Bytes) (packetType rc : Int)
    (exit : Bool) (w w' : World (Session φ)) : Prop where
  posted : Posted answer rc w w'
  app : w'.app = w.app.call calls
  outstanding : w'.client.pingOutstanding = w.client.pingOutstanding
  outcome : exit = false ∧ rc = success ∨ exit = true ∧ (rc = failure ∨ rc = packetType)

/-- The `switch` does with a packet what it is to do. -/
abbrev SwitchedOn (unset : Nat) (p : Packet) (rc : Int) (exit : Bool) (w w' : World (Session φ)) :
    Prop :=
  Switched (handed w.app unset p) (answerTo unset p) p.type.code rc exit w w'

/-- Nothing is called. -/
theorem Session.call_nil (s : Session φ) : s.call [] = s := by
  rw [call, List.append_nil]

/-- The answer to a message, whatever its packet id was if it has none. -/
theorem sendAck_posts (env : Env) (unset : Nat) {message : MQTTMessage} (topic payload : Bytes)
    (qos_le : message.qos ≤ 2) (room : 8 ≤ w.client.buf.length) :
    ∃ rc w', sendAck env { message with id := if 0 < message.qos then message.id else unset } 0 w =
        .ok (rc, w') ∧
      (rc = success ∨ rc = failure) ∧
      Posted (answerTo unset (.publish topic message payload)) rc w w' ∧ w'.app = w.app ∧
      w'.client.pingOutstanding = w.client.pingOutstanding := by
  rw [sendAck, answerTo]
  dsimp only
  obtain none | once | twice : message.qos = 0 ∨ message.qos = 1 ∨ message.qos = 2 := by omega
  · have not_once : ¬ message.qos = 1 := by omega
    have not_twice : ¬ message.qos = 2 := by omega
    rw [if_pos none, if_neg not_once, if_neg not_twice]
    exact ⟨success, w, rfl, .inl rfl, .nothing _ w, rfl, rfl⟩
  · have not_none : ¬ message.qos = 0 := by omega
    rw [if_pos (Nat.pos_of_ne_zero not_none), if_neg not_none, if_pos once, if_pos once]
    exact postAck_posts env .puback message.id room
  · have not_none : ¬ message.qos = 0 := by omega
    have not_once : ¬ message.qos = 1 := by omega
    rw [if_pos (Nat.pos_of_ne_zero not_none), if_neg not_none, if_neg not_once, if_neg not_once,
      if_pos twice, if_pos twice]
    exact postAck_posts env .pubrec message.id room

theorem casePublish_switches (env : Env) (unset : Nat) {w : World (Session φ)}
    (room : 8 ≤ w.client.buf.length) {topic payload : Bytes} {message : MQTTMessage}
    (wf : (Packet.publish topic message payload).WellFormed)
    (ahead : (Packet.publish topic message payload).bytes <+: w.client.readbuf) :
    ∃ rc exit w', casePublish env unset w = .ok ((rc, exit), w') ∧
      SwitchedOn unset (.publish topic message payload) rc exit w w' := by
  obtain ⟨p, read, topicName, fields, packetid, payloadlen, copied⟩ := deserialize_prefix wf ahead
  have small : payload.length < 2 ^ 32 := by
    have := wf.short
    rw [Packet.length_publish_body] at this
    omega
  have length : (p.payloadlen % 2 ^ 32).toNat = payload.length := by
    rw [payloadlen]
    omega
  obtain ⟨qos, retained, dup⟩ : p.qos = message.qos ∧ p.retained = message.retained ∧
      p.dup = message.dup := by
    simpa only [Prod.mk.injEq] using fields
  have passed : (⟨p.qos, p.retained, p.dup, p.packetid.getD unset⟩ : MQTTMessage) =
      { message with id := if 0 < message.qos then message.id else unset } := by
    rw [qos, retained, dup, packetid]
    split_ifs <;> rfl
  let w₁ : World (Session φ) :=
    { w with app := w.app.call (handed w.app unset (.publish topic message payload)) }
  have called : callHandlers topic
      { message with id := if 0 < message.qos then message.id else unset }
      payload w = .ok ((deliverMessage w.app.handlers w.app.default topic).1, w₁) := rfl
  have first : (lift (Packets.mqttDeserializePublish w.client.readbuf) :
      Prog (World (Session φ)) _) w = .ok ((1, some p), w) := by
    rw [read]
    rfl
  have second : (lift (copyFrom w.client.readbuf p.payload (p.payloadlen % 2 ^ 32).toNat) :
      Prog (World (Session φ)) Bytes) w = .ok (payload, w) := by
    rw [length, copied]
    rfl
  obtain ⟨rc, w', sent, outcome, posted, app, outstanding⟩ :=
    sendAck_posts env (w := w₁) unset topic payload wf.shape.2.2.1 room
  refine ⟨rc, rc = failure, w', ?_, ⟨posted.input, posted.readbuf, posted.room, posted.output⟩,
    app, outstanding, ?_⟩
  · rw [casePublish, bind_of_ok (get_apply w), bind_of_ok first]
    dsimp only
    rw [if_neg (not_not.mpr rfl), bind_of_ok second, topicName, passed, bind_of_ok called,
      bind_of_ok sent]
    rfl
  · rcases outcome with rfl | rfl
    · exact .inl ⟨rfl, rfl⟩
    · exact .inr ⟨rfl, .inl rfl⟩

theorem caseAck_switches (env : Env) {type answered : MsgType} {unset id : Nat}
    {w : World (Session φ)} (room : 8 ≤ w.client.buf.length)
    (answers : answerTo unset (.ack type id) = ackPacket answered unset) :
    ∃ rc exit w', caseAck env answered unset w = .ok ((rc, exit), w') ∧
      SwitchedOn unset (.ack type id) rc exit w w' := by
  obtain ⟨rc, w', sent, outcome, posted, app, outstanding⟩ :=
    postAck_posts env answered unset room
  refine ⟨rc, rc ≠ success, w', ?_, ⟨answers ▸ posted, ?_, outstanding, ?_⟩⟩
  · rw [caseAck, bind_of_ok sent]
    rcases outcome with rfl | rfl <;> rfl
  · rw [app]
    exact (Session.call_nil _).symm
  · rcases outcome with rfl | rfl
    · exact .inl ⟨rfl, rfl⟩
    · exact .inr ⟨rfl, .inl rfl⟩

/-- Nothing is answered. -/
theorem Switched.nothing {packetType rc : Int} {exit : Bool} (w : World (Session φ))
    (outcome : exit = false ∧ rc = success ∨ exit = true ∧ (rc = failure ∨ rc = packetType)) :
    Switched [] [] packetType rc exit w w :=
  ⟨.nothing rc w, (Session.call_nil _).symm, rfl, outcome⟩

/-- The `switch`, for each type of packet. -/
theorem cycleCase_switches (env : Env) (unset : Nat) {w : World (Session φ)}
    (room : 8 ≤ w.client.buf.length) {p : Packet} (wf : p.WellFormed) (some : p.body ≠ [])
    (ahead : p.bytes <+: w.client.readbuf) :
    ∃ rc exit w', cycleCase env unset p.type.code w = .ok ((rc, exit), w') ∧
      SwitchedOn unset p rc exit w w' := by
  cases p with
  | connack flags returnCode =>
      exact ⟨success, false, w, rfl, .nothing w (.inl ⟨rfl, rfl⟩)⟩
  | publish topic message payload => exact casePublish_switches env unset room wf ahead
  | ack type id =>
      obtain ⟨among, -⟩ := wf.shape
      simp only [List.mem_cons, List.not_mem_nil, or_false] at among
      rcases among with rfl | rfl | rfl | rfl | rfl
      · exact ⟨success, false, w, rfl, .nothing w (.inl ⟨rfl, rfl⟩)⟩
      · exact caseAck_switches env room rfl
      · exact caseAck_switches env room rfl
      · exact ⟨success, false, w, rfl, .nothing w (.inl ⟨rfl, rfl⟩)⟩
      · exact ⟨success, false, w, rfl, .nothing w (.inl ⟨rfl, rfl⟩)⟩
  | suback id codes => exact ⟨success, false, w, rfl, .nothing w (.inl ⟨rfl, rfl⟩)⟩
  | plain type => exact absurd rfl some
  | request type body =>
      have among : type ∈ [MsgType.connect, .subscribe, .unsubscribe] := wf.shape
      refine ⟨type.code, true, w, ?_, .nothing w (.inr ⟨rfl, .inr rfl⟩)⟩
      simp only [List.mem_cons, List.not_mem_nil, or_false] at among
      rcases among with rfl | rfl | rfl <;> rfl

/-! ### One call -/

/-- What a call of `cycle` did: the handlers that it called, what it wrote, whether there was a
ping, and what it returned. -/
structure Serving (calls : List (MessageData φ)) (answer wrote : Bytes) (pinged : Bool) (rc : Int)
    (rest : Bytes) (w w' : World (Session φ)) : Prop where
  input : w'.input = rest
  readbuf : w'.client.readbuf.length = w.client.readbuf.length
  buf : w'.client.buf.length = w.client.buf.length
  app : w'.app = w.app.call calls
  output : w'.output = w.output ++ wrote
  wrote : rc ≠ failure → wrote = answer ++ if pinged then zeroPacket .pingreq else []
  outstanding : w'.client.pingOutstanding = (w.client.pingOutstanding || pinged)
  idle : pinged = true → w.client.pingOutstanding = false

/-- A call behind its `switch`. -/
theorem cycle_ends {unset : Nat} {w w₁ w₂ : World (Session φ)} {packetType rc : Int} {exit : Bool}
    {rest answer : Bytes} {calls : List (MessageData φ)} (room : 8 ≤ w.client.buf.length)
    (read : readPacket env w = .ok (packetType, w₁)) (fetched : Fetched rest w w₁)
    (switch : cycleCase env unset packetType w₁ = .ok ((rc, exit), w₂))
    (switched : Switched calls answer packetType rc exit w₁ w₂) :
    ∃ wrote pinged rc' w', cycle env unset w = .ok (rc', w') ∧
      (rc' = failure ∨ rc' = packetType) ∧ Serving calls answer wrote pinged rc' rest w w' := by
  obtain ⟨readbuf, length, client⟩ := fetched.client
  have buf : w₂.client.buf.length = w.client.buf.length := by
    rw [switched.posted.room, client]
  have size : w₂.client.readbuf.length = w.client.readbuf.length := by
    rw [switched.posted.readbuf, client]
    exact length
  have app : w₂.app = w.app.call calls := by rw [switched.app, fetched.app]
  have outstanding : w₂.client.pingOutstanding = w.client.pingOutstanding := by
    rw [switched.outstanding, client]
  obtain ⟨t, output, answered⟩ := switched.posted.output
  rw [fetched.output] at output
  rw [cycle, bind_of_ok read, bind_of_ok switch]
  rcases switched.outcome with ⟨rfl, rfl⟩ | ⟨rfl, outcome⟩
  · obtain ⟨rc', pinged, w₃, run, outcome, posted, app', outstanding', idle⟩ :=
      cycleAlive_ends env (w := w₂) (by rw [buf]; exact room)
    obtain ⟨t', output', pings⟩ := posted.output
    refine ⟨t ++ t', pinged, if rc' = success then packetType else rc', w₃, ?_, ?_, ?_⟩
    · dsimp only
      rw [if_neg Bool.false_ne_true, bind_of_ok run]
      rfl
    · rcases outcome with rfl | rfl
      · exact .inr rfl
      · exact .inl rfl
    · refine ⟨posted.input.trans (switched.posted.input.trans fetched.input), ?_, ?_,
        app'.trans app, ?_, fun sent => ?_, ?_, fun ping => ?_⟩
      · rw [posted.readbuf, size]
      · rw [posted.room, buf]
      · rw [output', output, List.append_assoc]
      · have alive : rc' ≠ failure := by
          rintro rfl
          exact sent rfl
        rw [answered (by decide), pings alive]
      · rw [outstanding', outstanding]
      · rw [← outstanding]
        exact idle ping
  · refine ⟨t, false, rc, w₂, ?_, outcome, ?_⟩
    · dsimp only
      rw [if_pos rfl]
      rcases outcome with rfl | rfl
      · rfl
      · change Except.ok (if rc = success then rc else rc, w₂) = _
        rw [ite_self]
    · refine ⟨switched.posted.input.trans fetched.input, size, buf, app, output, fun sent => ?_, ?_,
        nofun⟩
      · rw [answered sent]
        exact (List.append_nil _).symm
      · rw [outstanding, Bool.or_false]

/-- The packet gets to the `switch`: there is something behind its fixed header, and room for it. -/
def Seen (n : Nat) (p : Packet) : Prop := p.body ≠ [] ∧ p.bytes.length ≤ n

instance (n : Nat) (p : Packet) : Decidable (Seen n p) := by
  unfold Seen
  infer_instance

/-- The handlers that are to be called for what was taken. -/
def dueCalls (n : Nat) (session : Session φ) (unset : Nat) (taken : Option Packet) :
    List (MessageData φ) :=
  (taken.filter fun p => Seen n p).elim [] (handed session unset)

/-- The answer that is to be given. -/
def dueAnswer (n unset : Nat) (taken : Option Packet) : Bytes :=
  (taken.filter fun p => Seen n p).elim [] (answerTo unset)

/-- A call of `cycle`: the packet that it took, what it wrote, whether there was a ping, and what it
returned. -/
structure Served where
  unset : Nat
  taken : Option Packet
  wrote : Bytes
  pinged : Bool
  rc : Int

/-- A call that does not fail gave its answer. It returns what `readPacket` made of the packet. -/
structure Served.Sound (n : Nat) (s : Served) : Prop where
  wrote : s.rc ≠ failure →
    s.wrote = dueAnswer n s.unset s.taken ++ if s.pinged then zeroPacket .pingreq else []
  rc : ∀ p ∈ s.taken, s.rc = failure ∨ s.rc = seenAs n p

/-- What a call did from `w` to `w'`. -/
abbrev Served.Serves (s : Served) (rest : Bytes) (w w' : World (Session φ)) : Prop :=
  Serving (dueCalls w.client.readbuf.length w.app s.unset s.taken)
    (dueAnswer w.client.readbuf.length s.unset s.taken) s.wrote s.pinged s.rc rest w w'

/-- A call from its `switch` on. -/
theorem cycle_served (unset : Nat) (taken : Option Packet) (rc : Int) (exit : Bool)
    {w w₁ : World (Session φ)} (w₂ : World (Session φ)) {packetType : Int} {rest : Bytes}
    (room : 8 ≤ w.client.buf.length)
    (read : readPacket env w = .ok (packetType, w₁)) (fetched : Fetched rest w w₁)
    (seen : ∀ p ∈ taken, packetType = seenAs w.client.readbuf.length p)
    (switch : cycleCase env unset packetType w₁ = .ok ((rc, exit), w₂))
    (switched : Switched (dueCalls w.client.readbuf.length w.app unset taken)
      (dueAnswer w.client.readbuf.length unset taken) packetType rc exit w₁ w₂) :
    ∃ (s : Served) (w' : World (Session φ)), cycle env unset w = .ok (s.rc, w') ∧
      s.taken = taken ∧ s.Sound w.client.readbuf.length ∧ s.Serves rest w w' := by
  obtain ⟨wrote, pinged, rc', w', run, outcome, serving⟩ :=
    cycle_ends room read fetched switch switched
  refine ⟨⟨unset, taken, wrote, pinged, rc'⟩, w', run, rfl, ⟨serving.wrote, fun p here => ?_⟩,
    serving⟩
  rw [← seen p here]
  exact outcome

/-- What a call does with a packet. -/
theorem cycle_takes (full : Full env) (unset : Nat) {w : World (Session φ)}
    (room : 8 ≤ w.client.buf.length) (large : 7 ≤ w.client.readbuf.length) {p : Packet}
    (wf : p.WellFormed) {rest : Bytes} (input : w.input = p.bytes ++ rest) :
    ∃ (s : Served) (w' : World (Session φ)), cycle env unset w = .ok (s.rc, w') ∧
      s.taken = some p ∧ s.Sound w.client.readbuf.length ∧ s.Serves rest w w' := by
  obtain ⟨w₁, read, fetched, ahead⟩ := readPacket_takes full large wf input
  obtain ⟨readbuf, length, client⟩ := fetched.client
  have room₁ : 8 ≤ w₁.client.buf.length := by
    rw [client]
    exact room
  have ends := fun rc exit w₂ => cycle_served unset (some p) rc exit w₂ room read fetched
    fun q here => by cases here; rfl
  by_cases handled : Seen w.client.readbuf.length p
  · have seen : seenAs w.client.readbuf.length p = p.type.code := by
      rw [seenAs, if_neg handled.1, if_pos handled.2]
    have due : (some p).filter (fun p => decide (Seen w.client.readbuf.length p)) = some p := by
      simp [handled]
    obtain ⟨rc, exit, w₂, switch, switched⟩ :=
      cycleCase_switches env unset room₁ wf handled.1 (ahead handled.1 handled.2)
    rw [← seen] at switch
    refine ends rc exit w₂ switch ?_
    rw [SwitchedOn, fetched.app] at switched
    rw [dueCalls, dueAnswer, due, seen]
    exact switched
  · have due : (some p).filter (fun p => decide (Seen w.client.readbuf.length p)) = none := by
      simp [handled]
    rw [dueCalls, dueAnswer, due] at ends
    rw [seenAs] at ends
    by_cases none : p.body = []
    · rw [if_pos none] at ends
      exact ends success false w₁ rfl (.nothing w₁ (.inl ⟨rfl, rfl⟩))
    · have long : ¬ p.bytes.length ≤ w.client.readbuf.length := fun fits => handled ⟨none, fits⟩
      rw [if_neg none, if_neg long] at ends
      exact ends bufferOverflow true w₁ rfl (.nothing w₁ (.inr ⟨rfl, .inr rfl⟩))

theorem cycleCase_negative (env : Env) (unset : Nat) {packetType : Int} (negative : packetType < 0)
    (w : World (Session φ)) :
    cycleCase env unset packetType w = .ok ((packetType, true), w) := by
  have known : ∀ t : MsgType, ¬ packetType = t.code := fun t => by omega
  have listed : packetType ∉ [MsgType.connack, .puback, .suback, .unsuback].map
      fun t => (t.code : Int) := by
    rw [List.mem_map]
    rintro ⟨t, -, same⟩
    exact known t same.symm
  rw [cycleCase, if_neg (by omega), if_neg listed, if_neg (known _), if_neg (known _),
    if_neg (known _), if_neg (known _), if_neg (known _)]
  rfl

/-- A call that gets nothing. -/
theorem cycle_idle (unset : Nat) {w : World (Session φ)} (room : 8 ≤ w.client.buf.length)
    (large : 7 ≤ w.client.readbuf.length) (silent : readResult env w 1 ≤ 0) :
    ∃ (s : Served) (w' : World (Session φ)), cycle env unset w = .ok (s.rc, w') ∧
      s.taken = none ∧ s.Sound w.client.readbuf.length ∧ s.Serves w.input w w' := by
  have fits : 0 + (1 : Int).toNat ≤ w.client.readbuf.length := by
    change 0 + 1 ≤ _
    omega
  let w₁ : World (Session φ) := { w.read env 1 with
    client.readbuf := store w.client.readbuf 0 (readBytes env w 1) }
  have read : readPacket env w = .ok (readResult env w 1, w₁) := by
    rw [readPacket, bind_of_ok (readInto_eq fits), if_pos (by omega)]
    rfl
  have input : w₁.input = w.input := by
    change w.input.drop (readTakes env w 1) = w.input
    rw [readTakes_one silent, List.drop_zero]
  have fetched : Fetched w.input w w₁ :=
    ⟨input, ⟨_, length_store_readBytes fits, rfl⟩, rfl, rfl⟩
  have ends := fun rc exit => cycle_served unset none rc exit w₁ room read fetched
    fun p here => absurd here (Option.not_mem_none p)
  by_cases zero : readResult env w 1 = 0
  · refine ends success false ?_ (.nothing w₁ (.inl ⟨rfl, rfl⟩))
    rw [zero]
    rfl
  · exact ends _ true (cycleCase_negative env unset (by omega) w₁)
      (.nothing w₁ (.inr ⟨rfl, .inr rfl⟩))

/-! ### Runs -/

/-- A turn of the peer, which sends a packet, or of the client, which calls `cycle`. -/
inductive Turn where
  | arrive (p : Packet)
  | call (env : Env) (unset : Nat)

/-- The turns in their order, with the results of the calls. -/
def takeTurns : List Turn → Prog (World (Session φ)) (List Int)
  | [] => return []
  | .arrive p :: ts => do
      modify fun w => { w with input := w.input ++ p.bytes }
      takeTurns ts
  | .call env unset :: ts => do
      let rc ← cycle env unset
      let rcs ← takeTurns ts
      return rc :: rcs

/-- The packets that arrive. -/
def arrivals : List Turn → List Packet
  | [] => []
  | .arrive p :: ts => p :: arrivals ts
  | .call _ _ :: ts => arrivals ts

/-- Packets are well-formed and arrive whole, and a call reads all that it asks for, or nothing. -/
def Turn.Fair : Turn → Prop
  | arrive p => p.WellFormed
  | call env _ => Full env ∨ ∀ k n, env.read k n ≤ 0

theorem dueCalls_call (n : Nat) (session : Session φ) (calls : List (MessageData φ)) (unset : Nat)
    (taken : Option Packet) :
    dueCalls n (session.call calls) unset taken = dueCalls n session unset taken := by
  rw [dueCalls, dueCalls]
  cases taken.filter fun p => decide (Seen n p) with
  | none => rfl
  | some p => cases p <;> rfl

theorem Session.call_call (s : Session φ) (calls calls' : List (MessageData φ)) :
    (s.call calls).call calls' = s.call (calls ++ calls') := by
  rw [call, call, call, List.append_assoc]

/-- A call takes the first of the packets that wait, or none. -/
theorem call_serves {unset : Nat} (fair : (Turn.call env unset).Fair) {w : World (Session φ)}
    (room : 8 ≤ w.client.buf.length) (large : 7 ≤ w.client.readbuf.length) {waiting : List Packet}
    (wf : ∀ p ∈ waiting, p.WellFormed) (input : w.input = waiting.flatMap Packet.bytes) :
    ∃ (s : Served) (behind : List Packet) (w' : World (Session φ)),
      cycle env unset w = .ok (s.rc, w') ∧ waiting = s.taken.toList ++ behind ∧
      s.Sound w.client.readbuf.length ∧ s.Serves (behind.flatMap Packet.bytes) w w' := by
  -- nothing is read: the input stays
  have idle (silent : readResult env w 1 ≤ 0) :
      ∃ (s : Served) (behind : List Packet) (w' : World (Session φ)),
        cycle env unset w = .ok (s.rc, w') ∧ waiting = s.taken.toList ++ behind ∧
        s.Sound w.client.readbuf.length ∧ s.Serves (behind.flatMap Packet.bytes) w w' := by
    obtain ⟨s, w', run, taken, sound, serves⟩ := cycle_idle unset room large silent
    refine ⟨s, waiting, w', run, by rw [taken]; rfl, sound, ?_⟩
    rw [← input]
    exact serves
  rcases fair with full | silent
  · cases waiting with
    | nil =>
        refine idle ?_
        rw [readResult, full, input]
        decide
    | cons p ps =>
        rw [List.flatMap_cons] at input
        obtain ⟨s, w', run, taken, sound, serves⟩ :=
          cycle_takes full unset room large (wf p List.mem_cons_self) input
        exact ⟨s, ps, w', run, by rw [taken]; rfl, sound, serves⟩
  · refine idle ?_
    rw [readResult, if_pos (silent _ _)]
    exact silent _ _

/-- In any order of arrivals and calls: each packet is taken by one call, in the order of their
arrival, or still waits as it was sent; the handlers are called with the messages of the packets
taken, once for each; and what the calls wrote is the answers to these packets, but for the calls
that failed. At most one ping is sent in all, since nothing takes it back. -/
theorem takeTurns_serves {turns : List Turn} (fair : ∀ t ∈ turns, t.Fair) {w : World (Session φ)}
    (room : 8 ≤ w.client.buf.length) (large : 7 ≤ w.client.readbuf.length) {waiting : List Packet}
    (wf : ∀ p ∈ waiting, p.WellFormed) (input : w.input = waiting.flatMap Packet.bytes) :
    ∃ (log : List Served) (left : List Packet) (w' : World (Session φ)),
      takeTurns turns w = .ok (log.map Served.rc, w') ∧
      waiting ++ arrivals turns = log.filterMap Served.taken ++ left ∧
      w'.input = left.flatMap Packet.bytes ∧
      w'.app = w.app.call
        (log.flatMap fun s => dueCalls w.client.readbuf.length w.app s.unset s.taken) ∧
      w'.output = w.output ++ log.flatMap Served.wrote ∧
      (∀ s ∈ log, s.Sound w.client.readbuf.length) ∧
      (log.filter Served.pinged).length ≤ if w.client.pingOutstanding then 0 else 1 := by
  induction turns generalizing w waiting with
  | nil =>
      refine ⟨[], waiting, w, rfl, List.append_nil _, input, ?_, (List.append_nil _).symm, nofun,
        Nat.zero_le _⟩
      exact (Session.call_nil _).symm
  | cons t turns ih =>
      have fair' : ∀ t ∈ turns, t.Fair := fun u there => fair u (List.mem_cons_of_mem t there)
      cases t with
      | arrive p =>
          have formed : ∀ q ∈ waiting ++ [p], q.WellFormed := by
            intro q there
            rcases List.mem_append.mp there with there | here
            · exact wf q there
            · rw [List.mem_singleton.mp here]
              exact fair _ List.mem_cons_self
          obtain ⟨log, left, w', run, order, rest⟩ := ih fair'
            (w := { w with input := w.input ++ p.bytes }) room large formed
            (by rw [List.flatMap_append, List.flatMap_singleton, input])
          refine ⟨log, left, w', run, ?_, rest⟩
          rw [← order, arrivals, List.append_assoc, List.singleton_append]
      | call env unset =>
          obtain ⟨s, behind, w₁, called, rfl, sound, serves⟩ :=
            call_serves (fair _ List.mem_cons_self) room large wf input
          obtain ⟨log, left, w', run, order, input', app, output, sounds, pings⟩ := ih fair'
            (w := w₁) (by rw [serves.buf]; exact room) (by rw [serves.readbuf]; exact large)
            (fun q there => wf q (List.mem_append_right _ there)) serves.input
          rw [serves.readbuf] at app sounds
          refine ⟨s :: log, left, w', ?_, ?_, input', ?_, ?_, ?_, ?_⟩
          · rw [takeTurns, bind_of_ok called, bind_of_ok run]
            rfl
          · rw [arrivals, List.append_assoc, order, List.filterMap_cons]
            cases s.taken <;> rfl
          · rw [app, serves.app, Session.call_call, List.flatMap_cons]
            simp only [dueCalls_call]
          · rw [output, serves.output, List.flatMap_cons, List.append_assoc]
          · intro u there
            rcases List.mem_cons.mp there with rfl | there
            · exact sound
            · exact sounds u there
          · rw [serves.outstanding] at pings
            cases pinged : s.pinged with
            | false =>
                rw [List.filter_cons_of_neg (by rw [pinged]; decide)]
                rwa [pinged, Bool.or_false] at pings
            | true =>
                rw [List.filter_cons_of_pos pinged, serves.idle pinged, List.length_cons]
                rw [pinged, Bool.or_true] at pings
                exact Nat.succ_le_succ pings

/-- A client with a handler for one topic, and nothing from the peer yet. -/
def listening : World (Session Nat) where
  client := ⟨List.replicate 8 0, List.replicate 16 0, 0, true, 0, false⟩
  delivery := []
  input := []
  output := []
  reads := 0
  writes := 0
  looks := 0
  expired := fun _ => false
  received := []
  app := ⟨[⟨some [0x74], some 1⟩], none, []⟩

/-- A message arrives between two calls. -/
theorem takeTurns_serves_message :
    ∃ (log : List Served) (left : List Packet) (w' : World (Session Nat)),
      takeTurns [.call calm 0, .arrive (.publish [0x74] ⟨1, false, false, 7⟩ [0x68]), .call calm 0]
        listening = .ok (log.map Served.rc, w') ∧
      [.publish [0x74] ⟨1, false, false, 7⟩ [0x68]] = log.filterMap Served.taken ++ left ∧
      w'.input = left.flatMap Packet.bytes := by
  have fair : ∀ t ∈ [Turn.call calm 0, .arrive (.publish [0x74] ⟨1, false, false, 7⟩ [0x68]),
      .call calm 0], t.Fair := by
    intro t there
    simp only [List.mem_cons, List.not_mem_nil, or_false] at there
    rcases there with rfl | rfl | rfl
    · exact .inl fun _ _ => rfl
    · exact ⟨by simp [Packet.Shape], by decide⟩
    · exact .inl fun _ _ => rfl
  have nothing : ∀ p ∈ ([] : List Packet), p.WellFormed := List.forall_mem_nil _
  obtain ⟨log, left, w', run, order, input, -⟩ :=
    takeTurns_serves fair (w := listening) (by decide) (by decide) nothing rfl
  exact ⟨log, left, w', run, order, input⟩

end AcnSdk.Mqtt.Client
