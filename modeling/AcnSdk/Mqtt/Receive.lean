/-
`cycle_r` on a packet that is all there, from a network that gives each field whole.

* `decodePacket_numeral`, `publishTopic_exact`, `publishId_exact` — the fields of the packet.
* `publishBody_delivers` — the payload is passed on, and the message answered.
* `cycleR_publish` — a whole publish packet.
-/

import AcnSdk.Mqtt.Payload
import AcnSdk.Mqtt.Send
import Mathlib.Tactic.Ring

namespace AcnSdk.Mqtt.Client

open AcnSdk.Lib Prog

variable {τ : Type} {env : Env} {w : World τ}

/-! ### The fields -/

/-- The reads from `first` on to `last` bring all that they ask for. -/
def Exact (env : Env) (first last : Nat) : Prop := ∀ k n, first ≤ k → k < last → env.read k n = n

/-- The world after some reads. -/
def World.past (reads : Nat) (rest : Bytes) (w : World τ) : World τ :=
  { w with reads := w.reads + reads, input := rest }

theorem mqttread_exact {s rest : Bytes} (exact : ∀ n, env.read w.reads n = n)
    (input : w.input = s ++ rest) :
    mqttread env s.length w = .ok (((s.length : Int), s), w.past 1 rest) := by
  have result : readResult env w s.length = s.length := by
    rw [readResult, exact, input, List.length_append]
    by_cases none : s.length = 0
    · rw [if_pos (by omega)]
    · rw [if_neg (by omega), if_pos (by omega)]
  have takes : readTakes env w s.length = s.length := readTakes_of_eq result
  rw [mqttread_eq, readBytes, World.read, result, takes, input, List.take_left, List.drop_left]
  rfl

theorem readInto_exact {i : Nat} {s rest : Bytes} (exact : ∀ n, env.read w.reads n = n)
    (input : w.input = s ++ rest) (fits : i + s.length ≤ w.client.readbuf.length) :
    readInto env i s.length w = .ok ((s.length : Int), { w.past 1 rest with
      client.readbuf := store w.client.readbuf i s }) := by
  rw [readInto, bind_of_ok (get_apply _), Int.toNat_natCast, if_pos fits,
    bind_of_ok (mqttread_exact exact input)]
  rfl

theorem mqttread_byte {d : Byte} {rest : Bytes} (exact : ∀ n, env.read w.reads n = n)
    (input : w.input = d :: rest) : mqttread env 1 w = .ok ((1, [d]), w.past 1 rest) :=
  mqttread_exact (s := [d]) exact input

theorem decodeLoop_byte {d : Byte} {rest : Bytes} {fuel len : Nat} {multiplier value : Int}
    (exact : ∀ n, env.read w.reads n = n) (input : w.input = d :: rest) (short : len < 4) :
    decodeLoop env (fuel + 1) len multiplier value w =
      if 128 ≤ d.toNat then
        decodeLoop env fuel (len + 1 : Nat) (multiplier * 128)
          (value + (d.toNat % 128 : Nat) * multiplier) (w.past 1 rest)
      else .ok (((len + 1 : Nat), value + (d.toNat % 128 : Nat) * multiplier), w.past 1 rest) := by
  rw [decodeLoop, bind_of_ok (mqttread_byte exact input)]
  dsimp only
  rw [if_neg (fun ne => ne rfl), if_neg (by omega)]
  change (if 128 ≤ d.toNat then _ else _ : Prog (World τ) (Int × Int)) _ = _
  by_cases more : 128 ≤ d.toNat
  · rw [if_pos more, if_pos more]
    rfl
  · rw [if_neg more, if_neg more]
    rfl

/-- A numeral is read up to its last digit. -/
theorem decodeLoop_numeral {ds rest : Bytes} {fuel len : Nat} {multiplier value : Int}
    (numeral : Numeral ds)
    (exact : Exact env w.reads (w.reads + ds.length)) (input : w.input = ds ++ rest)
    (enough : ds.length ≤ fuel) (short : len + ds.length ≤ 4) :
    decodeLoop env fuel len multiplier value w =
      .ok (((len + ds.length : Nat), value + digitsValue ds * multiplier),
        w.past ds.length rest) := by
  induction numeral generalizing w fuel len multiplier value with
  | @last d lt =>
      obtain ⟨fuel, rfl⟩ := Nat.exists_eq_succ_of_ne_zero (Nat.ne_of_gt enough)
      rw [Nat.succ_eq_add_one,
        decodeLoop_byte (fun n => exact w.reads n (Nat.le_refl _) (Nat.lt_succ_self _))
        input short, if_neg (Nat.not_le.mpr lt), digitsValue, digitsValue]
      rfl
  | @more d ds ge numeral ih =>
      rw [List.length_cons] at exact enough short
      obtain ⟨fuel, rfl⟩ := Nat.exists_eq_succ_of_ne_zero (n := fuel) (by omega)
      have later : Exact env (w.past 1 (ds ++ rest)).reads
          ((w.past 1 (ds ++ rest)).reads + ds.length) := by
        intro k n first last
        change w.reads + 1 ≤ k at first
        change k < w.reads + 1 + ds.length at last
        exact exact k n (by omega) (by omega)
      have input' : w.input = d :: (ds ++ rest) := input
      rw [Nat.succ_eq_add_one,
        decodeLoop_byte (fun n => exact w.reads n (Nat.le_refl _) (by omega)) input'
        (by omega), if_pos ge, ih later rfl (by omega) (by omega)]
      have value_eq : value + (d.toNat % 128 : Nat) * multiplier + digitsValue ds *
          (multiplier * 128) =
          value + digitsValue (d :: ds) * multiplier := by
        rw [digitsValue]
        push_cast
        ring
      have world : (w.past 1 (ds ++ rest)).past ds.length rest = w.past (ds.length + 1) rest := by
        simp only [World.past, Nat.add_assoc, Nat.add_comm 1]
      rw [value_eq, world, List.length_cons, Nat.add_assoc, Nat.add_comm 1]

theorem decodePacket_numeral {ds rest : Bytes} (numeral : Numeral ds)
    (exact : Exact env w.reads (w.reads + ds.length)) (input : w.input = ds ++ rest)
    (short : ds.length ≤ 4) :
    decodePacket env w =
      .ok (((ds.length : Int), (digitsValue ds : Int)), w.past ds.length rest) := by
  have loop : decodeLoop env 5 (0 : Nat) 1 0 w =
      .ok (((0 + ds.length : Nat), 0 + digitsValue ds * 1), w.past ds.length rest) :=
    decodeLoop_numeral numeral exact input (by omega) (by omega)
  rw [Nat.zero_add, Int.zero_add, Int.mul_one] at loop
  exact loop

/-- The length of the topic is read. -/
theorem publishTopic_length {topic rest : Bytes} (remLen : Int)
    (exact : ∀ n, env.read w.reads n = n) (input : w.input = writeInt topic.length ++ rest)
    (fits : 2 ≤ w.client.readbuf.length) (small : topic.length < 2 ^ 16) :
    publishTopic env remLen w =
      (if remLen - 2 ≤ topic.length then return none
      else do
        let len' ← readInto env 0 topic.length
        if len' ≠ topic.length then return none
        else if w.client.readbuf.length ≤ topic.length then return none
        else return some (topic.length, remLen - 2 - topic.length,
          w.client.readbuf.length - topic.length))
        { w.past 1 rest with
          client.readbuf := store w.client.readbuf 0 (writeInt topic.length) } := by
  let readbuf := store w.client.readbuf 0 (writeInt topic.length)
  have length : readbuf.length = w.client.readbuf.length :=
    length_store (by change 0 + 2 ≤ _; omega)
  have first : readInto env 0 2 w =
      .ok (2, { w.past 1 rest with client.readbuf := readbuf }) :=
    readInto_exact (s := writeInt topic.length) exact input (by change 0 + 2 ≤ _; omega)
  have value : readInt readbuf = topic.length := readInt_writeInt small _
  rw [publishTopic, bind_of_ok first, if_neg (by decide), bind_of_ok (get_apply _)]
  dsimp only
  rw [value, length]

/-- The topic of a publish packet. -/
theorem publishTopic_exact {topic rest : Bytes} (remLen : Int)
    (exact : Exact env w.reads (w.reads + 2))
    (input : w.input = writeInt topic.length ++ (topic ++ rest))
    (topic_ne : 1 ≤ topic.length) (fits : topic.length < w.client.readbuf.length)
    (small : topic.length < 2 ^ 16) (more : topic.length < remLen - 2) :
    ∃ readbuf, readbuf.length = w.client.readbuf.length ∧ readbuf.take topic.length = topic ∧
      publishTopic env remLen w =
        .ok (some (topic.length, remLen - 2 - topic.length, w.client.readbuf.length - topic.length),
          { w.past 2 rest with client.readbuf := readbuf }) := by
  let readbuf := store w.client.readbuf 0 (writeInt topic.length)
  have length : readbuf.length = w.client.readbuf.length :=
    length_store (by change 0 + 2 ≤ _; omega)
  have length' : (store readbuf 0 topic).length = w.client.readbuf.length := by
    rw [← length]
    exact length_store (by omega)
  have first := publishTopic_length remLen (fun n => exact w.reads n (Nat.le_refl _) (by omega))
    input (by omega) small
  have second := readInto_exact (w := { w.past 1 (topic ++ rest) with client.readbuf := readbuf })
    (i := 0) (fun n => exact (w.reads + 1) n (by omega) (by omega)) rfl
    (by change 0 + topic.length ≤ readbuf.length; omega)
  refine ⟨store readbuf 0 topic, length', by simp [store], ?_⟩
  rw [first, if_neg (by omega), bind_of_ok second, if_neg (fun ne => ne rfl), if_neg (by omega)]
  rfl

/-- The packet id of a publish packet. -/
theorem publishId_exact (message : MQTTMessage) {rest : Bytes} (totalLen : Int)
    (exact : Exact env w.reads (w.reads + if 0 < message.qos then 1 else 0))
    (input : w.input = (if 0 < message.qos then writeInt message.id else []) ++ rest)
    (small : 0 < message.qos → message.id < 2 ^ 16) :
    publishId env message.qos totalLen w =
      .ok (some (if 0 < message.qos then message.id else 0,
          totalLen - if 0 < message.qos then 2 else 0),
        w.past (if 0 < message.qos then 1 else 0) rest) := by
  rw [publishId]
  split
  · next has =>
      rw [if_pos has] at exact input
      have read : mqttread env 2 w = .ok ((2, writeInt message.id), w.past 1 rest) :=
        mqttread_exact (s := writeInt message.id)
          (fun n => exact w.reads n (Nat.le_refl _) (by omega)) input
      have value : readInt (writeInt message.id) = message.id := by
        have := readInt_writeInt (small has) []
        rwa [List.append_nil] at this
      rw [bind_of_ok read]
      dsimp only
      rw [if_neg (fun ne => ne rfl), value]
      rfl
  · next none =>
      rw [if_neg none] at input
      rw [Int.sub_zero]
      change Except.ok (_, w) = Except.ok (_, { w with reads := w.reads, input := rest })
      rw [← show w.input = rest from input]

/-! ### The message -/

/-- A message as a callback sees it: its start, the pieces and its end. -/
def deliver (cb : DeliveryCallback (Prog τ)) (payloadlen : Int) (pieces : List Bytes) :
    Prog τ Int := do
  let _ ← cb.init payloadlen
  let _ ← pieces.mapM cb.process
  cb.done

/-- What answers a message. -/
def answer (message : MQTTMessage) : Bytes :=
  if message.qos = 0 then []
  else ackPacket (if message.qos = 1 then .puback else .pubrec) message.id

/-- The world after the answer. -/
def World.answered (message : MQTTMessage) (w : World τ) : World τ :=
  if message.qos = 0 then w else w.packet (answer message)

theorem World.output_answered (message : MQTTMessage) :
    (w.answered message).output = w.output ++ answer message := by
  rw [answered]
  split
  · next none => rw [answer, if_pos none, List.append_nil]
  · rfl

theorem World.input_answered (message : MQTTMessage) : (w.answered message).input = w.input := by
  rw [answered]
  split <;> rfl

theorem World.received_answered (message : MQTTMessage) :
    (w.answered message).received = w.received := by
  rw [answered]
  split <;> rfl

theorem World.answered_app (message : MQTTMessage) (app : τ) :
    World.answered message { w with app := app } = { w.answered message with app := app } := by
  rw [answered, answered]
  split <;> rfl

theorem sendAck_answers (timely : Timely env) (running : w.expired .command = false)
    {message : MQTTMessage} (qos_le : message.qos ≤ 2) (room : 4 ≤ w.client.buf.length)
    (len : Int) :
    sendAck env message len w = .ok (success, w.answered message) := by
  have serialize (type : MsgType) : mqttSerializeAck type message.id w =
      .ok (4, w.filled (ackPacket type message.id)) := by
    rw [mqttSerializeAck, bind_of_ok (get_apply w), if_neg (by omega),
      bind_of_ok (putBuf_front (s := ackPacket type message.id) room)]
    rfl
  have send (type : MsgType) : sendPacket env .command 4 (w.filled (ackPacket type message.id)) =
      .ok (success, w.packet (ackPacket type message.id)) :=
    sendPacket_filled (s := ackPacket type message.id) timely running (by simp [ackPacket]) room
  obtain none | once | twice : message.qos = 0 ∨ message.qos = 1 ∨ message.qos = 2 := by omega
  · rw [sendAck, World.answered, if_pos none, if_pos none]
    rfl
  · have answers : answer message = ackPacket .puback message.id := by
      rw [answer, if_neg (by omega), if_pos once]
    have ne : message.qos ≠ 0 := by omega
    rw [sendAck, World.answered, if_neg ne, if_neg ne, if_pos once, bind_of_ok (serialize .puback),
      answers]
    exact send .puback
  · have answers : answer message = ackPacket .pubrec message.id := by
      rw [answer, if_neg (by omega), if_neg (by omega)]
    have ne : message.qos ≠ 0 := by omega
    rw [sendAck, World.answered, if_neg ne, if_neg ne, if_neg (by omega), if_pos twice,
      bind_of_ok (serialize .pubrec), answers]
    exact send .pubrec

/-- The world `w'` is `w` after a message whose payload was passed on in pieces. The message
is answered, and what follows it is still to be read. -/
structure PassedOn (topic payload rest : Bytes) (message : MQTTMessage) (pieces : List Bytes)
    (w w' : World τ) : Prop where
  whole : pieces.flatten = payload
  nonempty : [] ∉ pieces
  input : w'.input = rest
  received : w'.received = w.received ++ [(topic, message)]
  output : w'.output = w.output ++ answer message

/-- A client that has the topic registered, and no other. The callback accepts the message. -/
structure Ready (env : Env) (cb : DeliveryCallback (Prog τ)) (topic payload : Bytes)
    (w : World τ) : Prop where
  timely : Timely env
  running : w.expired .command = false
  room : 4 ≤ w.client.buf.length
  registered : w.delivery = [⟨topic, cb⟩]
  fits : topic.length < w.client.readbuf.length
  accepts : ∃ app, cb.init payload.length w.app = .ok (0, app)

theorem deliveryOf_registered {cb : DeliveryCallback (Prog τ)} {topic : Bytes}
    (registered : w.delivery = [⟨topic, cb⟩]) (named : w.client.readbuf.take topic.length = topic) :
    deliveryOf w topic.length = some cb := by
  rw [deliveryOf, registered, named]
  simp [deliveryeq]

/-- The end of a message. -/
theorem deliverDone_sendAck {cb : DeliveryCallback (Prog τ)} {topic payload : Bytes}
    (ready : Ready env cb topic payload w) {message : MQTTMessage} (qos_le : message.qos ≤ 2)
    (named : w.client.readbuf.take topic.length = topic) (len : Int) (app : τ) :
    (deliverDone topic.length 0 >>= fun _ => sendAck env message len) { w with app := app } =
      (cb.done app).bind fun x => .ok (success, { w.answered message with app := x.2 }) := by
  have found : findDelivery topic.length { w with app := app } =
      .ok (some cb, { w with app := app }) := by
    rw [findDelivery_eq,
      deliveryOf_registered (w := { w with app := app }) ready.registered named]
  rw [bind_apply, deliverDone, if_pos rfl, bind_of_ok found, bind_apply]
  change ((((cb.done app).bind _).bind _).bind _) = _
  cases cb.done app with
  | error e => rfl
  | ok x =>
      have ack := sendAck_answers (w := { w with app := x.2 }) ready.timely ready.running qos_le
        ready.room len
      rw [World.answered_app] at ack
      exact ack

/-- The callback gets the whole payload, and the message is answered. -/
theorem publishBody_delivers {cb : DeliveryCallback (Prog τ)} {topic payload rest : Bytes}
    (ready : Ready env cb topic payload w) {message : MQTTMessage} (qos_le : message.qos ≤ 2)
    (named : w.client.readbuf.take topic.length = topic) (input : w.input = payload ++ rest)
    (brings : Brings env w.reads) :
    ∃ (pieces : List Bytes) (w' : World τ), PassedOn topic payload rest message pieces w w' ∧
      publishBody env message topic.length (w.client.readbuf.length - topic.length)
          payload.length w =
        (deliver cb payload.length pieces w.app).bind fun x =>
          .ok (success, { w' with app := x.2 }) := by
  obtain ⟨app₀, init⟩ := ready.accepts
  let restBuffer := w.client.readbuf.length - topic.length
  let w₀ : World τ := { w with received := w.received ++ [(topic, message)] }
  have size : topic.length + restBuffer = w₀.client.readbuf.length :=
    Nat.add_sub_cancel' (Nat.le_of_lt ready.fits)
  have room' : 0 < restBuffer := Nat.sub_pos_of_lt ready.fits
  obtain ⟨reads, input₁, readbuf, last, length, same, stream, run⟩ :=
    payloadLoop_refines env (w := w₀) 0 payload.length 2 (Nat.lt_succ_self _) size
  obtain ⟨whole, flat⟩ :=
    delivered_payloadReads (w := w₀) payload.length brings room' (Nat.lt_succ_self _)
      (by change _ ≤ w.input.length; rw [input, List.length_append]; omega)
  let reads' := payloadReads env restBuffer (payload.length + 1) payload.length w₀
  let pieces := delivered restBuffer reads' payload.length
  have flat : pieces.flatten = payload := by
    rw [flat]
    change w.input.take _ = _
    rw [input, List.take_left]
  let w₁ : World τ := { w₀ with reads := reads, input := rest, client.readbuf := readbuf }
  refine ⟨pieces, w₁.answered message, ?_, ?_⟩
  · constructor
    · exact flat
    · exact fun mem => delivered_ne_nil mem rfl
    · exact World.input_answered message
    · exact World.received_answered message
    · exact World.output_answered message
  · have callback : deliveryOf w₀ topic.length = some cb :=
      deliveryOf_registered ready.registered named
    have here := findDelivery_eq topic.length w₀
    rw [callback] at here
    have start : onApp (deliveryMessageInit (some cb) payload.length) w₀ =
        .ok (0, { w₀ with app := app₀ }) :=
      onApp_eq init
    have payload_read : payloadLoop env topic.length restBuffer 0
        ((payload.length : Int).toNat + 1) payload.length 2
        { w₀ with app := app₀ } = ((pieces.mapM cb.process) app₀).bind fun x =>
          .ok (some last, { w₁ with app := x.2 }) := by
      rw [Int.toNat_natCast, run [] app₀, callback, cyclePublishLoop_eq, bind_apply]
      change ((pieces.mapM cb.process app₀).bind _).bind _ = _
      cases pieces.mapM cb.process app₀ with
      | error e => rfl
      | ok x =>
          simp only [ok_bind, pure_apply]
          rw [whole, stream whole]
          simp only [if_true]
          change Except.ok
            (_, { w₁ with input := w.input.drop pieces.flatten.length, app := x.2 }) = _
          rw [flat, input, List.drop_left]
    have ready' : Ready env cb topic payload w₁ :=
      ⟨ready.timely, ready.running, ready.room, ready.registered,
        Nat.lt_of_lt_of_eq ready.fits length.symm, app₀, init⟩
    have finish := deliverDone_sendAck ready' qos_le (same.trans named) last
    have record : (modify fun w => { w with
        received := w.received ++ [(w.client.readbuf.take topic.length, message)] } :
          Prog (World τ) Unit) w = .ok ((), w₀) := by
      rw [modify_apply, named]
    rw [publishBody, bind_of_ok record, bind_of_ok here, bind_of_ok start, bind_apply, payload_read,
      deliver, bind_of_ok init, bind_apply]
    cases pieces.mapM cb.process app₀ with
    | error e => rfl
    | ok x => exact finish x.2

/-! ### The packet -/

/-- The length field of a publish packet. -/
def lengthField (topic : Bytes) (message : MQTTMessage) (payloadlen : Nat) : Bytes :=
  mqttPacketEncode (mqttSerializePublishLength message.qos topic payloadlen)

/-- How many reads the fields in front of the payload take. -/
def fieldReads (topic : Bytes) (message : MQTTMessage) (payloadlen : Nat) : Nat :=
  1 + (lengthField topic message payloadlen).length + 2 + if 0 < message.qos then 1 else 0

/-- The message as it arrives: the id is not sent along if nobody is to answer. -/
def arrived (message : MQTTMessage) : MQTTMessage :=
  { message with id := if 0 < message.qos then message.id else 0 }

/-- `cycle_publish` after the fixed header. -/
theorem cyclePublish_delivers {cb : DeliveryCallback (Prog τ)} {topic payload rest : Bytes}
    (ready : Ready env cb topic payload w) {message : MQTTMessage} (qos_le : message.qos ≤ 2)
    (id_lt : 0 < message.qos → message.id < 2 ^ 16) (topic_ne : 1 ≤ topic.length)
    (payload_ne : payload ≠ [])
    (small : mqttSerializePublishLength message.qos topic payload.length ≤ maxMsgLen)
    (input : w.input = writeInt topic.length ++ (topic ++
      ((if 0 < message.qos then writeInt message.id else []) ++ (payload ++ rest))))
    (exact : Exact env w.reads (w.reads + 2 + if 0 < message.qos then 1 else 0))
    (brings : Brings env (w.reads + 2 + if 0 < message.qos then 1 else 0)) :
    ∃ (pieces : List Bytes) (w' : World τ),
      PassedOn topic payload rest (arrived message) pieces w w' ∧
      cyclePublish env ⟨MsgType.publish.code, message.dup, message.qos, message.retained⟩
          (mqttSerializePublishLength message.qos topic payload.length) w =
        (deliver cb payload.length pieces w.app).bind fun x =>
          .ok (success, { w' with app := x.2 }) := by
  let remLen := mqttSerializePublishLength message.qos topic payload.length
  have pos : 0 < payload.length := List.length_pos_iff.mpr payload_ne
  have total : remLen = 2 + topic.length + payload.length + if 0 < message.qos then 2 else 0 := rfl
  have bound : maxMsgLen = 3400 := rfl
  have exact₁ : Exact env w.reads (w.reads + 2) := fun k n first last => exact k n first (by omega)
  let idField := if 0 < message.qos then writeInt message.id else []
  obtain ⟨readbuf, length, named, gets⟩ :=
    publishTopic_exact remLen exact₁ input topic_ne ready.fits (by omega) (by omega)
  let w₁ : World τ := { w.past 2 (idField ++ (payload ++ rest)) with client.readbuf := readbuf }
  have exact₂ : Exact env w₁.reads (w₁.reads + if 0 < message.qos then 1 else 0) := by
    intro k n first last
    change w.reads + 2 ≤ k at first
    exact exact k n (by omega) last
  have gets' := publishId_exact message (remLen - 2 - topic.length) exact₂ rfl id_lt
  have left : (remLen : Int) - 2 - topic.length - (if 0 < message.qos then 2 else 0) =
      payload.length := by
    rw [total]
    split <;> omega
  rw [left] at gets'
  have ready' : Ready env cb topic payload
      (w₁.past (if 0 < message.qos then 1 else 0) (payload ++ rest)) :=
    ⟨ready.timely, ready.running, ready.room, ready.registered,
      Nat.lt_of_lt_of_eq ready.fits length.symm, ready.accepts⟩
  obtain ⟨pieces, w', passed, body⟩ :=
    publishBody_delivers ready' (show (arrived message).qos ≤ 2 from qos_le) named rfl brings
  refine ⟨pieces, w',
    ⟨passed.whole, passed.nonempty, passed.input, passed.received, passed.output⟩, ?_⟩
  rw [cyclePublish, bind_of_ok gets]
  change (publishId env message.qos _ >>= _) w₁ = _
  rw [bind_of_ok gets', ← length]
  exact body

/-- `cycle_r` on a publish packet. -/
theorem cycleR_publish {cb : DeliveryCallback (Prog τ)} {topic payload rest : Bytes}
    (ready : Ready env cb topic payload w) {message : MQTTMessage} (qos_le : message.qos ≤ 2)
    (id_lt : 0 < message.qos → message.id < 2 ^ 16) (topic_ne : 1 ≤ topic.length)
    (payload_ne : payload ≠ [])
    (small : mqttSerializePublishLength message.qos topic payload.length ≤ maxMsgLen)
    (input : w.input = publishFront topic message payload.length ++ payload ++ rest)
    (exact : Exact env w.reads (w.reads + fieldReads topic message payload.length))
    (brings : Brings env (w.reads + fieldReads topic message payload.length)) :
    ∃ (pieces : List Bytes) (w' : World τ),
      PassedOn topic payload rest (arrived message) pieces w w' ∧
      cycleR env w = (deliver cb payload.length pieces w.app).bind fun x =>
        cycleEnd env MsgType.publish.code success { w' with app := x.2 } := by
  let remLen := mqttSerializePublishLength message.qos topic payload.length
  let head : MQTTHeader := ⟨MsgType.publish.code, message.dup, message.qos, message.retained⟩
  let ds := lengthField topic message payload.length
  let tail : Bytes := writeInt topic.length ++ (topic ++
    ((if 0 < message.qos then writeInt message.id else []) ++ (payload ++ rest)))
  have bound : maxMsgLen < 2 ^ 31 := by decide
  obtain ⟨numeral, value⟩ := mqttPacketEncode_numeral (n := remLen) (Nat.lt_of_le_of_lt small bound)
  have ds_pos : 0 < ds.length := numeral.length_pos
  have ds_le : ds.length ≤ 2 := length_digits_le (Nat.lt_of_le_of_lt small (by decide)) (by decide)
  have reads : fieldReads topic message payload.length =
      1 + ds.length + 2 + if 0 < message.qos then 1 else 0 := rfl
  have whole : w.input = head.byte :: (ds ++ tail) := by
    rw [input, publishFront]
    simp only [List.append_assoc, List.cons_append, List.nil_append]
    rfl
  have first : mqttread env 1 w = _ :=
    mqttread_byte (fun n => exact w.reads n (Nat.le_refl _) (by omega)) whole
  have header : MQTTHeader.ofByte head.byte = head :=
    MQTTHeader.ofByte_byte (by change 3 < 16; decide) (by change message.qos < 4; omega)
  let w₁ := w.past 1 (ds ++ tail)
  have later : Exact env w₁.reads (w₁.reads + ds.length) := by
    intro k n first last
    change w.reads + 1 ≤ k at first
    change k < w.reads + 1 + ds.length at last
    exact exact k n (by omega) (by omega)
  have second : decodePacket env w₁ =
      .ok (((ds.length : Int), (remLen : Int)), w₁.past ds.length tail) := by
    rw [decodePacket_numeral numeral later rfl (Nat.le_trans ds_le (by decide)), value]
    rfl
  have at_last : (w₁.past ds.length tail).reads = w.reads + 1 + ds.length := rfl
  have fields : w.reads + 1 + ds.length + 2 + (if 0 < message.qos then 1 else 0) =
      w.reads + fieldReads topic message payload.length := by
    rw [reads]
    omega
  have exact' : Exact env (w₁.past ds.length tail).reads ((w₁.past ds.length tail).reads + 2 +
      if 0 < message.qos then 1 else 0) := by
    intro k n first last
    rw [at_last] at first last
    rw [fields] at last
    exact exact k n (by omega) last
  have ready' : Ready env cb topic payload (w₁.past ds.length tail) :=
    ⟨ready.timely, ready.running, ready.room, ready.registered, ready.fits, ready.accepts⟩
  obtain ⟨pieces, w', passed, cycle⟩ :=
    cyclePublish_delivers ready' qos_le id_lt topic_ne payload_ne small rfl exact'
      (by rw [at_last, fields]; exact brings)
  refine ⟨pieces, w',
    ⟨passed.whole, passed.nonempty, passed.input, passed.received, passed.output⟩, ?_⟩
  have known : ¬(head.type < 1 ∨ 15 ≤ head.type) := by
    change ¬(3 < 1 ∨ 15 ≤ 3)
    decide
  rw [cycleR, bind_of_ok first]
  dsimp only
  rw [if_neg (fun ne => ne rfl), List.headD_cons, header, if_neg known, bind_of_ok second]
  dsimp only
  rw [if_neg (by omega), cycleBody]
  change (cyclePublish env head remLen >>= _) _ = _
  rw [bind_apply, cycle]
  change ((deliver cb payload.length pieces w.app).bind _).bind _ = _
  cases deliver cb payload.length pieces w.app with
  | error e => rfl
  | ok x => rfl

end AcnSdk.Mqtt.Client
