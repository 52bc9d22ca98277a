/-
`cycle_r` on any well-formed packet, from a network whose reads bring all that they ask for.
The fixed header and a packet that is only read need so many reads as there are bytes and chunks.

* `cycleR_front` — the fixed header, and the packets that are too long for the client.
* `drainLoop_exact` — the packets that `cycle_r` only reads.
* `cyclePublish_whole` — publish packets, whatever the callback of the topic does.
-/

import AcnSdk.Mqtt.Beside

namespace AcnSdk.Mqtt

open AcnSdk.Lib

/-- A packet of one of the fourteen types. -/
inductive Packet where
  | connack (flags returnCode : Byte)
  | publish (topic : Bytes) (message : MQTTMessage) (payload : Bytes)
  /-- PUBACK, PUBREC, PUBREL, PUBCOMP and UNSUBACK. -/
  | ack (type : MsgType) (id : Nat)
  | suback (id : Nat) (codes : Bytes)
  /-- PINGREQ, PINGRESP and DISCONNECT. -/
  | plain (type : MsgType)
  /-- CONNECT, SUBSCRIBE and UNSUBSCRIBE. -/
  | request (type : MsgType) (body : Bytes)
deriving DecidableEq, Repr

namespace Packet

def type : Packet → MsgType
  | connack _ _ => .connack
  | publish _ _ _ => .publish
  | ack type _ => type
  | suback _ _ => .suback
  | plain type => type
  | request type _ => type

/-- The fixed header. -/
def head : Packet → MQTTHeader
  | publish _ message _ => ⟨MsgType.publish.code, message.dup, message.qos, message.retained⟩
  | ack type _ => ⟨type.code, false, if type = .pubrel then 1 else 0, false⟩
  | request type _ => ⟨type.code, false, if type = .connect then 0 else 1, false⟩
  | p => ⟨p.type.code, false, 0, false⟩

/-- What follows the fixed header. -/
def body : Packet → Bytes
  | connack flags returnCode => [flags, returnCode]
  | publish topic message payload => writeInt topic.length ++ (topic ++
      ((if 0 < message.qos then writeInt message.id else []) ++ payload))
  | ack _ id => writeInt id
  | suback id codes => writeInt id ++ codes
  | plain _ => []
  | request _ body => body

def bytes (p : Packet) : Bytes := p.head.byte :: (mqttPacketEncode p.body.length ++ p.body)

/-- The fields are those of the type. -/
def Shape : Packet → Prop
  | connack _ _ => True
  | publish topic message _ =>
      1 ≤ topic.length ∧ topic.length < 2 ^ 16 ∧ message.qos ≤ 2 ∧ message.id < 2 ^ 16
  | ack type id => type ∈ [.puback, .pubrec, .pubrel, .pubcomp, .unsuback] ∧ id < 2 ^ 16
  | suback id codes => id < 2 ^ 16 ∧ codes ≠ []
  | plain type => type ∈ [.pingreq, .pingresp, .disconnect]
  | request type _ => type ∈ [.connect, .subscribe, .unsubscribe]

/-- A packet that can be sent. -/
structure WellFormed (p : Packet) : Prop where
  shape : p.Shape
  short : p.body.length < 128 ^ 4

/-- The client has a function for the type. -/
def Cycled (p : Packet) : Prop := p.type = .connack ∨ p.type = .publish ∨ p.type = .suback

instance (p : Packet) : Decidable p.Cycled := inferInstanceAs (Decidable (_ ∨ _ ∨ _))

theorem WellFormed.cycled_cases {p : Packet} (wf : p.WellFormed) (cycled : p.Cycled) :
    (∃ flags returnCode, p = connack flags returnCode) ∨
      (∃ topic message payload, p = publish topic message payload) ∨
      ∃ id codes, p = suback id codes := by
  cases p with
  | connack flags returnCode => exact .inl ⟨flags, returnCode, rfl⟩
  | publish topic message payload => exact .inr (.inl ⟨topic, message, payload, rfl⟩)
  | suback id codes => exact .inr (.inr ⟨id, codes, rfl⟩)
  | ack type id =>
      have shape : type ∈ [.puback, .pubrec, .pubrel, .pubcomp, .unsuback] := wf.shape.1
      rcases cycled with rfl | rfl | rfl <;> exact absurd shape (by decide)
  | plain type =>
      have shape : type ∈ [.pingreq, .pingresp, .disconnect] := wf.shape
      rcases cycled with rfl | rfl | rfl <;> exact absurd shape (by decide)
  | request type body =>
      have shape : type ∈ [.connect, .subscribe, .unsubscribe] := wf.shape
      rcases cycled with rfl | rfl | rfl <;> exact absurd shape (by decide)

theorem WellFormed.eq_puback {p : Packet} (wf : p.WellFormed) (type : p.type = .puback) :
    ∃ id, p = ack .puback id := by
  cases p with
  | ack t id =>
      obtain rfl : t = .puback := type
      exact ⟨id, rfl⟩
  | plain t => exact absurd wf.shape (by rw [Shape, show t = .puback from type]; decide)
  | request t body => exact absurd wf.shape (by rw [Shape, show t = .puback from type]; decide)
  | _ => cases type

theorem head_type (p : Packet) : p.head.type = p.type.code := by
  cases p <;> rfl

theorem code_bounds (type : MsgType) : 1 ≤ type.code ∧ type.code < 15 := by
  cases type <;> decide

theorem ofByte_head {p : Packet} (shape : p.Shape) : MQTTHeader.ofByte p.head.byte = p.head := by
  have type_lt : p.head.type < 16 := by
    have := code_bounds p.type
    rw [head_type]
    omega
  refine MQTTHeader.ofByte_byte type_lt ?_
  cases p with
  | publish topic message payload => exact Nat.lt_of_le_of_lt shape.2.2.1 (by decide)
  | ack type id =>
      change (if type = .pubrel then 1 else 0) < 4
      split <;> decide
  | request type body =>
      change (if type = .connect then 0 else 1) < 4
      split <;> decide
  | _ => exact Nat.zero_lt_succ _

/-- The packet id of a publish packet. -/
def idField (message : MQTTMessage) : Bytes :=
  if 0 < message.qos then writeInt message.id else []

theorem publish_body (topic : Bytes) (message : MQTTMessage) (payload : Bytes) :
    (publish topic message payload).body =
      writeInt topic.length ++ (topic ++ (idField message ++ payload)) := rfl

theorem length_publish_body (topic : Bytes) (message : MQTTMessage) (payload : Bytes) :
    (publish topic message payload).body.length =
      2 + topic.length + payload.length + if 0 < message.qos then 2 else 0 := by
  have idField_length : (idField message).length = if 0 < message.qos then 2 else 0 := by
    rw [idField]
    split <;> rfl
  rw [publish_body, List.length_append, List.length_append, List.length_append, idField_length]
  change 2 + _ = _
  omega

end Packet

namespace Client

open Prog

variable {τ : Type} {env : Env} {w w' : World τ}

/-- Every read brings all that it asks for, if there is so much. -/
def Full (env : Env) : Prop := ∀ k n, env.read k n = n

theorem Full.exact (full : Full env) (first last : Nat) : Exact env first last :=
  fun k n _ _ => full k n

theorem Full.brings (full : Full env) (first : Nat) : Brings env first := by
  intro k n _ pos
  rw [full k n]
  exact ⟨pos, Int.le_refl n⟩

theorem World.past_zero {rest : Bytes} (input : w.input = rest) : w.past 0 rest = w := by
  subst input
  rfl

/-! ### The fixed header -/

/-- How many reads the fixed header takes. -/
def headerReads (p : Packet) : Nat := 1 + (mqttPacketEncode p.body.length).length

/-- The fixed header is read. A packet that is too long for the client is left there, with the
result of the read of its first byte. -/
theorem cycleR_front {p : Packet} (wf : p.WellFormed)
    (exact : Exact env w.reads (w.reads + headerReads p)) {rest : Bytes}
    (input : w.input = p.bytes ++ rest) :
    cycleR env w =
      if maxMsgLen < p.body.length then .ok (1, w.past (headerReads p) (p.body ++ rest))
      else cycleBody env p.head p.body.length (w.past (headerReads p) (p.body ++ rest)) := by
  let ds := mqttPacketEncode p.body.length
  have short := wf.short
  obtain ⟨numeral, value⟩ := mqttPacketEncode_numeral (n := p.body.length)
    (Nat.lt_trans short (by decide))
  have pos : 0 < ds.length := numeral.length_pos
  have le : ds.length ≤ 4 := length_digits_le short (by decide)
  have whole : w.input = p.head.byte :: (ds ++ (p.body ++ rest)) := by
    rw [input, Packet.bytes, List.cons_append, List.append_assoc]
  have reads : headerReads p = 1 + ds.length := rfl
  have first : mqttread env 1 w = _ :=
    mqttread_byte (fun n => exact w.reads n (Nat.le_refl _) (by omega)) whole
  have later : Exact env (w.reads + 1) (w.reads + 1 + ds.length) :=
    fun k n first last => exact k n (by omega) (by omega)
  have second := decodePacket_numeral (w := w.past 1 (ds ++ (p.body ++ rest))) numeral later rfl le
  have known : ¬(p.head.type < 1 ∨ 15 ≤ p.head.type) := by
    have := Packet.code_bounds p.type
    rw [Packet.head_type]
    omega
  have world : (w.past 1 (ds ++ (p.body ++ rest))).past ds.length (p.body ++ rest) =
      w.past (headerReads p) (p.body ++ rest) := by
    simp only [World.past, reads, Nat.add_assoc]
  rw [cycleR, bind_of_ok first]
  dsimp only
  rw [if_neg (fun ne => ne rfl), List.headD_cons, Packet.ofByte_head wf.shape, if_neg known,
    bind_of_ok second, world, value]
  by_cases long : maxMsgLen < p.body.length
  · rw [if_pos long]
    have : (ds.length : Int) ≤ 0 ∨ (maxMsgLen : Int) < p.body.length := .inr (by omega)
    dsimp only
    rw [if_pos this]
    rfl
  · rw [if_neg long]
    have : ¬ ((ds.length : Int) ≤ 0 ∨ (maxMsgLen : Int) < p.body.length) := by omega
    dsimp only
    rw [if_neg this]

/-! ### Packets that are only read -/

/-- How many reads of four bytes take so many. -/
def drainReads (n : Nat) : Nat := (n + 3) / 4

theorem drainLoop_exact {fuel : Nat} {body rest : Bytes} (enough : body.length < fuel)
    (exact : Exact env w.reads (w.reads + drainReads body.length))
    (input : w.input = body ++ rest) :
    drainLoop env fuel body.length w = .ok ((), w.past (drainReads body.length) rest) := by
  induction fuel generalizing w body with
  | zero => exact absurd enough (Nat.not_lt_zero _)
  | succ fuel ih =>
      rw [drainLoop]
      by_cases none : body = []
      · subst none
        have here : w.past (drainReads ([] : Bytes).length) rest = w := World.past_zero input
        rw [here]
        rfl
      · have pos : 0 < body.length := List.length_pos_iff.mpr none
        let s := body.take 4
        have s_length : s.length = min 4 body.length := List.length_take
        have chunk : (if (body.length : Int) < 4 then (body.length : Int) else 4) = s.length := by
          rw [s_length]
          split <;> omega
        have split : w.input = s ++ (body.drop 4 ++ rest) := by
          rw [input, ← List.append_assoc, List.take_append_drop]
        have left : (body.length : Int) - s.length = (body.drop 4).length := by
          rw [s_length, List.length_drop]
          omega
        have reads : drainReads body.length = 1 + drainReads (body.drop 4).length := by
          rw [drainReads, drainReads, List.length_drop]
          omega
        have later : Exact env (w.reads + 1) (w.reads + 1 + drainReads (body.drop 4).length) :=
          fun k n first last => exact k n (by omega) (by omega)
        have loop := @ih (w.past 1 (body.drop 4 ++ rest)) (body.drop 4)
          (by rw [List.length_drop]; omega) later rfl
        have read := mqttread_exact (fun n => exact w.reads n (Nat.le_refl _) (by omega)) split
        rw [if_neg (by omega), chunk, bind_of_ok read]
        dsimp only
        rw [if_pos (by omega), left, loop, reads]
        simp only [World.past, Nat.add_assoc]

/-- A packet without a function is read to its end. -/
theorem cycleBody_drained {p : Packet} (not_cycled : ¬ p.Cycled)
    (exact : Exact env w.reads (w.reads + drainReads p.body.length)) {rest : Bytes}
    (input : w.input = p.body ++ rest) :
    cycleBody env p.head p.body.length w =
      .ok ((p.type.code : Int), w.past (drainReads p.body.length) rest) := by
  have no_function : cycleCollection (τ := τ) env p.head.type = none := by
    rw [Packet.head_type, cycleCollection]
    cases type : p.type <;> first | rfl | exact absurd (by simp [Packet.Cycled, type]) not_cycled
  have drain := drainLoop_exact (Nat.lt_succ_self p.body.length) exact input
  rw [cycleBody, no_function]
  dsimp only
  rw [Int.toNat_natCast, bind_of_ok drain, Packet.head_type]
  rfl

/-! ### Publish packets -/

/-- A callback that does nothing wrong. -/
structure Quiet (cb : DeliveryCallback (Prog τ)) : Prop where
  init : ∀ n app, ∃ x, cb.init n app = .ok x
  process : ∀ s app, ∃ x, cb.process s app = .ok x
  done : ∀ app, ∃ x, cb.done app = .ok x

section

variable {callback : Option (DeliveryCallback (Prog τ))} (quiet : ∀ cb ∈ callback, Quiet cb)

include quiet

theorem deliveryMessageInit_ok (n : Int) (app : τ) :
    ∃ x, deliveryMessageInit callback n app = .ok x := by
  cases callback with
  | none => exact ⟨_, rfl⟩
  | some cb => exact (quiet cb rfl).init n app

theorem deliveryMessageProcess_ok (s : Bytes) (app : τ) :
    ∃ x, deliveryMessageProcess callback s app = .ok x := by
  cases callback with
  | none => exact ⟨_, rfl⟩
  | some cb => exact (quiet cb rfl).process s app

theorem deliveryMessageDone_ok (app : τ) : ∃ x, deliveryMessageDone callback app = .ok x := by
  cases callback with
  | none => exact ⟨_, rfl⟩
  | some cb => exact (quiet cb rfl).done app

theorem passOn_ok (msgErr : Int) (s : Bytes) (app : τ) :
    ∃ x, passOn callback msgErr s app = .ok x := by
  rw [passOn]
  split
  · obtain ⟨x, run⟩ := deliveryMessageProcess_ok quiet s app
    exact ⟨_, by rw [map_apply, run]; rfl⟩
  · exact ⟨_, rfl⟩

/-- The loop ends, and says whether it read the whole message. -/
theorem cyclePublishLoop_ok (restBuffer : Nat) (msgErr : Int) (reads : List Bytes) (totalLen : Nat)
    (results : List Int) (app : τ) :
    ∃ processed app', cyclePublishLoop callback restBuffer msgErr reads totalLen results app =
      .ok ((processed, readWhole restBuffer reads totalLen), app') := by
  induction reads generalizing totalLen results app with
  | nil => cases totalLen <;> exact ⟨results, app, rfl⟩
  | cons read reads ih =>
      cases totalLen with
      | zero => exact ⟨results, app, rfl⟩
      | succ totalLen =>
          rw [readWhole]
          by_cases none : piece restBuffer (totalLen + 1) read = []
          · refine ⟨results, app, ?_⟩
            rw [cyclePublishLoop]
            dsimp only
            rw [if_pos none, if_pos none]
            rfl
          · obtain ⟨x, run⟩ := passOn_ok quiet msgErr (piece restBuffer (totalLen + 1) read) app
            obtain ⟨processed, app', loop⟩ :=
              ih (totalLen + 1 - (piece restBuffer (totalLen + 1) read).length) (results ++ x.1) x.2
            refine ⟨processed, app', ?_⟩
            rw [cyclePublishLoop]
            dsimp only
            rw [if_neg none, if_neg none, ← loop]
            rw [passOn] at run
            by_cases accepted : msgErr = 0
            · rw [if_pos accepted] at run ⊢
              exact bind_of_ok run
            · rw [if_neg accepted] at run ⊢
              exact bind_of_ok run

end

/-- The message passed on to the callback of its topic, read in these pieces. -/
abbrev passed (w : World τ) (topicLen payloadlen : Nat) (reads : List Bytes) :
    Prog τ Delivery :=
  Mqtt.cyclePublish (deliveryOf w topicLen) (w.client.readbuf.length - topicLen) reads payloadlen

/-- The world `w'` is `w` with a message read, and its topic still in the read buffer. -/
structure Read (message : MQTTMessage) (topicLen : Nat) (rest : Bytes) (w w' : World τ) :
    Prop where
  input : w'.input = rest
  received : w'.received = w.received ++ [(w.client.readbuf.take topicLen, message)]
  output : w'.output = w.output
  delivery : w'.delivery = w.delivery
  buf : w'.client.buf = w.client.buf
  length : w'.client.readbuf.length = w.client.readbuf.length

/-- The payload is read whole, whatever the callback does with it. -/
theorem publishBody_whole (full : Full env) (quiet : ∀ r ∈ w.delivery, Quiet r.callback)
    (message : MQTTMessage) {topicLen : Nat} (fits : topicLen < w.client.readbuf.length)
    {payload rest : Bytes} (input : w.input = payload ++ rest) :
    ∃ (reads : List Bytes) (x : Delivery × τ) (last : Int) (w' : World τ),
      Read message topicLen rest w { w' with app := x.2 } ∧
      (delivered (w.client.readbuf.length - topicLen) reads payload.length).flatten = payload ∧
      readWhole (w.client.readbuf.length - topicLen) reads payload.length = true ∧
      passed w topicLen payload.length reads w.app = .ok x ∧
      publishBody env message topicLen (w.client.readbuf.length - topicLen) payload.length w =
        sendAck env message last { w' with app := x.2 } := by
  let restBuffer := w.client.readbuf.length - topicLen
  let callback := deliveryOf w topicLen
  have quiet' : ∀ cb ∈ callback, Quiet cb := by
    intro cb mem
    obtain ⟨r, found, rfl⟩ := Option.map_eq_some_iff.mp mem
    exact quiet r (List.mem_of_find?_eq_some found)
  let w₀ : World τ :=
    { w with received := w.received ++ [(w.client.readbuf.take topicLen, message)] }
  have size : topicLen + restBuffer = w₀.client.readbuf.length :=
    Nat.add_sub_cancel' (Nat.le_of_lt fits)
  have room : 0 < restBuffer := Nat.sub_pos_of_lt fits
  let reads' := payloadReads env restBuffer (payload.length + 1) payload.length w₀
  obtain ⟨whole, flat⟩ :=
    delivered_payloadReads (w := w₀) payload.length (full.brings _) room (Nat.lt_succ_self _)
      (by change _ ≤ w.input.length; rw [input, List.length_append]; omega)
  replace whole : readWhole restBuffer reads' payload.length = true := whole
  have flat : (delivered restBuffer reads' payload.length).flatten = payload := by
    rw [flat]
    change w.input.take _ = _
    rw [input, List.take_left]
  -- the callback, step by step
  obtain ⟨⟨msgErr, app₀⟩, init⟩ := deliveryMessageInit_ok quiet' payload.length w.app
  obtain ⟨processed, app₁, loop⟩ :=
    cyclePublishLoop_ok quiet' restBuffer msgErr reads' payload.length [] app₀
  rw [whole] at loop
  obtain ⟨y, done⟩ := deliveryMessageDone_ok quiet' app₁
  let x : Delivery × τ := if msgErr = 0 then (⟨processed, some y.1⟩, y.2)
    else (⟨processed, none⟩, app₁)
  have run : passed w topicLen payload.length reads' w.app = .ok x := by
    rw [passed, Mqtt.cyclePublish, bind_of_ok init, bind_of_ok loop]
    dsimp only [x]
    by_cases accepted : msgErr = 0
    · have : (true && msgErr == 0) = true := by simp [accepted]
      rw [if_pos this, if_pos accepted, bind_of_ok done]
      rfl
    · have : ¬ (true && msgErr == 0) = true := by simp [accepted]
      rw [if_neg this, if_neg accepted]
      rfl
  -- the client, around it
  obtain ⟨reads, input₁, readbuf, last, length, same, stream, refines⟩ :=
    payloadLoop_refines env (w := w₀) msgErr payload.length 2 (Nat.lt_succ_self _) size
  let w₁ : World τ := { w₀ with reads := reads, input := rest, client.readbuf := readbuf }
  have found : ∀ app, deliveryOf { w₁ with app := app } topicLen = callback := by
    intro app
    change ((w.delivery.find? fun r => deliveryeq r.topic (readbuf.take topicLen)).map _) = _
    rw [same]
    rfl
  have record : (modify fun w => { w with
      received := w.received ++ [(w.client.readbuf.take topicLen, message)] } :
        Prog (World τ) Unit) w = .ok ((), w₀) := rfl
  have here : findDelivery topicLen w₀ = .ok (callback, w₀) := rfl
  have start : onApp (deliveryMessageInit callback payload.length) w₀ =
      .ok (msgErr, { w₀ with app := app₀ }) := onApp_eq init
  have read : payloadLoop env topicLen restBuffer msgErr ((payload.length : Int).toNat + 1)
      payload.length 2 { w₀ with app := app₀ } = .ok (some last, { w₁ with app := app₁ }) := by
    rw [Int.toNat_natCast, refines [] app₀]
    have loop : cyclePublishLoop (deliveryOf w₀ topicLen) restBuffer msgErr
        (payloadReads env restBuffer (payload.length + 1) payload.length w₀)
          payload.length [] app₀ =
        .ok ((processed, true), app₁) := loop
    rw [loop, ok_bind]
    dsimp only
    rw [if_pos rfl, stream whole, flat]
    change Except.ok (_, { w₁ with input := w.input.drop payload.length, app := app₁ }) = _
    rw [input, List.drop_left]
  have finish : deliverDone topicLen msgErr { w₁ with app := app₁ } =
      .ok ((), { w₁ with app := x.2 }) := by
    rw [deliverDone]
    dsimp only [x]
    by_cases accepted : msgErr = 0
    · have told : onApp (deliveryMessageDone callback) { w₁ with app := app₁ } =
          .ok (y.1, { w₁ with app := y.2 }) := onApp_eq done
      rw [if_pos accepted, if_pos accepted, bind_of_ok (findDelivery_eq _ _), found,
        bind_of_ok told]
      rfl
    · rw [if_neg accepted, if_neg accepted]
      rfl
  refine ⟨reads', x, last, w₁, ⟨rfl, rfl, rfl, rfl, rfl, length⟩, flat, whole, run, ?_⟩
  rw [publishBody, bind_of_ok record, bind_of_ok here, bind_of_ok start, bind_of_ok read]
  exact bind_of_ok finish

/-- The callback that is registered for a topic. -/
def registered (delivery : List (Registered (Prog τ))) (topic : Bytes) :
    Option (DeliveryCallback (Prog τ)) :=
  (delivery.find? fun r => deliveryeq r.topic topic).map (·.callback)

/-- What a packet does to the callbacks: the payload of a publish packet is passed on in pieces. -/
def Delivers : Packet → World τ → World τ → Prop
  | .publish topic _ payload, w, w' => ∃ (reads : List Bytes) (d : Delivery),
      (delivered (w.client.readbuf.length - topic.length) reads payload.length).flatten = payload ∧
        readWhole (w.client.readbuf.length - topic.length) reads payload.length = true ∧
        Mqtt.cyclePublish (registered w.delivery topic) (w.client.readbuf.length - topic.length)
          reads payload.length w.app = .ok (d, w'.app)
  | _, w, w' => w'.app = w.app

/-- What a packet leaves in the record of messages. -/
def receipts : Packet → List (Bytes × MQTTMessage)
  | .publish topic message _ => [(topic, arrived message)]
  | _ => []

/-- The bytes that an answer of the client can start with. -/
def answerHeads : Bytes := [ackByte .puback, ackByte .pubrec, pingByte]

/-- The world `w'` is `w` after the packet `p`. What was written starts with one of `heads`. -/
structure Took (heads : Bytes) (p : Packet) (rest : Bytes) (w w' : World τ) : Prop where
  input : w'.input = rest
  received : w'.received = w.received ++ receipts p
  delivers : Delivers p w w'
  delivery : w'.delivery = w.delivery
  room : w'.client.buf.length = w.client.buf.length
  length : w'.client.readbuf.length = w.client.readbuf.length
  wrote : ∃ s, w'.output = w.output ++ s ∧ ∀ b ∈ s.head?, b ∈ heads

/-- `cycle_publish` reads the whole packet. -/
theorem cyclePublish_whole (full : Full env) (quiet : ∀ r ∈ w.delivery, Quiet r.callback)
    {topic payload rest : Bytes} {message : MQTTMessage}
    (wf : (Packet.publish topic message payload).WellFormed)
    (fits : topic.length < w.client.readbuf.length) (some : message.qos = 0 → payload ≠ [])
    (room : 8 ≤ w.client.buf.length)
    (input : w.input = (Packet.publish topic message payload).body ++ rest) :
    ∃ rc w', (rc = success ∨ rc = failure) ∧
      cyclePublish env (Packet.publish topic message payload).head
        (Packet.publish topic message payload).body.length w = .ok (rc, w') ∧
      Took [ackByte .puback, ackByte .pubrec] (.publish topic message payload) rest w w' := by
  obtain ⟨topic_ne, topic_lt, qos_le, id_lt⟩ := wf.shape
  let p : Packet := .publish topic message payload
  have total := Packet.length_publish_body topic message payload
  have more : (topic.length : Int) < (p.body.length : Int) - 2 := by
    dsimp only [p]
    rw [total]
    split
    · omega
    · next none =>
        have := List.length_pos_iff.mpr (some (by omega))
        omega
  have input : w.input =
      writeInt topic.length ++ (topic ++ (Packet.idField message ++ (payload ++ rest))) := by
    rw [input, Packet.publish_body]
    simp only [List.append_assoc]
  obtain ⟨readbuf, length, named, gets⟩ :=
    publishTopic_exact (p.body.length : Int) (full.exact _ _) input topic_ne fits topic_lt more
  let w₁ : World τ :=
    { w.past 2 (Packet.idField message ++ (payload ++ rest)) with client.readbuf := readbuf }
  have gets' := publishId_exact (w := w₁) message ((p.body.length : Int) - 2 - topic.length)
    (full.exact _ _) rfl (fun _ => id_lt)
  have left : (p.body.length : Int) - 2 - topic.length - (if 0 < message.qos then 2 else 0) =
      payload.length := by
    dsimp only [p]
    rw [total]
    split <;> omega
  rw [left] at gets'
  let w₂ : World τ := w₁.past (if 0 < message.qos then 1 else 0) (payload ++ rest)
  obtain ⟨reads, x, last, w₃, read, flat, whole, run, body⟩ :=
    publishBody_whole (w := w₂) full quiet (arrived message) (Nat.lt_of_lt_of_eq fits length.symm)
      rfl
  have named : w₂.client.readbuf.take topic.length = topic := named
  have callback : deliveryOf w₂ topic.length = registered w.delivery topic := by
    rw [deliveryOf, named]
    rfl
  obtain ⟨rc, w', send, outcome, beside⟩ := sendAck_beside env
    (w := { w₃ with app := x.2 }) (show (arrived message).qos ≤ 2 from qos_le)
    (Nat.le_trans room (Nat.le_of_eq (congrArg List.length read.buf).symm)) last
  refine ⟨rc, w', outcome, ?_, ?_⟩
  · rw [cyclePublish, bind_of_ok gets]
    change (publishId env message.qos _ >>= _) w₁ = _
    rw [bind_of_ok gets', ← length]
    exact body.trans send
  constructor
  · exact beside.input.trans read.input
  · rw [beside.received, read.received, named]
    rfl
  · refine ⟨reads, x.1, ?_, ?_, ?_⟩
    · rw [← length]
      exact flat
    · rw [← length]
      exact whole
    · rw [← length, ← callback, beside.app]
      exact run
  · exact beside.delivery.trans read.delivery
  · exact beside.room.trans (congrArg List.length read.buf)
  · exact (congrArg List.length beside.readbuf).trans (read.length.trans length)
  · obtain ⟨s, output, first⟩ := beside.wrote
    exact ⟨s, output.trans (congrArg (· ++ s) read.output), first⟩

/-! ### One packet -/

/-- The packets that `cycle_r` reads whole, with a read buffer of `recv` bytes. -/
def Handled (recv : Nat) (p : Packet) : Prop :=
  p.body.length ≤ maxMsgLen ∧
    match p with
    | .publish topic message payload => topic.length < recv ∧ (message.qos = 0 → payload ≠ [])
    | .connack _ _ | .suback _ _ => p.body.length ≤ recv
    | _ => True

namespace Took

variable {heads heads' : Bytes} {p : Packet} {rest : Bytes}

/-- The fixed header is read before. -/
theorem of_past {k : Nat} {input : Bytes} (took : Took heads p rest (w.past k input) w') :
    Took heads p rest w w' := by
  refine ⟨took.input, took.received, ?_, took.delivery, took.room, took.length, took.wrote⟩
  have delivers := took.delivers
  cases p <;> exact delivers

/-- The connection is kept alive after. -/
theorem beside {w'' : World τ} (took : Took heads p rest w w') (later : Beside heads' w' w'') :
    Took (heads ++ heads') p rest w w'' := by
  refine ⟨later.input.trans took.input, later.received.trans took.received, ?_,
    later.delivery.trans took.delivery, later.room.trans took.room,
    (congrArg List.length later.readbuf).trans took.length, ?_⟩
  · have delivers := took.delivers
    cases p with
    | publish topic message payload =>
        obtain ⟨reads, d, flat, whole, run⟩ := delivers
        exact ⟨reads, d, flat, whole, later.app.symm ▸ run⟩
    | _ => exact later.app.trans delivers
  · obtain ⟨s, output, first⟩ := took.wrote
    obtain ⟨s', output', first'⟩ := later.wrote
    refine ⟨s ++ s', ?_, ?_⟩
    · rw [output', output, List.append_assoc]
    · cases s with
      | nil => exact fun b mem => List.mem_append_right _ (first' b mem)
      | cons b s => exact fun b mem => List.mem_append_left _ (first b mem)

end Took

/-- A packet that is read, and nothing more. -/
theorem took_read (heads : Bytes) {p : Packet} (no_message : receipts p = []) (k : Nat)
    (rest : Bytes) {readbuf : Bytes} (same : readbuf.length = w.client.readbuf.length) :
    Took heads p rest w { w.past k rest with client.readbuf := readbuf } := by
  constructor
  · rfl
  · rw [no_message, List.append_nil]
    rfl
  · cases p with
    | publish topic message payload => cases no_message
    | _ => rfl
  · rfl
  · rfl
  · exact same
  · exact ⟨[], (List.append_nil _).symm, fun _ mem => nomatch mem⟩

/-- The function for a packet reads it whole. -/
theorem cycled_took (full : Full env) (quiet : ∀ r ∈ w.delivery, Quiet r.callback) {p : Packet}
    (wf : p.WellFormed) (cycled : p.Cycled) (handled : Handled w.client.readbuf.length p)
    (room : 8 ≤ w.client.buf.length) {rest : Bytes}
    (input : w.input = p.body ++ rest) :
    ∃ cycle rc w', cycleCollection env p.head.type = some cycle ∧ (rc = success ∨ rc = failure) ∧
      cycle p.head p.body.length w = .ok (rc, w') ∧
      Took [ackByte .puback, ackByte .pubrec] p rest w w' := by
  obtain ⟨flags, returnCode, rfl⟩ | ⟨topic, message, payload, rfl⟩ | ⟨id, codes, rfl⟩ :=
    wf.cycled_cases cycled
  · have fits : 0 + (Packet.connack flags returnCode).body.length ≤ w.client.readbuf.length :=
      Nat.le_trans (Nat.le_of_eq (Nat.zero_add _)) handled.2
    have read := readInto_exact (i := 0) (fun n => full w.reads n) input fits
    refine ⟨_, success, _, rfl, .inl rfl, ?_, took_read _ rfl 1 rest (length_store fits)⟩
    rw [cycleConnack, bind_of_ok read, if_neg (fun ne => ne rfl)]
    rfl
  · obtain ⟨rc, w', outcome, run, took⟩ :=
      cyclePublish_whole full quiet wf handled.2.1 handled.2.2 room input
    exact ⟨_, rc, w', rfl, outcome, run, took⟩
  · have fits : 0 + (Packet.suback id codes).body.length ≤ w.client.readbuf.length :=
      Nat.le_trans (Nat.le_of_eq (Nat.zero_add _)) handled.2
    have read := readInto_exact (i := 0) (fun n => full w.reads n) input fits
    have some : ¬ ((Packet.suback id codes).body.length : Int) ≤ 0 := by
      have : 0 < (Packet.suback id codes).body.length := Nat.zero_lt_succ _
      omega
    refine ⟨_, success, _, rfl, .inl rfl, ?_, took_read _ rfl 1 rest (length_store fits)⟩
    rw [cycleSubscribe, bind_of_ok read, if_neg some]
    rfl

/-- `cycle_r` reads a whole packet, and gives its type or fails. -/
theorem cycleR_took (full : Full env) (quiet : ∀ r ∈ w.delivery, Quiet r.callback) {p : Packet}
    (wf : p.WellFormed) (handled : Handled w.client.readbuf.length p)
    (room : 8 ≤ w.client.buf.length) {rest : Bytes}
    (input : w.input = p.bytes ++ rest) :
    ∃ rc w', cycleR env w = .ok (rc, w') ∧ Took answerHeads p rest w w' ∧
      (rc = p.type.code ∨ rc = failure) ∧
      (¬ p.Cycled → rc = p.type.code ∧ w'.output = w.output) := by
  have front := cycleR_front wf (full.exact _ _) input
  rw [if_neg (Nat.not_lt.mpr handled.1)] at front
  let w₁ := w.past (headerReads p) (p.body ++ rest)
  by_cases cycled : p.Cycled
  · obtain ⟨cycle, rc, w₂, found, outcome, run, took⟩ :=
      cycled_took (w := w₁) full quiet wf cycled handled room rfl
    obtain ⟨rc', w', finish, outcome', beside⟩ := cycleEnd_beside env
      (Nat.le_trans room (Nat.le_of_eq took.room.symm)) p.head.type outcome
    refine ⟨rc', w', ?_, ?_, ?_, fun not_cycled => absurd cycled not_cycled⟩
    · rw [front, cycleBody, found]
      exact (bind_of_ok run).trans finish
    · exact (took.beside beside).of_past
    · rw [Packet.head_type] at outcome'
      exact outcome'.imp_left And.right
  · have body := cycleBody_drained (w := w₁) cycled (full.exact _ _) rfl
    refine ⟨_, _, front.trans body, ?_, .inl rfl, fun _ => ⟨rfl, rfl⟩⟩
    have no_message : receipts p = [] := by
      cases p with
      | publish topic message payload => exact absurd (.inr (.inl rfl)) cycled
      | _ => rfl
    exact (took_read answerHeads no_message _ rest rfl).of_past

end Client

end AcnSdk.Mqtt
