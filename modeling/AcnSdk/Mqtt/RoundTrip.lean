/-
What `MQTTPublish_part` writes, `cycle_r` of a receiver reads back.

* `keepalive_aside` — `keepalive` takes no input and writes at most a ping.
* `publish_roundTrip` — the topic, the message and the payload arrive, and nothing else is read.
-/

import AcnSdk.Mqtt.Receive

namespace AcnSdk.Mqtt.Client

open AcnSdk.Lib Prog

variable {τ : Type} {env : Env} {w w' : World τ}

/-! ### After the message -/

/-- The two worlds differ in clock and send buffer, and `s` was written. -/
structure Aside (s : Bytes) (w w' : World τ) : Prop where
  input : w'.input = w.input
  app : w'.app = w.app
  received : w'.received = w.received
  output : w'.output = w.output ++ s

theorem connectionExpired_aside {gone : Bool} (run : connectionExpired env w = .ok (gone, w')) :
    Aside [] w w' ∧ w'.client = w.client := by
  rw [connectionExpired, bind_of_ok (timerIsExpired_eq env .lastSent w)] at run
  cases first : w.gone env .lastSent with
  | true =>
      rw [first] at run
      cases run
      exact ⟨⟨rfl, rfl, rfl, (List.append_nil _).symm⟩, rfl⟩
  | false =>
      rw [first] at run
      cases run
      exact ⟨⟨rfl, rfl, rfl, (List.append_nil _).symm⟩, rfl⟩

theorem sendPing_aside (whole : ∀ k n, env.write k n = n)
    (run : sendPing env w = .ok (success, w')) :
    ∃ s, (s = [] ∨ s = zeroPacket .pingreq) ∧ Aside s w w' := by
  let w₁ : World τ := { w with expired := fun u => if u = .ping then false else w.expired u }
  have count : timerCountdown .ping w = .ok ((), w₁) := rfl
  rw [sendPing, bind_of_ok count] at run
  by_cases short : w.client.buf.length < 2
  · have serialize : mqttSerializeZero .pingreq w₁ = .ok (bufferTooShort, w₁) := by
      rw [mqttSerializeZero, bind_of_ok (get_apply w₁), if_pos short]
      rfl
    rw [bind_of_ok serialize, if_neg (by decide)] at run
    injection run with pair
    injection pair with _ same
    subst same
    exact ⟨[], .inl rfl, rfl, rfl, rfl, (List.append_nil _).symm⟩
  · have room : (zeroPacket .pingreq).length ≤ w₁.client.buf.length := Nat.le_of_not_lt short
    have serialize : mqttSerializeZero .pingreq w₁ = .ok (2, w₁.filled (zeroPacket .pingreq)) := by
      rw [mqttSerializeZero, bind_of_ok (get_apply w₁), if_neg short,
        bind_of_ok (putBuf_front room)]
      rfl
    have length : (w₁.filled (zeroPacket .pingreq)).client.buf.length = w₁.client.buf.length :=
      length_store (by rw [Nat.zero_add]; exact room)
    have stored : (w₁.filled (zeroPacket .pingreq)).client.buf.take 2 = zeroPacket .pingreq := by
      have two : (zeroPacket .pingreq).length = 2 := rfl
      simp [World.filled, store, ← two]
    have send : sendPacket env .ping (2 : Int).toNat _ = _ :=
      sendPacket_eq (w := w₁.filled (zeroPacket .pingreq)) whole .ping 2 (by decide)
        (by rw [length]; exact room)
    rw [stored] at send
    rw [bind_of_ok serialize, if_pos (by decide)] at run
    by_cases gone : (w₁.filled (zeroPacket .pingreq)).gone env .ping = true
    · rw [if_pos gone] at send
      rw [bind_of_ok send, if_neg (by decide)] at run
      injection run with pair
      injection pair with rc
      exact absurd rc (by decide)
    · rw [if_neg gone] at send
      rw [bind_of_ok send, if_pos rfl] at run
      injection run with pair
      injection pair with _ same
      subst same
      exact ⟨zeroPacket .pingreq, .inr rfl, rfl, rfl, rfl, rfl⟩

/-- `keepalive` takes no input, and what it writes is a ping. -/
theorem keepalive_aside (whole : ∀ k n, env.write k n = n)
    (run : keepalive env w = .ok (success, w')) :
    ∃ s, (s = [] ∨ s = zeroPacket .pingreq) ∧ Aside s w w' := by
  rw [keepalive, bind_of_ok (get_apply w)] at run
  by_cases off : w.client.keepAliveInterval = 0
  · rw [if_pos off] at run
    cases run
    exact ⟨[], .inl rfl, rfl, rfl, rfl, (List.append_nil _).symm⟩
  · rw [if_neg off] at run
    cases look : connectionExpired env w with
    | error e =>
        rw [bind_apply, look] at run
        cases run
    | ok x =>
        obtain ⟨gone, w₁⟩ := x
        obtain ⟨aside, client⟩ := connectionExpired_aside look
        rw [bind_of_ok look] at run
        cases gone with
        | false =>
            cases run
            exact ⟨[], .inl rfl, aside⟩
        | true =>
            by_cases outstanding : w.client.pingOutstanding = true
            · rw [if_pos rfl, if_pos outstanding] at run
              injection run with pair
              injection pair with rc
              exact absurd rc (by decide)
            · rw [if_pos rfl, if_neg outstanding] at run
              obtain ⟨s, ping, aside'⟩ := sendPing_aside whole run
              exact ⟨s, ping, aside'.input.trans aside.input, aside'.app.trans aside.app,
                aside'.received.trans aside.received,
                by rw [aside'.output, aside.output, List.append_nil]⟩

/-! ### From one client to another -/

/-- A client that can publish a payload: it is connected, the front of the packet fits into its send
buffer, and the driver gives the payload. -/
structure Publisher (env : Env) (drive : PayloadDrive (Prog τ)) (left : τ → Bytes)
    (topic payload : Bytes) (w : World τ) : Prop where
  timely : Timely env
  connected : w.client.isconnected = true
  room : topic.length + 7 ≤ w.client.buf.length
  drives : Drives drive left
  starts : ∃ app, drive.init w.app = .ok ((payload.length : Int), app) ∧ left app = payload

/-- A client that is ready for a message. Its network gives the fields of the packet whole, and
something of the payload each time. -/
structure Subscriber (env : Env) (cb : DeliveryCallback (Prog τ)) (topic payload : Bytes)
    (fields : Nat) (w : World τ) : Prop extends Ready env cb topic payload w where
  exact : Exact env w.reads (w.reads + fields)
  brings : Brings env (w.reads + fields)

/-- `MQTTPublish_part` up to the wait. -/
theorem mqttPublishPart_sends {drive : PayloadDrive (Prog τ)} {left : τ → Bytes}
    {topic payload : Bytes} {message : MQTTMessage}
    (publisher : Publisher env drive left topic payload w) (payload_ne : payload ≠ [])
    (small : mqttSerializePublishLength message.qos topic payload.length ≤ maxMsgLen) :
    ∃ w', w'.output = w.output ++
        (publishFront topic (sentMessage message w) payload.length ++ payload) ∧
      ∀ fuel, mqttPublishPart env fuel drive topic message w =
        publishWait env fuel (sentMessage message w) w' := by
  obtain ⟨app, init, gives⟩ := publisher.starts
  obtain ⟨w', start, output⟩ :=
    publishStart_sends publisher.timely publisher.drives init gives payload_ne small publisher.room
  refine ⟨w', output, fun fuel => ?_⟩
  rw [mqttPublishPart, bind_of_ok (get_apply w), if_pos publisher.connected, bind_of_ok start]
  rfl

/-- What is published arrives, with its topic, flags and id. The callback gets the payload piece by
piece, the packet is read to its end and no further, and it is answered by its id. -/
theorem publish_roundTrip {σ : Type} {sEnv : Env} (rEnv : Env) {drive : PayloadDrive (Prog σ)}
    {left : σ → Bytes} (cb : DeliveryCallback (Prog τ)) {topic payload : Bytes}
    (message : MQTTMessage) {sender : World σ}
    (publisher : Publisher sEnv drive left topic payload sender) (topic_ne : 1 ≤ topic.length)
    (payload_ne : payload ≠ []) (qos_le : message.qos ≤ 2)
    (small : mqttSerializePublishLength message.qos topic payload.length ≤ maxMsgLen) :
    ∃ (packet : Bytes) (sender' : World σ), sender'.output = sender.output ++ packet ∧
      (∀ fuel, mqttPublishPart sEnv fuel drive topic message sender =
        publishWait sEnv fuel (sentMessage message sender) sender') ∧
      ∀ (receiver : World τ) (rest : Bytes),
        Subscriber rEnv cb topic payload (fieldReads topic message payload.length) receiver →
        receiver.input = packet ++ rest →
        ∃ (pieces : List Bytes) (receiver' : World τ),
          PassedOn topic payload rest (arrived (sentMessage message sender)) pieces receiver
            receiver' ∧
          (cycleR rEnv receiver = (deliver cb payload.length pieces receiver.app).bind fun x =>
            cycleEnd rEnv MsgType.publish.code success { receiver' with app := x.2 }) ∧
          ∀ result app w', deliver cb payload.length pieces receiver.app = .ok (result, app) →
            keepalive rEnv { receiver' with app := app } = .ok (success, w') →
            cycleR rEnv receiver = .ok ((MsgType.publish.code : Int), w') ∧
              ∃ s, (s = [] ∨ s = zeroPacket .pingreq) ∧
                Aside s { receiver' with app := app } w' := by
  obtain ⟨sender', output, run⟩ := mqttPublishPart_sends publisher payload_ne small
  refine ⟨_, sender', output, run, fun receiver rest subscriber input => ?_⟩
  have qos : (sentMessage message sender).qos = message.qos := sentMessage_qos message
  have id_lt : 0 < (sentMessage message sender).qos → (sentMessage message sender).id < 2 ^ 16 := by
    intro acked
    rw [qos] at acked
    rw [sentMessage, if_pos (by omega)]
    exact Nat.mod_lt _ (by decide)
  have fields : fieldReads topic (sentMessage message sender) payload.length =
      fieldReads topic message payload.length := by
    rw [fieldReads, fieldReads, lengthField, lengthField, qos]
  obtain ⟨pieces, receiver', passedOn, cycle⟩ :=
    cycleR_publish subscriber.toReady (by rw [qos]; exact qos_le) id_lt topic_ne payload_ne
      (by rw [qos]; exact small) input (by rw [fields]; exact subscriber.exact)
      (by rw [fields]; exact subscriber.brings)
  refine ⟨pieces, receiver', passedOn, cycle, ?_⟩
  intro result app w' passed alive
  constructor
  · rw [cycle, passed]
    change cycleEnd rEnv MsgType.publish.code success { receiver' with app := app } = _
    rw [cycleEnd, bind_of_ok alive]
    rfl
  · exact keepalive_aside subscriber.timely.whole alive

/-- A network that takes every byte, and gives what is asked for up to the read `fields`, then one
byte a read. -/
def dripping (fields : Nat) : Env where
  read := fun k n => if k < fields then n else 1
  lost := fun _ _ => 0
  write := fun _ n => n
  elapsed := fun _ _ => false

/-- A driver that gives what is left of its state. -/
def listDrive : PayloadDrive (Prog Bytes) where
  init := fun a => .ok ((a.length : Int), a)
  part := fun n a => .ok (a.take n, a.drop n)
  fin := fun a => .ok (0, a)

/-- A callback that keeps what it gets. -/
def keeping : DeliveryCallback (Prog Bytes) where
  init := fun _ a => .ok (0, a)
  process := fun s a => .ok (0, a ++ s)
  done := fun a => .ok (0, a)

/-- A connected client. -/
def fresh (delivery : List (Registered (Prog Bytes))) (input app : Bytes) : World Bytes where
  client := ⟨List.replicate 10 0, List.replicate 4 0, 1, true, 0, false⟩
  delivery := delivery
  input := input
  output := []
  reads := 0
  writes := 0
  looks := 0
  expired := fun _ => false
  received := []
  app := app

theorem publish_roundTrip_dripping :
    ∃ (packet : Bytes) (sender' : World Bytes), sender'.output = packet ∧
    (∀ fuel, mqttPublishPart (dripping 0) fuel listDrive [97] ⟨1, false, true, 0⟩
        (fresh [] [] [1, 2, 3]) =
      publishWait (dripping 0) fuel ⟨1, false, true, 2⟩ sender') ∧
    ∃ (pieces : List Bytes) (receiver' : World Bytes),
      PassedOn [97] [1, 2, 3] [0] ⟨1, false, true, 2⟩ pieces
        (fresh [⟨[97], keeping⟩] (packet ++ [0]) []) receiver' ∧
      cycleR (dripping 5) (fresh [⟨[97], keeping⟩] (packet ++ [0]) []) =
        (deliver keeping 3 pieces []).bind fun x =>
          cycleEnd (dripping 5) MsgType.publish.code success { receiver' with app := x.2 } := by
  have drives : Drives listDrive id :=
    ⟨fun {a n} pos some => ⟨a.take n, a.drop n, rfl, by
        intro none
        rcases List.take_eq_nil_iff.mp none with rfl | rfl
        · exact absurd pos (Nat.lt_irrefl 0)
        · exact some rfl, List.length_take_le n a, (List.take_append_drop n a).symm⟩,
      fun a => ⟨0, a, rfl⟩⟩
  have timely (fields : Nat) : Timely (dripping fields) := ⟨fun _ _ => rfl, fun _ => rfl⟩
  have publisher : Publisher (dripping 0) listDrive id [97] [1, 2, 3] (fresh [] [] [1, 2, 3]) :=
    ⟨timely 0, rfl, by decide, drives, [1, 2, 3], rfl, rfl⟩
  obtain ⟨packet, sender', output, run, receives⟩ := publish_roundTrip (dripping 5) keeping
    ⟨1, false, true, 0⟩ publisher (by decide) (by decide) (by decide) (by decide)
  have subscriber : Subscriber (dripping 5) keeping [97] [1, 2, 3] 5
      (fresh [⟨[97], keeping⟩] (packet ++ [0]) []) := by
    have room : 4 ≤ 10 := by decide
    have fits : 1 < 4 := by decide
    refine ⟨⟨timely 5, rfl, room, rfl, fits, [], rfl⟩, ?_, ?_⟩
    · intro k n _ last
      exact if_pos last
    · intro k n first pos
      change 0 < (if k < 5 then n else 1) ∧ (if k < 5 then n else 1) ≤ n
      have first : ¬k < 5 := Nat.not_lt.mpr (Nat.zero_add 5 ▸ first)
      rw [if_neg first]
      omega
  obtain ⟨pieces, receiver', passedOn, cycle, _⟩ := receives _ [0] subscriber rfl
  exact ⟨packet, sender', output, run, pieces, receiver', passedOn, cycle⟩

end AcnSdk.Mqtt.Client
