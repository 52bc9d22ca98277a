/-
What the parts of `cycle_r` leave alone, whatever the network and the clock do.

* `Reads`, `Sends` — what a part that only reads, and one that only sends, may change.
* `NothingRead` — what a part that reads nothing leaves to be read.
* `cyclePublish_within`, `cycleCollection_within` — what holds of reading and of an acknowledgement
  holds of the functions of `cycle_r`.
-/

import AcnSdk.Lib.Within
import AcnSdk.Mqtt.Beside

namespace AcnSdk.Mqtt.Client

open AcnSdk.Lib Prog

variable {τ : Type} {env : Env} {w w' w'' : World τ}

/-! ### Reading -/

/-- Something was read: this changes the read buffer, and what callbacks make of it. -/
structure Reads (w w' : World τ) : Prop where
  client : ∃ readbuf, w'.client = { w.client with readbuf := readbuf }
  delivery : w'.delivery = w.delivery
  input : w'.input <:+ w.input
  output : w'.output = w.output

namespace Reads

theorem trans (one : Reads w w') (two : Reads w' w'') : Reads w w'' := by
  obtain ⟨readbuf, client⟩ := two.client
  obtain ⟨readbuf', client'⟩ := one.client
  constructor
  · exact ⟨readbuf, by rw [client, client']⟩
  · exact two.delivery.trans one.delivery
  · exact two.input.trans one.input
  · exact two.output.trans one.output

instance : IsPreorder (World τ) Reads where
  refl := fun w => ⟨⟨w.client.readbuf, rfl⟩, rfl, List.suffix_rfl, rfl⟩
  trans := fun _ _ _ => trans

end Reads

theorem mqttread_reads (n : Int) : Within Reads (mqttread (τ := τ) env n) := by
  intro w b w' run
  rw [mqttread_eq] at run
  cases run
  exact ⟨⟨w.client.readbuf, rfl⟩, rfl, List.drop_suffix _ _, rfl⟩

theorem readInto_reads (i : Nat) (n : Int) : Within Reads (readInto (τ := τ) env i n) := by
  refine Within.get.bind fun w => .ite (fun _ => ?_) fun _ => .throw _
  refine (mqttread_reads n).bind fun x => .bind ?_ fun _ => .pure _
  exact .modify fun w => ⟨⟨_, rfl⟩, rfl, List.suffix_rfl, rfl⟩

theorem onApp_reads {β : Type} (x : Prog τ β) : Within Reads (onApp x) := by
  intro w b w' run
  rw [onApp] at run
  obtain ⟨r, ran, run⟩ := ok_of_bind run
  cases run
  exact ⟨⟨w.client.readbuf, rfl⟩, rfl, List.suffix_rfl, rfl⟩

theorem decodeLoop_reads (fuel : Nat) (len multiplier value : Int) :
    Within Reads (decodeLoop (τ := τ) env fuel len multiplier value) := by
  induction fuel generalizing len multiplier value with
  | zero => exact .throw _
  | succ fuel ih =>
      rw [decodeLoop]
      exact (mqttread_reads 1).bind fun _ => .ite (fun _ => .pure _) fun _ =>
        .ite (fun _ => .pure _) fun _ => .ite (fun _ => ih _ _ _) fun _ => .pure _

theorem drainLoop_reads (fuel : Nat) (remLen : Int) :
    Within Reads (drainLoop (τ := τ) env fuel remLen) := by
  induction fuel generalizing remLen with
  | zero => exact .throw _
  | succ fuel ih =>
      rw [drainLoop]
      exact .ite (fun _ => .pure _) fun _ => (mqttread_reads _).bind fun _ =>
        .ite (fun _ => ih _) fun _ => .pure _

theorem cycleConnack_reads (remLen : Int) : Within Reads (cycleConnack (τ := τ) env remLen) :=
  (readInto_reads 0 remLen).bind fun _ => .ite (fun _ => .pure _) fun _ => .pure _

theorem cycleSubscribe_reads (remLen : Int) : Within Reads (cycleSubscribe (τ := τ) env remLen) :=
  (readInto_reads 0 remLen).bind fun _ => .ite (fun _ => .pure _) fun _ => .pure _

theorem publishTopic_reads (remLen : Int) : Within Reads (publishTopic (τ := τ) env remLen) := by
  refine (readInto_reads 0 2).bind fun _ => .ite (fun _ => .pure _) fun _ => ?_
  refine Within.get.bind fun w => .ite (fun _ => .pure _) fun _ => ?_
  exact (readInto_reads 0 _).bind fun _ => .ite (fun _ => .pure _) fun _ =>
    .ite (fun _ => .pure _) fun _ => .pure _

theorem publishId_reads (qos : Nat) (totalLen : Int) :
    Within Reads (publishId (τ := τ) env qos totalLen) :=
  .ite (fun _ => (mqttread_reads 2).bind fun _ => .ite (fun _ => .pure _) fun _ => .pure _)
    fun _ => .pure _

theorem findDelivery_reads (topicLen : Nat) : Within Reads (findDelivery (τ := τ) topicLen) :=
  Within.get.bind fun _ => .pure _

theorem deliverPiece_reads (topicLen : Nat) (msgErr len : Int) :
    Within Reads (deliverPiece (τ := τ) topicLen msgErr len) :=
  .ite (fun _ => Within.get.bind fun _ => (findDelivery_reads topicLen).bind fun _ =>
    (onApp_reads _).bind fun _ => .pure _) fun _ => .pure _

theorem payloadLoop_reads (topicLen restBuffer : Nat) (msgErr : Int) (fuel : Nat)
    (totalLen len : Int) :
    Within Reads (payloadLoop (τ := τ) env topicLen restBuffer msgErr fuel totalLen len) := by
  induction fuel generalizing totalLen len with
  | zero => exact .throw _
  | succ fuel ih =>
      rw [payloadLoop]
      exact .ite (fun _ => .pure _) fun _ => (readInto_reads _ _).bind fun _ =>
        .ite (fun _ => .pure _) fun _ => (deliverPiece_reads _ _ _).bind fun _ => ih _ _

theorem deliverDone_reads (topicLen : Nat) (msgErr : Int) :
    Within Reads (deliverDone (τ := τ) topicLen msgErr) :=
  .ite (fun _ => (findDelivery_reads _).bind fun _ => (onApp_reads _).bind fun _ => .pure _)
    fun _ => .pure _

/-! ### Sending -/

/-- Something was sent: this changes the send buffer, and the timers. -/
structure Sends (w w' : World τ) : Prop where
  client : ∃ buf, buf.length = w.client.buf.length ∧ w'.client = { w.client with buf := buf }
  delivery : w'.delivery = w.delivery
  input : w'.input = w.input
  output : ∃ s, w'.output = w.output ++ s

namespace Sends

theorem of_same (client : w'.client = w.client) (delivery : w'.delivery = w.delivery)
    (input : w'.input = w.input) (output : w'.output = w.output) : Sends w w' :=
  ⟨⟨w.client.buf, rfl, client⟩, delivery, input, [], output.trans (List.append_nil _).symm⟩

theorem trans (one : Sends w w') (two : Sends w' w'') : Sends w w'' := by
  obtain ⟨buf, length, client⟩ := one.client
  obtain ⟨buf', length', client'⟩ := two.client
  obtain ⟨s, output⟩ := one.output
  obtain ⟨s', output'⟩ := two.output
  rw [client] at length'
  constructor
  · exact ⟨buf', length'.trans length, by rw [client', client]⟩
  · exact two.delivery.trans one.delivery
  · exact two.input.trans one.input
  · exact ⟨s ++ s', by rw [output', output, List.append_assoc]⟩

instance : IsPreorder (World τ) Sends where
  refl := fun _ => of_same rfl rfl rfl rfl
  trans := fun _ _ _ => trans

end Sends

/-- A write that ends has written what it says. -/
theorem mqttwrite_ok {i length : Nat} {rc : Int} (run : mqttwrite env i length w = .ok (rc, w')) :
    i + rc.toNat ≤ w.client.buf.length ∧ w' = { w with
      writes := w.writes + 1
      output := w.output ++ (w.client.buf.drop i).take rc.toNat } := by
  let r : Int := min (env.write w.writes length) length
  have copies : mqttwrite env i length w = (lift (copyFrom w.client.buf i r.toNat) >>= fun s => do
      set { w with writes := w.writes + 1, output := w.output ++ s }
      return r : Prog (World τ) Int) w := rfl
  rw [copies, copyFrom] at run
  by_cases fits : i + r.toNat ≤ w.client.buf.length
  · rw [if_pos fits] at run
    injection run with pair
    injection pair with result world
    subst result
    exact ⟨fits, world.symm⟩
  · rw [if_neg fits] at run
    cases run

theorem timerIsExpired_sends (t : Timer) : Within Sends (timerIsExpired (τ := τ) env t) := by
  intro w gone w' run
  rw [timerIsExpired_eq] at run
  cases run
  exact .of_same rfl rfl rfl rfl

theorem timerCountdown_sends (t : Timer) : Within Sends (timerCountdown (τ := τ) t) :=
  .modify fun _ => .of_same rfl rfl rfl rfl

theorem sendLoop_sends (t : Timer) (length fuel sent : Nat) :
    Within Sends (sendLoop (τ := τ) env t length fuel sent) := by
  induction fuel generalizing sent with
  | zero => exact .throw _
  | succ fuel ih =>
      rw [sendLoop]
      refine .ite (fun _ => (timerIsExpired_sends t).bind fun _ => .ite (fun _ => .pure _) fun _ =>
        Within.bind ?_ fun _ => .ite (fun _ => .pure _) fun _ => ih _) fun _ => .pure _
      intro w rc w' run
      obtain ⟨-, rfl⟩ := mqttwrite_ok run
      exact ⟨⟨w.client.buf, rfl, rfl⟩, rfl, rfl, _, rfl⟩

theorem sendPacket_sends (t : Timer) (length : Nat) :
    Within Sends (sendPacket (τ := τ) env t length) :=
  (sendLoop_sends t length _ 0).bind fun _ =>
    .ite (fun _ => (timerCountdown_sends .lastSent).bind fun _ => .pure _) fun _ => .pure _

theorem putBuf_sends {s : Bytes} : Within Sends (putBuf (τ := τ) 0 s) := by
  intro w b w' run
  by_cases fits : s.length ≤ w.client.buf.length
  · rw [putBuf_front fits] at run
    cases run
    exact ⟨⟨_, length_store (by omega), rfl⟩, rfl, rfl, [], (List.append_nil _).symm⟩
  · have large : ¬ 0 + s.length ≤ w.client.buf.length := by omega
    rw [putBuf, bind_of_ok (get_apply w), copyTo, if_neg large] at run
    cases run

theorem mqttSerializeAck_sends (type : MsgType) (id : Nat) :
    Within Sends (mqttSerializeAck (τ := τ) type id) :=
  Within.get.bind fun _ => .ite (fun _ => .pure _) fun _ => putBuf_sends.bind fun _ => .pure _

/-- An answer to a message of any quality of service. -/
theorem sendAck_sends (message : MQTTMessage) (len : Int) :
    Within Sends (sendAck (τ := τ) env message len) := by
  have send (len : Int) : Within Sends (if len ≤ 0 then return failure
      else sendPacket env .command len.toNat : Prog (World τ) Int) :=
    .ite (fun _ => .pure _) fun _ => sendPacket_sends _ _
  refine .ite (fun _ => .pure _) fun _ => ?_
  exact .ite (fun _ => (mqttSerializeAck_sends _ _).bind send) fun _ =>
    .ite (fun _ => (mqttSerializeAck_sends _ _).bind send) fun _ => (Within.pure len).bind send

/-! ### Reading nothing -/

/-- All that was left to be read still is. -/
def NothingRead (w w' : World τ) : Prop := w'.input = w.input

instance : IsPreorder (World τ) NothingRead where
  refl := fun _ => rfl
  trans := fun _ _ _ one two => two.trans one

theorem Sends.nothingRead (w w' : World τ) (sends : Sends w w') : NothingRead w w' := sends.input

theorem onApp_nothingRead {β : Type} (x : Prog τ β) : Within NothingRead (onApp x) := by
  intro w b w' run
  rw [onApp] at run
  obtain ⟨r, ran, run⟩ := ok_of_bind run
  cases run
  rfl

theorem timerIsExpired_nothingRead (t : Timer) :
    Within NothingRead (timerIsExpired (τ := τ) env t) :=
  (timerIsExpired_sends t).mono Sends.nothingRead

theorem sendPacket_nothingRead (t : Timer) (length : Nat) :
    Within NothingRead (sendPacket (τ := τ) env t length) :=
  (sendPacket_sends t length).mono Sends.nothingRead

theorem putBuf_nothingRead {s : Bytes} : Within NothingRead (putBuf (τ := τ) 0 s) :=
  putBuf_sends.mono Sends.nothingRead

theorem deliverPiece_nothingRead (topicLen : Nat) (msgErr len : Int) :
    Within NothingRead (deliverPiece (τ := τ) topicLen msgErr len) :=
  .ite (fun _ => Within.get.bind fun w => Within.bind (Within.get.bind fun _ => .pure _) fun _ =>
    (onApp_nothingRead _).bind fun _ => .pure _) fun _ => .pure _

theorem deliverDone_nothingRead (topicLen : Nat) (msgErr : Int) :
    Within NothingRead (deliverDone (τ := τ) topicLen msgErr) :=
  .ite (fun _ => Within.bind (Within.get.bind fun _ => .pure _) fun _ =>
    (onApp_nothingRead _).bind fun _ => .pure _) fun _ => .pure _

theorem keepalive_nothingRead : Within NothingRead (keepalive (τ := τ) env) := by
  have serialize : Within NothingRead (mqttSerializeZero (τ := τ) .pingreq) :=
    Within.get.bind fun _ => .ite (fun _ => .pure _) fun _ =>
      putBuf_nothingRead.bind fun _ => .pure _
  have ping : Within NothingRead (sendPing (τ := τ) env) := by
    refine Within.bind (.modify fun _ => rfl) fun _ => serialize.bind fun len => ?_
    refine .ite (fun _ => (sendPacket_nothingRead _ _).bind fun _ => ?_) fun _ => .pure _
    exact .ite (fun _ => Within.bind (.modify fun _ => rfl) fun _ => .pure _) fun _ => .pure _
  have expired : Within NothingRead (connectionExpired (τ := τ) env) :=
    (timerIsExpired_nothingRead _).bind fun _ =>
      .ite (fun _ => .pure _) fun _ => timerIsExpired_nothingRead _
  exact Within.get.bind fun _ => .ite (fun _ => .pure _) fun _ => expired.bind fun _ =>
    .ite (fun _ => .ite (fun _ => .pure _) fun _ => ping) fun _ => .pure _

theorem cycleEnd_nothingRead (packType : Nat) (rc : Int) :
    Within NothingRead (cycleEnd (τ := τ) env packType rc) :=
  keepalive_nothingRead.bind fun _ => .ite (fun _ => .pure _) fun _ =>
    .ite (fun _ => .pure _) fun _ => .pure _

theorem getNextPacketId_nothingRead : Within NothingRead (getNextPacketId (τ := τ)) := by
  intro w b w' run
  cases run
  rfl

/-- A message is sent, up to the wait for its acknowledgement. -/
theorem publishStart_nothingRead (drive : PayloadDrive (Prog τ)) (topicName : Bytes)
    (message : MQTTMessage) :
    Within NothingRead (publishStart env drive topicName message) := by
  have parts (fuel total : Nat) : Within NothingRead (partLoop env drive fuel total) := by
    induction fuel generalizing total with
    | zero => exact .throw _
    | succ fuel ih =>
        rw [partLoop]
        refine .ite (fun _ => .pure _) fun _ => (timerIsExpired_nothingRead _).bind fun _ =>
          .ite (fun _ => .pure _) fun _ => Within.get.bind fun _ => (onApp_nothingRead _).bind
            fun _ => .ite (fun _ => .pure _) fun _ => putBuf_nothingRead.bind fun _ => ?_
        exact (sendPacket_nothingRead _ _).bind fun _ => .ite (fun _ => .pure _) fun _ => ih _
  have send (message : MQTTMessage) (payloadlen : Nat) :
      Within NothingRead (publishSend env drive topicName message payloadlen) := by
    refine putBuf_nothingRead.bind fun _ => (sendPacket_nothingRead _ _).bind fun _ =>
      .ite (fun _ => .pure _) fun _ => (parts _ _).bind fun _ => .ite (fun _ => ?_) fun _ => .pure _
    exact (onApp_nothingRead _).bind fun _ => .pure _
  have give : Within NothingRead (giveId (τ := τ) message) :=
    .ite (fun _ => getNextPacketId_nothingRead.bind fun _ => .pure _) fun _ => .pure _
  refine Within.bind (.modify fun _ => rfl) fun _ => give.bind fun message => ?_
  refine (onApp_nothingRead _).bind fun _ => .ite (fun _ => .pure _) fun _ => ?_
  exact (send _ _).bind fun _ => .pure _

/-! ### Results -/

/-- The functions of `cycle_r` succeed or fail. -/
def Settles (rc : Int) : Prop := rc = success ∨ rc = failure

theorem sendPacket_settles (t : Timer) (length : Nat) :
    Gives Settles (sendPacket (τ := τ) env t length) :=
  .bind fun _ => .ite (.bind fun _ => .pure (.inl rfl)) (.pure (.inr rfl))

theorem sendAck_settles (message : MQTTMessage) (len : Int) :
    Gives Settles (sendAck (τ := τ) env message len) := by
  have send (len : Int) : Gives Settles (if len ≤ 0 then return failure
      else sendPacket env .command len.toNat : Prog (World τ) Int) :=
    .ite (.pure (.inr rfl)) (sendPacket_settles _ _)
  exact .ite (.pure (.inl rfl)) (.ite (.bind send) (.ite (.bind send) (.bind send)))

theorem cyclePublish_settles (head : MQTTHeader) (remLen : Int) :
    Gives Settles (cyclePublish (τ := τ) env head remLen) := by
  refine .bind fun topic => ?_
  cases topic with
  | none => exact .pure (.inr rfl)
  | some fields =>
      refine .bind fun id => ?_
      cases id with
      | none => exact .pure (.inr rfl)
      | some id =>
          refine .bind fun _ => .bind fun _ => .bind fun _ => .bind fun read => ?_
          cases read with
          | none => exact .pure (.inr rfl)
          | some len => exact .bind fun _ => sendAck_settles _ _

theorem cycleCollection_settles {packType : Nat} {cycle : MQTTHeader → Int → Prog (World τ) Int}
    (found : cycleCollection env packType = some cycle) (head : MQTTHeader) (remLen : Int) :
    Gives Settles (cycle head remLen) ∧ packType ≠ MsgType.puback.code := by
  rw [cycleCollection] at found
  split at found
  · next is_connack =>
      cases found
      exact ⟨.bind fun _ => .ite (.pure (.inr rfl)) (.pure (.inl rfl)), by rw [is_connack]; decide⟩
  · split at found
    · next is_publish =>
        cases found
        exact ⟨cyclePublish_settles head remLen, by rw [is_publish]; decide⟩
    · split at found
      · next is_suback =>
          cases found
          exact ⟨.bind fun _ => .ite (.pure (.inr rfl)) (.pure (.inl rfl)),
            by rw [is_suback]; decide⟩
      · cases found

/-! ### The functions of `cycle_r` -/

section

variable {R : World τ → World τ → Prop} [IsPreorder (World τ) R]
  (reads : ∀ w w' : World τ, Reads w w' → R w w')

include reads

theorem publishBody_within {message : MQTTMessage}
    (ack : ∀ len, Within R (sendAck (τ := τ) env message len))
    (topicLen restBuffer : Nat) (totalLen : Int) :
    Within R (publishBody (τ := τ) env message topicLen restBuffer totalLen) := by
  refine Within.bind
    (.modify fun w => reads _ _ ⟨⟨w.client.readbuf, rfl⟩, rfl, List.suffix_rfl, rfl⟩)
    fun _ => ?_
  refine .bind ((findDelivery_reads topicLen).mono reads) fun _ => ?_
  refine .bind ((onApp_reads _).mono reads) fun _ => ?_
  refine .bind ((payloadLoop_reads _ _ _ _ _ _).mono reads) fun read => ?_
  cases read with
  | none => exact .pure _
  | some len => exact .bind ((deliverDone_reads _ _).mono reads) fun _ => ack len

theorem cyclePublish_within {head : MQTTHeader}
    (ack : ∀ message : MQTTMessage, message.qos = head.qos → ∀ len,
      Within R (sendAck (τ := τ) env message len)) (remLen : Int) :
    Within R (cyclePublish (τ := τ) env head remLen) := by
  refine .bind ((publishTopic_reads remLen).mono reads) fun topic => ?_
  cases topic with
  | none => exact .pure _
  | some fields =>
      refine .bind ((publishId_reads _ _).mono reads) fun id => ?_
      cases id with
      | none => exact .pure _
      | some id => exact publishBody_within reads (ack _ rfl) _ _ _

theorem cycleCollection_within {packType : Nat} {cycle : MQTTHeader → Int → Prog (World τ) Int}
    (found : cycleCollection env packType = some cycle) {head : MQTTHeader}
    (ack : packType = MsgType.publish.code → ∀ message : MQTTMessage, message.qos = head.qos →
      ∀ len, Within R (sendAck (τ := τ) env message len)) (remLen : Int) :
    Within R (cycle head remLen) := by
  rw [cycleCollection] at found
  split at found
  · cases found
    exact (cycleConnack_reads remLen).mono reads
  · split at found
    · next is_publish =>
        cases found
        exact cyclePublish_within reads (ack is_publish) remLen
    · split at found
      · cases found
        exact (cycleSubscribe_reads remLen).mono reads
      · cases found

end

end AcnSdk.Mqtt.Client
