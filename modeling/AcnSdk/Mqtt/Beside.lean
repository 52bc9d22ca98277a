/-
What sending leaves alone, whatever the network and the clock do.

A packet of the client's own (an acknowledgement, a ping) goes through the send buffer. It may
be cut short or be refused, but nothing is read for it, and what is written starts as the packet
does.

* `sendAck_beside`, `keepalive_beside`, `cycleEnd_beside` — the parts of `cycle_r` that send.
-/

import AcnSdk.Mqtt.Receive

namespace AcnSdk.Mqtt.Client

open AcnSdk.Lib Prog

variable {τ : Type} {env : Env} {w w' w'' : World τ}

/-- The two worlds differ in clock, send buffer and output only. What was written starts with one
of these bytes. -/
structure Beside (heads : Bytes) (w w' : World τ) : Prop where
  input : w'.input = w.input
  reads : w'.reads = w.reads
  app : w'.app = w.app
  received : w'.received = w.received
  delivery : w'.delivery = w.delivery
  readbuf : w'.client.readbuf = w.client.readbuf
  room : w'.client.buf.length = w.client.buf.length
  wrote : ∃ s, w'.output = w.output ++ s ∧ ∀ b ∈ s.head?, b ∈ heads

namespace Beside

variable {heads heads' : Bytes}

theorem refl (heads : Bytes) (w : World τ) : Beside heads w w :=
  ⟨rfl, rfl, rfl, rfl, rfl, rfl, rfl, [], (List.append_nil _).symm, fun _ h => nomatch h⟩

theorem mono (sub : heads ⊆ heads') (h : Beside heads w w') : Beside heads' w w' := by
  obtain ⟨s, output, first⟩ := h.wrote
  exact ⟨h.input, h.reads, h.app, h.received, h.delivery, h.readbuf, h.room, s, output,
    fun b mem => sub (first b mem)⟩

theorem trans (one : Beside heads w w') (two : Beside heads w' w'') : Beside heads w w'' := by
  obtain ⟨s, output, first⟩ := one.wrote
  obtain ⟨s', output', first'⟩ := two.wrote
  refine ⟨two.input.trans one.input, two.reads.trans one.reads, two.app.trans one.app,
    two.received.trans one.received, two.delivery.trans one.delivery,
    two.readbuf.trans one.readbuf, two.room.trans one.room, s ++ s', ?_, ?_⟩
  · rw [output', output, List.append_assoc]
  · cases s with
    | nil => exact first'
    | cons b s => exact first

/-- What is written first decides. -/
theorem append (one : Beside heads w w') {s : Bytes} (output : w'.output = w.output ++ s)
    (some : s ≠ []) (two : Beside heads' w' w'') : Beside heads w w'' := by
  obtain ⟨s₁, output₁, first⟩ := one.wrote
  obtain ⟨s', output', -⟩ := two.wrote
  obtain rfl : s₁ = s := List.append_cancel_left (output₁.symm.trans output)
  refine ⟨two.input.trans one.input, two.reads.trans one.reads, two.app.trans one.app,
    two.received.trans one.received, two.delivery.trans one.delivery,
    two.readbuf.trans one.readbuf, two.room.trans one.room, s₁ ++ s', ?_, ?_⟩
  · rw [output', output, List.append_assoc]
  · rw [List.head?_append_of_ne_nil _ some]
    exact first

end Beside

theorem looked_beside (heads : Bytes) (t : Timer) (w : World τ) :
    Beside heads w (w.looked env t) :=
  ⟨rfl, rfl, rfl, rfl, rfl, rfl, rfl, [], (List.append_nil _).symm, fun _ h => nomatch h⟩

theorem expired_beside (heads : Bytes) (expired : Timer → Bool) (w : World τ) :
    Beside heads w { w with expired := expired } :=
  ⟨rfl, rfl, rfl, rfl, rfl, rfl, rfl, [], (List.append_nil _).symm, fun _ h => nomatch h⟩

/-- The packet at the front of the send buffer. -/
theorem filled_beside (heads : Bytes) {s : Bytes} (fits : s.length ≤ w.client.buf.length) :
    Beside heads w (w.filled s) :=
  ⟨rfl, rfl, rfl, rfl, rfl, rfl, length_store (by omega), [], (List.append_nil _).symm,
    fun _ h => nomatch h⟩

/-! ### One packet -/

/-- A write, of which nothing is known. -/
theorem mqttwrite_cases (env : Env) {i : Nat} (length : Nat)
    (fits : i + length ≤ w.client.buf.length) :
    ∃ r : Int, r ≤ length ∧ mqttwrite env i length w = .ok (r, { w with
      writes := w.writes + 1
      output := w.output ++ (w.client.buf.drop i).take r.toNat }) := by
  refine ⟨min (env.write w.writes length) length, min_le_right _ _, ?_⟩
  have le : (min (env.write w.writes length) (length : Int)).toNat ≤ length := by omega
  have copied := copyFrom_eq (l := w.client.buf) (i := i)
    (n := (min (env.write w.writes length) (length : Int)).toNat) (by omega)
  rw [mqttwrite, bind_of_ok (get_apply w), copied]
  rfl

/-- The loop of `sendPacket` ends, and what it writes starts with the byte at `sent`. -/
theorem sendLoop_beside (env : Env) (t : Timer) {length fuel sent : Nat} (pos : 0 < fuel)
    (enough : length < sent + fuel) (fits : 2 * length ≤ w.client.buf.length) :
    ∃ n w', sendLoop env t length fuel sent w = .ok (n, w') ∧
      Beside (w.client.buf.drop sent).head?.toList w w' := by
  induction fuel generalizing w sent with
  | zero => exact absurd pos (Nat.lt_irrefl 0)
  | succ fuel ih =>
      rw [sendLoop]
      by_cases more : sent < length
      · rw [if_pos more, bind_of_ok (timerIsExpired_eq env t w)]
        by_cases gone : w.gone env t = true
        · rw [if_pos gone]
          exact ⟨sent, _, rfl, looked_beside _ t w⟩
        · rw [if_neg gone]
          obtain ⟨r, r_le, write⟩ := mqttwrite_cases env (w := w.looked env t) (i := sent)
            length (by change _ ≤ w.client.buf.length; omega)
          rw [bind_of_ok write]
          let s := (w.client.buf.drop sent).take r.toNat
          let w₁ : World τ :=
            { w.looked env t with writes := w.writes + 1, output := w.output ++ s }
          have first : ∀ b ∈ s.head?, b ∈ (w.client.buf.drop sent).head?.toList := by
            intro b mem
            rw [Option.mem_toList]
            by_cases none : r.toNat = 0
            · rw [show s = [] from by simp [s, none]] at mem
              cases mem
            · rwa [List.head?_take, if_neg none] at mem
          have wrote : Beside (w.client.buf.drop sent).head?.toList w w₁ :=
            ⟨rfl, rfl, rfl, rfl, rfl, rfl, rfl, s, rfl, first⟩
          by_cases failed : r ≤ 0
          · rw [if_pos failed]
            exact ⟨sent, w₁, rfl, wrote⟩
          · have some : s ≠ [] := by
              apply List.ne_nil_of_length_pos
              rw [List.length_take, List.length_drop]
              omega
            obtain ⟨n, w', loop, later⟩ := @ih w₁ (sent + r.toNat) (by omega)
              (by omega) fits
            rw [if_neg failed]
            exact ⟨n, w', loop, wrote.append rfl some later⟩
      · rw [if_neg more]
        exact ⟨sent, w, rfl, .refl _ w⟩

theorem sendPacket_beside (env : Env) (t : Timer) {length : Nat}
    (fits : 2 * length ≤ w.client.buf.length) :
    ∃ rc w', sendPacket env t length w = .ok (rc, w') ∧ (rc = success ∨ rc = failure) ∧
      Beside w.client.buf.head?.toList w w' := by
  obtain ⟨n, w', loop, beside⟩ := sendLoop_beside env t (Nat.succ_pos length)
    (Nat.lt_of_lt_of_eq (Nat.lt_succ_self length) (Nat.zero_add _).symm) fits
  rw [List.drop_zero] at beside
  rw [sendPacket, bind_of_ok loop]
  by_cases whole : n = length
  · rw [if_pos whole]
    exact ⟨success, _, rfl, .inl rfl, beside.trans (expired_beside _ _ w')⟩
  · rw [if_neg whole]
    exact ⟨failure, w', rfl, .inr rfl, beside⟩

/-- A packet is put to the send buffer and sent. -/
theorem sendFilled_beside (env : Env) (t : Timer) {b : Byte} {s : Bytes}
    (fits : 2 * (b :: s).length ≤ w.client.buf.length) :
    ∃ rc w', sendPacket env t (b :: s).length (w.filled (b :: s)) = .ok (rc, w') ∧
      (rc = success ∨ rc = failure) ∧ Beside [b] w w' := by
  have fits' : (b :: s).length ≤ w.client.buf.length := by omega
  have beside := filled_beside [b] fits'
  obtain ⟨rc, w', send, outcome, beside'⟩ := sendPacket_beside env
    (w := w.filled (b :: s)) t (beside.room.symm ▸ fits)
  exact ⟨rc, w', send, outcome, beside.trans beside'⟩

/-! ### Acknowledgements and pings -/

/-- The header byte of an acknowledgement. -/
def ackByte (type : MsgType) : Byte :=
  MQTTHeader.byte ⟨type.code, false, if type = .pubrel then 1 else 0, false⟩

/-- The header byte of a ping. -/
def pingByte : Byte := MQTTHeader.byte ⟨MsgType.pingreq.code, false, 0, false⟩

theorem ackPacket_eq (type : MsgType) (id : Nat) :
    ackPacket type id = ackByte type :: (2 :: writeInt id) := rfl

theorem sendSerialized_beside (env : Env) (type : MsgType) (id : Nat)
    (room : 8 ≤ w.client.buf.length) :
    ∃ rc w', (mqttSerializeAck type id >>= fun len => if len ≤ 0 then return failure
        else sendPacket env .command len.toNat) w = .ok (rc, w') ∧
      (rc = success ∨ rc = failure) ∧ Beside [ackByte type] w w' := by
  have serialize : mqttSerializeAck type id w = .ok (4, w.filled (ackPacket type id)) := by
    rw [mqttSerializeAck, bind_of_ok (get_apply w), if_neg (by omega),
      bind_of_ok (putBuf_front (s := ackPacket type id) (by change 4 ≤ _; omega))]
    rfl
  rw [bind_of_ok serialize, if_neg (by decide)]
  exact sendFilled_beside env .command (b := ackByte type) (s := 2 :: writeInt id) room

theorem sendAck_beside (env : Env) {message : MQTTMessage} (qos_le : message.qos ≤ 2)
    (room : 8 ≤ w.client.buf.length) (len : Int) :
    ∃ rc w', sendAck env message len w = .ok (rc, w') ∧ (rc = success ∨ rc = failure) ∧
      Beside [ackByte .puback, ackByte .pubrec] w w' := by
  obtain none | once | twice : message.qos = 0 ∨ message.qos = 1 ∨ message.qos = 2 := by omega
  · rw [sendAck, if_pos none]
    exact ⟨success, w, rfl, .inl rfl, .refl _ w⟩
  · obtain ⟨rc, w', run, outcome, beside⟩ := sendSerialized_beside env (w := w) .puback
      message.id room
    rw [sendAck, if_neg (by omega), if_pos once]
    exact ⟨rc, w', run, outcome, beside.mono (List.cons_subset_cons _ (List.nil_subset _))⟩
  · obtain ⟨rc, w', run, outcome, beside⟩ := sendSerialized_beside env (w := w) .pubrec
      message.id room
    rw [sendAck, if_neg (by omega), if_neg (by omega), if_pos twice]
    exact ⟨rc, w', run, outcome, beside.mono (List.subset_cons_self _ _)⟩

theorem mqttSerializeZero_filled (type : MsgType) (room : 2 ≤ w.client.buf.length) :
    mqttSerializeZero type w = .ok (2, w.filled (zeroPacket type)) := by
  have fits : (zeroPacket type).length ≤ w.client.buf.length := room
  rw [mqttSerializeZero, bind_of_ok (get_apply w), if_neg (Nat.not_lt.mpr room),
    bind_of_ok (putBuf_front fits)]
  rfl

theorem sendPing_beside (env : Env) (room : 8 ≤ w.client.buf.length) :
    ∃ rc w', sendPing env w = .ok (rc, w') ∧ (rc = success ∨ rc = failure) ∧
      Beside [pingByte] w w' := by
  let w₁ : World τ := { w with expired := fun u => if u = .ping then false else w.expired u }
  have count : timerCountdown .ping w = .ok ((), w₁) := rfl
  have room₁ : 2 ≤ w₁.client.buf.length := Nat.le_trans (by decide) room
  have serialize := mqttSerializeZero_filled .pingreq room₁
  obtain ⟨rc, w', send, outcome, beside⟩ := sendFilled_beside env (w := w₁) .ping
    (b := pingByte) (s := [0]) (by change 4 ≤ w.client.buf.length; omega)
  have beside := (expired_beside [pingByte] _ w).trans beside
  rw [sendPing, bind_of_ok count, bind_of_ok serialize, if_pos (by decide)]
  have send : sendPacket env .ping (2 : Int).toNat (w₁.filled (zeroPacket .pingreq)) =
      .ok (rc, w') := send
  rw [bind_of_ok send]
  by_cases sent : rc = success
  · rw [if_pos sent]
    refine ⟨rc, _, rfl, outcome, ?_⟩
    exact ⟨beside.input, beside.reads, beside.app, beside.received, beside.delivery,
      beside.readbuf, beside.room, beside.wrote⟩
  · rw [if_neg sent]
    exact ⟨rc, w', rfl, outcome, beside⟩

theorem connectionExpired_beside (env : Env) (w : World τ) :
    ∃ gone w', connectionExpired env w = .ok (gone, w') ∧ Beside [pingByte] w w' := by
  rw [connectionExpired, bind_of_ok (timerIsExpired_eq env .lastSent w)]
  cases w.gone env .lastSent with
  | true => exact ⟨true, _, rfl, looked_beside _ .lastSent w⟩
  | false =>
      refine ⟨_, _, rfl, (looked_beside _ .lastSent w).trans (looked_beside _ .lastReceived _)⟩

/-- `keepalive` succeeds or fails, and what it writes is a ping. -/
theorem keepalive_beside (env : Env) (room : 8 ≤ w.client.buf.length) :
    ∃ rc w', keepalive env w = .ok (rc, w') ∧ (rc = success ∨ rc = failure) ∧
      Beside [pingByte] w w' := by
  rw [keepalive, bind_of_ok (get_apply w)]
  by_cases off : w.client.keepAliveInterval = 0
  · rw [if_pos off]
    exact ⟨success, w, rfl, .inl rfl, .refl _ w⟩
  · obtain ⟨gone, w₁, look, beside⟩ := connectionExpired_beside env w
    rw [if_neg off, bind_of_ok look]
    cases gone with
    | false => exact ⟨success, w₁, rfl, .inl rfl, beside⟩
    | true =>
        by_cases outstanding : w.client.pingOutstanding = true
        · rw [if_pos rfl, if_pos outstanding]
          exact ⟨failure, w₁, rfl, .inr rfl, beside⟩
        · obtain ⟨rc, w', ping, outcome, beside'⟩ := sendPing_beside env (w := w₁)
            (beside.room.symm ▸ room)
          rw [if_pos rfl, if_neg outstanding]
          exact ⟨rc, w', ping, outcome, beside.trans beside'⟩

/-- The end of `cycle_r` gives the type of the packet or fails. -/
theorem cycleEnd_beside (env : Env) (room : 8 ≤ w.client.buf.length) (packType : Nat) {rc : Int}
    (outcome : rc = success ∨ rc = failure) :
    ∃ rc' w', cycleEnd env packType rc w = .ok (rc', w') ∧
      ((rc = success ∧ rc' = packType) ∨ rc' = failure) ∧ Beside [pingByte] w w' := by
  obtain ⟨alive, w', run, _, beside⟩ := keepalive_beside env room
  rw [cycleEnd, bind_of_ok run]
  by_cases dead : alive = success
  · rw [if_neg (not_not.mpr dead)]
    rcases outcome with rfl | rfl
    · exact ⟨packType, w', rfl, .inl ⟨rfl, rfl⟩, beside⟩
    · exact ⟨failure, w', rfl, .inr rfl, beside⟩
  · rw [if_pos dead]
    exact ⟨failure, w', rfl, .inr rfl, beside⟩

end AcnSdk.Mqtt.Client
