/-
What `MQTTPublish_part` writes when the network takes every byte that it is given.

* `sendPacket_whole` — a packet goes out in one write.
* `publishStart_sends` — the front of the packet and the payload go out, in this order.
-/

import AcnSdk.Mqtt.Client

namespace AcnSdk.Mqtt.Client

open AcnSdk.Lib Prog

variable {τ : Type} {env : Env} {w : World τ}

/-- Every write takes all of its bytes, and the time of a call does not run out. -/
structure Timely (env : Env) : Prop where
  whole : ∀ k n, env.write k n = n
  calm : ∀ k, env.elapsed k .command = false

/-- The driver gives the payload in pieces; `left` is what it has not given yet. -/
structure Drives (drive : PayloadDrive (Prog τ)) (left : τ → Bytes) : Prop where
  part : ∀ {a : τ} {n : Nat}, 0 < n → left a ≠ [] →
    ∃ s a', drive.part n a = .ok (s, a') ∧ s ≠ [] ∧ s.length ≤ n ∧ left a = s ++ left a'
  fin : ∀ a : τ, ∃ rc a', drive.fin a = .ok (rc, a')

theorem onApp_eq {β : Type} {x : Prog τ β} {b : β} {app : τ} (run : x w.app = .ok (b, app)) :
    onApp x w = .ok (b, { w with app := app }) := by
  rw [onApp, run]
  rfl

/-! ### One packet -/

/-- Whether a timer has run out. -/
def World.gone (env : Env) (t : Timer) (w : World τ) : Bool := w.expired t || env.elapsed w.looks t

/-- The world after a look at a timer. -/
def World.looked (env : Env) (t : Timer) (w : World τ) : World τ :=
  { w with looks := w.looks + 1, expired := fun u => if u = t then w.gone env t else w.expired u }

/-- The world after a packet that is already in the send buffer. -/
def World.sent (s : Bytes) (w : World τ) : World τ :=
  { w with
    output := w.output ++ s
    writes := w.writes + 1
    looks := w.looks + 1
    expired := fun u =>
      if u = .lastSent then false else if u = .command then false else w.expired u }

/-- The world with bytes at the front of the send buffer. -/
def World.filled (s : Bytes) (w : World τ) : World τ :=
  { w with client.buf := store w.client.buf 0 s }

/-- The world after a packet. -/
def World.packet (s : Bytes) (w : World τ) : World τ := (w.filled s).sent s

theorem timerIsExpired_eq (env : Env) (t : Timer) (w : World τ) :
    timerIsExpired env t w = .ok (w.gone env t, w.looked env t) := rfl

theorem Timely.running (timely : Timely env) (running : w.expired .command = false) :
    w.gone env .command = false := by
  rw [World.gone, running, timely.calm]
  rfl

theorem mqttwrite_whole (whole : ∀ k n, env.write k n = n) {length : Nat}
    (fits : length ≤ w.client.buf.length) :
    mqttwrite env 0 length w = .ok ((length : Int), { w with
      writes := w.writes + 1
      output := w.output ++ w.client.buf.take length }) := by
  have copied : copyFrom w.client.buf 0 length = .ok (w.client.buf.take length) := by
    rw [copyFrom_eq (by omega), List.drop_zero]
  simp [mqttwrite, whole, copied]

/-- A packet goes out in one write, unless the time has run out before. -/
theorem sendPacket_eq (whole : ∀ k n, env.write k n = n) (t : Timer) (length : Nat)
    (pos : 0 < length)
    (fits : length ≤ w.client.buf.length) :
    sendPacket env t length w =
      if w.gone env t then .ok (failure, w.looked env t)
      else .ok (success, { w.looked env t with
        writes := w.writes + 1
        output := w.output ++ w.client.buf.take length
        expired := fun u => if u = .lastSent then false else (w.looked env t).expired u }) := by
  have look := timerIsExpired_eq env t w
  obtain ⟨n, rfl⟩ : ∃ n, length = n + 1 := ⟨length - 1, by omega⟩
  by_cases gone : w.gone env t = true
  · have loop : sendLoop env t (n + 1) (n + 2) 0 w = .ok (0, w.looked env t) := by
      rw [sendLoop, if_pos pos, bind_of_ok look, if_pos gone]
      rfl
    rw [sendPacket, bind_of_ok loop, if_neg (by omega), if_pos gone]
    rfl
  · have write := mqttwrite_whole (w := w.looked env t) whole fits
    have loop : sendLoop env t (n + 1) (n + 2) 0 w = .ok (n + 1, { w.looked env t with
        writes := w.writes + 1
        output := w.output ++ w.client.buf.take (n + 1) }) := by
      rw [sendLoop, if_pos pos, bind_of_ok look, if_neg gone, bind_of_ok write, if_neg (by omega),
        sendLoop,
        if_neg (by omega)]
      simp [World.looked]
    rw [sendPacket, bind_of_ok loop, if_pos rfl, if_neg gone]
    rfl

theorem sendPacket_whole (timely : Timely env) (running : w.expired .command = false) {length : Nat}
    (pos : 0 < length) (fits : length ≤ w.client.buf.length) :
    sendPacket env .command length w = .ok (success, w.sent (w.client.buf.take length)) := by
  have gone := timely.running running
  rw [sendPacket_eq timely.whole .command length pos fits, gone, if_neg Bool.false_ne_true,
    World.looked, gone]
  rfl

theorem putBuf_front {s : Bytes} (fits : s.length ≤ w.client.buf.length) :
    putBuf 0 s w = .ok ((), w.filled s) := by
  have copied : copyTo w.client.buf 0 s = .ok (store w.client.buf 0 s) := copyTo_eq (by omega)
  simp [putBuf, copied, World.filled]

/-- A packet that fits goes out. -/
theorem sendPacket_filled (timely : Timely env) (running : w.expired .command = false) {s : Bytes}
    (some : s ≠ []) (fits : s.length ≤ w.client.buf.length) :
    sendPacket env .command s.length (w.filled s) = .ok (success, w.packet s) := by
  have length : (w.filled s).client.buf.length = w.client.buf.length := length_store (by omega)
  have stored : (w.filled s).client.buf.take s.length = s := by simp [World.filled, store]
  have send := sendPacket_whole (w := w.filled s) timely running (List.length_pos_iff.mpr some)
    (by rw [length]; exact fits)
  rw [send, stored]
  rfl

/-- The send buffer keeps its length. -/
theorem World.length_packet {s : Bytes} (fits : s.length ≤ w.client.buf.length) :
    (w.packet s).client.buf.length = w.client.buf.length :=
  length_store (by omega)

theorem World.packet_running (s : Bytes) : (w.packet s).expired .command = false := by
  simp [World.packet, World.filled, World.sent]

/-! ### A message -/

/-- The driver's pieces go out one after the other. -/
theorem partLoop_sends (timely : Timely env) {drive : PayloadDrive (Prog τ)} {left : τ → Bytes}
    (drives : Drives drive left) {fuel : Nat} (room : 0 < w.client.buf.length)
    (running : w.expired .command = false) (enough : (left w.app).length < fuel) :
    ∃ w', partLoop env drive fuel (left w.app).length w = .ok (true, w') ∧
      w'.output = w.output ++ left w.app := by
  induction fuel generalizing w with
  | zero => omega
  | succ fuel ih =>
      rw [partLoop]
      by_cases all : (left w.app).length = 0
      · rw [if_pos all]
        exact ⟨w, rfl, by rw [List.length_eq_zero_iff.mp all, List.append_nil]⟩
      · have ne : left w.app ≠ [] := fun none => all (List.length_eq_zero_iff.mpr none)
        have gone := timely.running running
        have look := timerIsExpired_eq env .command w
        have running' : (w.looked env .command).expired .command = false := by
          rw [World.looked, gone]
          rfl
        have chunk : 0 < min (left w.app).length w.client.buf.length := by omega
        obtain ⟨s, app, part, some, le, rest⟩ := drives.part chunk ne
        have fits : s.length ≤ w.client.buf.length := by omega
        have asked : onApp
            (drive.part (min (left w.app).length (w.looked env .command).client.buf.length))
            (w.looked env .command) = .ok (s, { w.looked env .command with app := app }) :=
              onApp_eq part
        have put := putBuf_front (w := { w.looked env .command with app := app }) fits
        have send := sendPacket_filled (w := { w.looked env .command with app := app }) timely
          running' some fits
        have length : (left w.app).length - s.length = (left app).length := by
          rw [rest, List.length_append]
          omega
        have less : (left app).length < fuel := by
          have : 0 < s.length := List.length_pos_iff.mpr some
          omega
        obtain ⟨w', loop, output⟩ :=
          ih (w := World.packet s { w.looked env .command with app := app })
          (Nat.lt_of_lt_of_eq room (World.length_packet (by exact fits)).symm)
          (World.packet_running s) less
        refine ⟨w', ?_, ?_⟩
        · rw [if_neg all, bind_of_ok look, gone, if_neg Bool.false_ne_true,
            bind_of_ok (get_apply _), bind_of_ok asked, if_neg some, bind_of_ok put,
            bind_of_ok send, if_neg (fun ne => ne rfl), length]
          exact loop
        · rw [output, rest, ← List.append_assoc]
          rfl

/-- The front of a packet takes up to seven bytes besides the topic. -/
theorem length_publishFront_le {topicName : Bytes} {message : MQTTMessage} {payloadlen : Nat}
    (small : mqttSerializePublishLength message.qos topicName payloadlen ≤ maxMsgLen) :
    (publishFront topicName message payloadlen).length ≤ topicName.length + 7 := by
  have numeral :
      (mqttPacketEncode (mqttSerializePublishLength message.qos topicName payloadlen)).length ≤ 2 :=
    length_digits_le (Nat.lt_of_le_of_lt small (by decide)) (by decide)
  simp only [publishFront, List.length_append, writeInt, List.length_cons,
    List.length_nil]
  split <;> simp only [List.length_cons, List.length_nil] <;> omega

/-- The message with the id that it is sent with. -/
def sentMessage (message : MQTTMessage) (w : World τ) : MQTTMessage :=
  if message.qos = 1 ∨ message.qos = 2 then
    { message with
      id := (if w.client.nextPacketid = 65535 then 1 else w.client.nextPacketid + 1) % 2 ^ 16 }
  else message

theorem giveId_eq (message : MQTTMessage) :
    ∃ id, giveId message w = .ok (sentMessage message w, { w with client.nextPacketid := id }) := by
  rw [giveId, sentMessage]
  split
  · exact ⟨_, rfl⟩
  · exact ⟨w.client.nextPacketid, rfl⟩

theorem sentMessage_qos (message : MQTTMessage) : (sentMessage message w).qos = message.qos := by
  rw [sentMessage]
  split <;> rfl

/-- All of a message goes out. -/
theorem publishStart_sends (timely : Timely env) {drive : PayloadDrive (Prog τ)} {left : τ → Bytes}
    (drives : Drives drive left) {topicName payload : Bytes} {message : MQTTMessage} {app : τ}
    (init : drive.init w.app = .ok ((payload.length : Int), app)) (gives : left app = payload)
    (some : payload ≠ [])
    (small : mqttSerializePublishLength message.qos topicName payload.length ≤ maxMsgLen)
    (room : topicName.length + 7 ≤ w.client.buf.length) :
    ∃ w', publishStart env drive topicName message w = .ok ((sentMessage message w, success), w') ∧
      w'.output =
        w.output ++ (publishFront topicName (sentMessage message w) payload.length ++ payload) := by
  subst gives
  let w₀ : World τ := { w with expired := fun u => if u = .command then false else w.expired u }
  obtain ⟨id, give⟩ := giveId_eq (w := w₀) message
  let w₁ : World τ := { w₀ with client.nextPacketid := id, app := app }
  have asked : onApp drive.init { w₀ with client.nextPacketid := id } =
      .ok (((left app).length : Int), w₁) :=
    onApp_eq init
  have pos : 0 < (left app).length := List.length_pos_iff.mpr some
  let front := publishFront topicName (sentMessage message w) (left app).length
  have fits : front.length ≤ w.client.buf.length := by
    refine Nat.le_trans (length_publishFront_le ?_) room
    rw [sentMessage_qos]
    exact small
  have front_ne : front ≠ [] := by simp [front, publishFront]
  have put := putBuf_front (w := w₁) fits
  have send := sendPacket_filled (w := w₁) timely (by simp [w₁, w₀]) front_ne fits
  have room' : 0 < (w₁.packet front).client.buf.length := by
    rw [World.length_packet (by exact fits)]
    exact Nat.lt_of_lt_of_le (by omega) room
  obtain ⟨w₂, loop, output⟩ :=
    partLoop_sends timely drives room' (World.packet_running _) (Nat.lt_succ_self (left app).length)
  replace loop : partLoop env drive ((left app).length + 1) (left app).length _ = _ := loop
  obtain ⟨rc, app', fin⟩ := drives.fin w₂.app
  have whole : publishSend env drive topicName (sentMessage message w) (left app).length w₁ =
      .ok (success, { w₂ with app := app' }) := by
    rw [publishSend, bind_of_ok put, bind_of_ok send, if_neg (fun ne => ne rfl), bind_of_ok loop,
      if_pos rfl,
      bind_of_ok (onApp_eq fin)]
    rfl
  refine ⟨{ w₂ with app := app' }, ?_, ?_⟩
  · have count : timerCountdown .command w = .ok ((), w₀) := rfl
    rw [publishStart, bind_of_ok count, bind_of_ok give, bind_of_ok asked, if_neg (by omega),
      Int.toNat_natCast]
    exact bind_of_ok whole
  · change w₂.output = _
    rw [output, ← List.append_assoc]
    rfl

end AcnSdk.Mqtt.Client
