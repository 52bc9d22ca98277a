/-
What `MQTTPublish_part` puts on the wire.

A write may take any part of what it is given. The loop of `sendPacket` goes on at the first byte
that was not taken but asks for the whole length again, so that it may run past the packet: the
count of what was sent is then not the length, and the packet counts as failed.

* `sendLoop_wrote`, `sendPacket_wrote` — the bytes that are counted are the next ones of the
  send buffer, and a packet that succeeds was written as it stands there.
* `partLoop_pieces` — the payload is written as the driver gives it, piece after piece.
* `publishPart_wire` — with QoS 0 a success has put the front of the packet and the payload on the
  wire, and nothing else.
-/

import AcnSdk.Mqtt.Handshake

namespace AcnSdk.Mqtt.Client

open AcnSdk.Lib Prog

variable {τ : Type} {env : Env} {w w' : World τ}

/-! ### One packet -/

/-- The bytes that are counted as sent were written. -/
theorem sendLoop_wrote {t : Timer} {length fuel sent n : Nat}
    (run : sendLoop env t length fuel sent w = .ok (n, w')) :
    ∃ k, n = sent + k ∧ k ≤ w.client.buf.length - sent ∧
      w'.output = w.output ++ (w.client.buf.drop sent).take k ∧
      w'.client.buf = w.client.buf ∧ w'.app = w.app := by
  have none : w.output = w.output ++ (w.client.buf.drop sent).take 0 := by
    rw [List.take_zero, List.append_nil]
  induction fuel generalizing w sent with
  | zero => cases run
  | succ fuel ih =>
      rw [sendLoop] at run
      by_cases more : sent < length
      · rw [if_pos more, bind_of_ok (timerIsExpired_eq env t w)] at run
        by_cases gone : w.gone env t = true
        · rw [if_pos gone] at run
          cases run
          exact ⟨0, rfl, Nat.zero_le _, none, rfl, rfl⟩
        · rw [if_neg gone, bind_apply] at run
          obtain ⟨r, wrote, run⟩ := ok_of_bind run
          obtain ⟨fits, world⟩ := mqttwrite_ok wrote
          by_cases failed : r.1 ≤ 0
          · rw [if_pos failed, world] at run
            cases run
            have : r.1.toNat = 0 := Int.toNat_of_nonpos failed
            exact ⟨0, rfl, Nat.zero_le _, by rw [this]; rfl, rfl, rfl⟩
          · rw [if_neg failed] at run
            obtain ⟨k, total, le, output, buf, app⟩ :=
              ih run (by rw [List.take_zero, List.append_nil])
            rw [world] at le output buf app
            have fits : sent + r.1.toNat ≤ w.client.buf.length := fits
            have le : k ≤ w.client.buf.length - (sent + r.1.toNat) := le
            refine ⟨r.1.toNat + k, by rw [total, Nat.add_assoc], by omega, ?_, buf, app⟩
            rw [output, List.take_add, List.drop_drop]
            exact List.append_assoc _ _ _
      · rw [if_neg more] at run
        cases run
        exact ⟨0, rfl, Nat.zero_le _, none, rfl, rfl⟩

/-- A packet that was sent. -/
theorem sendPacket_wrote {t : Timer} {length : Nat}
    (run : sendPacket env t length w = .ok (success, w')) :
    w'.output = w.output ++ w.client.buf.take length ∧ w'.client.buf = w.client.buf ∧
      w'.app = w.app := by
  rw [sendPacket, bind_apply] at run
  obtain ⟨r, loop, run⟩ := ok_of_bind run
  obtain ⟨k, total, -, output, buf, app⟩ := sendLoop_wrote loop
  by_cases whole : r.1 = length
  · rw [if_pos whole] at run
    cases run
    rw [List.drop_zero, ← Nat.zero_add k, ← total, whole] at output
    exact ⟨output, buf, app⟩
  · rw [if_neg whole] at run
    cases run

/-- The bytes were written, and all that the payload's driver can see is as it was. -/
structure Wrote (s : Bytes) (w w' : World τ) : Prop where
  output : w'.output = w.output ++ s
  room : w'.client.buf.length = w.client.buf.length
  app : w'.app = w.app

/-- Bytes are put to the send buffer and sent, or this ends early. -/
theorem putBuf_sendPacket {β : Type} {t : Timer} {s : Bytes} {f : Int → Prog (World τ) β} {b : β}
    (run : (do
      putBuf 0 s
      let rc ← sendPacket env t s.length
      f rc) w = .ok (b, w')) :
    ∃ rc w₁, f rc w₁ = .ok (b, w') ∧ (rc = success → Wrote s w w₁) := by
  by_cases fits : s.length ≤ w.client.buf.length
  · rw [bind_of_ok (putBuf_front fits), bind_apply] at run
    obtain ⟨⟨rc, w₁⟩, send, run⟩ := ok_of_bind run
    refine ⟨rc, w₁, run, fun sent => ?_⟩
    subst sent
    obtain ⟨output, buf, app⟩ := sendPacket_wrote send
    have stored : (w.filled s).client.buf.take s.length = s := by simp [World.filled, store]
    rw [stored] at output
    constructor
    · exact output
    · rw [buf]
      exact (filled_beside [] fits).room
    · exact app
  · have large : ¬ 0 + s.length ≤ w.client.buf.length := by omega
    rw [bind_apply, putBuf, bind_of_ok (get_apply w), copyTo, if_neg large] at run
    cases run

theorem onApp_ok {β : Type} {x : Prog τ β} {b : β} (run : onApp x w = .ok (b, w')) :
    x w.app = .ok (b, w'.app) ∧ w'.output = w.output ∧ w'.client = w.client := by
  rw [onApp] at run
  obtain ⟨r, ran, run⟩ := ok_of_bind run
  cases run
  exact ⟨ran, rfl, rfl⟩

/-! ### The payload -/

/-- The driver does not give more than it is asked for. -/
def Bounded (drive : PayloadDrive (Prog τ)) : Prop :=
  ∀ n app s app', drive.part n app = .ok (s, app') → s.length ≤ n

/-- A driver that is asked for `total` bytes, at most `room` at a time, gives these pieces. -/
inductive Pieces (drive : PayloadDrive (Prog τ)) (room : Nat) : Nat → τ → List Bytes → τ → Prop
  | nil (app : τ) : Pieces drive room 0 app [] app
  | cons {total : Nat} {app app₁ app' : τ} {s : Bytes} {pieces : List Bytes} :
      total ≠ 0 → drive.part (min total room) app = .ok (s, app₁) → s ≠ [] →
      Pieces drive room (total - s.length) app₁ pieces app' →
      Pieces drive room total app (s :: pieces) app'

theorem Pieces.length {drive : PayloadDrive (Prog τ)} (bounded : Bounded drive) {room total : Nat}
    {app app' : τ} {pieces : List Bytes} (given : Pieces drive room total app pieces app') :
    pieces.flatten.length = total := by
  induction given with
  | nil => rfl
  | cons _ part _ _ ih =>
      have le := bounded _ _ _ _ part
      rw [List.flatten_cons, List.length_append, ih]
      omega

/-- All of the payload was written, as the driver gives it. -/
theorem partLoop_pieces {drive : PayloadDrive (Prog τ)} {fuel total : Nat}
    (run : partLoop env drive fuel total w = .ok (true, w')) :
    ∃ pieces, Pieces drive w.client.buf.length total w.app pieces w'.app ∧
      w'.output = w.output ++ pieces.flatten := by
  induction fuel generalizing w total with
  | zero => cases run
  | succ fuel ih =>
      rw [partLoop] at run
      by_cases all : total = 0
      · rw [if_pos all] at run
        cases run
        subst all
        exact ⟨[], .nil _, (List.append_nil _).symm⟩
      · rw [if_neg all, bind_of_ok (timerIsExpired_eq env .command w)] at run
        by_cases gone : w.gone env .command = true
        · rw [if_pos gone] at run
          cases run
        · rw [if_neg gone, bind_of_ok (get_apply _), bind_apply] at run
          obtain ⟨r, part, run⟩ := ok_of_bind run
          obtain ⟨gave, output, client⟩ := onApp_ok part
          by_cases none : r.1 = []
          · rw [if_pos none] at run
            cases run
          · rw [if_neg none] at run
            obtain ⟨rc, w₁, later, sent⟩ := putBuf_sendPacket run
            by_cases done : rc = success
            · rw [if_neg (not_not.mpr done)] at later
              have wrote := sent done
              obtain ⟨pieces, rest, output'⟩ := ih later
              rw [wrote.room, client, wrote.app] at rest
              refine ⟨r.1 :: pieces, .cons all gave none rest, ?_⟩
              rw [output', wrote.output, output, List.flatten_cons, List.append_assoc]
              rfl
            · rw [if_pos done] at later
              cases later

/-! ### The message -/

/-- The driver announces a payload, gives it in these pieces and is done with it. -/
def Driven (drive : PayloadDrive (Prog τ)) (room : Nat) (app : τ) (pieces : List Bytes)
    (app' : τ) : Prop :=
  ∃ app₁ app₂ rc, drive.init app = .ok ((pieces.flatten.length : Int), app₁) ∧
    Pieces drive room pieces.flatten.length app₁ pieces app₂ ∧ drive.fin app₂ = .ok (rc, app')

theorem publishSend_pieces {drive : PayloadDrive (Prog τ)} {topicName : Bytes}
    {message : MQTTMessage} {payloadlen : Nat}
    (run : publishSend env drive topicName message payloadlen w = .ok (success, w')) :
    ∃ pieces app rc, Pieces drive w.client.buf.length payloadlen w.app pieces app ∧
      drive.fin app = .ok (rc, w'.app) ∧
      w'.output = w.output ++ (publishFront topicName message payloadlen ++ pieces.flatten) := by
  obtain ⟨rc, w₁, later, sent⟩ := putBuf_sendPacket run
  by_cases done : rc = success
  · rw [if_neg (not_not.mpr done), bind_apply] at later
    obtain ⟨⟨whole, w₂⟩, loop, later⟩ := ok_of_bind later
    cases whole with
    | false => cases later
    | true =>
        have wrote := sent done
        obtain ⟨pieces, given, output⟩ := partLoop_pieces loop
        rw [wrote.room, wrote.app] at given
        rw [if_pos rfl, bind_apply] at later
        obtain ⟨r, fin, later⟩ := ok_of_bind later
        cases later
        obtain ⟨ended, output', -⟩ := onApp_ok fin
        refine ⟨pieces, w₂.app, r.1, given, ended, ?_⟩
        rw [output', output, wrote.output, List.append_assoc]
  · rw [if_pos done] at later
    cases later
    exact absurd rfl done

/-- Up to the wait for an answer, the message as it is sent and its payload are written. -/
theorem publishStart_pieces {drive : PayloadDrive (Prog τ)} (bounded : Bounded drive)
    {topicName : Bytes} {message sent : MQTTMessage}
    (run : publishStart env drive topicName message w = .ok ((sent, success), w')) :
    ∃ pieces, Driven drive w.client.buf.length w.app pieces w'.app ∧
      w'.output =
        w.output ++ (publishFront topicName sent pieces.flatten.length ++ pieces.flatten) := by
  let w₀ : World τ := { w with expired := fun u => if u = .command then false else w.expired u }
  obtain ⟨id, give⟩ := giveId_eq (w := w₀) message
  have count : timerCountdown .command w = .ok ((), w₀) := rfl
  rw [publishStart, bind_of_ok count, bind_of_ok give, bind_apply] at run
  obtain ⟨r, init, run⟩ := ok_of_bind run
  obtain ⟨gave, output, client⟩ := onApp_ok init
  by_cases none : r.1 ≤ 0
  · rw [if_pos none] at run
    cases run
  · rw [if_neg none, bind_apply] at run
    obtain ⟨⟨rc, w₁⟩, send, run⟩ := ok_of_bind run
    cases run
    obtain ⟨pieces, app, rc, given, fin, wrote⟩ := publishSend_pieces send
    have length := given.length bounded
    rw [client] at given
    have announced : (pieces.flatten.length : Int) = r.1 := by omega
    refine ⟨pieces, ⟨r.2.app, app, rc, ?_, ?_, fin⟩, ?_⟩
    · rw [announced]
      exact gave
    · rw [length]
      exact given
    · rw [wrote, output, length]

/-- The message that is sent has its packet id. -/
theorem publishStart_message {drive : PayloadDrive (Prog τ)} {topicName : Bytes}
    {message sent : MQTTMessage} {rc : Int}
    (run : publishStart env drive topicName message w = .ok ((sent, rc), w')) :
    sent = sentMessage message w := by
  let w₀ : World τ := { w with expired := fun u => if u = .command then false else w.expired u }
  obtain ⟨id, give⟩ := giveId_eq (w := w₀) message
  have count : timerCountdown .command w = .ok ((), w₀) := rfl
  have gives : Gives (fun r : MQTTMessage × Int => r.1 = sentMessage message w₀) (do
      let payloadlen ← onApp drive.init
      if payloadlen ≤ 0 then return (sentMessage message w₀, failure)
      else do
        let rc ← publishSend env drive topicName (sentMessage message w₀) payloadlen.toNat
        return (sentMessage message w₀, rc) : Prog (World τ) (MQTTMessage × Int)) :=
    .bind fun _ => .ite (.pure rfl) (.bind fun _ => .pure rfl)
  rw [publishStart, bind_of_ok count, bind_of_ok give] at run
  exact gives _ _ _ run

/-- A success with QoS 0 has put the message on the wire, whatever part of a packet each write
took: its front, and the payload in the pieces that the driver gives. -/
theorem publishPart_wire {drive : PayloadDrive (Prog τ)} (bounded : Bounded drive)
    {topicName : Bytes} {message : MQTTMessage} (qos : message.qos = 0) {fuel : Nat}
    (run : mqttPublishPart env fuel drive topicName message w = .ok (success, w')) :
    ∃ pieces, Driven drive w.client.buf.length w.app pieces w'.app ∧
      w'.output = w.output ++
        (publishFront topicName message pieces.flatten.length ++ pieces.flatten) := by
  rw [mqttPublishPart, bind_of_ok (get_apply w)] at run
  by_cases connected : w.client.isconnected = true
  · rw [if_pos connected, bind_apply] at run
    obtain ⟨⟨⟨sent, rc⟩, w₁⟩, start, run⟩ := ok_of_bind run
    dsimp only at run
    have same : sent = message := by
      have once : ¬ (message.qos = 1 ∨ message.qos = 2) := by omega
      rw [publishStart_message start, sentMessage, if_neg once]
    by_cases done : rc = success
    · subst done
      rw [if_pos rfl, same, publishWait, if_neg (by omega), if_neg (by omega)] at run
      cases run
      rw [same] at start
      exact publishStart_pieces bounded start
    · rw [if_neg done] at run
      cases run
      exact absurd rfl done
  · rw [if_neg connected] at run
    cases run

/-- A driver of a payload of one byte. -/
def oneByte : PayloadDrive (Prog Unit) where
  init := return 1
  part n := return List.take n [42]
  fin := return 0

theorem oneByte_bounded : Bounded oneByte := by
  intro n app s app' run
  cases run
  exact List.length_take_le n _

/-- A client whose next message has the id 1, connected to a peer that sends these packets. -/
def publishing (ps : List Packet) : World Unit :=
  { receiving ps with client := ⟨List.replicate 16 0, List.replicate 16 0, 0, true, 0, false⟩ }

/-- Whether a program ends, with a result that meets `p`. -/
def endsWith {σ β : Type} (p : β → Bool) (x : Except Fault (β × σ)) : Bool :=
  match x with
  | .ok r => p r.1
  | .error _ => false

theorem endsWith_ok {σ β : Type} {p : β → Bool} {x : Except Fault (β × σ)}
    (ends : endsWith p x = true) : ∃ b s, x = .ok (b, s) ∧ p b = true := by
  cases x with
  | error e => cases ends
  | ok r => exact ⟨r.1, r.2, rfl, ends⟩

/-- A message of which each write takes one byte. -/
theorem publishPart_wire_bytewise :
    ∃ w' pieces,
      mqttPublishPart { calm with write := fun _ _ => 1 } 0 oneByte [116] ⟨0, false, false, 0⟩
        (publishing []) = .ok (success, w') ∧
      Driven oneByte 16 () pieces w'.app ∧
      w'.output = publishFront [116] ⟨0, false, false, 0⟩ pieces.flatten.length ++
        pieces.flatten := by
  have ends : endsWith (fun rc => rc == success) (mqttPublishPart
      { calm with write := fun _ _ => 1 } 0 oneByte [116] ⟨0, false, false, 0⟩
      (publishing [])) = true := by decide +kernel
  obtain ⟨rc, w', run, succeeds⟩ := endsWith_ok ends
  rw [beq_iff_eq.mp succeeds] at run
  obtain ⟨pieces, driven, output⟩ := publishPart_wire oneByte_bounded rfl run
  exact ⟨w', pieces, run, driven, output⟩

end AcnSdk.Mqtt.Client
