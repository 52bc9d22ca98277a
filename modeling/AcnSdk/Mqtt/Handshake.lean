/-
What `cycle_r` writes, whatever it reads, and the handshake of QoS 2.

* `cycleR_writes` — a call writes nothing, or starts with an acknowledgement or a ping.
* `handshake_iff` — PUBREL and PUBREC are answered if and only if none arrives.
-/

import AcnSdk.Mqtt.Frame
import AcnSdk.Mqtt.Sync

namespace AcnSdk.Mqtt.Client

open AcnSdk.Lib Prog

variable {τ : Type} {env : Env} {w w' w'' : World τ} {P : Byte → Prop}

/-- What is written starts with a byte that meets `P`. The send buffer keeps its size, the
callbacks stay registered, and nothing is put back to be read. -/
def Writes (P : Byte → Prop) (w w' : World τ) : Prop :=
  8 ≤ w.client.buf.length → w'.client.buf.length = w.client.buf.length ∧
    w'.delivery = w.delivery ∧ w'.input <:+ w.input ∧ ∃ s, w'.output = w.output ++ s ∧
    ∀ b ∈ s.head?, P b

namespace Writes

theorem of_same (buf : w'.client.buf = w.client.buf) (delivery : w'.delivery = w.delivery)
    (input : w'.input <:+ w.input) (output : w'.output = w.output) : Writes P w w' :=
  fun _ => ⟨congrArg List.length buf, delivery, input, [], output.trans (List.append_nil _).symm,
    fun _ mem => nomatch mem⟩

theorem of_beside {heads : Bytes} (beside : Beside heads w w') (sub : ∀ b ∈ heads, P b) :
    Writes P w w' := by
  obtain ⟨s, output, first⟩ := beside.wrote
  exact fun _ => ⟨beside.room, beside.delivery, ⟨[], beside.input⟩, s, output,
    fun b mem => sub b (first b mem)⟩

theorem trans (one : Writes P w w') (two : Writes P w' w'') : Writes P w w'' := by
  intro room
  obtain ⟨length, delivery, input, s, output, first⟩ := one room
  obtain ⟨length', delivery', input', s', output', first'⟩ := two (length.symm ▸ room)
  refine ⟨length'.trans length, delivery'.trans delivery, input'.trans input, s ++ s', ?_, ?_⟩
  · rw [output', output, List.append_assoc]
  cases s with
  | nil => exact first'
  | cons b s => exact first

instance : IsPreorder (World τ) (Writes P) where
  refl := fun _ => of_same rfl rfl List.suffix_rfl rfl
  trans := fun _ _ _ => trans

end Writes

theorem Reads.writes (w w' : World τ) (reads : Reads w w') : Writes P w w' := by
  obtain ⟨readbuf, client⟩ := reads.client
  exact .of_same (by rw [client]) reads.delivery reads.input reads.output

theorem Sends.writes (w w' : World τ) (sends : Sends w w') : Writes (fun _ => True) w w' := by
  obtain ⟨buf, length, client⟩ := sends.client
  obtain ⟨s, output⟩ := sends.output
  intro _
  refine ⟨?_, sends.delivery, ⟨[], sends.input⟩, s, output, fun _ _ => trivial⟩
  rw [client, length]

/-! ### Answers -/

/-- An answer to a message of any quality of service. -/
theorem sendAck_within (message : MQTTMessage) (len : Int) :
    Within (Writes fun _ => True) (sendAck (τ := τ) env message len) :=
  (sendAck_sends message len).mono Sends.writes

theorem sendAck_formed {message : MQTTMessage} (qos_le : message.qos ≤ 2) (len : Int) :
    Within (Writes (· ∈ answerHeads)) (sendAck (τ := τ) env message len) := by
  intro w b w' run room
  obtain ⟨rc, w₁, run', -, beside⟩ := sendAck_beside env qos_le room len
  rw [run] at run'
  cases run'
  exact Writes.of_beside beside (fun b mem => List.mem_append_left [pingByte] mem) room

section

variable (ping : P pingByte)

include ping

theorem cycleEnd_within (packType : Nat) (rc : Int) :
    Within (Writes P) (cycleEnd (τ := τ) env packType rc) := by
  refine Within.bind ?_ fun _ => .ite (fun _ => .pure _) fun _ =>
    .ite (fun _ => .pure _) fun _ => .pure _
  intro w b w' run room
  obtain ⟨rc, w₁, run', -, beside⟩ := keepalive_beside env room
  rw [run] at run'
  cases run'
  exact Writes.of_beside beside (fun b mem => List.mem_singleton.mp mem ▸ ping) room

theorem cycleBody_within {head : MQTTHeader}
    (ack : head.type = MsgType.publish.code → ∀ message : MQTTMessage, message.qos = head.qos →
      ∀ len, Within (Writes P) (sendAck (τ := τ) env message len)) (remLen : Int) :
    Within (Writes P) (cycleBody (τ := τ) env head remLen) := by
  rw [cycleBody]
  split
  · exact .bind ((drainLoop_reads _ _).mono Reads.writes) fun _ => .pure _
  · next cycle found =>
      exact .bind (cycleCollection_within Reads.writes found ack remLen) fun rc =>
        cycleEnd_within ping _ rc

/-- A call on what starts with the byte `b`, after this byte. -/
theorem cycleR_within_byte
    (ack : ∀ b ∈ w.input.head?, (MQTTHeader.ofByte b).type = MsgType.publish.code →
      ∀ message : MQTTMessage, message.qos = (MQTTHeader.ofByte b).qos →
        ∀ len, Within (Writes P) (sendAck (τ := τ) env message len))
    {rc : Int} (run : cycleR env w = .ok (rc, w')) :
    (readResult env w 1 = 1 ∧ Writes P (w.read env 1) w') ∨ (rc = failure ∧ w' = w.read env 1) := by
  rw [cycleR, bind_of_ok (mqttread_eq 1)] at run
  dsimp only at run
  by_cases read : readResult env w 1 = 1
  · rw [if_neg (not_not.mpr read)] at run
    have fits : readResult env w 1 ≤ w.input.length := (readResult_le (by omega)).2
    obtain ⟨b, rest, input⟩ : ∃ b rest, w.input = b :: rest := by
      cases input : w.input with
      | nil => rw [input, List.length_nil] at fits; omega
      | cons b rest => exact ⟨b, rest, rfl⟩
    have byte : (readBytes env w 1).headD 0 = b := by
      rw [readBytes, readTakes, read, input]
      rfl
    rw [byte] at run
    refine .inl ⟨read, ?_⟩
    by_cases unknown : (MQTTHeader.ofByte b).type < 1 ∨ 15 ≤ (MQTTHeader.ofByte b).type
    · rw [if_pos unknown] at run
      cases run
      exact refl_of (Writes P) _
    · rw [if_neg unknown, bind_apply] at run
      obtain ⟨r, decoded, run⟩ := ok_of_bind run
      refine (Reads.writes _ _ (decodeLoop_reads _ _ _ _ _ _ _ decoded)).trans ?_
      by_cases bad : r.1.1 ≤ 0 ∨ (maxMsgLen : Int) < r.1.2
      · rw [if_pos bad] at run
        cases run
        exact refl_of (Writes P) _
      · rw [if_neg bad] at run
        exact cycleBody_within ping (ack b (by rw [input]; rfl)) _ _ _ _ run
  · rw [if_pos read] at run
    cases run
    exact .inr ⟨rfl, rfl⟩

theorem cycleR_within
    (ack : ∀ b ∈ w.input.head?, (MQTTHeader.ofByte b).type = MsgType.publish.code →
      ∀ message : MQTTMessage, message.qos = (MQTTHeader.ofByte b).qos →
        ∀ len, Within (Writes P) (sendAck (τ := τ) env message len))
    {rc : Int} (run : cycleR env w = .ok (rc, w')) : Writes P w w' := by
  have first : Writes P w (w.read env 1) := .of_same rfl rfl (List.drop_suffix _ _) rfl
  rcases cycleR_within_byte ping ack run with ⟨-, later⟩ | ⟨-, rfl⟩
  · exact first.trans later
  · exact first

end

/-- A header byte of a publish packet that no sender may use. -/
def Malformed (b : Byte) : Prop :=
  (MQTTHeader.ofByte b).type = MsgType.publish.code ∧ 2 < (MQTTHeader.ofByte b).qos

/-- A call writes nothing, or starts with an acknowledgement or a ping, unless it finds a publish
packet of no quality of service: then it sends what is in the send buffer. -/
theorem cycleR_writes (formed : ∀ b ∈ w.input.head?, ¬ Malformed b) {rc : Int}
    (run : cycleR env w = .ok (rc, w')) : Writes (· ∈ answerHeads) w w' :=
  cycleR_within (by decide) (fun b mem publish message same len => sendAck_formed
    (Nat.not_lt.mp fun lt => formed b mem ⟨publish, Nat.lt_of_lt_of_eq lt same⟩) len) run

/-! ### The handshake -/

/-- The call took the packet, and nothing more. -/
def Call.Received (p : Packet) (c : Call τ) : Prop := c.before.input = p.bytes ++ c.after.input

/-- The call found no malformed header, and sent the bytes `s` first. -/
def Call.Sent (s : Bytes) (c : Call τ) : Prop :=
  (∀ b ∈ c.before.input.head?, ¬ Malformed b) ∧
    ∃ more, c.after.output = c.before.output ++ (s ++ more)

/-- What the sender of an acknowledgement waits for. -/
def reply : MsgType → Option MsgType
  | .pubrel => some .pubcomp
  | .pubrec => some .pubrel
  | _ => none

/-- Every PUBREL and every PUBREC is answered, by the call that received it or by a later one. -/
def Answered (cs : List (Call τ)) : Prop :=
  ∀ (i : Nat) (type answer : MsgType) (id : Nat) (c : Call τ), cs[i]? = some c →
    c.Received (.ack type id) → reply type = some answer →
      ∃ (j : Nat) (c' : Call τ), i ≤ j ∧ cs[j]? = some c' ∧ c'.Sent (ackPacket answer id)

/-- The calls of a run start with the same callbacks and enough room. -/
theorem calls_each {n : Nat} {cs : List (Call τ)} (room : 8 ≤ w.client.buf.length)
    (run : calls env n w = .ok (cs, w')) :
    ∀ c ∈ cs, (8 ≤ c.before.client.buf.length ∧ c.before.delivery = w.delivery) ∧
      cycleR env c.before = .ok (c.result, c.after) := by
  induction n generalizing w cs with
  | zero =>
      cases run
      exact fun c mem => nomatch mem
  | succ n ih =>
      obtain ⟨c, cs', rfl, rfl, call, later⟩ := calls_succ_ok run
      have writes : Writes (fun _ => True) c.before c.after :=
        cycleR_within trivial (fun _ _ _ message _ len => sendAck_within message len) call
      obtain ⟨length, delivery, -⟩ := writes room
      intro d mem
      rcases List.mem_cons.mp mem with rfl | mem
      · exact ⟨⟨room, rfl⟩, call⟩
      · obtain ⟨⟨room', delivery'⟩, call'⟩ := ih (length.symm ▸ room) later d mem
        exact ⟨⟨room', delivery'.trans delivery⟩, call'⟩

theorem not_sent {c : Call τ} (room : 8 ≤ c.before.client.buf.length)
    (call : cycleR env c.before = .ok (c.result, c.after)) {type answer : MsgType} (id : Nat)
    (replies : reply type = some answer) : ¬ c.Sent (ackPacket answer id) := by
  rintro ⟨formed, more, output⟩
  obtain ⟨-, -, -, s, output', first⟩ := cycleR_writes formed call room
  obtain rfl : s = ackPacket answer id ++ more :=
    List.append_cancel_left (output'.symm.trans output)
  have answers : ackByte answer ∈ answerHeads := first _ (by rw [ackPacket_eq]; rfl)
  cases type <;> cases replies <;> exact absurd answers (by decide)

/-- PUBREL and PUBREC are answered in a run if and only if none is received. -/
theorem handshake_iff {n : Nat} {cs : List (Call τ)} (room : 8 ≤ w.client.buf.length)
    (run : calls env n w = .ok (cs, w')) :
    Answered cs ↔ ∀ c ∈ cs, ∀ type id, c.Received (.ack type id) → reply type = none := by
  have each := calls_each room run
  constructor
  · intro answered c mem type id received
    by_contra some_reply
    obtain ⟨answer, replies⟩ := Option.ne_none_iff_exists'.mp some_reply
    obtain ⟨i, here⟩ := List.mem_iff_getElem?.mp mem
    obtain ⟨j, c', -, there, sent⟩ := answered i type answer id c here received replies
    obtain ⟨⟨room', -⟩, call⟩ := each c' (List.mem_of_getElem? there)
    exact not_sent room' call id replies sent
  · intro none_received i type answer id c here received replies
    have := none_received c (List.mem_of_getElem? here) type id received
    rw [replies] at this
    cases this

/-- An acknowledgement is taken by a call. -/
theorem calls_ack {type : MsgType}
    (known : type ∈ [.puback, .pubrec, .pubrel, .pubcomp, .unsuback]) :
    ∃ c w', calls calm 1 (receiving [.ack type 7]) = .ok ([c], w') ∧
      c.Received (.ack type 7) := by
  have wf : (Packet.ack type 7).WellFormed := ⟨⟨known, by decide⟩, by change 2 < _; decide⟩
  have handled : Handled 8 (.ack type 7) := ⟨by change 2 ≤ _; decide, trivial⟩
  have full : Full calm := fun _ _ => rfl
  obtain ⟨rc, w₁, call, took, -, -⟩ := cycleR_took (w := receiving [.ack type 7])
    full (receiving_sound _).quiet wf handled (receiving_sound _).room
    (stream_cons _ _)
  refine ⟨⟨_, rc, w₁⟩, w₁, calls_succ call rfl, ?_⟩
  rw [Call.Received, took.input]
  exact stream_cons _ _

/-- A run with one PUBACK. -/
theorem handshake_iff_puback :
    ∃ cs w', calls calm 1 (receiving [.ack .puback 7]) = .ok (cs, w') ∧
      (Answered cs ↔ ∀ c ∈ cs, ∀ type id, c.Received (.ack type id) → reply type = none) := by
  obtain ⟨c, w', run, -⟩ := @calls_ack .puback (by decide)
  exact ⟨[c], w', run, handshake_iff (receiving_sound _).room run⟩

/-- A PUBREL that is not answered. -/
theorem not_answered_pubrel :
    ∃ cs w', calls calm 1 (receiving [.ack .pubrel 7]) = .ok (cs, w') ∧
      (∃ c ∈ cs, c.Received (.ack .pubrel 7)) ∧ ¬ Answered cs := by
  obtain ⟨c, w', run, received⟩ := @calls_ack .pubrel (by decide)
  refine ⟨[c], w', run, ⟨c, List.mem_cons_self, received⟩, fun answered => ?_⟩
  obtain ⟨j, c', -, there, sent⟩ := answered 0 .pubrel .pubcomp 7 c rfl received rfl
  obtain ⟨⟨room, -⟩, call⟩ :=
    calls_each (receiving_sound _).room run c' (List.mem_of_getElem? there)
  have replies : reply .pubrel = some .pubcomp := rfl
  exact not_sent room call 7 replies sent

end AcnSdk.Mqtt.Client
