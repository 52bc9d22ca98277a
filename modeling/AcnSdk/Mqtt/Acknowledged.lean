/-
`MQTTPublish_part` with QoS 1, and the acknowledgement that it waits for.

* `cycleR_puback_iff` — a call returns PUBACK if and only if it reads the header of one.
* `publishPart_acknowledged_iff` — a success means that the acknowledgement of the message was
  received if and only if none of another message was.
-/

import AcnSdk.Mqtt.Waiting
import AcnSdk.Mqtt.Wire

namespace AcnSdk.Mqtt.Client

open AcnSdk.Lib Prog

variable {τ : Type} {env : Env} {w w' : World τ}

/-! ### One call -/

/-- The header of a PUBACK packet is read, with a length that the client allows. -/
def PubackAhead (env : Env) (w : World τ) : Prop :=
  readResult env w 1 = 1 ∧ (MQTTHeader.ofByte (w.input.headD 0)).type = MsgType.puback.code ∧
    ∃ (len remLen : Int) (w₁ : World τ), decodePacket env (w.read env 1) = .ok ((len, remLen), w₁) ∧
      0 < len ∧ remLen ≤ maxMsgLen

/-- After the fixed header, PUBACK is returned for PUBACK only. -/
theorem cycleBody_puback (head : MQTTHeader) (remLen : Int) :
    Gives (fun rc => rc = (MsgType.puback.code : Int) ↔ head.type = MsgType.puback.code)
      (cycleBody (τ := τ) env head remLen) := by
  rw [cycleBody]
  split
  · exact .bind fun _ => .pure Nat.cast_inj
  · next cycle found =>
      obtain ⟨settles, not_puback⟩ := cycleCollection_settles found head remLen
      refine .bind_of settles fun rc settled => .bind fun alive => ?_
      have failed : failure = (MsgType.puback.code : Int) ↔ head.type = MsgType.puback.code :=
        iff_of_false (by decide) not_puback
      refine .ite (.pure failed) ?_
      rcases settled with rfl | rfl
      · exact .ite (.pure Nat.cast_inj) (.pure (iff_of_false (by decide) not_puback))
      · exact .ite (.pure Nat.cast_inj) (.pure failed)

/-- The fixed header of a packet is read, with a length that the client allows. -/
structure HeaderAhead (env : Env) (w : World τ) (len remLen : Int) (w₁ : World τ) : Prop where
  read : readResult env w 1 = 1
  known : ¬ ((MQTTHeader.ofByte (w.input.headD 0)).type < 1 ∨
    15 ≤ (MQTTHeader.ofByte (w.input.headD 0)).type)
  decoded : decodePacket env (w.read env 1) = .ok ((len, remLen), w₁)
  some : 0 < len
  allowed : remLen ≤ maxMsgLen

/-- A call goes on after the fixed header, or there is none. -/
theorem cycleR_cases {rc : Int} (run : cycleR env w = .ok (rc, w')) :
    (∃ len remLen w₁, HeaderAhead env w len remLen w₁ ∧
      cycleBody env (MQTTHeader.ofByte (w.input.headD 0)) remLen w₁ = .ok (rc, w')) ∨
    ((rc = failure ∨ rc = 1) ∧ ∀ len remLen w₁, ¬ HeaderAhead env w len remLen w₁) := by
  rw [cycleR, bind_of_ok (mqttread_eq 1)] at run
  dsimp only at run
  by_cases read : readResult env w 1 = 1
  · have byte : (readBytes env w 1).headD 0 = w.input.headD 0 := by
      rw [readBytes, readTakes, read]
      cases w.input <;> rfl
    rw [if_neg (not_not.mpr read), byte] at run
    by_cases unknown : (MQTTHeader.ofByte (w.input.headD 0)).type < 1 ∨
        15 ≤ (MQTTHeader.ofByte (w.input.headD 0)).type
    · rw [if_pos unknown] at run
      cases run
      exact .inr ⟨.inl rfl, fun _ _ _ ahead => ahead.known unknown⟩
    · rw [if_neg unknown, bind_apply] at run
      obtain ⟨r, decoded, run⟩ := ok_of_bind run
      by_cases bad : r.1.1 ≤ 0 ∨ (maxMsgLen : Int) < r.1.2
      · rw [if_pos bad, read] at run
        cases run
        refine .inr ⟨.inr rfl, fun len remLen w₁ ahead => ?_⟩
        have decoded' := ahead.decoded
        rw [decoded] at decoded'
        cases decoded'
        rcases bad with none | long
        · exact absurd ahead.some (Int.not_lt.mpr none)
        · exact absurd ahead.allowed (Int.not_le.mpr long)
      · rw [if_neg bad] at run
        rw [not_or, not_le, not_lt] at bad
        exact .inl ⟨r.1.1, r.1.2, r.2, ⟨read, unknown, decoded, bad.1, bad.2⟩, run⟩
  · rw [if_pos read] at run
    cases run
    exact .inr ⟨.inl rfl, fun _ _ _ ahead => read ahead.read⟩

/-- A call returns PUBACK if and only if it reads the header of one. -/
theorem cycleR_puback_iff {rc : Int} (run : cycleR env w = .ok (rc, w')) :
    rc = (MsgType.puback.code : Int) ↔ PubackAhead env w := by
  rcases cycleR_cases run with ⟨len, remLen, w₁, ahead, body⟩ | ⟨other, none⟩
  · refine (cycleBody_puback _ _ _ _ _ body).trans ?_
    constructor
    · intro is_puback
      exact ⟨ahead.read, is_puback, len, remLen, w₁, ahead.decoded, ahead.some, ahead.allowed⟩
    · exact fun there => there.2.1
  · refine iff_of_false (by rcases other with rfl | rfl <;> decide) ?_
    rintro ⟨read, is_puback, len, remLen, w₁, decoded, some, allowed⟩
    exact none len remLen w₁ ⟨read, by rw [is_puback]; decide, decoded, some, allowed⟩

/-! ### What was sent -/

/-- The whole message was written between the two worlds. -/
def Sent (drive : PayloadDrive (Prog τ)) (topicName : Bytes) (message : MQTTMessage)
    (w w' : World τ) : Prop :=
  ∃ (payload : Bytes) (app : τ), drive.init w.app = .ok ((payload.length : Int), app) ∧
    w'.output = w.output ++ (publishFront topicName message payload.length ++ payload)

theorem publishStart_wrote {drive : PayloadDrive (Prog τ)} (bounded : Bounded drive)
    {topicName : Bytes} {message sent : MQTTMessage}
    (run : publishStart env drive topicName message w = .ok ((sent, success), w')) :
    Sent drive topicName sent w w' := by
  obtain ⟨pieces, ⟨app, -, -, init, -⟩, output⟩ := publishStart_pieces bounded run
  exact ⟨pieces.flatten, app, init, output⟩

/-! ### The acknowledgement -/

/-- `MQTTPublish_part` with QoS 1: the message as it is sent, the world before the wait, and the
calls of the wait. -/
def publishCalls (env : Env) (fuel : Nat) (drive : PayloadDrive (Prog τ)) (topicName : Bytes)
    (message : MQTTMessage) : Prog (World τ) (MQTTMessage × World τ × List (Call τ)) := do
  let w ← get
  if w.client.isconnected then do
    let (message, rc) ← publishStart env drive topicName message
    let before ← get
    if rc = success then do
      let cs ← waitCalls env .puback fuel
      return (message, before, cs)
    else return (message, before, [])
  else return (message, w, [])

/-- Every PUBACK that a call begins to read is that of the message. -/
def AllOwn (env : Env) (ps : List Packet) (id : Nat) (cs : List (Call τ)) : Prop :=
  ∀ c ∈ cs, ∀ id' rest, c.Faces ps (.ack .puback id') rest → 0 < env.read c.before.reads 1 →
    id' = id

theorem PubackAhead.starts (ahead : PubackAhead env w) : 0 < env.read w.reads 1 := by
  by_contra fails
  have read := ahead.1
  rw [readResult, if_pos (Int.not_lt.mp fails)] at read
  rw [read] at fails
  exact fails (by decide)

theorem publishStart_qos {drive : PayloadDrive (Prog τ)} {topicName : Bytes}
    {message sent : MQTTMessage} {rc : Int}
    (run : publishStart env drive topicName message w = .ok ((sent, rc), w')) :
    sent.qos = message.qos := by
  rw [publishStart_message run, sentMessage_qos]

/-- The end of `MQTTPublish_part` succeeds if and only if the wait did. -/
theorem publishWait_puback {message : MQTTMessage} (qos : message.qos = 1) {fuel : Nat} {rc : Int}
    (run : publishWait env fuel message w = .ok (rc, w')) :
    ∃ got, waitfor env .puback fuel failure w = .ok (got, w') ∧
      (rc = success ↔ got = MsgType.puback.code) := by
  rw [publishWait, if_pos qos, bind_apply] at run
  obtain ⟨r, wait, run⟩ := ok_of_bind run
  by_cases puback : r.1 = MsgType.puback.code
  · rw [if_pos puback] at run
    cases run
    exact ⟨r.1, wait, iff_of_true rfl puback⟩
  · rw [if_neg puback] at run
    cases run
    exact ⟨r.1, wait, iff_of_false (by decide) puback⟩

/-- A PUBACK that ends a wait is the one of the message if and only if each that a call reads is. -/
theorem waitfor_own (network : AllOrNothing env) {ps : List Packet} (wf : ∀ p ∈ ps, p.WellFormed)
    {fuel : Nat} {rc : Int} {cs : List (Call τ)} {w₂ : World τ} (kept : Kept env ps w cs)
    (run : waitfor env .puback fuel failure w = .ok (rc, w'))
    (record : waitCalls env .puback fuel w = .ok (cs, w₂)) (id : Nat) :
    (rc = MsgType.puback.code ↔ Received ps (.ack .puback id) w w') ↔ AllOwn env ps id cs := by
  obtain ⟨n, input⟩ := kept.boundary
  have inside : ps.drop n <:+ ps := List.drop_suffix n ps
  obtain ⟨cs', record', got_iff, unique⟩ := waitfor_iff cycleR_puback_iff (by decide) run
  rw [record] at record'
  cases record'
  obtain ⟨taken, back, split, took⟩ := waitfor_packets cycleR_puback_iff network wf (by decide)
    inside input run record kept.short kept.readOn
  rw [split] at inside input
  have begun {c : Call τ} {id' : Nat} {rest : List Packet} (mem : c ∈ cs)
      (faces : c.Faces ps (.ack .puback id') rest) (starts : 0 < env.read c.before.reads 1) :
      PubackAhead env c.before := by
    have here := faces.2
    rw [stream_cons] at here
    have not_cycled : ¬ (Packet.ack .puback id').Cycled := by
      rintro (cycled | cycled | cycled) <;> cases cycled
    have call := cycleR_drained (wf _ (faces.1.mem List.mem_cons_self))
      (kept.short c mem _ _ faces) not_cycled (kept.readOn c mem _ _ faces) starts here
    exact (cycleR_puback_iff call).mp rfl
  by_cases got : rc = MsgType.puback.code
  · obtain ⟨left, front, p, c, rfl, others, is_puback, mem, faces, ahead⟩ := took.took got
    have mem_ps : p ∈ ps := faces.1.mem List.mem_cons_self
    obtain ⟨id₀, rfl⟩ := (wf p mem_ps).eq_puback is_puback
    rw [iff_true_left got, received_iff_mem inside input left]
    have same : Packet.ack .puback id ∈ front ++ [.ack .puback id₀] ↔ id₀ = id := by
      rw [List.mem_append, List.mem_singleton]
      constructor
      · rintro (mem | same)
        · exact absurd rfl (others _ mem)
        · cases same
          rfl
      · rintro rfl
        exact .inr rfl
    rw [same]
    constructor
    · rintro rfl d mem' id' rest faces' starts
      obtain rfl := unique d mem' c mem (begun mem' faces' starts) ahead
      cases faces'.unique faces
      rfl
    · intro own
      exact own c mem id₀ back faces ahead.starts
  · refine iff_of_true (iff_of_false got fun received => ?_) ?_
    · have mem := received.mem inside input took.left
      rcases took.failed got _ mem rfl with cycled | cycled | cycled <;> cases cycled
    · intro c mem id' rest faces starts
      exact absurd (got_iff.mpr ⟨c, mem, begun mem faces starts⟩) got

/-- A success means that the message was sent and its PUBACK received, if and only if every PUBACK
that a call of the wait begins to read is that of the message. The calls keep to the packets. -/
theorem publishPart_acknowledged_iff {drive : PayloadDrive (Prog τ)} (bounded : Bounded drive)
    (network : AllOrNothing env) {ps : List Packet} (wf : ∀ p ∈ ps, p.WellFormed)
    {topicName : Bytes} {message sent : MQTTMessage} (qos : message.qos = 1) {fuel : Nat} {rc : Int}
    {w₁ w₂ : World τ} {cs : List (Call τ)}
    (run : mqttPublishPart env fuel drive topicName message w = .ok (rc, w'))
    (record : publishCalls env fuel drive topicName message w = .ok ((sent, w₁, cs), w₂))
    (kept : Kept env ps w cs) :
    (rc = success ↔
        Sent drive topicName sent w w₁ ∧ Received ps (.ack .puback sent.id) w w') ↔
      AllOwn env ps sent.id cs := by
  rw [mqttPublishPart, bind_of_ok (get_apply w)] at run
  rw [publishCalls, bind_of_ok (get_apply w)] at record
  by_cases connected : w.client.isconnected = true
  · rw [if_pos connected, bind_apply] at run record
    obtain ⟨⟨⟨message', rc₀⟩, w₀⟩, start, run⟩ := ok_of_bind run
    have same : w₀.input = w.input := publishStart_nothingRead _ _ _ _ _ _ start
    rw [start, ok_bind] at record
    dsimp only at run record
    by_cases done : rc₀ = success
    · subst done
      rw [if_pos rfl] at run
      obtain ⟨got, wait, result⟩ :=
        publishWait_puback ((publishStart_qos start).trans qos) run
      rw [bind_of_ok (get_apply w₀), if_pos rfl, bind_apply] at record
      obtain ⟨⟨calls, w₃⟩, waited, record⟩ := ok_of_bind record
      cases record
      have kept' : Kept env ps w₁ calls := ⟨same.symm ▸ kept.boundary, kept.short, kept.readOn⟩
      have own := waitfor_own network wf kept' wait waited sent.id
      have received : Received ps (.ack .puback sent.id) w₁ w' ↔
          Received ps (.ack .puback sent.id) w w' := by
        rw [Received, Received, same]
      rw [result, ← received, and_iff_right (publishStart_wrote bounded start)]
      exact own
    · rw [if_neg done] at run
      rw [bind_of_ok (get_apply w₀), if_neg done] at record
      cases run
      cases record
      refine iff_of_true ⟨fun sent => absurd sent done, ?_⟩ (List.forall_mem_nil _)
      exact fun both => absurd both.2 (not_received_of_same same)
  · rw [if_neg connected] at run record
    cases run
    cases record
    refine iff_of_true ⟨fun sent => absurd sent (by decide), ?_⟩ (List.forall_mem_nil _)
    exact fun both => absurd both.2 (not_received_of_same rfl)

theorem calm_kept {ps : List Packet} {w : World Unit} {cs : List (Call Unit)}
    (boundary : AtBoundary ps w.input) (short : ∀ p ∈ ps, p.body.length ≤ maxMsgLen) :
    Kept calm ps w cs where
  boundary := boundary
  short := fun _ _ p _ faces => short p (faces.1.mem List.mem_cons_self)
  readOn := fun _ _ _ _ _ _ _ _ _ _ => rfl

/-- A message that is acknowledged, behind a packet of another kind. -/
theorem publishPart_acknowledged_iff_own :
    ∃ rc w' sent w₁ cs w₂,
      mqttPublishPart calm 3 oneByte [116] ⟨1, false, false, 0⟩
        (publishing [.plain .pingresp, .ack .puback 1]) = .ok (rc, w') ∧
      publishCalls calm 3 oneByte [116] ⟨1, false, false, 0⟩
        (publishing [.plain .pingresp, .ack .puback 1]) = .ok ((sent, w₁, cs), w₂) ∧
      ((rc = success ↔
          Sent oneByte [116] sent (publishing [.plain .pingresp, .ack .puback 1]) w₁ ∧
          Received [.plain .pingresp, .ack .puback 1] (.ack .puback sent.id)
            (publishing [.plain .pingresp, .ack .puback 1]) w') ↔
        AllOwn calm [.plain .pingresp, .ack .puback 1] sent.id cs) := by
  let ps : List Packet := [.plain .pingresp, .ack .puback 1]
  have ends : endsWith (fun _ => true) (mqttPublishPart calm 3 oneByte [116] ⟨1, false, false, 0⟩
      (publishing ps)) = true := by decide +kernel
  have records : endsWith (fun _ => true) (publishCalls calm 3 oneByte [116] ⟨1, false, false, 0⟩
      (publishing ps)) = true := by decide +kernel
  obtain ⟨rc, w', run, -⟩ := endsWith_ok ends
  obtain ⟨⟨sent, w₁, cs⟩, w₂, record, -⟩ := endsWith_ok records
  have network : AllOrNothing calm := fun _ => .inl fun _ => rfl
  have wf : ∀ p ∈ ps, p.WellFormed := by
    intro p mem
    rcases List.mem_cons.mp mem with rfl | mem
    · have shape : MsgType.pingresp ∈ [.pingreq, .pingresp, .disconnect] := by decide
      exact ⟨shape, by decide⟩
    · obtain rfl := List.mem_singleton.mp mem
      have shape : MsgType.puback ∈ [.puback, .pubrec, .pubrel, .pubcomp, .unsuback] := by decide
      exact ⟨⟨shape, by decide⟩, by decide⟩
  have kept : Kept calm ps (publishing ps) cs := calm_kept ⟨0, rfl⟩ (by decide)
  exact ⟨rc, w', sent, w₁, cs, w₂, run, record,
    publishPart_acknowledged_iff oneByte_bounded network wf rfl run record kept⟩

/-- Another message is acknowledged, and the call succeeds. -/
theorem not_acknowledged_foreign :
    ∃ rc w' sent w₁ cs w₂,
      mqttPublishPart calm 3 oneByte [116] ⟨1, false, false, 0⟩ (publishing [.ack .puback 9]) =
        .ok (rc, w') ∧
      publishCalls calm 3 oneByte [116] ⟨1, false, false, 0⟩ (publishing [.ack .puback 9]) =
        .ok ((sent, w₁, cs), w₂) ∧
      rc = success ∧ ¬ Received [.ack .puback 9] (.ack .puback sent.id)
        (publishing [.ack .puback 9]) w' := by
  have ends : endsWith (fun rc => rc == success) (mqttPublishPart calm 3 oneByte [116]
      ⟨1, false, false, 0⟩ (publishing [.ack .puback 9])) = true := by decide +kernel
  have records : endsWith (fun r => r.1.id == 1) (publishCalls calm 3 oneByte [116]
      ⟨1, false, false, 0⟩ (publishing [.ack .puback 9])) = true := by decide +kernel
  obtain ⟨rc, w', run, succeeds⟩ := endsWith_ok ends
  obtain ⟨⟨sent, w₁, cs⟩, w₂, record, id⟩ := endsWith_ok records
  refine ⟨rc, w', sent, w₁, cs, w₂, run, record, beq_iff_eq.mp succeeds, ?_⟩
  rintro ⟨rest, there, -⟩
  have mem := there.mem List.mem_cons_self
  rw [beq_iff_eq.mp id] at mem
  revert mem
  decide

end AcnSdk.Mqtt.Client
