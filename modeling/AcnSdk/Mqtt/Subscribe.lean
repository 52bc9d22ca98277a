/-
`arrow_mqtt_client_subscribe`, and the SUBACK that it waits for.

`cycle_subscribe` leaves the body of a SUBACK in the read buffer: the packet id and the return
codes. `MQTTDeserialize_suback` takes the packet id for the length of what it shall read. The
return code of the subscription is still that of the packet that was sent, whatever is found.

* `cycleR_suback_iff` — a call returns SUBACK if and only if it takes one.
* `subscribeWait_success` — the subscription succeeds if and only if some call does.
* `subscribe_granted_iff` — a success means that a SUBACK was received that grants the subscription
  if and only if every SUBACK that is taken does.
-/

import AcnSdk.Mqtt.Acknowledged

namespace AcnSdk.Mqtt.Client

open AcnSdk.Lib Prog

variable {τ : Type} {env : Env} {w w' : World τ}

/-! ### The source -/

/-- A byte as an `int`, with a `char` that has a sign or none. -/
def readChar (signedChar : Bool) (b : Byte) : Int :=
  if signedChar ∧ 128 ≤ b.toNat then (b.toNat : Int) - 256 else b.toNat

/-- The loop of `MQTTDeserialize_suback`: what it returns, with the granted qualities of service. -/
def subackLoop (signedChar : Bool) (maxcount enddata : Nat) (buf : Bytes) :
    Nat → Nat → Nat → List Int → Except Fault (Int × List Int)
  | 0, _, _, _ => .error .endless
  | fuel + 1, curdata, count, grantedQoSs =>
      if curdata < enddata then
        if maxcount < count then .ok (-1, grantedQoSs)
        else if curdata < buf.length ∧ count < grantedQoSs.length then
          subackLoop signedChar maxcount enddata buf fuel (curdata + 1) (count + 1)
            (grantedQoSs.set count (readChar signedChar (buf.getD curdata 0)))
        else .error .overflow
      else .ok (1, grantedQoSs)

/-- `MQTTDeserialize_suback`. -/
def mqttDeserializeSuback (signedChar : Bool) (maxcount : Nat) (grantedQoSs : List Int)
    (buf : Bytes) : Except Fault (Int × List Int) :=
  if buf.length < 2 then .error .overflow
  else subackLoop signedChar maxcount (readInt buf) buf (readInt buf + 1) 2 0 grantedQoSs

/-- `arrow_mqtt_client_delivery_message_reg`. -/
def deliveryMessageReg (dc : Registered (Prog τ)) : Prog (World τ) Int := do
  modify fun w =>
    if w.delivery.any fun r => cstr r.topic == cstr dc.topic then w
    else { w with delivery := w.delivery ++ [dc] }
  return 0

/-- A subscribe packet, with the size of the topic as `property_size` has it. -/
def subscribePacket (qos id size : Nat) (topic : Bytes) : Bytes :=
  [MQTTHeader.byte ⟨MsgType.subscribe.code, false, 1, false⟩] ++ mqttPacketEncode (5 + size) ++
    writeInt id ++ writeInt (cstr topic).length ++ cstr topic ++ [UInt8.ofNat qos]

/-- `arrow_mqtt_client_subscribe` up to the wait: the packet id, and the result. -/
def subscribeStart (env : Env) (qos size : Nat) (cb : Registered (Prog τ)) :
    Prog (World τ) (Nat × Int) := do
  timerCountdown .command
  let id ← getNextPacketId
  putBuf 0 (subscribePacket qos id size cb.topic)
  let rc ← sendPacket env .command (subscribePacket qos id size cb.topic).length
  return (id, rc)

/-- The wait of `arrow_mqtt_client_subscribe`. The quality of service that is granted is 0 at
first. -/
def subscribeWait (env : Env) (signedChar : Bool) (fuel : Nat) (cb : Registered (Prog τ)) :
    Prog (World τ) Int := do
  let got ← waitfor env .suback fuel failure
  if got = MsgType.suback.code then do
    let w ← get
    let (rc, grantedQoSs) ← lift (mqttDeserializeSuback signedChar 1 [0] w.client.readbuf)
    if rc = 1 ∧ grantedQoSs.headD 0 ≠ 0x80 then deliveryMessageReg cb
    else return success
  else return failure

/-- `arrow_mqtt_client_subscribe`. -/
def arrowMqttClientSubscribe (env : Env) (signedChar : Bool) (fuel qos size : Nat)
    (cb : Registered (Prog τ)) : Prog (World τ) Int := do
  let w ← get
  if w.client.isconnected then do
    let (_, rc) ← subscribeStart env qos size cb
    if rc = success then subscribeWait env signedChar fuel cb else return rc
  else return failure

/-! ### One call -/

/-- A SUBACK is taken: its header is read and some of its body, and the connection is kept. -/
def SubackAhead (env : Env) (w : World τ) : Prop :=
  (MQTTHeader.ofByte (w.input.headD 0)).type = MsgType.suback.code ∧
    ∃ len remLen w₁ w₂ w₃, HeaderAhead env w len remLen w₁ ∧
      cycleSubscribe env remLen w₁ = .ok (success, w₂) ∧ keepalive env w₂ = .ok (success, w₃)

theorem cycleEnd_type_iff {packType : Nat} {rc rc' : Int} (settled : Settles rc)
    (run : cycleEnd env packType rc w = .ok (rc', w')) {type : MsgType} :
    rc' = (type.code : Int) ↔
      packType = type.code ∧ rc = success ∧ ∃ w₂, keepalive env w = .ok (success, w₂) := by
  have failed : failure ≠ (type.code : Int) := by
    cases type <;> decide
  rw [cycleEnd, bind_apply] at run
  obtain ⟨⟨alive, w₁⟩, kept, run⟩ := ok_of_bind run
  dsimp only at run
  split_ifs at run with dead done
  · cases run
    refine iff_of_false failed ?_
    rintro ⟨-, -, w₂, alive⟩
    rw [kept] at alive
    cases alive
    exact dead rfl
  · cases run
    rw [not_not.mp dead] at kept
    rw [Nat.cast_inj]
    exact (and_iff_left ⟨done, _, kept⟩).symm
  · cases run
    refine iff_of_false ?_ fun there => done there.2.1
    rw [settled.resolve_left done]
    exact failed

/-- After the fixed header, SUBACK is returned for a SUBACK with a body. -/
theorem cycleBody_suback {head : MQTTHeader} {remLen rc : Int}
    (run : cycleBody env head remLen w = .ok (rc, w')) :
    rc = (MsgType.suback.code : Int) ↔ head.type = MsgType.suback.code ∧
      ∃ w₁ w₂, cycleSubscribe env remLen w = .ok (success, w₁) ∧
        keepalive env w₁ = .ok (success, w₂) := by
  have function : cycleCollection (τ := τ) env MsgType.suback.code =
      some fun _ => cycleSubscribe env := rfl
  rw [cycleBody] at run
  cases found : cycleCollection (τ := τ) env head.type with
  | none =>
      have other : head.type ≠ MsgType.suback.code := by
        intro is_suback
        rw [is_suback, function] at found
        cases found
      rw [found] at run
      dsimp only at run
      rw [bind_apply] at run
      obtain ⟨r, drained, run⟩ := ok_of_bind run
      cases run
      exact iff_of_false (fun same => other (Nat.cast_inj.mp same)) fun there => other there.1
  | some cycle =>
      rw [found] at run
      dsimp only at run
      rw [bind_apply] at run
      obtain ⟨⟨rc₁, w₁⟩, ran, run⟩ := ok_of_bind run
      have settled := (cycleCollection_settles found head remLen).1 _ _ _ ran
      refine (cycleEnd_type_iff settled run).trans (and_congr_right fun is_suback => ?_)
      rw [is_suback, function] at found
      cases found
      dsimp only at ran ⊢
      constructor
      · rintro ⟨rfl, w₂, kept⟩
        exact ⟨w₁, w₂, ran, kept⟩
      · rintro ⟨w₁', w₂, took, kept⟩
        rw [ran] at took
        cases took
        exact ⟨rfl, w₂, kept⟩

/-- A call returns SUBACK if and only if it takes one. -/
theorem cycleR_suback_iff {w w' : World τ} {rc : Int} (run : cycleR env w = .ok (rc, w')) :
    rc = (MsgType.suback.code : Int) ↔ SubackAhead env w := by
  rcases cycleR_cases run with ⟨len, remLen, w₁, ahead, body⟩ | ⟨other, none⟩
  · refine (cycleBody_suback body).trans ?_
    constructor
    · rintro ⟨is_suback, w₂, w₃, took, kept⟩
      exact ⟨is_suback, len, remLen, w₁, w₂, w₃, ahead, took, kept⟩
    · rintro ⟨is_suback, len', remLen', w₁', w₂, w₃, ahead', took, kept⟩
      have decoded := ahead'.decoded
      rw [ahead.decoded] at decoded
      cases decoded
      exact ⟨is_suback, w₂, w₃, took, kept⟩
  · refine iff_of_false (by rcases other with rfl | rfl <;> decide) ?_
    rintro ⟨-, len, remLen, w₁, -, -, ahead, -⟩
    exact none len remLen w₁ ahead

/-! ### The subscription -/

theorem deliveryMessageReg_success (dc : Registered (Prog τ)) :
    Gives (· = success) (deliveryMessageReg dc) := .bind fun _ => .pure rfl

theorem deliveryMessageReg_nothingRead (dc : Registered (Prog τ)) :
    Within NothingRead (deliveryMessageReg dc) :=
  Within.bind (.modify fun w => by split <;> rfl) fun _ => .pure _

/-- The subscription succeeds if and only if a SUBACK is taken, whatever it says. -/
theorem subscribeWait_success {signedChar : Bool} {fuel : Nat} {cb : Registered (Prog τ)} {rc : Int}
    (run : subscribeWait env signedChar fuel cb w = .ok (rc, w')) :
    ∃ got w₁, waitfor env .suback fuel failure w = .ok (got, w₁) ∧ w'.input = w₁.input ∧
      (rc = success ↔ got = MsgType.suback.code) := by
  rw [subscribeWait, bind_apply] at run
  obtain ⟨⟨got, w₁⟩, wait, run⟩ := ok_of_bind run
  refine ⟨got, w₁, wait, ?_⟩
  dsimp only at run
  by_cases suback : got = MsgType.suback.code
  · rw [if_pos suback, bind_of_ok (get_apply w₁), bind_apply] at run
    obtain ⟨⟨⟨rc₁, grantedQoSs⟩, w₂⟩, parsed, run⟩ := ok_of_bind run
    have same : w₂.input = w₁.input :=
      Within.lift (R := NothingRead) (mqttDeserializeSuback signedChar 1 [0] w₁.client.readbuf)
        _ _ _ parsed
    dsimp only at run
    split_ifs at run
    · have left := deliveryMessageReg_nothingRead cb _ _ _ run
      exact ⟨left.trans same, iff_of_true (deliveryMessageReg_success cb _ _ _ run) suback⟩
    · cases run
      exact ⟨same, iff_of_true rfl suback⟩
  · rw [if_neg suback] at run
    cases run
    exact ⟨rfl, iff_of_false (by decide) suback⟩

/-- The subscription succeeds or fails. -/
theorem subscribe_settles (signedChar : Bool) (fuel qos size : Nat) (cb : Registered (Prog τ)) :
    Gives Settles (arrowMqttClientSubscribe env signedChar fuel qos size cb) := by
  have start : Gives (fun r => Settles r.2) (subscribeStart (τ := τ) env qos size cb) :=
    .bind fun _ => .bind fun id => .bind fun _ =>
      .bind_of (sendPacket_settles _ _) fun rc settled => .pure settled
  have wait : Gives Settles (subscribeWait (τ := τ) env signedChar fuel cb) := by
    refine .bind fun got => .ite (.bind fun w => .bind fun r => .ite ?_ (.pure (.inl rfl)))
      (.pure (.inr rfl))
    exact .bind fun _ => .pure (.inl rfl)
  refine .bind fun w => .ite (.bind_of start fun r settled => ?_) (.pure (.inr rfl))
  exact .ite wait (.pure settled)

/-- `arrow_mqtt_client_subscribe`: the packet id that it sends, and the calls of the wait. -/
def subscribeCalls (env : Env) (fuel qos size : Nat) (cb : Registered (Prog τ)) :
    Prog (World τ) (Nat × List (Call τ)) := do
  let w ← get
  if w.client.isconnected then do
    let (id, rc) ← subscribeStart env qos size cb
    if rc = success then do
      let cs ← waitCalls env .suback fuel
      return (id, cs)
    else return (id, [])
  else return (0, [])

/-- A SUBACK for the packet id that grants a quality of service. -/
def Grants (id : Nat) (p : Packet) : Prop := ∃ code : Byte, code.toNat ≤ 2 ∧ p = .suback id [code]

/-- Every SUBACK that a call takes grants the subscription. -/
def AllGrant (env : Env) (ps : List Packet) (id : Nat) (cs : List (Call τ)) : Prop :=
  ∀ c ∈ cs, ∀ p rest, c.Faces ps p rest → p.type = .suback → SubackAhead env c.before → Grants id p

/-- A wait that ends with a SUBACK has received one that grants the subscription if and only if
each that a call takes does. -/
theorem waitfor_granted (network : AllOrNothing env) {ps : List Packet}
    (wf : ∀ p ∈ ps, p.WellFormed) {fuel : Nat} {rc : Int} {cs : List (Call τ)} {w₂ : World τ}
    (kept : Kept env ps w cs) (run : waitfor env .suback fuel failure w = .ok (rc, w'))
    (record : waitCalls env .suback fuel w = .ok (cs, w₂)) (id : Nat) :
    (rc = MsgType.suback.code → ∃ p, Grants id p ∧ Received ps p w w') ↔ AllGrant env ps id cs := by
  obtain ⟨n, input⟩ := kept.boundary
  have inside : ps.drop n <:+ ps := List.drop_suffix n ps
  obtain ⟨cs', record', got_iff, unique⟩ := waitfor_iff cycleR_suback_iff (by decide) run
  rw [record] at record'
  cases record'
  obtain ⟨taken, back, split, took⟩ := waitfor_packets cycleR_suback_iff network wf (by decide)
    inside input run record kept.short kept.readOn
  rw [split] at inside input
  by_cases got : rc = MsgType.suback.code
  · obtain ⟨left, front, p, c, rfl, others, is_suback, mem, faces, ahead⟩ := took.took got
    have last : (∃ q, Grants id q ∧ Received ps q w w') ↔ Grants id p := by
      constructor
      · rintro ⟨q, grants, received⟩
        obtain ⟨code, small, rfl⟩ := grants
        rw [received_iff_mem inside input left, List.mem_append, List.mem_singleton] at received
        rcases received with mem | same
        · exact absurd rfl (others _ mem)
        · exact ⟨code, small, same.symm⟩
      · intro grants
        refine ⟨p, grants, (received_iff_mem inside input left).mpr ?_⟩
        exact List.mem_append_right _ List.mem_cons_self
    rw [last]
    constructor
    · intro grants d mem' q rest faces' _ ahead'
      obtain rfl := unique d mem' c mem ahead' ahead
      rw [faces'.unique faces]
      exact grants got
    · intro all _
      exact all c mem p back faces is_suback ahead
  · refine iff_of_true (fun same => absurd same got) fun c mem p rest _ _ ahead => ?_
    exact absurd (got_iff.mpr ⟨c, mem, ahead⟩) got

theorem subscribeStart_nothingRead (qos size : Nat) (cb : Registered (Prog τ)) :
    Within NothingRead (subscribeStart env qos size cb) :=
  Within.bind (.modify fun _ => rfl) fun _ => getNextPacketId_nothingRead.bind fun _ =>
    putBuf_nothingRead.bind fun _ => (sendPacket_nothingRead _ _).bind fun _ => .pure _

/-- A success means that a SUBACK was received that grants the subscription, if and only if every
SUBACK that is taken does. The calls keep to the packets. -/
theorem subscribe_granted_iff (network : AllOrNothing env) {ps : List Packet}
    (wf : ∀ p ∈ ps, p.WellFormed) {signedChar : Bool} {fuel qos size : Nat}
    {cb : Registered (Prog τ)} {rc : Int}
    (run : arrowMqttClientSubscribe env signedChar fuel qos size cb w = .ok (rc, w')) :
    ∃ id cs w₂, subscribeCalls env fuel qos size cb w = .ok ((id, cs), w₂) ∧
      (Kept env ps w cs →
        ((rc = success → ∃ p, Grants id p ∧ Received ps p w w') ↔ AllGrant env ps id cs)) := by
  rw [arrowMqttClientSubscribe, bind_of_ok (get_apply w)] at run
  rw [subscribeCalls, bind_of_ok (get_apply w)]
  by_cases connected : w.client.isconnected = true
  · rw [if_pos connected, bind_apply] at run ⊢
    obtain ⟨⟨⟨id, rc₁⟩, w₁⟩, start, run⟩ := ok_of_bind run
    have same : w₁.input = w.input := subscribeStart_nothingRead _ _ _ _ _ _ start
    rw [start, ok_bind]
    dsimp only at run ⊢
    by_cases done : rc₁ = success
    · rw [if_pos done] at run ⊢
      obtain ⟨got, w₂, wait, left, result⟩ := subscribeWait_success run
      obtain ⟨cs, calls, -⟩ := waitfor_iff cycleR_suback_iff (by decide) wait
      refine ⟨id, cs, w₂, bind_of_ok calls, fun kept => ?_⟩
      have kept' : Kept env ps w₁ cs := ⟨same.symm ▸ kept.boundary, kept.short, kept.readOn⟩
      have granted := waitfor_granted network wf kept' wait calls id
      have received (p : Packet) : Received ps p w₁ w₂ ↔ Received ps p w w' := by
        rw [Received, Received, same, left]
      rw [result, ← granted]
      simp only [received]
    · rw [if_neg done] at run ⊢
      cases run
      exact ⟨id, [], _, rfl,
        fun _ => iff_of_true (fun same => absurd same done) (List.forall_mem_nil _)⟩
  · rw [if_neg connected] at run ⊢
    cases run
    exact ⟨0, [], _, rfl,
      fun _ => iff_of_true (fun same => absurd same (by decide)) (List.forall_mem_nil _)⟩

end AcnSdk.Mqtt.Client
