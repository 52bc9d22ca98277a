/-
`cycle` of `MQTTClient.c`, which reads a packet whole into the read buffer, and its `readPacket`.

`readPacket` takes a remaining length of 0 for no packet at all, and reads away a packet that is too
long for the buffer. The handlers of `Handlers.lean` are called with the message in the buffer.

* `readPacket_takes` — a packet is read to its end, and is then in the buffer if there was room.
-/

import AcnSdk.Mqtt.Handlers
import AcnSdk.Mqtt.PacketRoundTrip
import AcnSdk.Mqtt.Stream

namespace AcnSdk.Mqtt.Client

open AcnSdk.Lib Prog

/-! ### The source -/

/-- `BUFFER_OVERFLOW`. -/
def bufferOverflow : Int := -2

/-- `MessageData`, with the handler that gets it and the bytes of the payload. -/
structure MessageData (φ : Type) where
  fp : φ
  topicName : Bytes
  message : MQTTMessage
  payload : Bytes
deriving DecidableEq, Repr

/-- The handlers of a client, and a record of how they were called. -/
structure Session (φ : Type) where
  handlers : List (MessageHandlers φ)
  default : Option φ
  calls : List (MessageData φ)
deriving DecidableEq, Repr

variable {τ φ : Type}

/-- Bytes are put to the read buffer. -/
def putReadbuf (i : Nat) (s : Bytes) : Prog (World τ) Unit := do
  let w ← get
  let readbuf ← lift (copyTo w.client.readbuf i s)
  set { w with client.readbuf := readbuf }

section

variable (env : Env)

/-- The loop of `readPacket` over a packet that is too long. -/
def discardLoop (len : Nat) : Nat → Int → Prog (World τ) Unit
  | 0, _ => throw .endless
  | fuel + 1, remLen =>
      if remLen = 0 then return ()
      else do
        let w ← get
        let room : Int := w.client.readbuf.length - len - 1
        let r ← readInto env len (if remLen < room then remLen else room)
        if 0 < r then discardLoop len fuel (remLen - r) else return ()

/-- `readPacket` behind the fixed header, which is in the read buffer and `len` bytes long. -/
def readRest (len : Nat) (remLen : Int) : Prog (World τ) Int := do
  let w ← get
  if (w.client.readbuf.length : Int) - len < remLen then do
    discardLoop env len (remLen.toNat + 1) remLen
    return bufferOverflow
  else do
    let r ← readInto env len remLen
    if r ≠ remLen then return 0
    else do
      let w ← get
      if 0 < w.client.keepAliveInterval then timerCountdown .lastReceived
      return (MQTTHeader.ofByte (w.client.readbuf.headD 0)).type

/-- `readPacket`. -/
def readPacket : Prog (World τ) Int := do
  let rc ← readInto env 0 1
  if rc ≠ 1 then return rc
  else do
    let (_, remLen) ← decodePacket env
    if remLen ≤ 0 then return 0
    else do
      putReadbuf 1 (mqttPacketEncode remLen.toNat)
      readRest env (1 + (mqttPacketEncode remLen.toNat).length) remLen

/-- `deliverMessage`, with the calls recorded. -/
def callHandlers (topicName : Bytes) (message : MQTTMessage) (payload : Bytes) :
    Prog (World (Session φ)) Int :=
  onApp do
    let s ← get
    let (rc, fps) := deliverMessage s.handlers s.default topicName
    set { s with calls := s.calls ++ fps.map (MessageData.mk · topicName message payload) }
    return rc

/-- `case PUBLISH` of `cycle`: the result, and whether it goes to `exit`. The topic of a packet that
`MQTTDeserialize_publish` takes without setting it is a wild pointer. The length of the payload is
stored as an `int` and read as 32 bits, and the handlers may read so many bytes. -/
def casePublish (unset : Nat) : Prog (World (Session φ)) (Int × Bool) := do
  let w ← get
  let (rc, published) ← lift (Packets.mqttDeserializePublish w.client.readbuf)
  if rc ≠ 1 then return (success, true)
  else
    match published with
    | none => throw .nullPointer
    | some p => do
        let message : MQTTMessage := ⟨p.qos, p.retained, p.dup, p.packetid.getD unset⟩
        let payload ← lift (copyFrom w.client.readbuf p.payload (p.payloadlen % 2 ^ 32).toNat)
        let _ ← callHandlers p.topicName.text message payload
        let rc ← sendAck env message 0
        return (rc, rc = failure)

/-- An acknowledgement is serialised and sent. -/
def postAck (packettype : MsgType) (packetid : Nat) : Prog (World τ) Int := do
  let len ← mqttSerializeAck packettype packetid
  if len ≤ 0 then return failure else sendPacket env .command len.toNat

/-- `case PUBREC` and `case PUBREL` of `cycle`. -/
def caseAck (packettype : MsgType) (unset : Nat) : Prog (World τ) (Int × Bool) := do
  let rc ← postAck env packettype unset
  return (if rc = success then success else failure, rc ≠ success)

/-- The `switch` of `cycle`. `unset` is what a local variable holds that was not set. -/
def cycleCase (unset : Nat) (packetType : Int) : Prog (World (Session φ)) (Int × Bool) :=
  if packetType = 0 then return (success, false)
  else if packetType ∈ [MsgType.connack, .puback, .suback, .unsuback].map fun t =>
    (t.code : Int) then
    return (success, false)
  else if packetType = MsgType.publish.code then casePublish env unset
  else if packetType = MsgType.pubrec.code then caseAck env .pubrel unset
  else if packetType = MsgType.pubrel.code then caseAck env .pubcomp unset
  else if packetType = MsgType.pubcomp.code then return (success, false)
  else if packetType = MsgType.pingresp.code then do
    modify fun w => { w with client.pingOutstanding := false }
    return (success, false)
  else return (packetType, true)

/-- `keepalive` at the end of `cycle`. -/
def cycleAlive (rc : Int) : Prog (World τ) Int := do
  let alive ← keepalive env
  return if alive ≠ success then failure else rc

/-- `cycle`. -/
def cycle (unset : Nat) : Prog (World (Session φ)) Int := do
  let packetType ← readPacket env
  let (rc, exit) ← cycleCase env unset packetType
  let rc ← if exit then pure rc else cycleAlive env rc
  return if rc = success then packetType else rc

end

variable {env : Env} {w w' w'' : World τ}

/-! ### Reading a packet -/

/-- `rest` is left of what the peer sent, and the rest of the world is the same but for what is in
the read buffer. -/
structure Fetched (rest : Bytes) (w w' : World τ) : Prop where
  input : w'.input = rest
  client : ∃ readbuf, readbuf.length = w.client.readbuf.length ∧
    w'.client = { w.client with readbuf := readbuf }
  app : w'.app = w.app
  output : w'.output = w.output

theorem Fetched.length {rest : Bytes} (fetched : Fetched rest w w') :
    w'.client.readbuf.length = w.client.readbuf.length := by
  obtain ⟨readbuf, length, client⟩ := fetched.client
  rw [client]
  exact length

theorem Fetched.trans {rest rest' : Bytes} (one : Fetched rest w w') (two : Fetched rest' w' w'') :
    Fetched rest' w w'' := by
  obtain ⟨readbuf, length, client⟩ := one.client
  obtain ⟨readbuf', length', client'⟩ := two.client
  refine ⟨two.input, ⟨readbuf', ?_, ?_⟩, two.app.trans one.app, two.output.trans one.output⟩
  · rw [length', one.length]
  · rw [client', client]

/-- The bytes come next, and there is room for them. -/
theorem readInto_fetched (full : Full env) {i : Nat} {s rest : Bytes} (input : w.input = s ++ rest)
    (fits : i + s.length ≤ w.client.readbuf.length) :
    ∃ w', readInto env i s.length w = .ok ((s.length : Int), w') ∧ Fetched rest w w' ∧
      w'.client.readbuf = store w.client.readbuf i s :=
  ⟨_, readInto_exact (full w.reads) input fits, ⟨rfl, ⟨_, length_store fits, rfl⟩, rfl, rfl⟩, rfl⟩

/-- A packet that is too long is read to its end. -/
theorem discardLoop_full (full : Full env) {len fuel : Nat} {body rest : Bytes}
    (room : len + 1 < w.client.readbuf.length) (enough : body.length < fuel)
    (input : w.input = body ++ rest) :
    ∃ w', discardLoop env len fuel body.length w = .ok ((), w') ∧ Fetched rest w w' := by
  induction fuel generalizing w body with
  | zero => exact absurd enough (Nat.not_lt_zero _)
  | succ fuel ih =>
      rw [discardLoop]
      by_cases none : body = []
      · subst none
        exact ⟨w, rfl, input, ⟨_, rfl, rfl⟩, rfl, rfl⟩
      · have pos : 0 < body.length := List.length_pos_iff.mpr none
        let n := w.client.readbuf.length - len - 1
        have chunk : (if (body.length : Int) < w.client.readbuf.length - len - 1 then
            (body.length : Int) else w.client.readbuf.length - len - 1) = (body.take n).length := by
          rw [List.length_take]
          split <;> omega
        have split : w.input = body.take n ++ (body.drop n ++ rest) := by
          rw [input, ← List.append_assoc, List.take_append_drop]
        have left : (body.length : Int) - (body.take n).length = (body.drop n).length := by
          rw [List.length_take, List.length_drop]
          omega
        have some : 0 < (body.take n).length := by
          rw [List.length_take]
          omega
        obtain ⟨w₁, read, fetched, -⟩ := readInto_fetched (i := len) full split
          (by rw [List.length_take]; omega)
        have shorter : (body.drop n).length < fuel := by
          rw [List.length_drop]
          omega
        obtain ⟨w₂, loop, fetched'⟩ := ih (by rw [fetched.length]; exact room) shorter fetched.input
        refine ⟨w₂, ?_, fetched.trans fetched'⟩
        rw [if_neg (by omega), bind_of_ok (get_apply w), chunk, bind_of_ok read,
          if_pos (by omega), left]
        exact loop

/-- What is left of a packet is read, or read away where there is no room for it. -/
theorem readRest_full (full : Full env) {len : Nat} {body rest : Bytes}
    (room : len + 1 < w.client.readbuf.length) (input : w.input = body ++ rest) :
    ∃ w', Fetched rest w w' ∧
      if len + body.length ≤ w.client.readbuf.length then
        w'.client.readbuf = store w.client.readbuf len body ∧ readRest env len body.length w =
          .ok (((MQTTHeader.ofByte (w'.client.readbuf.headD 0)).type : Int), w')
      else readRest env len body.length w = .ok (bufferOverflow, w') := by
  rw [readRest, bind_of_ok (get_apply w)]
  by_cases fits : len + body.length ≤ w.client.readbuf.length
  · obtain ⟨w₁, read, fetched, stored⟩ := readInto_fetched full input fits
    rw [if_neg (by omega), bind_of_ok read, if_neg (not_not.mpr rfl), bind_of_ok (get_apply w₁)]
    by_cases alive : 0 < w₁.client.keepAliveInterval
    · refine ⟨{ w₁ with expired := fun u => if u = .lastReceived then false else w₁.expired u },
        ⟨fetched.input, fetched.client, fetched.app, fetched.output⟩, ?_⟩
      rw [if_pos fits, if_pos alive]
      exact ⟨stored, rfl⟩
    · refine ⟨w₁, fetched, ?_⟩
      rw [if_pos fits, if_neg alive]
      exact ⟨stored, rfl⟩
  · obtain ⟨w₁, discard, fetched⟩ := discardLoop_full full room (Nat.lt_succ_self _) input
    refine ⟨w₁, fetched, ?_⟩
    rw [if_neg fits, if_pos (by omega), Int.toNat_natCast, bind_of_ok discard]
    rfl

/-- What `readPacket` makes of a packet, with a read buffer of `n` bytes. -/
def seenAs (n : Nat) (p : Packet) : Int :=
  if p.body = [] then 0
  else if p.bytes.length ≤ n then p.type.code
  else bufferOverflow

/-- A packet that is all there is read to its end. It is at the front of the read buffer if it has
something behind its fixed header and there is room for it. -/
theorem readPacket_takes (full : Full env) (room : 7 ≤ w.client.readbuf.length) {p : Packet}
    (wf : p.WellFormed) {rest : Bytes} (input : w.input = p.bytes ++ rest) :
    ∃ w', readPacket env w = .ok (seenAs w.client.readbuf.length p, w') ∧ Fetched rest w w' ∧
      (p.body ≠ [] → p.bytes.length ≤ w.client.readbuf.length →
        p.bytes <+: w'.client.readbuf) := by
  let ds := mqttPacketEncode p.body.length
  have short := wf.short
  obtain ⟨numeral, value⟩ := mqttPacketEncode_numeral (n := p.body.length)
    (Nat.lt_trans short (by decide))
  have le : ds.length ≤ 4 := length_digits_le short (by decide)
  have whole : w.input = [p.head.byte] ++ (ds ++ (p.body ++ rest)) := by
    rw [input, Packet.bytes, List.cons_append, List.append_assoc]
    rfl
  obtain ⟨w₁, first, fetched₁, stored₁⟩ := readInto_fetched (i := 0) full whole
    (by rw [List.length_singleton]; omega)
  replace first : readInto env 0 1 w = .ok (1, w₁) := first
  have second := decodePacket_numeral numeral (full.exact _ _) fetched₁.input le
  let w₂ := w₁.past ds.length (p.body ++ rest)
  have fetched₂ : Fetched (p.body ++ rest) w w₂ :=
    ⟨rfl, fetched₁.client, fetched₁.app, fetched₁.output⟩
  rw [readPacket, bind_of_ok first, if_neg (not_not.mpr rfl), bind_of_ok second, value]
  dsimp only
  rw [seenAs, Int.toNat_natCast]
  by_cases none : p.body = []
  · have zero : (p.body.length : Int) ≤ 0 := by simp [none]
    have left : p.body ++ rest = rest := by simp [none]
    rw [if_pos none, if_pos zero]
    exact ⟨w₂, rfl, ⟨left, fetched₂.client, fetched₂.app, fetched₂.output⟩,
      fun some => absurd none some⟩
  · have pos : 0 < p.body.length := List.length_pos_iff.mpr none
    rw [if_neg none, if_neg (by omega)]
    have size : w₂.client.readbuf.length = w.client.readbuf.length := fetched₂.length
    have head_fits : 0 + [p.head.byte].length ≤ w.client.readbuf.length := by
      rw [List.length_singleton]
      omega
    have fits : 1 + ds.length ≤ w₂.client.readbuf.length := by omega
    let w₃ : World τ := { w₂ with client.readbuf := store w₂.client.readbuf 1 ds }
    have put : putReadbuf 1 ds w₂ = .ok ((), w₃) := by
      rw [putReadbuf, bind_of_ok (get_apply w₂), copyTo_eq fits]
      rfl
    have fetched₃ : Fetched (p.body ++ rest) w w₃ := by
      obtain ⟨readbuf, length, client⟩ := fetched₂.client
      refine ⟨rfl, ⟨store w₂.client.readbuf 1 ds, ?_, ?_⟩, fetched₂.app, fetched₂.output⟩
      · rw [length_store fits, size]
      · rw [show w₃.client = { w₂.client with readbuf := store w₂.client.readbuf 1 ds } from rfl,
          client]
    have room₃ : 1 + ds.length + 1 < w₃.client.readbuf.length := by
      rw [fetched₃.length]
      omega
    obtain ⟨w₄, fetched₄, last⟩ := readRest_full full room₃ fetched₃.input
    have length : p.bytes.length = 1 + ds.length + p.body.length := by
      change _ = 1 + (mqttPacketEncode p.body.length).length + _
      rw [Packet.bytes, List.length_cons, List.length_append]
      omega
    rw [bind_of_ok put]
    rw [fetched₃.length, ← length] at last
    by_cases room : p.bytes.length ≤ w.client.readbuf.length
    · rw [if_pos room] at last ⊢
      obtain ⟨stored, run⟩ := last
      have front : w₄.client.readbuf = store w.client.readbuf 0 p.bytes := by
        have behind := store_append (t := ds) head_fits
        have behind' := store_append (l := w.client.readbuf) (i := 0) (s := [p.head.byte] ++ ds)
          (t := p.body) (by rw [List.length_append, List.length_singleton]; omega)
        rw [List.length_append, List.length_singleton, Nat.zero_add] at behind'
        rw [List.length_singleton, Nat.zero_add] at behind
        rw [stored, show w₃.client.readbuf = store w₁.client.readbuf 1 ds from rfl, stored₁, behind,
          behind', List.append_assoc]
        rfl
      have ahead : p.bytes <+: w₄.client.readbuf := by
        rw [front, store, List.take_zero, List.nil_append]
        exact List.prefix_append _ _
      have header : w₄.client.readbuf.headD 0 = p.head.byte := by
        rw [front]
        rfl
      rw [header, Packet.ofByte_head wf.shape, Packet.head_type] at run
      exact ⟨w₄, run, fetched₃.trans fetched₄, fun _ _ => ahead⟩
    · rw [if_neg room] at last ⊢
      exact ⟨w₄, last, fetched₃.trans fetched₄, fun _ fits => absurd fits room⟩

end AcnSdk.Mqtt.Client
