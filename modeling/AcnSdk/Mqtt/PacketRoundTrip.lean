/-
What the deserialisers of `src/mqtt/packet` make of the packets of the serialisers.

* `connectPacket_roundTrip` — a connect packet is read back as it was written, or refused: a
  password without a user name is, and an empty string at the end of the packet is.
* `publishPacket_roundTrip` — a publish packet is read back, with the payload where it is.
* `subscribePacket_roundTrip`, `unsubscribePacket_roundTrip` — all filters are read back, in their
  order.
-/

import AcnSdk.Mqtt.Deserialize

namespace AcnSdk.Mqtt.Packets

open AcnSdk.Lib
open Client (readChar)

/-! ### CONNECT -/

theorem MQTTConnectFlags.ofByte_all {f : MQTTConnectFlags} (lt : f.willQoS < 4) :
    MQTTConnectFlags.ofByte f.all = f := by
  obtain ⟨cleansession, will, willQoS, willRetain, password, username⟩ := f
  dsimp only at lt
  have all : ∀ willQoS < 4, ∀ cleansession will willRetain password username : Bool,
      ofByte (all ⟨cleansession, will, willQoS, willRetain, password, username⟩) =
        ⟨cleansession, will, willQoS, willRetain, password, username⟩ := by
    decide
  exact all willQoS lt cleansession will willRetain password username

theorem connectFlags_willQoS_lt (o : MQTTPacketConnectData) : (connectFlags o).willQoS < 4 := by
  rw [connectFlags]
  dsimp only
  split_ifs
  · exact Nat.mod_lt _ (by decide)
  · decide

namespace MQTTPacketConnectData

/-- All strings are counted in two bytes. -/
structure Short (o : MQTTPacketConnectData) : Prop where
  clientID : o.clientID.text.length < 2 ^ 16
  topicName : o.will.topicName.text.length < 2 ^ 16
  message : o.will.message.text.length < 2 ^ 16
  username : o.username.text.length < 2 ^ 16
  password : o.password.text.length < 2 ^ 16

/-- A server takes it: a password comes with a user name, and the last of the two has a text. -/
def Accepted (o : MQTTPacketConnectData) : Prop :=
  if o.password.given then o.username.given ∧ o.password.text ≠ []
  else o.username.given → o.username.text ≠ []

instance (o : MQTTPacketConnectData) : Decidable o.Accepted := by
  unfold Accepted
  infer_instance

theorem accepted_iff (o : MQTTPacketConnectData) (given : o.password.given = true) :
    o.Accepted ↔ o.username.given ∧ o.password.text ≠ [] := by
  rw [Accepted, if_pos given]

theorem accepted_iff_of_none (o : MQTTPacketConnectData) (none : ¬ o.password.given = true) :
    o.Accepted ↔ (o.username.given → o.username.text ≠ []) := by
  rw [Accepted, if_neg none]

/-- What is read back, over what was there before. -/
def received (o data : MQTTPacketConnectData) : MQTTPacketConnectData where
  mqttVersion := data.mqttVersion
  clientID := .counted o.clientID.text
  keepAliveInterval := o.keepAliveInterval
  cleansession := UInt8.ofNat (o.cleansession.toNat % 2)
  willFlag := if o.willFlag ≠ 0 then 1 else 0
  will :=
    if o.willFlag ≠ 0 then
      { topicName := .counted o.will.topicName.text
        message := .counted o.will.message.text
        retained := UInt8.ofNat (o.will.retained.toNat % 2)
        qos := UInt8.ofNat (o.will.qos.toNat % 4) }
    else data.will
  username := if o.username.given then .counted o.username.text else data.username
  password := if o.password.given then .counted o.password.text else data.password

end MQTTPacketConnectData

theorem toNat_beq_one (n : Nat) : (n % 2 == 1).toNat = n % 2 := by
  rcases Nat.mod_two_eq_zero_or_one n with even | odd
  · rw [even]
    rfl
  · rw [odd]
    rfl

/-- A will is read back. -/
theorem reads_readWill {o data : MQTTPacketConnectData} (short : o.Short) :
    Reads (readWill (connectFlags o) data)
      (if o.willFlag ≠ 0 then o.will.topicName.wire ++ o.will.message.wire else [])
      (some { data with
        willFlag := if o.willFlag ≠ 0 then 1 else 0
        will :=
          if o.willFlag ≠ 0 then
            { topicName := .counted o.will.topicName.text
              message := .counted o.will.message.text
              retained := UInt8.ofNat (o.will.retained.toNat % 2)
              qos := UInt8.ofNat (o.will.qos.toNat % 4) }
          else data.will }) := by
  rw [readWill]
  by_cases will : o.willFlag ≠ 0
  · have flag : (connectFlags o).will = true := decide_eq_true will
    have retain : (connectFlags o).willRetain.toNat = o.will.retained.toNat % 2 := by
      rw [connectFlags, decide_eq_true will, Bool.true_and, toNat_beq_one]
    have qos : (connectFlags o).willQoS = o.will.qos.toNat % 4 := if_pos will
    rw [if_pos flag, if_pos will, if_pos will, if_pos will, retain, qos]
    refine (reads_wire short.topicName).bind ?_
    exact (reads_wire short.message).last rfl
  · have flag : ¬ (connectFlags o).will = true := fun on => will (of_decide_eq_true on)
    rw [if_neg flag, if_neg will, if_neg will, if_neg will]
    exact reads_nothing _

/-- A string of the credentials is read back if more than its length is left of the data. -/
theorem reads_readCredential {s : MQTTString} {t : Bytes} (short : s.text.length < 2 ^ 16)
    {i : In Byte} (next : i.Next (s.wire ++ t)) (last : i.cur + (s.wire ++ t).length = i.enddata) :
    readCredential i =
      if s.text = [] ∧ t = [] then .ok (none, i)
      else .ok (some (.counted s.text), i.skip s.wire.length) := by
  have length : (s.wire ++ t).length = s.text.length + 2 + t.length := by
    rw [List.length_append, s.length_wire]
  rw [readCredential, Prog.bind_of_ok (Prog.get_apply i)]
  by_cases empty : s.text = [] ∧ t = []
  · obtain ⟨noText, noMore⟩ := empty
    rw [length, noText, noMore, List.length_nil] at last
    rw [if_pos (by omega), if_pos ⟨noText, noMore⟩]
    rfl
  · have more : 0 < s.text.length + t.length := by
      by_contra none
      exact empty ⟨List.length_eq_zero_iff.mp (by omega), List.length_eq_zero_iff.mp (by omega)⟩
    rw [if_neg (by omega), if_neg empty]
    exact reads_wire short i next.left

/-- The credentials are read back, or refused. -/
theorem finishes_readCredentials {o : MQTTPacketConnectData} (data : MQTTPacketConnectData)
    (short : o.Short) :
    Finishes (readCredentials (connectFlags o) data)
      ((if o.username.given then o.username.wire else []) ++
        if o.password.given then o.password.wire else [])
      (if o.Accepted then
        some { data with
          username := if o.username.given then .counted o.username.text else data.username
          password := if o.password.given then .counted o.password.text else data.password }
      else none) := by
  intro i next last
  have username : (connectFlags o).username = o.username.given := rfl
  have password : (connectFlags o).password = o.password.given := rfl
  rw [readCredentials, username, password]
  by_cases user : o.username.given = true
  · rw [if_pos user] at next last ⊢
    have first := reads_readCredential short.username next last
    by_cases pass : o.password.given = true
    · simp only [if_pos pass, if_pos user] at next last first ⊢
      have behind : ¬ (o.username.text = [] ∧ o.password.wire = []) := by
        rintro ⟨-, empty⟩
        have := o.password.length_wire
        rw [empty, List.length_nil] at this
        omega
      have end_of : (i.skip o.username.wire.length).cur + (o.password.wire ++ []).length =
          (i.skip o.username.wire.length).enddata := by
        rw [List.length_append] at last
        rw [List.append_nil, In.skip_cur, In.skip_enddata]
        omega
      have second := reads_readCredential short.password (t := [])
        (by rw [List.append_nil]; exact next.right) end_of
      rw [if_neg behind] at first
      rw [Prog.bind_of_ok first]
      dsimp only
      by_cases empty : o.password.text = []
      · rw [if_pos ⟨empty, rfl⟩] at second
        rw [Prog.bind_of_ok second, if_neg (fun taken => ((o.accepted_iff pass).mp taken).2 empty)]
        exact ⟨_, rfl⟩
      · rw [if_neg (fun none => empty none.1)] at second
        rw [Prog.bind_of_ok second, if_pos ((o.accepted_iff pass).mpr ⟨user, empty⟩)]
        exact ⟨_, rfl⟩
    · simp only [if_neg pass, if_pos user] at next last first ⊢
      by_cases empty : o.username.text = []
      · rw [if_pos ⟨empty, trivial⟩] at first
        rw [Prog.bind_of_ok first,
          if_neg (fun taken => (o.accepted_iff_of_none pass).mp taken user empty)]
        exact ⟨_, rfl⟩
      · rw [if_neg (fun none => empty none.1)] at first
        rw [Prog.bind_of_ok first, if_pos ((o.accepted_iff_of_none pass).mpr fun _ => empty)]
        exact ⟨_, rfl⟩
  · rw [if_neg user]
    by_cases pass : o.password.given = true
    · rw [if_pos pass, if_pos pass, if_neg (fun taken => user ((o.accepted_iff pass).mp taken).1)]
      exact ⟨_, rfl⟩
    · rw [if_neg pass, if_neg pass,
        if_pos ((o.accepted_iff_of_none pass).mpr fun there => absurd there user),
        if_neg user]
      exact ⟨_, rfl⟩

theorem cleansession_toNat (o : MQTTPacketConnectData) :
    (connectFlags o).cleansession.toNat = o.cleansession.toNat % 2 := toNat_beq_one _

/-- What follows the version of the protocol is read back, or refused. -/
theorem finishes_readConnect {o data : MQTTPacketConnectData} (short : o.Short) :
    Finishes (readConnect data)
      ([(connectFlags o).all] ++
        (Mqtt.writeInt o.keepAliveInterval.toNat ++
          (o.clientID.wire ++
            ((if o.willFlag ≠ 0 then o.will.topicName.wire ++ o.will.message.wire else []) ++
              ((if o.username.given then o.username.wire else []) ++
                if o.password.given then o.password.wire else [])))))
      (if o.Accepted then some (o.received data) else none) := by
  refine (reads_readByte _).bind_finishes ?_
  rw [MQTTConnectFlags.ofByte_all (connectFlags_willQoS_lt o)]
  refine (reads_readInt o.keepAliveInterval.toNat_lt).bind_finishes ?_
  refine (reads_wire short.clientID).bind_finishes ?_
  refine (reads_readWill short).bind_finishes ?_
  have := finishes_readCredentials { data with
    clientID := .counted o.clientID.text
    keepAliveInterval := o.keepAliveInterval
    cleansession := UInt8.ofNat (o.cleansession.toNat % 2)
    willFlag := if o.willFlag ≠ 0 then 1 else 0
    will :=
      if o.willFlag ≠ 0 then
        { topicName := .counted o.will.topicName.text
          message := .counted o.will.message.text
          retained := UInt8.ofNat (o.will.retained.toNat % 2)
          qos := UInt8.ofNat (o.will.qos.toNat % 4) }
      else data.will } short
  rw [cleansession_toNat, UInt16.ofNat_toNat]
  exact this

theorem checkVersion_written (version : Byte) :
    ∃ name written, protocolWire version = Mqtt.writeInt name.length ++ name ++ [written] ∧
      name.length < 2 ^ 16 ∧ mqttPacketCheckVersion (.counted name) written = true := by
  rw [protocolWire]
  split_ifs
  · exact ⟨mqttName, 4, rfl, by decide, by decide⟩
  · exact ⟨mqisdpName, 3, rfl, by decide, by decide⟩

theorem code_lt (type : MsgType) : type.code < 16 := by
  cases type <;> decide

theorem lowBits_lt (i : Int) : lowBits i 4 < 4 := by
  rw [lowBits]
  omega

/-- The type of a packet. -/
def Request.type : Request → MsgType
  | connect _ => .connect
  | connack _ _ => .connack
  | publish _ => .publish
  | ack packettype _ _ => packettype
  | zero packettype => packettype
  | subscribe _ _ _ => .subscribe
  | suback _ _ => .suback
  | unsubscribe _ _ _ => .unsubscribe
  | unsuback _ => .unsuback

theorem Request.header_type (r : Request) : r.header.type = r.type.code := by
  cases r <;> rfl

/-- The header of a packet is read back. -/
theorem Request.ofByte_header (r : Request) : MQTTHeader.ofByte r.header.byte = r.header := by
  apply MQTTHeader.ofByte_byte
  · rw [r.header_type]
    exact code_lt r.type
  · cases r with
    | publish p => exact lowBits_lt p.qos
    | ack packettype _ _ =>
        rw [header]
        dsimp only
        split_ifs <;> decide
    | _ => simp [header]

theorem packet_eq (r : Request) :
    r.packet = [r.header.byte] ++ (mqttPacketEncode r.remLen ++ r.body) := rfl

/-- A connect packet, whatever is behind it, is read back as it was written or refused. -/
theorem deserialize_connect {o data : MQTTPacketConnectData} (short : o.Short)
    (small : mqttSerializeConnectLength o < 2 ^ 28) (rest : Bytes) :
    mqttDeserializeConnect data ((Request.connect o).packet ++ rest)
      (Request.connect o).packet.length =
        .ok (if o.Accepted then some (o.received data) else none) := by
  obtain ⟨name, written, protocol, name_short, known⟩ := checkVersion_written o.mqttVersion
  have body : (Request.connect o).body = (Mqtt.writeInt name.length ++ name) ++ ([written] ++
      (connectBody o).drop (protocolWire o.mqttVersion).length) := by
    rw [Request.body, connectBody, List.drop_left, protocol]
    simp only [List.append_assoc]
  have finishes : Finishes (readConnectPacket data) (Request.connect o).packet
      (if o.Accepted then some (o.received data) else none) := by
    rw [packet_eq, body, connectBody, List.drop_left]
    refine (reads_readByte _).bind_finishes ?_
    rw [Request.ofByte_header]
    dsimp only
    have type : (Request.connect o).header.type = MsgType.connect.code := rfl
    rw [if_neg (not_not.mpr type)]
    refine (reads_readRemLen small).bind_finishes ?_
    refine (reads_readMQTTLenString name_short).bind_finishes ?_
    refine (reads_readByte written).bind_finishes ?_
    rw [if_pos known]
    exact finishes_readConnect short
  obtain ⟨i, run⟩ := finishes
    ⟨(Request.connect o).packet ++ rest, 0, (Request.connect o).packet.length⟩
    ⟨List.prefix_append _ rest, Nat.le_of_eq (Nat.zero_add _)⟩ (Nat.zero_add _)
  rw [mqttDeserializeConnect, run]
  rfl

/-! ### Packets that end where their remaining length says -/

namespace Request

/-- The reader at the front of a packet with something behind it. -/
def atFront (r : Request) (rest : Bytes) : In Byte :=
  ⟨r.packet ++ rest, 0, (r.packet ++ rest).length⟩

/-- The reader behind the remaining length. -/
def atBody (r : Request) (rest : Bytes) : In Byte :=
  ⟨r.packet ++ rest, 1 + (mqttPacketEncode r.remLen).length, r.packet.length⟩

theorem next_packet (r : Request) (rest : Bytes) : (r.atFront rest).Next r.packet := by
  refine ⟨List.prefix_append _ rest, ?_⟩
  rw [atFront, Nat.zero_add, List.length_append]
  exact Nat.le_add_right _ _

theorem readByte_front (r : Request) (rest : Bytes) :
    readByte (r.atFront rest) = .ok (r.header.byte, (r.atFront rest).skip 1) :=
  reads_readByte _ _ (In.Next.left (t := mqttPacketEncode r.remLen ++ r.body) (r.next_packet rest))

theorem readRemLen_front (r : Request) (small : r.remLen < 2 ^ 28) (rest : Bytes) :
    readRemLen ((r.atFront rest).skip 1) =
      .ok (((mqttPacketEncode r.remLen).length, r.remLen),
        (r.atFront rest).skip (1 + (mqttPacketEncode r.remLen).length)) := by
  have next : ((r.atFront rest).skip 1).Next (mqttPacketEncode r.remLen ++ r.body) :=
    In.Next.right (s := [r.header.byte]) (r.next_packet rest)
  rw [reads_readRemLen small _ next.left, In.skip_skip]

theorem setEnddata_front (r : Request) (whole : r.body.length = r.remLen) (rest : Bytes) :
    setEnddata r.remLen ((r.atFront rest).skip (1 + (mqttPacketEncode r.remLen).length)) =
      .ok ((), r.atBody rest) := by
  have length : 1 + (mqttPacketEncode r.remLen).length + r.remLen = r.packet.length := by
    rw [r.length_packet, whole]
  simp only [setEnddata, Prog.modify_apply, atFront, In.skip, atBody, Nat.zero_add, length]

theorem next_body (r : Request) (rest : Bytes) : (r.atBody rest).Next r.body := by
  have front : 1 + (mqttPacketEncode r.remLen).length =
      (r.header.byte :: mqttPacketEncode r.remLen).length := Nat.add_comm _ _
  refine ⟨?_, ?_⟩
  · rw [atBody]
    dsimp only
    rw [packet, front, List.append_assoc, List.drop_left]
    exact List.prefix_append _ rest
  · rw [atBody, r.length_packet]

theorem atBody_last (r : Request) (rest : Bytes) :
    (r.atBody rest).cur + r.body.length = (r.atBody rest).enddata := by
  rw [atBody, r.length_packet]

end Request

/-! ### PUBLISH -/

/-- What is read back of a publish packet with its payload there. -/
def PublishData.received (p : PublishData) (place : Nat) : Published where
  dup := p.dup.toNat % 2 == 1
  qos := p.qos.toNat
  retained := p.retained.toNat % 2 == 1
  packetid := if 0 < p.qos then some p.packetid.toNat else none
  topicName := .counted p.topicName.text
  payload := place
  payloadlen := p.payload.length

theorem reads_readPacketid (p : PublishData) :
    Reads (readPacketid p.qos.toNat) (if 0 < p.qos then Mqtt.writeInt p.packetid.toNat else [])
      (if 0 < p.qos then some p.packetid.toNat else none) := by
  rw [readPacketid]
  by_cases more : 0 < p.qos
  · rw [if_pos more, if_pos more, if_pos (by omega)]
    exact (reads_readInt p.packetid.toNat_lt).last rfl
  · rw [if_neg more, if_neg more, if_neg (by omega)]
    exact reads_nothing _

/-- A publish packet, whatever is behind it, is read back. -/
theorem deserialize_publish {p : PublishData} (single : p.topicName.Single)
    (short : p.topicName.text.length < 2 ^ 16) (qos : 0 ≤ p.qos ∧ p.qos < 4)
    (small : publishLength p < 2 ^ 28) (rest : Bytes) :
    ∃ place, mqttDeserializePublish ((Request.publish p).packet ++ rest) =
        .ok (1, some (p.received place)) ∧
      (((Request.publish p).packet ++ rest).drop place).take p.payload.length = p.payload ∧
      place + p.payload.length ≤ (Request.publish p).packet.length := by
  have type : (Request.publish p).header.type = MsgType.publish.code := rfl
  have low : (Request.publish p).header.qos = p.qos.toNat := by
    change lowBits p.qos 4 = p.qos.toNat
    rw [lowBits]
    omega
  have next : ((Request.publish p).atBody rest).Next (p.topicName.wire ++
      ((if 0 < p.qos then Mqtt.writeInt p.packetid.toNat else []) ++ p.payload)) :=
    (Request.publish p).next_body rest
  have payload := next.right.right
  refine ⟨_, ?_, payload.taken, payload.inside⟩
  have last : ∀ i : In Byte,
      i = (((Request.publish p).atBody rest).skip p.topicName.wire.length).skip
      (if 0 < p.qos then Mqtt.writeInt p.packetid.toNat else []).length →
      (i.enddata : Int) - i.cur = p.payload.length := by
    rintro i rfl
    have := (Request.publish p).atBody_last rest
    rw [Request.body, publishBody, List.length_append, List.length_append] at this
    simp only [In.skip_cur, In.skip_enddata]
    omega
  rw [mqttDeserializePublish]
  change Except.map _ (readPublishPacket ((Request.publish p).atFront rest)) = _
  rw [readPublishPacket, Prog.bind_of_ok (Request.readByte_front _ rest), Request.ofByte_header]
  dsimp only
  rw [if_neg (not_not.mpr type), Prog.bind_of_ok ((Request.publish p).readRemLen_front small rest)]
  dsimp only
  rw [Prog.bind_of_ok ((Request.publish p).setEnddata_front (length_publishBody single) rest),
    readPublish, Prog.bind_of_ok (reads_wire short _ next.left)]
  dsimp only
  rw [low, Prog.bind_of_ok (reads_readPacketid p _ next.right.left),
    Prog.bind_of_ok (Prog.get_apply _), last _ rfl]
  rfl

/-! ### SUBSCRIBE and UNSUBSCRIBE -/

/-- A packet of items, whatever is behind it, is read back. -/
theorem readItemsPacket_front {β γ : Type} (r : Request) (wrongType : Int) {capacity : Nat}
    {item : Prog (In Byte) (Option β)} {encode : γ → Bytes} {value : γ → β} {packetid : UInt16}
    {l : List γ} (body : r.body = Mqtt.writeInt packetid.toNat ++ l.flatMap encode)
    (reads : ∀ c ∈ l, Reads item (encode c) (some (value c)))
    (pos : ∀ c ∈ l, 0 < (encode c).length) (room : l.length ≤ capacity)
    (whole : r.body.length = r.remLen) (small : r.remLen < 2 ^ 28) (rest : Bytes) :
    (readItemsPacket r.type wrongType capacity item (r.atFront rest)).map (·.1) =
      .ok (1, some (r.header.dup, packetid.toNat, l.map value)) := by
  have next : (r.atBody rest).Next (Mqtt.writeInt packetid.toNat ++ l.flatMap encode) :=
    body ▸ r.next_body rest
  have last := r.atBody_last rest
  rw [body, List.length_append] at last
  have enough : l.length < r.remLen + 1 := by
    have := length_le_flatMap pos
    rw [← whole, body, List.length_append]
    omega
  rw [readItemsPacket, Prog.bind_of_ok (r.readByte_front rest), r.ofByte_header]
  dsimp only
  rw [if_neg (not_not.mpr r.header_type), Prog.bind_of_ok (r.readRemLen_front small rest)]
  dsimp only
  rw [Prog.bind_of_ok (r.setEnddata_front whole rest),
    Prog.bind_of_ok (reads_readInt packetid.toNat_lt _ next.left),
    Prog.bind_of_ok (untilEnd_reads reads pos next.right
      (by rw [In.skip_cur, In.skip_enddata]; omega)
        (by rwa [List.length_nil, Nat.zero_add]) enough)]
  rfl

theorem MQTTString.wire_pos (s : MQTTString) : 0 < s.wire.length := by
  rw [s.length_wire]
  exact Nat.succ_pos _

/-- A quality of service is read back, whether a `char` has a sign or not. -/
theorem readChar_lowBits {qos : Int} (signedChar : Bool) (nonneg : 0 ≤ qos) (lt : qos < 128) :
    readChar signedChar (UInt8.ofNat (lowBits qos 256)) = qos := by
  have low : (UInt8.ofNat (lowBits qos 256)).toNat = qos.toNat := by
    rw [UInt8.toNat_ofNat', lowBits]
    omega
  rw [readChar, low, if_neg (by omega)]
  omega

theorem reads_readFilter {f : Filter} (signedChar : Bool)
    (short : f.topicFilter.text.length < 2 ^ 16)
    (qos : 0 ≤ f.requestedQoS ∧ f.requestedQoS < 128) :
    Reads (readFilter signedChar) f.wire (some ⟨.counted f.topicFilter.text, f.requestedQoS⟩) := by
  refine (reads_wire short).bind ?_
  intro i next
  have more : ¬ i.enddata ≤ i.cur := by
    have := next.inside
    rw [List.length_singleton] at this
    omega
  dsimp only
  rw [Prog.bind_of_ok (Prog.get_apply i), if_neg more, Prog.bind_of_ok (reads_readByte _ i next),
    readChar_lowBits signedChar qos.1 qos.2]
  rfl

/-- The filters of a subscribe packet are read back in their order, if the arrays have room. -/
theorem deserialize_subscribe {filters : List Filter} (single : ∀ f ∈ filters, f.topicFilter.Single)
    (short : ∀ f ∈ filters, f.topicFilter.text.length < 2 ^ 16)
    (qos : ∀ f ∈ filters, 0 ≤ f.requestedQoS ∧ f.requestedQoS < 128)
    (small : mqttSerializeSubscribeLength filters < 2 ^ 28) (signedChar : Bool) {capacity : Nat}
    (room : filters.length ≤ capacity) (dup : Byte) (packetid : UInt16) (rest : Bytes) :
    mqttDeserializeSubscribe signedChar capacity
      ((Request.subscribe dup packetid filters).packet ++ rest) =
        .ok (1, some (dup.toNat % 2 == 1, packetid.toNat,
          filters.map fun f => ⟨.counted f.topicFilter.text, f.requestedQoS⟩)) := by
  refine readItemsPacket_front (.subscribe dup packetid filters) (-1) rfl
    (fun f there => reads_readFilter signedChar (short f there) (qos f there)) (fun f _ => ?_) room
    (Request.length_body single trivial) small rest
  rw [Filter.wire, List.length_append]
  exact Nat.add_pos_left f.topicFilter.wire_pos _

/-- The filters of an unsubscribe packet are read back in their order, if the array has room. -/
theorem deserialize_unsubscribe {topicFilters : List MQTTString}
    (single : ∀ s ∈ topicFilters, s.Single) (short : ∀ s ∈ topicFilters, s.text.length < 2 ^ 16)
    (small : mqttSerializeUnsubscribeLength topicFilters < 2 ^ 28) {capacity : Nat}
    (room : topicFilters.length ≤ capacity) (dup : Byte) (packetid : UInt16) (rest : Bytes) :
    mqttDeserializeUnsubscribe capacity
      ((Request.unsubscribe dup packetid topicFilters).packet ++ rest) =
        .ok (1, some (dup.toNat % 2 == 1, packetid.toNat,
          topicFilters.map fun s => .counted s.text)) :=
  readItemsPacket_front (.unsubscribe dup packetid topicFilters) 0 rfl
    (fun s there => reads_wire (short s there)) (fun s _ => s.wire_pos) room
    (Request.length_body single trivial) small rest

/-! ### Written and read -/

/-- A packet that is counted is at the front of a buffer that is long enough. -/
theorem Request.serialize_front {r : Request} (single : r.Single) (counted : r.Counted)
    (small : r.remLen < 2 ^ 28) {buf : Bytes} (enough : r.needed ≤ buf.length) :
    r.serialize buf buf.length =
      .ok (r.packet.length, r.packet ++ buf.drop r.packet.length) := by
  have fits := (length_packet_le_iff single).mpr ⟨counted, small⟩
  rw [r.serialize_eq, if_neg (by omega), if_pos (by omega)]

theorem connectLength_lt {o : MQTTPacketConnectData} (single : (Request.connect o).Single)
    (short : o.Short) : mqttSerializeConnectLength o < 2 ^ 28 := by
  obtain ⟨clientID, topicName, message, username, password⟩ := single
  obtain ⟨clientID_lt, topicName_lt, message_lt, username_lt, password_lt⟩ := short
  rw [mqttSerializeConnectLength, clientID.strlen, topicName.strlen, message.strlen,
    username.strlen, password.strlen]
  split_ifs <;> omega

/-- What `MQTTSerialize_publish` writes is read back by `MQTTDeserialize_publish`. -/
theorem publishPacket_roundTrip {p : PublishData} (single : p.topicName.Single)
    (short : p.topicName.text.length < 2 ^ 16) (qos : 0 ≤ p.qos ∧ p.qos < 4)
    (small : publishLength p < 2 ^ 28) {buf : Bytes}
    (enough : mqttPacketLen (publishLength p) ≤ buf.length) :
    ∃ (len : Nat) (buf' : Bytes) (place : Nat),
      mqttSerializePublish buf buf.length p = .ok (len, buf') ∧
      mqttDeserializePublish buf' = .ok (1, some (p.received place)) ∧
      (buf'.drop place).take p.payload.length = p.payload := by
  obtain ⟨place, read, payload, -⟩ := deserialize_publish single short qos small
    (buf.drop (Request.publish p).packet.length)
  exact ⟨_, _, place, Request.serialize_front (r := .publish p) single trivial small enough, read,
    payload⟩

/-- A message with a packet id. -/
theorem publishPacket_roundTrip_qos1 : ∃ (len : Nat) (buf' : Bytes) (place : Nat),
    mqttSerializePublish (List.replicate 10 0) 10
      ⟨0, 1, 1, 300, .counted [0x74], [0x68, 0x69]⟩ = .ok (len, buf') ∧
    mqttDeserializePublish buf' =
      .ok (1, some ⟨false, 1, true, some 300, .counted [0x74], place, 2⟩) ∧
    (buf'.drop place).take 2 = [0x68, 0x69] :=
  publishPacket_roundTrip (p := ⟨0, 1, 1, 300, .counted [0x74], [0x68, 0x69]⟩)
    (.inl rfl) (by decide) (by decide) (by decide) (by decide)

/-- What `MQTTSerialize_subscribe` writes is read back by `MQTTDeserialize_subscribe`. -/
theorem subscribePacket_roundTrip {filters : List Filter}
    (single : ∀ f ∈ filters, f.topicFilter.Single)
    (short : ∀ f ∈ filters, f.topicFilter.text.length < 2 ^ 16)
    (qos : ∀ f ∈ filters, 0 ≤ f.requestedQoS ∧ f.requestedQoS < 128)
    (small : mqttSerializeSubscribeLength filters < 2 ^ 28) {buf : Bytes}
    (enough : mqttPacketLen (mqttSerializeSubscribeLength filters) ≤ buf.length)
    (signedChar : Bool) {capacity : Nat} (room : filters.length ≤ capacity) (dup : Byte)
    (packetid : UInt16) :
    ∃ (len : Nat) (buf' : Bytes),
      mqttSerializeSubscribe buf buf.length dup packetid filters = .ok (len, buf') ∧
      mqttDeserializeSubscribe signedChar capacity buf' =
        .ok (1, some (dup.toNat % 2 == 1, packetid.toNat,
          filters.map fun f => ⟨.counted f.topicFilter.text, f.requestedQoS⟩)) :=
  ⟨_, _, Request.serialize_front (r := .subscribe dup packetid filters) single trivial small enough,
    deserialize_subscribe single short qos small signedChar room dup packetid _⟩

/-- Two filters. -/
theorem subscribePacket_roundTrip_two : ∃ (len : Nat) (buf' : Bytes),
    mqttSerializeSubscribe (List.replicate 20 0) 20 0 9
      [⟨.counted [0x61], 0⟩, ⟨.counted [0x62, 0x63], 2⟩] = .ok (len, buf') ∧
    mqttDeserializeSubscribe true 2 buf' =
      .ok (1, some (false, 9, [⟨.counted [0x61], 0⟩, ⟨.counted [0x62, 0x63], 2⟩])) :=
  subscribePacket_roundTrip
    (by rintro f (_ | ⟨_, _ | ⟨_, ⟨⟩⟩⟩) <;> exact .inl rfl)
    (by rintro f (_ | ⟨_, _ | ⟨_, ⟨⟩⟩⟩) <;> decide)
    (by rintro f (_ | ⟨_, _ | ⟨_, ⟨⟩⟩⟩) <;> decide)
    (by decide) (by decide) true (by decide) 0 9

/-- What `MQTTSerialize_unsubscribe` writes is read back by `MQTTDeserialize_unsubscribe`. -/
theorem unsubscribePacket_roundTrip {topicFilters : List MQTTString}
    (single : ∀ s ∈ topicFilters, s.Single) (short : ∀ s ∈ topicFilters, s.text.length < 2 ^ 16)
    (small : mqttSerializeUnsubscribeLength topicFilters < 2 ^ 28) {buf : Bytes}
    (enough : mqttPacketLen (mqttSerializeUnsubscribeLength topicFilters) ≤ buf.length)
    {capacity : Nat} (room : topicFilters.length ≤ capacity) (dup : Byte) (packetid : UInt16) :
    ∃ (len : Nat) (buf' : Bytes),
      mqttSerializeUnsubscribe buf buf.length dup packetid topicFilters = .ok (len, buf') ∧
      mqttDeserializeUnsubscribe capacity buf' =
        .ok (1, some (dup.toNat % 2 == 1, packetid.toNat,
          topicFilters.map fun s => .counted s.text)) :=
  ⟨_, _, Request.serialize_front (r := .unsubscribe dup packetid topicFilters) single trivial small
      enough,
    deserialize_unsubscribe single short small room dup packetid _⟩

end AcnSdk.Mqtt.Packets
