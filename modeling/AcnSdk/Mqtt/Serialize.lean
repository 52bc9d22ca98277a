/-
The serialisers of `src/mqtt/packet`.

A serialiser works out how long the packet will be, gives up if the buffer is told to be shorter,
and puts the packet to the front of the buffer. How long it takes the packet to be and how long it
is are two things: `MQTTstrlen` goes by the C string of an `MQTTString` and `writeMQTTString` by
the counted one, and some serialisers count only a part of what they write.

* `Request.serialize_eq` — what each of them does with any buffer.
* `Request.within_iff` — those that never write past a buffer whose length they are told.
-/

import AcnSdk.Lib.Cursor
import AcnSdk.Mqtt.Subscribe

namespace AcnSdk.Mqtt.Packets

open AcnSdk.Lib
open Client (bufferTooShort)

/-! ### The source: what is written -/

/-- `MQTTLenString`, with the bytes that its pointer is to. -/
structure MQTTLenString where
  len : Nat
  data : Option Bytes
  held : len ≤ (data.getD []).length

/-- `MQTTString`. -/
structure MQTTString where
  cstring : Option Bytes
  lenstring : MQTTLenString

/-- `MQTTString_initializer`. -/
def MQTTString.initializer : MQTTString := ⟨none, ⟨0, none, Nat.le_refl 0⟩⟩

/-- The counted string of these bytes. -/
def MQTTString.counted (s : Bytes) : MQTTString := ⟨none, ⟨s.length, some s, Nat.le_refl _⟩⟩

/-- One of the two pointers is there. -/
def MQTTString.given (s : MQTTString) : Bool := s.cstring.isSome || s.lenstring.data.isSome

/-- `MQTTstrlen`. -/
def mqttStrlen (s : MQTTString) : Nat :=
  match s.cstring with
  | some c => (cstr c).length
  | none => s.lenstring.len

/-- `MQTTPacket_len`. -/
def mqttPacketLen (remLen : Nat) : Nat :=
  if remLen + 1 < 128 then remLen + 2
  else if remLen + 1 < 16384 then remLen + 3
  else if remLen + 1 < 2097151 then remLen + 4
  else remLen + 5

/-- `writeChar`. -/
def writeChar (c : Byte) : Prog (Out Byte) Unit := put [c]

/-- `writeInt`. -/
def writeInt (anInt : Nat) : Prog (Out Byte) Unit := do
  writeChar (UInt8.ofNat (anInt / 256))
  writeChar (UInt8.ofNat (anInt % 256))

/-- `writeCString`. -/
def writeCString (string : Bytes) : Prog (Out Byte) Unit := do
  writeInt (cstr string).length
  put (cstr string)

/-- `writeMQTTString`. -/
def writeMQTTString (s : MQTTString) : Prog (Out Byte) Unit :=
  if 0 < s.lenstring.len then do
    writeInt s.lenstring.len
    put ((s.lenstring.data.getD []).take s.lenstring.len)
  else
    match s.cstring with
    | some c => writeCString c
    | none => writeInt 0

/-- The header and the remaining length. -/
def writeHeader (header : MQTTHeader) (remLen : Nat) : Prog (Out Byte) Unit := do
  writeChar header.byte
  put (mqttPacketEncode remLen)

/-- What the serialisers have in common: `needed` is what they check the length of the buffer
against, and the result is how much they have written. -/
def serializeTo (needed buflen : Nat) (packet : Prog (Out Byte) Unit) (buf : Bytes) :
    Except Fault (Int × Bytes) :=
  if buflen < needed then .ok (bufferTooShort, buf)
  else do
    let (_, o) ← packet (.front buf)
    return (o.ptr, o.block)

/-! ### The source: CONNECT and CONNACK -/

/-- `MQTTPacket_willOptions`. -/
structure MQTTPacketWillOptions where
  topicName : MQTTString
  message : MQTTString
  retained : Byte
  qos : Byte

/-- `MQTTPacket_connectData`. -/
structure MQTTPacketConnectData where
  mqttVersion : Byte
  clientID : MQTTString
  keepAliveInterval : UInt16
  cleansession : Byte
  willFlag : Byte
  will : MQTTPacketWillOptions
  username : MQTTString
  password : MQTTString

/-- `MQTTPacket_connectData_initializer`. -/
def MQTTPacketConnectData.initializer : MQTTPacketConnectData where
  mqttVersion := 4
  clientID := .initializer
  keepAliveInterval := 60
  cleansession := 1
  willFlag := 0
  will := ⟨.initializer, .initializer, 0, 0⟩
  username := .initializer
  password := .initializer

/-- `MQTTConnectFlags`. -/
structure MQTTConnectFlags where
  cleansession : Bool
  will : Bool
  willQoS : Nat
  willRetain : Bool
  password : Bool
  username : Bool
deriving DecidableEq, Repr

/-- All flags in a byte. -/
def MQTTConnectFlags.all (f : MQTTConnectFlags) : Byte :=
  UInt8.ofNat (f.cleansession.toNat * 2 + f.will.toNat * 4 + f.willQoS % 4 * 8 +
    f.willRetain.toNat * 32 + f.password.toNat * 64 + f.username.toNat * 128)

/-- The flags in a byte. -/
def MQTTConnectFlags.ofByte (b : Byte) : MQTTConnectFlags where
  cleansession := b.toNat / 2 % 2 == 1
  will := b.toNat / 4 % 2 == 1
  willQoS := b.toNat / 8 % 4
  willRetain := b.toNat / 32 % 2 == 1
  password := b.toNat / 64 % 2 == 1
  username := b.toNat / 128 % 2 == 1

/-- The text `MQTT`. -/
def mqttName : Bytes := [0x4D, 0x51, 0x54, 0x54]

/-- The text `MQIsdp`. -/
def mqisdpName : Bytes := [0x4D, 0x51, 0x49, 0x73, 0x64, 0x70]

/-- `MQTTSerialize_connectLength`. -/
def mqttSerializeConnectLength (options : MQTTPacketConnectData) : Nat :=
  (if options.mqttVersion = 3 then 12 else if options.mqttVersion = 4 then 10 else 0) +
    (mqttStrlen options.clientID + 2) +
    (if options.willFlag ≠ 0 then
      mqttStrlen options.will.topicName + 2 + (mqttStrlen options.will.message + 2) else 0) +
    (if options.username.given then mqttStrlen options.username + 2 else 0) +
    (if options.password.given then mqttStrlen options.password + 2 else 0)

/-- The flags of `MQTTSerialize_connect`. -/
def connectFlags (options : MQTTPacketConnectData) : MQTTConnectFlags where
  cleansession := options.cleansession.toNat % 2 == 1
  will := options.willFlag ≠ 0
  willQoS := if options.willFlag ≠ 0 then options.will.qos.toNat % 4 else 0
  willRetain := options.willFlag ≠ 0 && options.will.retained.toNat % 2 == 1
  password := options.password.given
  username := options.username.given

/-- The name and the version of the protocol. -/
def writeProtocol (version : Byte) : Prog (Out Byte) Unit :=
  if version = 4 then do
    writeCString mqttName
    writeChar 4
  else do
    writeCString mqisdpName
    writeChar 3

/-- `MQTTSerialize_connect` behind its check. -/
def writeConnect (options : MQTTPacketConnectData) : Prog (Out Byte) Unit := do
  writeHeader ⟨MsgType.connect.code, false, 0, false⟩ (mqttSerializeConnectLength options)
  writeProtocol options.mqttVersion
  writeChar (connectFlags options).all
  writeInt options.keepAliveInterval.toNat
  writeMQTTString options.clientID
  putIf (options.willFlag ≠ 0) do
    writeMQTTString options.will.topicName
    writeMQTTString options.will.message
  putIf options.username.given (writeMQTTString options.username)
  putIf options.password.given (writeMQTTString options.password)

/-- `MQTTSerialize_connect`. -/
def mqttSerializeConnect (buf : Bytes) (buflen : Nat) (options : MQTTPacketConnectData) :
    Except Fault (Int × Bytes) :=
  serializeTo (mqttPacketLen (mqttSerializeConnectLength options)) buflen (writeConnect options) buf

/-- `MQTTSerialize_connack` behind its check. -/
def writeConnack (connackRc sessionPresent : Byte) : Prog (Out Byte) Unit := do
  writeHeader ⟨MsgType.connack.code, false, 0, false⟩ 2
  writeChar (UInt8.ofNat (sessionPresent.toNat % 2))
  writeChar connackRc

/-- `MQTTSerialize_connack`. -/
def mqttSerializeConnack (buf : Bytes) (buflen : Nat) (connackRc sessionPresent : Byte) :
    Except Fault (Int × Bytes) :=
  serializeTo 2 buflen (writeConnack connackRc sessionPresent) buf

/-! ### The source: PUBLISH and acknowledgements -/

/-- What `MQTTSerialize_publish` is given. -/
structure PublishData where
  dup : Byte
  qos : Int
  retained : Byte
  packetid : UInt16
  topicName : MQTTString
  payload : Bytes

/-- The low bits of an `int`. -/
def lowBits (i : Int) (n : Nat) : Nat := (i % n).toNat

/-- `MQTTSerialize_publishLength`. -/
def publishLength (p : PublishData) : Nat :=
  2 + mqttStrlen p.topicName + p.payload.length + if 0 < p.qos then 2 else 0

/-- `MQTTSerialize_publish` behind its check. -/
def writePublish (p : PublishData) : Prog (Out Byte) Unit := do
  writeHeader ⟨MsgType.publish.code, p.dup.toNat % 2 == 1, lowBits p.qos 4,
    p.retained.toNat % 2 == 1⟩ (publishLength p)
  writeMQTTString p.topicName
  putIf (0 < p.qos) (writeInt p.packetid.toNat)
  put p.payload

/-- `MQTTSerialize_publish`. -/
def mqttSerializePublish (buf : Bytes) (buflen : Nat) (p : PublishData) :
    Except Fault (Int × Bytes) :=
  serializeTo (mqttPacketLen (publishLength p)) buflen (writePublish p) buf

/-- `MQTTSerialize_ack` behind its check. -/
def writeAck (packettype : MsgType) (dup : Byte) (packetid : UInt16) : Prog (Out Byte) Unit := do
  writeHeader ⟨packettype.code, dup.toNat % 2 == 1, if packettype = .pubrel then 1 else 0, false⟩ 2
  writeInt packetid.toNat

/-- `MQTTSerialize_ack`. -/
def mqttSerializeAck (buf : Bytes) (buflen : Nat) (packettype : MsgType) (dup : Byte)
    (packetid : UInt16) : Except Fault (Int × Bytes) :=
  serializeTo 4 buflen (writeAck packettype dup packetid) buf

/-- `MQTTSerialize_puback`. -/
def mqttSerializePuback (buf : Bytes) (buflen : Nat) (packetid : UInt16) :=
  mqttSerializeAck buf buflen .puback 0 packetid

/-- `MQTTSerialize_pubrel`. -/
def mqttSerializePubrel (buf : Bytes) (buflen : Nat) (dup : Byte) (packetid : UInt16) :=
  mqttSerializeAck buf buflen .pubrel dup packetid

/-- `MQTTSerialize_pubcomp`. -/
def mqttSerializePubcomp (buf : Bytes) (buflen : Nat) (packetid : UInt16) :=
  mqttSerializeAck buf buflen .pubcomp 0 packetid

/-- `MQTTSerialize_zero`. -/
def mqttSerializeZero (buf : Bytes) (buflen : Nat) (packettype : MsgType) :
    Except Fault (Int × Bytes) :=
  serializeTo 2 buflen (writeHeader ⟨packettype.code, false, 0, false⟩ 0) buf

/-- `MQTTSerialize_disconnect`. -/
def mqttSerializeDisconnect (buf : Bytes) (buflen : Nat) := mqttSerializeZero buf buflen .disconnect

/-- `MQTTSerialize_pingreq`. -/
def mqttSerializePingreq (buf : Bytes) (buflen : Nat) := mqttSerializeZero buf buflen .pingreq

/-! ### The source: subscriptions -/

/-- A topic filter, and the quality of service that is asked for. -/
structure Filter where
  topicFilter : MQTTString
  requestedQoS : Int

/-- `MQTTSerialize_subscribeLength`. -/
def mqttSerializeSubscribeLength (filters : List Filter) : Nat :=
  2 + (filters.map fun f => 2 + mqttStrlen f.topicFilter + 1).sum

/-- A filter of a subscribe packet. -/
def writeFilter (f : Filter) : Prog (Out Byte) Unit := do
  writeMQTTString f.topicFilter
  writeChar (UInt8.ofNat (lowBits f.requestedQoS 256))

/-- `MQTTSerialize_subscribe` behind its check. -/
def writeSubscribe (dup : Byte) (packetid : UInt16) (filters : List Filter) :
    Prog (Out Byte) Unit := do
  writeHeader ⟨MsgType.subscribe.code, dup.toNat % 2 == 1, 1, false⟩
    (mqttSerializeSubscribeLength filters)
  writeInt packetid.toNat
  filters.forM writeFilter

/-- `MQTTSerialize_subscribe`. -/
def mqttSerializeSubscribe (buf : Bytes) (buflen : Nat) (dup : Byte) (packetid : UInt16)
    (filters : List Filter) : Except Fault (Int × Bytes) :=
  serializeTo (mqttPacketLen (mqttSerializeSubscribeLength filters)) buflen
    (writeSubscribe dup packetid filters) buf

/-- `MQTTSerialize_suback` behind its check. -/
def writeSuback (packetid : UInt16) (grantedQoSs : List Int) : Prog (Out Byte) Unit := do
  writeHeader ⟨MsgType.suback.code, false, 0, false⟩ (2 + grantedQoSs.length)
  writeInt packetid.toNat
  grantedQoSs.forM fun qos => writeChar (UInt8.ofNat (lowBits qos 256))

/-- `MQTTSerialize_suback`. -/
def mqttSerializeSuback (buf : Bytes) (buflen : Nat) (packetid : UInt16) (grantedQoSs : List Int) :
    Except Fault (Int × Bytes) :=
  serializeTo (2 + grantedQoSs.length) buflen (writeSuback packetid grantedQoSs) buf

/-- `MQTTSerialize_unsubscribeLength`. -/
def mqttSerializeUnsubscribeLength (topicFilters : List MQTTString) : Nat :=
  2 + (topicFilters.map fun s => 2 + mqttStrlen s).sum

/-- `MQTTSerialize_unsubscribe` behind its check. -/
def writeUnsubscribe (dup : Byte) (packetid : UInt16) (topicFilters : List MQTTString) :
    Prog (Out Byte) Unit := do
  writeHeader ⟨MsgType.unsubscribe.code, dup.toNat % 2 == 1, 1, false⟩
    (mqttSerializeUnsubscribeLength topicFilters)
  writeInt packetid.toNat
  topicFilters.forM writeMQTTString

/-- `MQTTSerialize_unsubscribe`. -/
def mqttSerializeUnsubscribe (buf : Bytes) (buflen : Nat) (dup : Byte) (packetid : UInt16)
    (topicFilters : List MQTTString) : Except Fault (Int × Bytes) :=
  serializeTo (mqttPacketLen (mqttSerializeUnsubscribeLength topicFilters)) buflen
    (writeUnsubscribe dup packetid topicFilters) buf

/-- `MQTTSerialize_unsuback` behind its check. -/
def writeUnsuback (packetid : UInt16) : Prog (Out Byte) Unit := do
  writeHeader ⟨MsgType.unsuback.code, false, 0, false⟩ 2
  writeInt packetid.toNat

/-- `MQTTSerialize_unsuback`. -/
def mqttSerializeUnsuback (buf : Bytes) (buflen : Nat) (packetid : UInt16) :
    Except Fault (Int × Bytes) :=
  serializeTo 2 buflen (writeUnsuback packetid) buf

/-! ### What is written -/

/-- The text of a string as `writeMQTTString` takes it. -/
def MQTTString.text (s : MQTTString) : Bytes :=
  if 0 < s.lenstring.len then (s.lenstring.data.getD []).take s.lenstring.len
  else cstr (s.cstring.getD [])

/-- A string in a packet. -/
def MQTTString.wire (s : MQTTString) : Bytes := Mqtt.writeInt s.text.length ++ s.text

/-- Not both of the strings are used. -/
def MQTTString.Single (s : MQTTString) : Prop := s.cstring = none ∨ s.lenstring.len = 0

theorem MQTTString.length_wire (s : MQTTString) : s.wire.length = s.text.length + 2 := by
  rw [wire, List.length_append, Nat.add_comm]
  rfl

theorem MQTTString.Single.strlen {s : MQTTString} (single : s.Single) :
    mqttStrlen s = s.text.length := by
  obtain ⟨cstring, len, data, held⟩ := s
  obtain rfl | rfl : cstring = none ∨ len = 0 := single
  · rw [mqttStrlen, text]
    split_ifs with more
    · exact (List.length_take_of_le held).symm
    · exact Nat.eq_zero_of_not_pos more
  · cases cstring <;> rfl

theorem writes_writeInt (n : Nat) : Writes (writeInt n) (Mqtt.writeInt n) :=
  (writes_put _).bind (writes_put _)

theorem writes_writeCString (string : Bytes) :
    Writes (writeCString string) (Mqtt.writeInt (cstr string).length ++ cstr string) :=
  (writes_writeInt _).bind (writes_put _)

theorem writes_writeMQTTString (s : MQTTString) : Writes (writeMQTTString s) s.wire := by
  obtain ⟨cstring, len, data, held⟩ := s
  rw [writeMQTTString, MQTTString.wire, MQTTString.text]
  dsimp only at held ⊢
  split_ifs with more
  · rw [List.length_take_of_le held]
    exact (writes_writeInt _).bind (writes_put _)
  · cases cstring with
    | some c => exact writes_writeCString c
    | none => exact writes_writeInt 0

theorem writes_writeHeader (header : MQTTHeader) (remLen : Nat) :
    Writes (writeHeader header remLen) (header.byte :: mqttPacketEncode remLen) :=
  (writes_put _).bind (writes_put _)

/-- What a serialiser does with any buffer. -/
theorem serializeTo_eq {packet : Prog (Out Byte) Unit} {s : Bytes} (writes : Writes packet s)
    (needed buflen : Nat) (buf : Bytes) :
    serializeTo needed buflen packet buf =
      if buflen < needed then .ok (bufferTooShort, buf)
      else if s.length ≤ buf.length then .ok (s.length, s ++ buf.drop s.length)
      else .error .overflow := by
  rw [serializeTo]
  split_ifs with short fits
  · rfl
  · obtain ⟨o, run, ptr, block⟩ := writes.front fits
    rw [Prog.then_of_ok run]
    change Except.ok ((o.ptr : Int), o.block) = _
    rw [ptr, block]
  · rw [writes.front_overflow (by omega)]
    rfl

/-! ### All packets -/

/-- A packet that is asked for. -/
inductive Request where
  | connect (options : MQTTPacketConnectData)
  | connack (connackRc sessionPresent : Byte)
  | publish (p : PublishData)
  | ack (packettype : MsgType) (dup : Byte) (packetid : UInt16)
  | zero (packettype : MsgType)
  | subscribe (dup : Byte) (packetid : UInt16) (filters : List Filter)
  | suback (packetid : UInt16) (grantedQoSs : List Int)
  | unsubscribe (dup : Byte) (packetid : UInt16) (topicFilters : List MQTTString)
  | unsuback (packetid : UInt16)

namespace Request

/-- Its serialiser. -/
def serialize (r : Request) (buf : Bytes) (buflen : Nat) : Except Fault (Int × Bytes) :=
  match r with
  | connect options => mqttSerializeConnect buf buflen options
  | connack connackRc sessionPresent => mqttSerializeConnack buf buflen connackRc sessionPresent
  | publish p => mqttSerializePublish buf buflen p
  | ack packettype dup packetid => mqttSerializeAck buf buflen packettype dup packetid
  | zero packettype => mqttSerializeZero buf buflen packettype
  | subscribe dup packetid filters => mqttSerializeSubscribe buf buflen dup packetid filters
  | suback packetid grantedQoSs => mqttSerializeSuback buf buflen packetid grantedQoSs
  | unsubscribe dup packetid filters => mqttSerializeUnsubscribe buf buflen dup packetid filters
  | unsuback packetid => mqttSerializeUnsuback buf buflen packetid

/-- What the length of the buffer is checked against. -/
def needed : Request → Nat
  | connect options => mqttPacketLen (mqttSerializeConnectLength options)
  | connack _ _ => 2
  | publish p => mqttPacketLen (publishLength p)
  | ack _ _ _ => 4
  | zero _ => 2
  | subscribe _ _ filters => mqttPacketLen (mqttSerializeSubscribeLength filters)
  | suback _ grantedQoSs => 2 + grantedQoSs.length
  | unsubscribe _ _ filters => mqttPacketLen (mqttSerializeUnsubscribeLength filters)
  | unsuback _ => 2

/-- The remaining length that is written. -/
def remLen : Request → Nat
  | connect options => mqttSerializeConnectLength options
  | connack _ _ => 2
  | publish p => publishLength p
  | ack _ _ _ => 2
  | zero _ => 0
  | subscribe _ _ filters => mqttSerializeSubscribeLength filters
  | suback _ grantedQoSs => 2 + grantedQoSs.length
  | unsubscribe _ _ filters => mqttSerializeUnsubscribeLength filters
  | unsuback _ => 2

/-- The header. -/
def header : Request → MQTTHeader
  | connect _ => ⟨MsgType.connect.code, false, 0, false⟩
  | connack _ _ => ⟨MsgType.connack.code, false, 0, false⟩
  | publish p => ⟨MsgType.publish.code, p.dup.toNat % 2 == 1, lowBits p.qos 4,
      p.retained.toNat % 2 == 1⟩
  | ack packettype dup _ =>
      ⟨packettype.code, dup.toNat % 2 == 1, if packettype = .pubrel then 1 else 0, false⟩
  | zero packettype => ⟨packettype.code, false, 0, false⟩
  | subscribe dup _ _ => ⟨MsgType.subscribe.code, dup.toNat % 2 == 1, 1, false⟩
  | suback _ _ => ⟨MsgType.suback.code, false, 0, false⟩
  | unsubscribe dup _ _ => ⟨MsgType.unsubscribe.code, dup.toNat % 2 == 1, 1, false⟩
  | unsuback _ => ⟨MsgType.unsuback.code, false, 0, false⟩

end Request

/-- The name and the version of the protocol in a packet. -/
def protocolWire (version : Byte) : Bytes :=
  if version = 4 then Mqtt.writeInt 4 ++ mqttName ++ [4] else Mqtt.writeInt 6 ++ mqisdpName ++ [3]

/-- What follows the remaining length of a connect packet. -/
def connectBody (options : MQTTPacketConnectData) : Bytes :=
  protocolWire options.mqttVersion ++
    ([(connectFlags options).all] ++
      (Mqtt.writeInt options.keepAliveInterval.toNat ++
        (options.clientID.wire ++
          ((if options.willFlag ≠ 0 then
              options.will.topicName.wire ++ options.will.message.wire else []) ++
            ((if options.username.given then options.username.wire else []) ++
              if options.password.given then options.password.wire else [])))))

/-- What follows the remaining length of a publish packet. -/
def publishBody (p : PublishData) : Bytes :=
  p.topicName.wire ++ ((if 0 < p.qos then Mqtt.writeInt p.packetid.toNat else []) ++ p.payload)

/-- A filter in a packet. -/
def Filter.wire (f : Filter) : Bytes :=
  f.topicFilter.wire ++ [UInt8.ofNat (lowBits f.requestedQoS 256)]

namespace Request

/-- What follows the remaining length. -/
def body : Request → Bytes
  | connect options => connectBody options
  | connack connackRc sessionPresent =>
      [UInt8.ofNat (sessionPresent.toNat % 2)] ++ [connackRc]
  | publish p => publishBody p
  | ack _ _ packetid => Mqtt.writeInt packetid.toNat
  | zero _ => []
  | subscribe _ packetid filters => Mqtt.writeInt packetid.toNat ++ filters.flatMap Filter.wire
  | suback packetid grantedQoSs => Mqtt.writeInt packetid.toNat ++
      grantedQoSs.flatMap fun qos => [UInt8.ofNat (lowBits qos 256)]
  | unsubscribe _ packetid filters =>
      Mqtt.writeInt packetid.toNat ++ filters.flatMap MQTTString.wire
  | unsuback packetid => Mqtt.writeInt packetid.toNat

/-- The packet. -/
def packet (r : Request) : Bytes := r.header.byte :: mqttPacketEncode r.remLen ++ r.body

end Request

theorem writes_writeProtocol (version : Byte) :
    Writes (writeProtocol version) (protocolWire version) := by
  rw [writeProtocol, protocolWire]
  split_ifs
  · exact (writes_writeCString mqttName).bind (writes_put _)
  · exact (writes_writeCString mqisdpName).bind (writes_put _)

theorem writes_writeConnect (options : MQTTPacketConnectData) :
    Writes (writeConnect options) (Request.connect options).packet :=
  (writes_writeHeader _ _).bind <| (writes_writeProtocol _).bind <| (writes_put _).bind <|
    (writes_writeInt _).bind <| (writes_writeMQTTString _).bind <|
    (((writes_writeMQTTString _).bind (writes_writeMQTTString _)).putIf _).bind <|
    ((writes_writeMQTTString _).putIf _).bind ((writes_writeMQTTString _).putIf _)

theorem writes_writePublish (p : PublishData) :
    Writes (writePublish p) (Request.publish p).packet :=
  (writes_writeHeader _ _).bind <| (writes_writeMQTTString _).bind <|
    ((writes_writeInt _).putIf _).bind (writes_put _)

theorem writes_writeFilter (f : Filter) : Writes (writeFilter f) f.wire :=
  (writes_writeMQTTString _).bind (writes_put _)

namespace Request

/-- What a serialiser does with any buffer, whatever length it is told. -/
theorem serialize_eq (r : Request) (buf : Bytes) (buflen : Nat) :
    r.serialize buf buflen =
      if buflen < r.needed then .ok (bufferTooShort, buf)
      else if r.packet.length ≤ buf.length then
        .ok (r.packet.length, r.packet ++ buf.drop r.packet.length)
      else .error .overflow := by
  cases r with
  | connect options => exact serializeTo_eq (writes_writeConnect options) _ _ _
  | connack connackRc sessionPresent =>
      exact serializeTo_eq
        ((writes_writeHeader _ _).bind ((writes_put _).bind (writes_put _))) _ _ _
  | publish p => exact serializeTo_eq (writes_writePublish p) _ _ _
  | ack packettype dup packetid =>
      exact serializeTo_eq ((writes_writeHeader _ _).bind (writes_writeInt _)) _ _ _
  | zero packettype =>
      refine serializeTo_eq ?_ _ _ _
      rw [packet, body, List.append_nil]
      exact writes_writeHeader _ _
  | subscribe dup packetid filters =>
      exact serializeTo_eq ((writes_writeHeader _ _).bind
        ((writes_writeInt _).bind (Writes.forM writes_writeFilter filters))) _ _ _
  | suback packetid grantedQoSs =>
      exact serializeTo_eq ((writes_writeHeader _ _).bind
        ((writes_writeInt _).bind (Writes.forM (fun _ => writes_put _) grantedQoSs))) _ _ _
  | unsubscribe dup packetid filters =>
      exact serializeTo_eq ((writes_writeHeader _ _).bind
        ((writes_writeInt _).bind (Writes.forM writes_writeMQTTString filters))) _ _ _
  | unsuback packetid =>
      exact serializeTo_eq ((writes_writeHeader _ _).bind (writes_writeInt _)) _ _ _

/-! ### How long the packets are -/

/-- No string is given twice. -/
def Single : Request → Prop
  | connect o => o.clientID.Single ∧ o.will.topicName.Single ∧ o.will.message.Single ∧
      o.username.Single ∧ o.password.Single
  | publish p => p.topicName.Single
  | subscribe _ _ filters => ∀ f ∈ filters, f.topicFilter.Single
  | unsubscribe _ _ filters => ∀ s ∈ filters, s.Single
  | _ => True

/-- The serialiser counts all that it writes. -/
def Counted : Request → Prop
  | connect o => o.mqttVersion = 3 ∨ o.mqttVersion = 4
  | connack _ _ => False
  | suback _ _ => False
  | unsuback _ => False
  | _ => True

end Request

theorem length_mqttPacketEncode_le {n k : Nat} (small : n < 128 ^ k) (pos : 0 < k) :
    (mqttPacketEncode n).length ≤ k := length_digits_le small pos

/-- `MQTTPacket_len` is no less than what the header and the remaining length take. -/
theorem le_mqttPacketLen {n : Nat} (small : n < 2 ^ 28) :
    1 + (mqttPacketEncode n).length + n ≤ mqttPacketLen n := by
  rw [mqttPacketLen]
  split_ifs
  · have := length_mqttPacketEncode_le (n := n) (k := 1) (by omega) (by decide)
    omega
  · have := length_mqttPacketEncode_le (n := n) (k := 2) (by omega) (by decide)
    omega
  · have := length_mqttPacketEncode_le (n := n) (k := 3) (by omega) (by decide)
    omega
  · have := length_mqttPacketEncode_le (n := n) (k := 4) (by omega) (by decide)
    omega

theorem mqttPacketLen_le (n : Nat) : mqttPacketLen n ≤ n + 5 := by
  rw [mqttPacketLen]
  split_ifs <;> omega

theorem length_writeInt (n : Nat) : (Mqtt.writeInt n).length = 2 := rfl

theorem MQTTString.Single.length_wire {s : MQTTString} (single : s.Single) :
    s.wire.length = mqttStrlen s + 2 := by
  rw [MQTTString.length_wire, single.strlen]

theorem length_flatMap_wire {β : Type} {wire : β → Bytes} {l : List β} (size : β → Nat)
    (sized : ∀ b ∈ l, (wire b).length = size b) :
    (l.flatMap wire).length = (l.map size).sum := by
  rw [List.length_flatMap, List.map_congr_left sized]

/-- What the length of a connect packet does not count. -/
def uncounted (version : Byte) : Nat := if version = 3 ∨ version = 4 then 0 else 12

theorem length_protocolWire (version : Byte) :
    (protocolWire version).length + 3 =
      (if version = 3 then 12 else if version = 4 then 10 else 0) + uncounted version := by
  rw [protocolWire, uncounted]
  by_cases three : version = 3
  · subst three
    rfl
  · by_cases four : version = 4
    · subst four
      rfl
    · rw [if_neg four, if_neg three, if_neg four, if_neg (not_or.mpr ⟨three, four⟩)]
      rfl

theorem length_if_else_nil {c : Prop} [Decidable c] (s : Bytes) :
    (if c then s else []).length = if c then s.length else 0 := by
  split_ifs <;> rfl

theorem length_connectBody {o : MQTTPacketConnectData} (single : (Request.connect o).Single) :
    (connectBody o).length = mqttSerializeConnectLength o + uncounted o.mqttVersion := by
  obtain ⟨clientID, topicName, message, username, password⟩ := single
  have protocol := length_protocolWire o.mqttVersion
  simp only [connectBody, List.length_append, length_writeInt, List.length_singleton,
    clientID.length_wire, topicName.length_wire, message.length_wire, username.length_wire,
    password.length_wire, length_if_else_nil, mqttSerializeConnectLength]
  omega

theorem length_publishBody {p : PublishData} (single : p.topicName.Single) :
    (publishBody p).length = publishLength p := by
  simp only [publishBody, List.length_append, single.length_wire, length_if_else_nil,
    length_writeInt, publishLength]
  omega

namespace Request

variable {r : Request}

/-- A serialiser that counts all that it writes gives the length of what follows. -/
theorem length_body (single : r.Single) (counted : r.Counted) : r.body.length = r.remLen := by
  cases r with
  | connect o =>
      have : uncounted o.mqttVersion = 0 := if_pos counted
      rw [body, length_connectBody single, this]
      rfl
  | connack _ _ => rfl
  | publish p => exact length_publishBody single
  | ack _ _ _ => rfl
  | zero _ => rfl
  | subscribe _ _ filters =>
      rw [body, List.length_append, length_writeInt, length_flatMap_wire
        (fun f => 2 + mqttStrlen f.topicFilter + 1)]
      · rfl
      · intro f there
        rw [Filter.wire, List.length_append, (single f there).length_wire, List.length_singleton]
        omega
  | suback _ grantedQoSs => cases counted
  | unsubscribe _ _ filters =>
      rw [body, List.length_append, length_writeInt, length_flatMap_wire
        (fun s => 2 + mqttStrlen s)]
      · rfl
      · intro s there
        rw [(single s there).length_wire]
        omega
  | unsuback _ => rfl

theorem length_packet (r : Request) :
    r.packet.length = 1 + (mqttPacketEncode r.remLen).length + r.body.length := by
  rw [packet, List.cons_append, List.length_cons, List.length_append]
  omega

/-- The check of a serialiser is enough if and only if it counts all that it writes and the
remaining length has no more than four digits. -/
theorem length_packet_le_iff (single : r.Single) :
    r.packet.length ≤ r.needed ↔ r.Counted ∧ r.remLen < 2 ^ 28 := by
  have digit : 0 < (mqttPacketEncode r.remLen).length := digits_length_pos (by decide)
  rw [length_packet]
  constructor
  · intro le
    have counted : r.Counted := by
      cases r with
      | connect o =>
          by_contra other
          have rest : uncounted o.mqttVersion = 12 := if_neg other
          have most := mqttPacketLen_le (mqttSerializeConnectLength o)
          rw [body, length_connectBody single, rest] at le
          simp only [needed] at le
          omega
      | connack _ _ => exact absurd le (show ¬ 1 + (mqttPacketEncode 2).length + 2 ≤ 2 by decide)
      | suback _ grantedQoSs =>
          have each : (grantedQoSs.flatMap fun qos => [UInt8.ofNat (lowBits qos 256)]).length =
              grantedQoSs.length := by
            simp [List.length_flatMap]
          rw [body, List.length_append, length_writeInt, each] at le
          simp only [needed] at le
          omega
      | unsuback _ => exact absurd le (show ¬ 1 + (mqttPacketEncode 2).length + 2 ≤ 2 by decide)
      | publish _ => trivial
      | ack _ _ _ => trivial
      | zero _ => trivial
      | subscribe _ _ _ => trivial
      | unsubscribe _ _ _ => trivial
    refine ⟨counted, ?_⟩
    by_contra large
    have long : 4 < (mqttPacketEncode r.remLen).length :=
      lt_length_digits (show 128 ^ 4 ≤ r.remLen by omega) (by decide)
    have most : r.needed ≤ r.remLen + 5 := by
      cases r with
      | connect _ => exact mqttPacketLen_le _
      | publish _ => exact mqttPacketLen_le _
      | subscribe _ _ _ => exact mqttPacketLen_le _
      | unsubscribe _ _ _ => exact mqttPacketLen_le _
      | ack _ _ _ => exact (by decide : 4 ≤ 2 + 5)
      | zero _ => exact (by decide : 2 ≤ 0 + 5)
      | connack _ _ => cases counted
      | suback _ _ => cases counted
      | unsuback _ => cases counted
    rw [length_body single counted] at le
    omega
  · rintro ⟨counted, small⟩
    have encoded := le_mqttPacketLen small
    rw [length_body single counted]
    cases r with
    | connect _ => exact encoded
    | publish _ => exact encoded
    | subscribe _ _ _ => exact encoded
    | unsubscribe _ _ _ => exact encoded
    | ack _ _ _ => exact (show 1 + (mqttPacketEncode 2).length + 2 ≤ 4 by decide)
    | zero _ => exact (show 1 + (mqttPacketEncode 0).length + 0 ≤ 2 by decide)
    | connack _ _ => cases counted
    | suback _ _ => cases counted
    | unsuback _ => cases counted

/-- A serialiser that is told the length of its buffer stays within every buffer if and only if
its check is enough. -/
theorem within_iff_length (r : Request) :
    (∀ buf, ∃ result, r.serialize buf buf.length = .ok result) ↔ r.packet.length ≤ r.needed := by
  constructor
  · intro within
    by_contra more
    obtain ⟨result, run⟩ := within (List.replicate r.needed 0)
    rw [serialize_eq, List.length_replicate, if_neg (by omega), if_neg more] at run
    cases run
  · intro fits buf
    rw [serialize_eq]
    split_ifs with short whole
    · exact ⟨_, rfl⟩
    · exact ⟨_, rfl⟩
    · omega

/-- Which serialisers stay within every buffer whose length they are told: not those of CONNACK,
SUBACK and UNSUBACK, nor that of CONNECT with a version of the protocol that it does not know. -/
theorem within_iff (single : r.Single) :
    (∀ buf, ∃ result, r.serialize buf buf.length = .ok result) ↔
      r.Counted ∧ r.remLen < 2 ^ 28 :=
  (within_iff_length r).trans (length_packet_le_iff single)

/-- A publish packet is counted. -/
theorem within_iff_publish :
    ∃ result, (publish ⟨0, 1, 0, 7, .counted [0x61], [0x62]⟩).serialize [0, 0, 0] 3 =
      .ok result :=
  (within_iff (r := publish ⟨0, 1, 0, 7, .counted [0x61], [0x62]⟩) (Or.inl rfl)).mpr
    ⟨trivial, by decide⟩ [0, 0, 0]

end Request

end AcnSdk.Mqtt.Packets
