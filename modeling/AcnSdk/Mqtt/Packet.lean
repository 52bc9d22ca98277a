/-
MQTT packets as `src/mqtt/packet` writes them.

A packet is a header byte, the number of bytes that follow, and these bytes. A header byte has
four bits for the type, and one for `dup`, two for the quality of service and one for `retain`.
-/

import AcnSdk.Lib.Varint

namespace AcnSdk.Mqtt

open AcnSdk.Lib

/-- `enum msgTypes`. -/
inductive MsgType where
  | connect | connack | publish | puback | pubrec | pubrel | pubcomp | subscribe | suback
  | unsubscribe | unsuback | pingreq | pingresp | disconnect
deriving DecidableEq, Repr

/-- The number of a type. -/
def MsgType.code : MsgType → Nat
  | .connect => 1
  | .connack => 2
  | .publish => 3
  | .puback => 4
  | .pubrec => 5
  | .pubrel => 6
  | .pubcomp => 7
  | .subscribe => 8
  | .suback => 9
  | .unsubscribe => 10
  | .unsuback => 11
  | .pingreq => 12
  | .pingresp => 13
  | .disconnect => 14

theorem MsgType.code_inj {a b : MsgType} (same : a.code = b.code) : a = b := by
  cases a <;> cases b <;> first | rfl | cases same

/-- `MQTTHeader`. -/
structure MQTTHeader where
  type : Nat
  dup : Bool
  qos : Nat
  retain : Bool
deriving DecidableEq, Repr

/-- The byte of a header. -/
def MQTTHeader.byte (h : MQTTHeader) : Byte :=
  UInt8.ofNat (h.type % 16 * 16 + h.dup.toNat * 8 + h.qos % 4 * 2 + h.retain.toNat)

/-- The header in a byte. -/
def MQTTHeader.ofByte (b : Byte) : MQTTHeader where
  type := b.toNat / 16
  dup := b.toNat / 8 % 2 == 1
  qos := b.toNat / 2 % 4
  retain := b.toNat % 2 == 1

/-- `MQTTMessage` without its payload. -/
structure MQTTMessage where
  qos : Nat
  retained : Bool
  dup : Bool
  id : Nat
deriving DecidableEq, Repr

/-- `MQTTPacket_encode`. The length is an `int`. -/
def mqttPacketEncode (length : Nat) : Bytes := digits 5 length

/-- `writeInt`. -/
def writeInt (n : Nat) : Bytes := [UInt8.ofNat (n / 256), UInt8.ofNat (n % 256)]

/-- `readInt`. -/
def readInt (s : Bytes) : Nat := 256 * (s.getD 0 0).toNat + (s.getD 1 0).toNat

/-- `MQTTSerialize_publishLength`. -/
def mqttSerializePublishLength (qos : Nat) (topicName : Bytes) (payloadlen : Nat) : Nat :=
  2 + topicName.length + payloadlen + if 0 < qos then 2 else 0

/-- The front of a publish packet. -/
def publishFront (topicName : Bytes) (message : MQTTMessage) (payloadlen : Nat) : Bytes :=
  [MQTTHeader.byte ⟨MsgType.publish.code, message.dup, message.qos, message.retained⟩] ++
    mqttPacketEncode (mqttSerializePublishLength message.qos topicName payloadlen) ++
    writeInt topicName.length ++ topicName ++ if 0 < message.qos then writeInt message.id else []

/-- What `MQTTSerialize_ack` writes. -/
def ackPacket (packettype : MsgType) (packetid : Nat) : Bytes :=
  [MQTTHeader.byte ⟨packettype.code, false, if packettype = .pubrel then 1 else 0, false⟩] ++
    mqttPacketEncode 2 ++ writeInt packetid

/-- What `MQTTSerialize_zero` writes. -/
def zeroPacket (packettype : MsgType) : Bytes :=
  [MQTTHeader.byte ⟨packettype.code, false, 0, false⟩] ++ mqttPacketEncode 0

/-! ### What is read is what was written -/

theorem MQTTHeader.ofByte_byte {h : MQTTHeader} (type_lt : h.type < 16) (qos_lt : h.qos < 4) :
    MQTTHeader.ofByte h.byte = h := by
  obtain ⟨type, dup, qos, retain⟩ := h
  dsimp only at type_lt qos_lt
  have all : ∀ type < 16, ∀ qos < 4, ∀ dup retain : Bool,
      MQTTHeader.ofByte (MQTTHeader.byte ⟨type, dup, qos, retain⟩) = ⟨type, dup, qos, retain⟩ := by
    decide
  exact all type type_lt qos qos_lt dup retain

theorem readInt_writeInt {n : Nat} (lt : n < 2 ^ 16) (rest : Bytes) :
    readInt (writeInt n ++ rest) = n := by
  have high : (UInt8.ofNat (n / 256)).toNat = n / 256 := by
    rw [UInt8.toNat_ofNat']
    omega
  have low : (UInt8.ofNat (n % 256)).toNat = n % 256 := by
    rw [UInt8.toNat_ofNat']
    omega
  change 256 * (UInt8.ofNat (n / 256)).toNat + (UInt8.ofNat (n % 256)).toNat = n
  rw [high, low]
  omega

theorem mqttPacketEncode_numeral {n : Nat} (small : n < 2 ^ 31) :
    Numeral (mqttPacketEncode n) ∧ digitsValue (mqttPacketEncode n) = n := by
  have enough : n < 128 ^ 5 := by
    have : 2 ^ 31 ≤ 128 ^ 5 := by decide
    omega
  exact ⟨digits_numeral enough (by decide), value_digits enough⟩

end AcnSdk.Mqtt
