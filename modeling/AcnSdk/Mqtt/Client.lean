/-
The MQTT client of `src/mqtt/client`: `cycle_r`, which reads one packet and answers it, and
`MQTTPublish_part`, which writes one in parts.

What the network and the clock do is in an `Env`: how many bytes each read and each write comes to,
and whether a timer has run out since it was last looked at. A read gives bytes of what the peer
sent only if there are so many; what one that fails has got by then is lost. Asking for more than
the destination has room for is a fault. The callbacks of topics and the driver of a payload are
programs over a state of their own, `app`.
-/

import AcnSdk.Lib.Memory
import AcnSdk.Mqtt.Packet
import AcnSdk.Mqtt.Publish

namespace AcnSdk.Mqtt.Client

open AcnSdk.Lib Prog

/-- `MQTT_CLIENT_MAX_MSG_LEN`, with `MQTT_BUF_LEN` and `MQTT_CLIENT_MAX_PAYLOAD_LEN` as they are. -/
def maxMsgLen : Nat := 400 + 3000

def success : Int := 0

def failure : Int := -1

/-- `MQTTPACKET_BUFFER_TOO_SHORT`. -/
def bufferTooShort : Int := -2

/-- The timers: of the call that is made, of `keepalive`, and the two of the connection. -/
inductive Timer where
  | command | ping | lastSent | lastReceived
deriving DecidableEq, Repr

/-- What the network and the clock do, at the first, second and later times that they are asked.
A read that fails has got `lost` bytes by then, but never all that it asks for. -/
structure Env where
  read : Nat → Int → Int
  lost : Nat → Int → Nat
  write : Nat → Nat → Int
  elapsed : Nat → Timer → Bool

/-- `MQTTClient`. -/
structure MQTTClient where
  buf : Bytes
  readbuf : Bytes
  nextPacketid : Nat
  isconnected : Bool
  keepAliveInterval : Nat
  pingOutstanding : Bool
deriving DecidableEq, Repr

/-- A registered `arrow_mqtt_delivery_callback_t`. -/
structure Registered (m : Type → Type) where
  topic : Bytes
  callback : DeliveryCallback m

/-- A client with what it is connected to. `received` is a record of the messages that
`cycle_publish` passed on, with their topics. -/
structure World (τ : Type) where
  client : MQTTClient
  delivery : List (Registered (Prog τ))
  input : Bytes
  output : Bytes
  reads : Nat
  writes : Nat
  looks : Nat
  expired : Timer → Bool
  received : List (Bytes × MQTTMessage)
  app : τ

variable {τ β : Type}

/-- A program over the state of callbacks and driver. -/
def onApp (x : Prog τ β) : Prog (World τ) β :=
  fun w => (x w.app).bind fun r => .ok (r.1, { w with app := r.2 })

section

variable (env : Env)

/-! ### Network and clock -/

/-- `TimerIsExpired`. -/
def timerIsExpired (t : Timer) : Prog (World τ) Bool := do
  let w ← get
  let gone := w.expired t || env.elapsed w.looks t
  set { w with looks := w.looks + 1, expired := fun u => if u = t then gone else w.expired u }
  return gone

/-- `TimerCountdown` and `TimerCountdownMS`. -/
def timerCountdown (t : Timer) : Prog (World τ) Unit :=
  modify fun w => { w with expired := fun u => if u = t then false else w.expired u }

/-- What a read of `n` bytes returns. -/
def readResult (w : World τ) (n : Int) : Int :=
  let r := env.read w.reads n
  if r ≤ 0 then r else if r ≤ n ∧ r ≤ w.input.length then r else failure

/-- How many bytes a read of `n` bytes takes. -/
def readTakes (w : World τ) (n : Int) : Nat :=
  let r := readResult env w n
  if 0 < r then r.toNat else min (env.lost w.reads n) (n.toNat - 1)

/-- `mqttread`, with the bytes that it stores. -/
def mqttread (n : Int) : Prog (World τ) (Int × Bytes) := do
  let w ← get
  let k := readTakes env w n
  set { w with reads := w.reads + 1, input := w.input.drop k }
  return (readResult env w n, w.input.take k)

/-- `mqttread` to the read buffer. -/
def readInto (i : Nat) (n : Int) : Prog (World τ) Int := do
  let w ← get
  if i + n.toNat ≤ w.client.readbuf.length then do
    let (len, s) ← mqttread env n
    modify fun w => { w with client.readbuf := store w.client.readbuf i s }
    return len
  else throw .overflow

/-- `mqttwrite` of bytes of the send buffer. -/
def mqttwrite (i length : Nat) : Prog (World τ) Int := do
  let w ← get
  let r := min (env.write w.writes length) length
  let s ← lift (copyFrom w.client.buf i r.toNat)
  set { w with writes := w.writes + 1, output := w.output ++ s }
  return r

/-- Writing to the send buffer. -/
def putBuf (i : Nat) (s : Bytes) : Prog (World τ) Unit := do
  let w ← get
  let buf ← lift (copyTo w.client.buf i s)
  set { w with client.buf := buf }

/-- The loop of `sendPacket`, with how many bytes are sent. -/
def sendLoop (t : Timer) (length : Nat) : Nat → Nat → Prog (World τ) Nat
  | 0, _ => throw .endless
  | fuel + 1, sent =>
      if sent < length then do
        let gone ← timerIsExpired env t
        if gone then return sent
        else do
          let rc ← mqttwrite env sent length
          if rc ≤ 0 then return sent else sendLoop t length fuel (sent + rc.toNat)
      else return sent

/-- `sendPacket`. -/
def sendPacket (t : Timer) (length : Nat) : Prog (World τ) Int := do
  let sent ← sendLoop env t length (length + 1) 0
  if sent = length then do
    timerCountdown .lastSent
    return success
  else return failure

/-- `MQTTSerialize_zero`. -/
def mqttSerializeZero (packettype : MsgType) : Prog (World τ) Int := do
  let w ← get
  if w.client.buf.length < 2 then return bufferTooShort
  else do
    putBuf 0 (zeroPacket packettype)
    return (zeroPacket packettype).length

/-- `MQTTSerialize_ack`, with `dup` 0. -/
def mqttSerializeAck (packettype : MsgType) (packetid : Nat) : Prog (World τ) Int := do
  let w ← get
  if w.client.buf.length < 4 then return bufferTooShort
  else do
    putBuf 0 (ackPacket packettype packetid)
    return (ackPacket packettype packetid).length

/-! ### `keepalive` -/

/-- The ping of `keepalive`. -/
def sendPing : Prog (World τ) Int := do
  timerCountdown .ping
  let len ← mqttSerializeZero .pingreq
  if 0 < len then do
    let rc ← sendPacket env .ping len.toNat
    if rc = success then do
      modify fun w => { w with client.pingOutstanding := true }
      return rc
    else return rc
  else return success

/-- Whether one of the two timers of the connection has run out. -/
def connectionExpired : Prog (World τ) Bool := do
  let sent ← timerIsExpired env .lastSent
  if sent then return true else timerIsExpired env .lastReceived

/-- `keepalive`. -/
def keepalive : Prog (World τ) Int := do
  let w ← get
  if w.client.keepAliveInterval = 0 then return success
  else do
    let gone ← connectionExpired env
    if gone then
      if w.client.pingOutstanding then return failure else sendPing env
    else return success

/-! ### `cycle_r` -/

/-- The loop of `decodePacket`: how many bytes there were, and the value. -/
def decodeLoop : Nat → Int → Int → Int → Prog (World τ) (Int × Int)
  | 0, _, _, _ => throw .endless
  | fuel + 1, len, multiplier, value => do
      let (rc, s) ← mqttread env 1
      let i := (s.headD 0).toNat
      if rc ≠ 1 then return (len, value)
      else if 4 < len + 1 then return (len + 1, value)
      else if 128 ≤ i then
        decodeLoop fuel (len + 1) (multiplier * 128) (value + (i % 128 : Nat) * multiplier)
      else return (len + 1, value + (i % 128 : Nat) * multiplier)

/-- `decodePacket`. -/
def decodePacket : Prog (World τ) (Int × Int) := decodeLoop env 5 0 1 0

/-- `cycle_connack`. -/
def cycleConnack (remLen : Int) : Prog (World τ) Int := do
  let rc ← readInto env 0 remLen
  if rc ≠ remLen then return failure else return success

/-- `cycle_subscribe`. -/
def cycleSubscribe (remLen : Int) : Prog (World τ) Int := do
  let len ← readInto env 0 remLen
  if len ≤ 0 then return failure else return success

/-- `deliveryeq`: `strncmp` finds no difference in the bytes of the topic name. -/
def deliveryeq (topic name : Bytes) : Bool := cstr (topic.take name.length) == cstr name

/-- The callback that `linked_list_find_node` finds for the topic in the read buffer. -/
def findDelivery (topicLen : Nat) : Prog (World τ) (Option (DeliveryCallback (Prog τ))) := do
  let w ← get
  return (w.delivery.find? fun r => deliveryeq r.topic (w.client.readbuf.take topicLen)).map
    (·.callback)

/-- The topic of `cycle_publish`: its length, what is left of the packet and of the buffer. -/
def publishTopic (remLen : Int) : Prog (World τ) (Option (Nat × Int × Nat)) := do
  let len ← readInto env 0 2
  if len ≤ 0 then return none
  else do
    let w ← get
    let topicLen := readInt w.client.readbuf
    if remLen - len ≤ topicLen then return none
    else do
      let len' ← readInto env 0 topicLen
      if len' ≠ topicLen then return none
      else if w.client.readbuf.length ≤ topicLen then return none
      else return some (topicLen, remLen - len - topicLen, w.client.readbuf.length - topicLen)

/-- The packet id of `cycle_publish`, and what is left of the packet then. -/
def publishId (qos : Nat) (totalLen : Int) : Prog (World τ) (Option (Nat × Int)) :=
  if 0 < qos then do
    let (len, s) ← mqttread env 2
    if len ≠ 2 then return none else return some (readInt s, totalLen - 2)
  else return some (0, totalLen)

/-- A piece of the payload is passed on. -/
def deliverPiece (topicLen : Nat) (msgErr len : Int) : Prog (World τ) Unit :=
  if msgErr = 0 then do
    let w ← get
    let cb ← findDelivery topicLen
    let _ ← onApp (deliveryMessageProcess cb ((w.client.readbuf.drop topicLen).take len.toNat))
    return ()
  else return ()

/-- The loop of `cycle_publish` over the payload, with how many bytes the last read came to. -/
def payloadLoop (topicLen restBuffer : Nat) (msgErr : Int) :
    Nat → Int → Int → Prog (World τ) (Option Int)
  | 0, _, _ => throw .endless
  | fuel + 1, totalLen, len =>
      if totalLen = 0 then return some len
      else do
        let len ← readInto env topicLen (if totalLen < restBuffer then totalLen else restBuffer)
        if len ≤ 0 then return none
        else do
          deliverPiece topicLen msgErr len
          payloadLoop topicLen restBuffer msgErr fuel (totalLen - len) len

/-- The answer of `cycle_publish`. -/
def sendAck (message : MQTTMessage) (len : Int) : Prog (World τ) Int :=
  if message.qos = 0 then return success
  else do
    let len ←
      if message.qos = 1 then mqttSerializeAck .puback message.id
      else if message.qos = 2 then mqttSerializeAck .pubrec message.id
      else pure len
    if len ≤ 0 then return failure else sendPacket env .command len.toNat

/-- The end of a message is passed on. -/
def deliverDone (topicLen : Nat) (msgErr : Int) : Prog (World τ) Unit :=
  if msgErr = 0 then do
    let cb ← findDelivery topicLen
    let _ ← onApp (deliveryMessageDone cb)
    return ()
  else return ()

/-- `cycle_publish` from the payload on. -/
def publishBody (message : MQTTMessage) (topicLen restBuffer : Nat) (totalLen : Int) :
    Prog (World τ) Int := do
  modify fun w => { w with received := w.received ++ [(w.client.readbuf.take topicLen, message)] }
  let cb ← findDelivery topicLen
  let msgErr ← onApp (deliveryMessageInit cb totalLen)
  let read ← payloadLoop env topicLen restBuffer msgErr (totalLen.toNat + 1) totalLen 2
  match read with
  | none => return failure
  | some len => do
      deliverDone topicLen msgErr
      sendAck env message len

/-- `cycle_publish`. -/
def cyclePublish (head : MQTTHeader) (remLen : Int) : Prog (World τ) Int := do
  let topic ← publishTopic env remLen
  match topic with
  | none => return failure
  | some (topicLen, totalLen, restBuffer) => do
      let id ← publishId env head.qos totalLen
      match id with
      | none => return failure
      | some (id, totalLen) =>
          publishBody env ⟨head.qos, head.retain, head.dup, id⟩ topicLen restBuffer totalLen

/-- The loop of `cycle_r` for packets without a function in `__cycle_collection`. -/
def drainLoop : Nat → Int → Prog (World τ) Unit
  | 0, _ => throw .endless
  | fuel + 1, remLen =>
      if remLen = 0 then return ()
      else do
        let (r, _) ← mqttread env (if remLen < 4 then remLen else 4)
        if 0 < r then drainLoop fuel (remLen - r) else return ()

/-- `__cycle_collection`. -/
def cycleCollection (packType : Nat) : Option (MQTTHeader → Int → Prog (World τ) Int) :=
  if packType = MsgType.connack.code then some fun _ => cycleConnack env
  else if packType = MsgType.publish.code then some (cyclePublish env)
  else if packType = MsgType.suback.code then some fun _ => cycleSubscribe env
  else none

/-- `cycle_r` after its function for the packet. -/
def cycleEnd (packType : Nat) (rc : Int) : Prog (World τ) Int := do
  let alive ← keepalive env
  if alive ≠ success then return failure
  else if rc = success then return packType
  else return rc

/-- `cycle_r` after the fixed header. -/
def cycleBody (head : MQTTHeader) (remLen : Int) : Prog (World τ) Int :=
  match cycleCollection env head.type with
  | none => do
      drainLoop env (remLen.toNat + 1) remLen
      return head.type
  | some cycle => do
      let rc ← cycle head remLen
      cycleEnd env head.type rc

/-- `cycle_r`. -/
def cycleR : Prog (World τ) Int := do
  let (rc, s) ← mqttread env 1
  if rc ≠ 1 then return failure
  else do
    let head := MQTTHeader.ofByte (s.headD 0)
    if head.type < 1 ∨ 15 ≤ head.type then return failure
    else do
      let (len, remLen) ← decodePacket env
      if len ≤ 0 ∨ maxMsgLen < remLen then return rc
      else cycleBody env head remLen

/-! ### `MQTTPublish_part` -/

/-- `waitfor`, going round at most `fuel` times. -/
def waitfor (packetType : MsgType) : Nat → Int → Prog (World τ) Int
  | 0, _ => throw .endless
  | fuel + 1, rc => do
      let gone ← timerIsExpired env .command
      if gone then return rc
      else do
        let rc ← cycleR env
        if rc ≠ packetType.code ∧ 0 ≤ rc then waitfor packetType fuel rc else return rc

/-- `mqtt_payload_drive_t`. `part` gives the bytes that it writes to the buffer, none if it
fails. -/
structure PayloadDrive (m : Type → Type) where
  init : m Int
  part : Nat → m Bytes
  fin : m Int

/-- `getNextPacketId`. -/
def getNextPacketId : Prog (World τ) Nat := do
  let w ← get
  let id := if w.client.nextPacketid = 65535 then 1 else w.client.nextPacketid + 1
  set { w with client.nextPacketid := id }
  return id

/-- The message gets a packet id, which is of 16 bits. -/
def giveId (message : MQTTMessage) : Prog (World τ) MQTTMessage :=
  if message.qos = 1 ∨ message.qos = 2 then do
    let id ← getNextPacketId
    return { message with id := id % 2 ^ 16 }
  else return message

/-- The loop of `MQTTPublish_part` over the payload, and whether all of it was sent. -/
def partLoop (drive : PayloadDrive (Prog τ)) : Nat → Nat → Prog (World τ) Bool
  | 0, _ => throw .endless
  | fuel + 1, total =>
      if total = 0 then return true
      else do
        let gone ← timerIsExpired env .command
        if gone then return false
        else do
          let w ← get
          let s ← onApp (drive.part (min total w.client.buf.length))
          if s = [] then return false
          else do
            putBuf 0 s
            let rc ← sendPacket env .command s.length
            if rc ≠ success then return false else partLoop drive fuel (total - s.length)

/-- `MQTTPublish_part` from the front of the packet on, up to the wait for an answer. -/
def publishSend (drive : PayloadDrive (Prog τ)) (topicName : Bytes) (message : MQTTMessage)
    (payloadlen : Nat) :
    Prog (World τ) Int := do
  putBuf 0 (publishFront topicName message payloadlen)
  let rc ← sendPacket env .command (publishFront topicName message payloadlen).length
  if rc ≠ success then return rc
  else do
    let whole ← partLoop env drive (payloadlen + 1) payloadlen
    if whole then do
      let _ ← onApp drive.fin
      return success
    else return failure

/-- The wait of `MQTTPublish_part`. `MQTTDeserialize_ack` returns 1 always. -/
def publishWait (fuel : Nat) (message : MQTTMessage) : Prog (World τ) Int := do
  if message.qos = 1 then
    let rc ← waitfor env .puback fuel failure
    if rc = MsgType.puback.code then return success else return failure
  else if message.qos = 2 then
    let rc ← waitfor env .pubcomp fuel failure
    if rc = MsgType.pubcomp.code then return success else return failure
  else return success

/-- `MQTTPublish_part` up to the wait: the message as it is sent, and the result. -/
def publishStart (drive : PayloadDrive (Prog τ)) (topicName : Bytes) (message : MQTTMessage) :
    Prog (World τ) (MQTTMessage × Int) := do
  timerCountdown .command
  let message ← giveId message
  let payloadlen ← onApp drive.init
  if payloadlen ≤ 0 then return (message, failure)
  else do
    let rc ← publishSend env drive topicName message payloadlen.toNat
    return (message, rc)

/-- `MQTTPublish_part`. -/
def mqttPublishPart (fuel : Nat) (drive : PayloadDrive (Prog τ)) (topicName : Bytes)
    (message : MQTTMessage) :
    Prog (World τ) Int := do
  let w ← get
  if w.client.isconnected then do
    let (message, rc) ← publishStart env drive topicName message
    if rc = success then publishWait env fuel message else return rc
  else return failure

end

end AcnSdk.Mqtt.Client
