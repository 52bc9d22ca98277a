/-
The deserialisers of `src/mqtt/packet` for the packets of a client.

A deserialiser goes through the packet with a pointer. `enddata` is where the packet ends by its
own remaining length, and nothing checks it against the buffer; only strings are checked against
`enddata`. A string is the bytes that its pointer is to, and one that is not in the buffer is a
fault.

* `reads_readMQTTLenString` — what `writeMQTTString` writes is read back as its text.
* `reads_readRemLen` — the remaining length is read back.
-/

import AcnSdk.Mqtt.Serialize

namespace AcnSdk.Mqtt.Packets

open AcnSdk.Lib
open Client (readChar)

/-! ### The source -/

/-- `readChar`, as a byte. -/
def readByte : Prog (In Byte) Byte := do
  let s ← takeItems 1
  return s.headD 0

/-- `readInt`. -/
def readInt : Prog (In Byte) Nat := do
  let s ← takeItems 2
  return Mqtt.readInt s

/-- `readMQTTLenString`. What it leaves in the string when it fails is left out. -/
def readMQTTLenString : Prog (In Byte) (Option MQTTString) := do
  let i ← get
  if i.cur + 1 < i.enddata then do
    let len ← readInt
    let i ← get
    if i.cur + len ≤ i.enddata then do
      let s ← takeItems len
      return some (.counted s)
    else return none
  else return none

/-- The loop of `MQTTPacket_decode` over `bufchar`: the length that it returns, and the value.
At most four bytes are read, but a fifth is counted. -/
def decodeBufLoop (buf : Bytes) : (left pos len multiplier value : Nat) → Except Fault (Nat × Nat)
  | 0, _, len, _, value => .ok (len + 1, value)
  | left + 1, pos, len, multiplier, value =>
      match buf[pos]? with
      | none => .error .overflow
      | some c =>
          if 128 ≤ c.toNat then
            decodeBufLoop buf left (pos + 1) (len + 1) (multiplier * 128)
              (value + c.toNat % 128 * multiplier)
          else .ok (len + 1, value + c.toNat % 128 * multiplier)

/-- `MQTTPacket_decodeBuf`. -/
def mqttPacketDecodeBuf (buf : Bytes) (pos : Nat) : Except Fault (Nat × Nat) :=
  decodeBufLoop buf 4 pos 0 1 0

/-- `curdata += MQTTPacket_decodeBuf(curdata, &mylen)`: what it returns, and `mylen`. -/
def readRemLen : Prog (In Byte) (Nat × Nat) := do
  let i ← get
  let (rc, mylen) ← Prog.lift (mqttPacketDecodeBuf i.block i.cur)
  set (i.skip rc)
  return (rc, mylen)

/-- `enddata = curdata + mylen`. -/
def setEnddata (mylen : Nat) : Prog (In Byte) Unit :=
  modify fun i => { i with enddata := i.cur + mylen }

/-- `MQTTPacket_checkVersion`. -/
def mqttPacketCheckVersion (protocol : MQTTString) (version : Byte) : Bool :=
  let data := protocol.lenstring.data.getD []
  let len := protocol.lenstring.len
  if version = 3 ∧ data.take (min 6 len) = mqisdpName.take (min 6 len) then true
  else version = 4 ∧ data.take (min 4 len) = mqttName.take (min 4 len)

/-- The will of `MQTTDeserialize_connect`. -/
def readWill (flags : MQTTConnectFlags) (data : MQTTPacketConnectData) :
    Prog (In Byte) (Option MQTTPacketConnectData) :=
  if flags.will then do
    let some topicName ← readMQTTLenString | return none
    let some message ← readMQTTLenString | return none
    return some { data with
      willFlag := 1
      will := ⟨topicName, message, UInt8.ofNat flags.willRetain.toNat, UInt8.ofNat flags.willQoS⟩ }
  else return some { data with willFlag := 0 }

/-- A string of the credentials: there must be more than its length. -/
def readCredential : Prog (In Byte) (Option MQTTString) := do
  let i ← get
  if i.enddata < i.cur + 3 then return none else readMQTTLenString

/-- The credentials of `MQTTDeserialize_connect`. -/
def readCredentials (flags : MQTTConnectFlags) (data : MQTTPacketConnectData) :
    Prog (In Byte) (Option MQTTPacketConnectData) :=
  if flags.username then do
    let some username ← readCredential | return none
    if flags.password then do
      let some password ← readCredential | return none
      return some { data with username, password }
    else return some { data with username }
  else if flags.password then return none
  else return some data

/-- `MQTTDeserialize_connect` behind the version of the protocol. -/
def readConnect (data : MQTTPacketConnectData) :
    Prog (In Byte) (Option MQTTPacketConnectData) := do
  let flags := MQTTConnectFlags.ofByte (← readByte)
  let keepAliveInterval ← readInt
  let some clientID ← readMQTTLenString | return none
  let some data ← readWill flags { data with
    cleansession := UInt8.ofNat flags.cleansession.toNat
    keepAliveInterval := UInt16.ofNat keepAliveInterval
    clientID } | return none
  readCredentials flags data

/-- `MQTTDeserialize_connect` from the front of the packet. -/
def readConnectPacket (data : MQTTPacketConnectData) :
    Prog (In Byte) (Option MQTTPacketConnectData) := do
  let header := MQTTHeader.ofByte (← readByte)
  if header.type ≠ MsgType.connect.code then return none
  else do
    let _ ← readRemLen
    let some protocol ← readMQTTLenString | return none
    let version ← readByte
    if mqttPacketCheckVersion protocol version then readConnect data else return none

/-- `MQTTDeserialize_connect`: the data if it returns 1, and none if it returns 0. -/
def mqttDeserializeConnect (data : MQTTPacketConnectData) (buf : Bytes) (len : Nat) :
    Except Fault (Option MQTTPacketConnectData) :=
  (readConnectPacket data ⟨buf, 0, len⟩).map (·.1)

/-- What `MQTTDeserialize_publish` sets. -/
structure Published where
  dup : Bool
  qos : Nat
  retained : Bool
  packetid : Option Nat
  topicName : MQTTString
  payload : Nat
  payloadlen : Int

/-- The packet id of `MQTTDeserialize_publish`. -/
def readPacketid (qos : Nat) : Prog (In Byte) (Option Nat) :=
  if 0 < qos then do
    let packetid ← readInt
    return some packetid
  else return none

/-- `MQTTDeserialize_publish` behind the remaining length. -/
def readPublish (header : MQTTHeader) (rc : Nat) : Prog (In Byte) (Int × Option Published) := do
  let some topicName ← readMQTTLenString | return (rc, none)
  let packetid ← readPacketid header.qos
  let i ← get
  return (1, some ⟨header.dup, header.qos, header.retain, packetid, topicName, i.cur,
    i.enddata - i.cur⟩)

/-- `MQTTDeserialize_publish` from the front of the packet. -/
def readPublishPacket : Prog (In Byte) (Int × Option Published) := do
  let header := MQTTHeader.ofByte (← readByte)
  if header.type ≠ MsgType.publish.code then return (0, none)
  else do
    let (rc, mylen) ← readRemLen
    setEnddata mylen
    readPublish header rc

/-- `MQTTDeserialize_publish`: what it returns, and what it sets if it gets through. The payload is
a place in the buffer. -/
def mqttDeserializePublish (buf : Bytes) : Except Fault (Int × Option Published) :=
  (readPublishPacket ⟨buf, 0, buf.length⟩).map (·.1)

/-- A filter of `MQTTDeserialize_subscribe`. -/
def readFilter (signedChar : Bool) : Prog (In Byte) (Option Filter) := do
  let some topicFilter ← readMQTTLenString | return none
  let i ← get
  if i.enddata ≤ i.cur then return none
  else do
    let c ← readByte
    return some ⟨topicFilter, readChar signedChar c⟩

/-- What `MQTTDeserialize_subscribe` and `MQTTDeserialize_unsubscribe` have in common: a packet of
a type, with a packet id, and items to the end of the packet. -/
def readItemsPacket {β : Type} (type : MsgType) (wrongType : Int) (capacity : Nat)
    (item : Prog (In Byte) (Option β)) : Prog (In Byte) (Int × Option (Bool × Nat × List β)) := do
  let header := MQTTHeader.ofByte (← readByte)
  if header.type ≠ type.code then return (wrongType, none)
  else do
    let (rc, mylen) ← readRemLen
    setEnddata mylen
    let packetid ← readInt
    let some items ← untilEnd capacity item (mylen + 1) [] | return (rc, none)
    return (1, some (header.dup, packetid, items))

/-- `MQTTDeserialize_subscribe`, with arrays for `capacity` filters; `maxcount` is not used. -/
def mqttDeserializeSubscribe (signedChar : Bool) (capacity : Nat) (buf : Bytes) :
    Except Fault (Int × Option (Bool × Nat × List Filter)) :=
  (readItemsPacket .subscribe (-1) capacity (readFilter signedChar) ⟨buf, 0, buf.length⟩).map (·.1)

/-- `MQTTDeserialize_unsubscribe`, with an array for `capacity` filters; `maxcount` is not used. -/
def mqttDeserializeUnsubscribe (capacity : Nat) (buf : Bytes) :
    Except Fault (Int × Option (Bool × Nat × List MQTTString)) :=
  (readItemsPacket .unsubscribe 0 capacity readMQTTLenString ⟨buf, 0, buf.length⟩).map (·.1)

/-! ### What is read back -/

theorem reads_readByte (c : Byte) : Reads readByte [c] c :=
  (reads_takeItems (s := [c]) Nat.one_pos).last rfl

theorem reads_readInt {n : Nat} (lt : n < 2 ^ 16) : Reads readInt (Mqtt.writeInt n) n := by
  have value : Mqtt.readInt (Mqtt.writeInt n) = n := by
    have := readInt_writeInt lt []
    rwa [List.append_nil] at this
  exact (reads_takeItems (s := Mqtt.writeInt n) Nat.two_pos).last (congrArg pure value)

/-- A string is read back as its text. -/
theorem reads_readMQTTLenString {s : Bytes} (short : s.length < 2 ^ 16) :
    Reads readMQTTLenString (Mqtt.writeInt s.length ++ s) (some (.counted s)) := by
  intro i next
  have inside := next.inside
  rw [List.length_append, length_writeInt] at inside
  have two := next.left.fits Nat.two_pos
  rw [length_writeInt] at two
  have text : (i.skip 2).Next s := next.right
  rw [readMQTTLenString, Prog.bind_of_ok (Prog.get_apply i), if_pos (by omega),
    Prog.bind_of_ok (reads_readInt short i next.left), Prog.bind_of_ok (Prog.get_apply _),
    length_writeInt, if_pos text.inside, Prog.bind_of_ok (takeItems_next text two),
    In.skip_skip, List.length_append, length_writeInt]
  rfl

theorem reads_wire {s : MQTTString} (short : s.text.length < 2 ^ 16) :
    Reads readMQTTLenString s.wire (some (.counted s.text)) := reads_readMQTTLenString short

theorem decodeBufLoop_numeral {buf ds : Bytes} (numeral : Numeral ds)
    {left pos len multiplier value : Nat}
    (ahead : ds <+: buf.drop pos) (few : ds.length ≤ left) :
    decodeBufLoop buf left pos len multiplier value =
      .ok (len + ds.length, value + digitsValue ds * multiplier) := by
  induction numeral generalizing left pos len multiplier value with
  | @last d lt =>
      obtain ⟨left, rfl⟩ :=
        Nat.exists_eq_succ_of_ne_zero (Nat.ne_of_gt (Nat.lt_of_lt_of_le Nat.one_pos few))
      obtain ⟨rest, ahead⟩ := ahead
      have here : buf[pos]? = some d := by
        rw [← Nat.add_zero pos, ← List.getElem?_drop, ← ahead]
        rfl
      rw [decodeBufLoop, here]
      dsimp only
      rw [if_neg (by omega), digitsValue, digitsValue]
      rfl
  | @more d ds ge _ ih =>
      rw [List.length_cons] at few
      obtain ⟨left, rfl⟩ :=
        Nat.exists_eq_succ_of_ne_zero (Nat.ne_of_gt (Nat.lt_of_lt_of_le (Nat.succ_pos _) few))
      obtain ⟨rest, ahead⟩ := ahead
      have here : buf[pos]? = some d := by
        rw [← Nat.add_zero pos, ← List.getElem?_drop, ← ahead]
        rfl
      have behind : ds <+: buf.drop (pos + 1) := by
        rw [← List.drop_drop, ← ahead]
        exact List.prefix_append ds rest
      rw [decodeBufLoop, here]
      dsimp only
      rw [if_pos ge, ih behind (Nat.le_of_succ_le_succ few), digitsValue, List.length_cons]
      congr 2
      · omega
      · rw [Nat.add_mul, Nat.add_assoc, Nat.mul_comm 128, Nat.mul_assoc, Nat.mul_comm 128]

/-- The remaining length is read back, and the cursor is behind it. -/
theorem reads_readRemLen {n : Nat} (small : n < 2 ^ 28) :
    Reads readRemLen (mqttPacketEncode n) ((mqttPacketEncode n).length, n) := by
  intro i next
  obtain ⟨numeral, value⟩ := mqttPacketEncode_numeral (show n < 2 ^ 31 by omega)
  have few : (mqttPacketEncode n).length ≤ 4 :=
    length_mqttPacketEncode_le (show n < 128 ^ 4 by omega) (by decide)
  have decode : mqttPacketDecodeBuf i.block i.cur = .ok ((mqttPacketEncode n).length, n) := by
    rw [mqttPacketDecodeBuf, decodeBufLoop_numeral numeral next.ahead few, value, Nat.zero_add,
      Nat.zero_add, Nat.mul_one]
  rw [readRemLen, Prog.bind_of_ok (Prog.get_apply i), decode]
  rfl

/-! ### A publish packet that ends early -/

theorem lt_of_decodeBufLoop {buf : Bytes} {left pos len multiplier value rc mylen : Nat}
    (run : decodeBufLoop buf left pos len multiplier value = .ok (rc, mylen)) : len < rc := by
  induction left generalizing pos len multiplier value with
  | zero =>
      rw [decodeBufLoop] at run
      cases run
      exact Nat.lt_succ_self len
  | succ left ih =>
      rw [decodeBufLoop] at run
      split at run
      · cases run
      · split_ifs at run
        · exact Nat.lt_of_succ_lt (ih run)
        · cases run
          exact Nat.lt_succ_self len

theorem readInt_take (s : Bytes) : Mqtt.readInt (s.take 2) = Mqtt.readInt s := by
  rcases s with _ | ⟨c, _ | ⟨d, s⟩⟩ <;> rfl

/-- A string is refused where not even its length fits, or where the string does not. -/
theorem readMQTTLenString_none_iff (i : In Byte) :
    (∃ i', readMQTTLenString i = .ok (none, i')) ↔
      i.enddata < i.cur + 2 ∨ i.cur + 2 ≤ i.block.length ∧
        i.enddata < i.cur + 2 + Mqtt.readInt (i.block.drop i.cur) := by
  rw [readMQTTLenString, Prog.bind_of_ok (Prog.get_apply i)]
  by_cases more : i.cur + 1 < i.enddata
  · rw [if_pos more, or_iff_right (by omega)]
    by_cases fits : i.cur + 2 ≤ i.block.length
    · have run : readInt i = .ok (Mqtt.readInt (i.block.drop i.cur), i.skip 2) := by
        rw [readInt, takeItems, bind_assoc, Prog.bind_of_ok (Prog.get_apply i), copyFrom_eq fits,
          ← readInt_take]
        rfl
      rw [Prog.bind_of_ok run, Prog.bind_of_ok (Prog.get_apply _), and_iff_right fits]
      split_ifs with inside
      · refine iff_of_false ?_ (by simpa using inside)
        rintro ⟨i', run⟩
        obtain ⟨s, i₁, -, run⟩ := Prog.run_of_bind run
        cases run
      · exact iff_of_true ⟨_, rfl⟩ (by simpa using inside)
    · refine iff_of_false ?_ (fun there => fits there.1)
      rintro ⟨i', run⟩
      obtain ⟨n, i₁, run, -⟩ := Prog.run_of_bind run
      obtain ⟨s, i₂, run, -⟩ := Prog.run_of_bind run
      rw [takeItems, Prog.bind_of_ok (Prog.get_apply i), copyFrom, if_neg fits] at run
      cases run
  · rw [if_neg more]
    exact iff_of_true ⟨i, rfl⟩ (.inl (by omega))

theorem readPublish_unread_iff (header : MQTTHeader) (rc : Nat) (i : In Byte) :
    (readPublish header rc i).map (·.1) = .ok (1, none) ↔
      rc = 1 ∧ ∃ i', readMQTTLenString i = .ok (none, i') := by
  rw [readPublish, Prog.bind_apply]
  cases run : readMQTTLenString i with
  | error e =>
      refine iff_of_false (fun h => ?_) ?_
      · cases h
      · rintro ⟨-, i', there⟩
        cases there
  | ok r =>
      obtain ⟨topic, i₁⟩ := r
      cases topic with
      | none =>
          constructor
          · intro h
            have one : (rc : Int) = 1 := congrArg Prod.fst (Except.ok.inj h)
            exact ⟨by omega, i₁, rfl⟩
          · rintro ⟨rfl, -⟩
            rfl
      | some topicName =>
          refine iff_of_false (fun h => ?_) ?_
          · rw [Prog.ok_bind] at h
            dsimp only at h
            rw [Prog.bind_apply] at h
            cases id : readPacketid header.qos i₁ with
            | error e =>
                rw [id] at h
                cases h
            | ok r =>
                rw [id] at h
                cases h
          · rintro ⟨-, i', there⟩
            cases there

/-- `MQTTDeserialize_publish` returns the size of the remaining length where the topic does not
fit in the packet. It then reports success, with no topic, for every packet whose remaining length
is a single byte. -/
theorem publish_unread_iff (buf : Bytes) :
    mqttDeserializePublish buf = .ok (1, none) ↔
      ∃ b n rest, buf = b :: n :: rest ∧ (MQTTHeader.ofByte b).type = MsgType.publish.code ∧
        n.toNat < 128 ∧ (n.toNat < 2 ∨ 2 ≤ rest.length ∧ n.toNat < 2 + Mqtt.readInt rest) := by
  cases buf with
  | nil =>
      refine iff_of_false (fun run => ?_) (fun ⟨_, _, _, cons, _⟩ => by cases cons)
      cases run
  | cons b buf =>
      have header : readByte ⟨b :: buf, 0, (b :: buf).length⟩ =
          .ok (b, ⟨b :: buf, 1, (b :: buf).length⟩) :=
        reads_readByte b _ ⟨List.prefix_append [b] buf, by simp⟩
      rw [mqttDeserializePublish, readPublishPacket, Prog.bind_of_ok header]
      dsimp only
      by_cases type : (MQTTHeader.ofByte b).type = MsgType.publish.code
      · rw [if_neg (not_not.mpr type)]
        cases buf with
        | nil =>
            refine iff_of_false (fun run => ?_) (fun ⟨_, _, _, cons, _⟩ => by cases cons)
            cases run
        | cons n rest =>
            have decode : mqttPacketDecodeBuf (b :: n :: rest) 1 =
                if 128 ≤ n.toNat then
                  decodeBufLoop (b :: n :: rest) 3 2 1 128 (0 + n.toNat % 128 * 1)
                else .ok (1, 0 + n.toNat % 128 * 1) := rfl
            rw [readRemLen, bind_assoc, Prog.bind_of_ok (Prog.get_apply _), decode]
            by_cases long : 128 ≤ n.toNat
            · rw [if_pos long]
              refine iff_of_false (fun run => ?_) ?_
              · cases digits : decodeBufLoop (b :: n :: rest) 3 2 1 128 (0 + n.toNat % 128 * 1) with
                | error e =>
                    rw [digits] at run
                    cases run
                | ok r =>
                    rw [digits] at run
                    have := lt_of_decodeBufLoop digits
                    have := ((readPublish_unread_iff _ _ _).mp run).1
                    omega
              · rintro ⟨_, _, _, cons, -, short, -⟩
                cases cons
                omega
            · rw [if_neg long, Nat.zero_add, Nat.mul_one, Nat.mod_eq_of_lt (by omega)]
              refine (readPublish_unread_iff (MQTTHeader.ofByte b) 1
                ⟨b :: n :: rest, 2, 2 + n.toNat⟩).trans ?_
              rw [and_iff_right rfl, readMQTTLenString_none_iff]
              constructor
              · intro cut
                refine ⟨b, n, rest, rfl, type, by omega, cut.imp (fun h => ?_) (fun h => ?_)⟩
                · dsimp only at h
                  omega
                · dsimp only at h
                  rw [List.drop_succ_cons, List.drop_succ_cons, List.drop_zero, List.length_cons,
                    List.length_cons] at h
                  omega
              · rintro ⟨_, _, _, cons, -, -, cut⟩
                cases cons
                refine cut.imp (fun h => ?_) (fun h => ?_)
                · dsimp only
                  omega
                · dsimp only
                  rw [List.drop_succ_cons, List.drop_succ_cons, List.drop_zero, List.length_cons,
                    List.length_cons]
                  omega
      · rw [if_pos type]
        refine iff_of_false (fun run => ?_) ?_
        · cases run
        · rintro ⟨_, _, _, cons, there, -⟩
          cases cons
          exact type there

end AcnSdk.Mqtt.Packets
