/-
`MQTTPacket_readnb`, which reads a packet as it comes.

The transport keeps how far the packet has come: its header byte, some bytes of the remaining
length, or some of the rest. A call goes on from there for as long as the transport gives something,
and returns 0 if it gives nothing or not all of the rest.

* `readnb_polls` — what a call does with a packet that has partly come.
* `readnb_agrees` — however a packet comes in, it is read as `MQTTPacket_read` reads it in one
  piece.
-/

import AcnSdk.Lib.Polling
import AcnSdk.Mqtt.Deserialize
import Mathlib.Tactic.Ring

namespace AcnSdk.Mqtt.Packets

open AcnSdk.Lib Prog

/-! ### The source -/

/-- `MQTTTransport` without `getfn` and `sck`. -/
structure MQTTTransport where
  multiplier : Nat
  remLen : Nat
  len : Nat
  state : Nat
deriving DecidableEq, Repr

/-- A buffer, a transport, what comes in, and how often the transport was asked. -/
structure Nb where
  buf : Bytes
  trp : MQTTTransport
  input : Bytes
  calls : Nat
deriving DecidableEq, Repr

/-- `getfn`: call `k` has an error if `avail k` is negative, and otherwise gives at most as many
bytes. -/
def getfn (avail : Nat → Int) (n : Nat) : Prog Nb (Int × Bytes) := do
  let s ← get
  let r := if avail s.calls < 0 then -1 else min (avail s.calls) (min n s.input.length : Nat)
  set { s with input := s.input.drop r.toNat, calls := s.calls + 1 }
  return (r, s.input.take r.toNat)

/-- Bytes are put to the buffer. -/
def putBytes (i : Nat) (bytes : Bytes) : Prog Nb Unit := do
  let s ← get
  let buf ← lift (copyTo s.buf i bytes)
  set { s with buf }

/-- The transport is changed. -/
def setTransport (f : MQTTTransport → MQTTTransport) : Prog Nb Unit :=
  modify fun s => { s with trp := f s.trp }

theorem setTransport_eq (f : MQTTTransport → MQTTTransport) (buf : Bytes) (trp : MQTTTransport)
    (input : Bytes) (calls : Nat) :
    setTransport f ⟨buf, trp, input, calls⟩ = .ok ((), ⟨buf, f trp, input, calls⟩) := rfl

section Source

variable (avail : Nat → Int) (buflen : Nat)

/-- The loop of `MQTTPacket_decode`: the length that it returns, and the value. -/
def decodeLoop : (left len multiplier value : Nat) → Prog Nb (Nat × Nat)
  | 0, len, _, value => return (len + 1, value)
  | left + 1, len, multiplier, value => do
      let (rc, c) ← getfn avail 1
      if rc ≠ 1 then return (len + 1, value)
      else
        let c := (c.headD 0).toNat
        if 128 ≤ c then
          decodeLoop left (len + 1) (multiplier * 128) (value + c % 128 * multiplier)
        else return (len + 1, value + c % 128 * multiplier)

/-- `MQTTPacket_decode`. -/
def mqttPacketDecode : Prog Nb (Nat × Nat) := decodeLoop avail 4 0 1 0

/-- The type of the packet in the buffer. -/
def packetType : Prog Nb Int := do
  let s ← get
  return (MQTTHeader.ofByte (s.buf.headD 0)).type

/-- `MQTTPacket_read`. -/
def mqttPacketRead : Prog Nb Int := do
  let (rc, header) ← getfn avail 1
  if rc ≠ 1 then return -1
  else do
    putBytes 0 header
    let (_, remLen) ← mqttPacketDecode avail
    putBytes 1 (mqttPacketEncode remLen)
    let len := 1 + (mqttPacketEncode remLen).length
    if buflen < remLen + len then return -1
    else if remLen = 0 then packetType
    else do
      let (rc, rest) ← getfn avail remLen
      putBytes len rest
      if rc ≠ remLen then return -1 else packetType

/-- The loop of `MQTTPacket_decodenb`. -/
def decodenbLoop : Nat → Prog Nb Int
  | 0 => throw .endless
  | fuel + 1 => do
      let s ← get
      if 4 ≤ s.trp.len then return -1
      else do
        let (frc, c) ← getfn avail 1
        if frc = -1 then return -1
        else if frc = 0 then return 0
        else do
          let c := (c.headD 0).toNat
          setTransport fun t => { t with
            len := t.len + 1
            remLen := t.remLen + c % 128 * t.multiplier
            multiplier := t.multiplier * 128 }
          if 128 ≤ c then decodenbLoop fuel
          else do
            let s ← get
            return s.trp.len

/-- `MQTTPacket_decodenb`. -/
def mqttPacketDecodenb : Prog Nb Int := do
  setTransport fun t => if t.len = 0 then { t with multiplier := 1, remLen := 0 } else t
  decodenbLoop avail 5

/-- `MQTTPacket_readnb` at `exit`. -/
def exitnb (rc : Int) : Prog Nb Int := do
  setTransport fun t => { t with state := 0 }
  return rc

/-- `MQTTPacket_readnb` from `case 2` on. -/
def readnbRest : Prog Nb Int := do
  let s ← get
  if s.trp.remLen = 0 then do
    let rc ← packetType
    exitnb rc
  else do
    let (frc, rest) ← getfn avail s.trp.remLen
    if frc = -1 then exitnb (-1)
    else if frc = 0 then return 0
    else do
      putBytes s.trp.len rest
      setTransport fun t => { t with remLen := t.remLen - frc.toNat, len := t.len + frc.toNat }
      let s ← get
      if s.trp.remLen ≠ 0 then return 0
      else do
        let rc ← packetType
        exitnb rc

/-- `MQTTPacket_readnb` from `case 1` on. -/
def readnbLength : Prog Nb Int := do
  let frc ← mqttPacketDecodenb avail
  if frc = -1 then exitnb (-1)
  else if frc = 0 then return 0
  else do
    let s ← get
    putBytes 1 (mqttPacketEncode s.trp.remLen)
    setTransport fun t => { t with len := 1 + (mqttPacketEncode t.remLen).length }
    let s ← get
    if buflen < s.trp.remLen + s.trp.len then exitnb (-1)
    else do
      setTransport fun t => { t with state := 2 }
      readnbRest avail

/-- `MQTTPacket_readnb` from `case 0` on. -/
def readnbHeader : Prog Nb Int := do
  setTransport fun t => { t with state := 0 }
  let (frc, header) ← getfn avail 1
  if frc = -1 then exitnb (-1)
  else if frc = 0 then return 0
  else do
    putBytes 0 header
    setTransport fun t => { t with len := 0, state := 1 }
    readnbLength avail buflen

/-- `MQTTPacket_readnb`. -/
def mqttPacketReadnb : Prog Nb Int := do
  let s ← get
  if s.trp.state = 1 then readnbLength avail buflen
  else if s.trp.state = 2 then readnbRest avail
  else readnbHeader avail buflen

end Source

/-! ### A buffer that is filled from its front -/

/-- The buffer with these bytes at its front. -/
def filled (buf pre : Bytes) : Bytes := pre ++ buf.drop pre.length

theorem putBytes_filled {buf pre bytes : Bytes} {trp : MQTTTransport} {input : Bytes} {calls : Nat}
    (fits : pre.length + bytes.length ≤ buf.length) :
    putBytes pre.length bytes ⟨filled buf pre, trp, input, calls⟩ =
      .ok ((), ⟨filled buf (pre ++ bytes), trp, input, calls⟩) := by
  have copy : copyTo (filled buf pre) pre.length bytes = .ok (filled buf (pre ++ bytes)) := by
    rw [filled, copyTo_append rfl (by rw [List.length_drop]; omega), List.drop_drop, filled,
      List.length_append]
  rw [putBytes, bind_of_ok (get_apply _), copy]
  rfl

theorem putBytes_header {buf : Bytes} {header : Byte} {trp : MQTTTransport} {input : Bytes}
    {calls : Nat} (some : 0 < buf.length) :
    putBytes 0 [header] ⟨filled buf [], trp, input, calls⟩ =
      .ok ((), ⟨filled buf [header], trp, input, calls⟩) := by
  exact putBytes_filled (show ([] : Bytes).length + [header].length ≤ buf.length from some)

/-! ### What the transport gives -/

/-- The transport is asked again, and there is less to come in if it gave something. -/
abbrev Onward (avail : Nat → Int) : Nb → Nb → Prop :=
  Progress Nb.calls (fun s => s.input.length) fun k => 1 ≤ avail k

section Given

variable {avail : Nat → Int}

/-- Only the input and the number of calls count. -/
theorem Onward.of_same {s s' t t' : Nb} (onward : Onward avail s s')
    (same : t.input = s.input ∧ t.calls = s.calls)
    (same' : t'.input = s'.input ∧ t'.calls = s'.calls) :
    Onward avail t t' where
  asked := by
    rw [same.2, same'.2]
    exact onward.asked
  le := by
    rw [same.1, same'.1]
    exact onward.le
  lt := by
    rw [same.1, same.2, same'.1, same'.2]
    exact onward.lt

/-- The transport is asked once for bytes that are still to come. -/
theorem getfn_eq (none_failed : ∀ k, 0 ≤ avail k) (buf : Bytes) (trp : MQTTTransport)
    {due : Bytes} (some_due : due ≠ []) (rest : Bytes) (calls : Nat) :
    ∃ r : Nat, r ≤ due.length ∧
      getfn avail due.length ⟨buf, trp, due ++ rest, calls⟩ =
        .ok (((r : Int), due.take r), ⟨buf, trp, due.drop r ++ rest, calls + 1⟩) ∧
      Onward avail ⟨buf, trp, due ++ rest, calls⟩ ⟨buf, trp, due.drop r ++ rest, calls + 1⟩ := by
  have nonneg := none_failed calls
  have length : (due ++ rest).length = due.length + rest.length := List.length_append
  obtain ⟨r, result⟩ : ∃ r, r = min (avail calls).toNat due.length := ⟨_, rfl⟩
  have le : r ≤ due.length := by omega
  refine ⟨r, le, ?_, ?_⟩
  · have given : min (avail calls) (min due.length (due ++ rest).length : Nat) = (r : Int) := by
      omega
    rw [getfn, bind_of_ok (get_apply _)]
    dsimp only
    rw [if_neg (by omega), given, Int.toNat_natCast, List.take_append_of_le_length le,
      List.drop_append_of_le_length le]
    rfl
  · have pos := List.length_pos_of_ne_nil some_due
    refine ⟨Nat.lt_succ_self _, ?_, ?_⟩
    · simp only [List.length_append, List.length_drop]
      omega
    · rintro ⟨k, from_here, to_here, served⟩
      obtain rfl : k = calls := by
        dsimp only at from_here to_here
        omega
      simp only [List.length_append, List.length_drop]
      omega

end Given

/-! ### A packet that comes in -/

/-- A packet: its header, the digits of its remaining length, and the rest of it. -/
structure Incoming where
  header : Byte
  ds : Bytes
  body : Bytes
  numeral : Numeral ds
  few : ds.length ≤ 4
  whole : body.length = digitsValue ds
  typed : (MQTTHeader.ofByte header).type ≠ 0

namespace Incoming

variable (p : Incoming)

/-- The header and the remaining length as they are put to the buffer. -/
def front : Bytes := p.header :: mqttPacketEncode p.body.length

/-- How far the packet has come, in a buffer that had `buf` in it and before `rest`. -/
inductive Partway (buflen : Nat) (buf rest : Bytes) : Nb → Prop where
  | header {trp : MQTTTransport} {calls : Nat} (not_length : trp.state ≠ 1)
      (not_body : trp.state ≠ 2) :
      Partway buflen buf rest ⟨buf, trp, p.header :: p.ds ++ p.body ++ rest, calls⟩
  | length {trp : MQTTTransport} {calls : Nat} {done due : Bytes} (split : p.ds = done ++ due)
      (some_due : due ≠ []) (state : trp.state = 1) (len : trp.len = done.length)
      (multiplier : trp.multiplier = 128 ^ done.length) (remLen : trp.remLen = digitsValue done) :
      Partway buflen buf rest ⟨filled buf [p.header], trp, due ++ (p.body ++ rest), calls⟩
  | body {trp : MQTTTransport} {calls : Nat} {done due : Bytes} (split : p.body = done ++ due)
      (some_due : due ≠ []) (state : trp.state = 2) (remLen : trp.remLen = due.length)
      (len : trp.len = p.front.length + done.length)
      (fits : (p.front ++ p.body).length ≤ buflen) :
      Partway buflen buf rest ⟨filled buf (p.front ++ done), trp, due ++ rest, calls⟩

/-- The packet is read, or found too long. -/
structure Read (buflen : Nat) (buf rest : Bytes) (rc : Int) (s : Nb) : Prop where
  rc : rc =
    if (p.front ++ p.body).length ≤ buflen then ((MQTTHeader.ofByte p.header).type : Int) else -1
  buf : s.buf =
    filled buf (if (p.front ++ p.body).length ≤ buflen then p.front ++ p.body else p.front)
  input : s.input = if (p.front ++ p.body).length ≤ buflen then rest else p.body ++ rest

/-- The outcome of a call or of the rest of one: the packet is still partway, or it is read. -/
def Outcome (avail : Nat → Int) (buflen : Nat) (buf rest : Bytes) (s : Nb) (rc : Int) (s' : Nb) :
    Prop :=
  (rc = 0 ∧ p.Partway buflen buf rest s' ∧ Onward avail s s') ∨
    (rc ≠ 0 ∧ p.Read buflen buf rest rc s')

variable {p} {avail : Nat → Int} {buflen : Nat} {buf rest : Bytes}

theorem Outcome.after {s s₁ s' : Nb} {rc : Int} (moved : Onward avail s s₁)
    (outcome : p.Outcome avail buflen buf rest s₁ rc s') :
    p.Outcome avail buflen buf rest s rc s' :=
  outcome.imp_left fun ⟨again, partway, onward⟩ => ⟨again, partway, moved.trans onward⟩

theorem packetType_front (trp : MQTTTransport) (input : Bytes) (calls : Nat) (t : Bytes) :
    packetType ⟨filled buf (p.front ++ t), trp, input, calls⟩ =
      .ok (((MQTTHeader.ofByte p.header).type : Int),
        ⟨filled buf (p.front ++ t), trp, input, calls⟩) := rfl

theorem length_front : p.front.length = 1 + (mqttPacketEncode p.body.length).length :=
  Nat.add_comm _ _

theorem length_front_le (p : Incoming) : p.front.length ≤ 5 := by
  have small : p.body.length < 128 ^ 4 := by
    rw [p.whole]
    exact Nat.lt_of_lt_of_le (digitsValue_lt p.ds) (Nat.pow_le_pow_right (by decide) p.few)
  have := length_mqttPacketEncode_le small (by decide)
  rw [length_front]
  omega

/-- The rest of the packet. -/
theorem readnbRest_outcome (none_failed : ∀ k, 0 ≤ avail k) (rest : Bytes) (trp : MQTTTransport)
    (calls : Nat) {done due : Bytes} (split : p.body = done ++ due) (state : trp.state = 2)
    (remLen : trp.remLen = due.length) (len : trp.len = p.front.length + done.length)
    (fits : (p.front ++ p.body).length ≤ buflen) (within : buflen ≤ buf.length) :
    ∃ rc s', readnbRest avail ⟨filled buf (p.front ++ done), trp, due ++ rest, calls⟩ =
        .ok (rc, s') ∧
      p.Outcome avail buflen buf rest ⟨filled buf (p.front ++ done), trp, due ++ rest, calls⟩
        rc s' := by
  have typed : ((MQTTHeader.ofByte p.header).type : Int) ≠ 0 := by
    have := p.typed
    omega
  rw [readnbRest, bind_of_ok (get_apply _)]
  dsimp only
  by_cases all : due = []
  · subst all
    rw [List.length_nil] at remLen
    rw [List.append_nil] at split
    rw [if_pos remLen, bind_of_ok (packetType_front _ _ _ _)]
    refine ⟨_, _, rfl, .inr ⟨typed, (if_pos fits).symm, ?_, ?_⟩⟩
    · rw [if_pos fits, split]
    · rw [if_pos fits]
      rfl
  · have pos := List.length_pos_of_ne_nil all
    obtain ⟨r, le, run, moved⟩ := getfn_eq none_failed (filled buf (p.front ++ done)) trp all
      rest calls
    rw [if_neg (by omega), remLen, bind_of_ok run]
    dsimp only
    rw [if_neg (by omega)]
    by_cases nothing : r = 0
    · subst nothing
      rw [if_pos (by decide)]
      refine ⟨_, _, rfl, .inl ⟨rfl, ?_, moved⟩⟩
      exact .body split all state remLen len fits
    · have taken : (due.take r).length = r := List.length_take_of_le le
      have place : trp.len = (p.front ++ done).length := by rw [len, List.length_append]
      have room : (p.front ++ done).length + (due.take r).length ≤ buf.length := by
        rw [split] at fits
        simp only [List.length_append] at fits ⊢
        omega
      rw [if_neg (by omega), place, bind_of_ok (putBytes_filled room),
        bind_of_ok (setTransport_eq _ _ _ _ _), bind_of_ok (get_apply _)]
      dsimp only
      rw [Int.toNat_natCast, remLen]
      have split' : p.body = (done ++ due.take r) ++ due.drop r := by
        rw [List.append_assoc, List.take_append_drop, split]
      by_cases some_left : due.length - r ≠ 0
      · rw [if_pos some_left, List.append_assoc]
        refine ⟨_, _, rfl, .inl ⟨rfl, ?_, moved.of_same ⟨rfl, rfl⟩ ⟨rfl, rfl⟩⟩⟩
        refine .body split' ?_ state ?_ ?_ fits
        · exact List.ne_nil_of_length_pos (by rw [List.length_drop]; omega)
        · rw [List.length_drop]
        · rw [len, List.length_append, taken, Nat.add_assoc]
      · have last : r = due.length := by omega
        subst last
        rw [List.drop_length, List.append_nil, List.take_length] at split'
        rw [if_neg some_left, List.take_length, List.append_assoc, ← split',
          bind_of_ok (packetType_front _ _ _ _), List.drop_length]
        refine ⟨_, _, rfl, .inr ⟨typed, (if_pos fits).symm, ?_, ?_⟩⟩
        · rw [if_pos fits]
        · rw [if_pos fits]
          rfl

/-- A digit more. -/
theorem digitsValue_append (ds : Bytes) (d : Byte) :
    digitsValue (ds ++ [d]) = digitsValue ds + d.toNat % 128 * 128 ^ ds.length := by
  induction ds with
  | nil => simp [digitsValue]
  | cons c ds ih =>
      rw [List.cons_append, digitsValue, ih, digitsValue, List.length_cons, Nat.pow_succ]
      ring

/-- What is left of a numeral is one. -/
theorem numeral_of_append {ds es : Bytes} (numeral : Numeral (ds ++ es)) (some : es ≠ []) :
    Numeral es := by
  induction ds with
  | nil => exact numeral
  | cons d ds ih =>
      obtain ⟨c, l, same⟩ := List.exists_cons_of_ne_nil (List.append_ne_nil_of_right_ne_nil ds some)
      rw [List.cons_append, same] at numeral
      rw [same] at ih
      cases numeral with
      | more ge rest => exact ih rest

/-- The remaining length. -/
theorem decodenbLoop_outcome (none_failed : ∀ k, 0 ≤ avail k) (trp : MQTTTransport) (calls : Nat)
    {done due : Bytes} (split : p.ds = done ++ due) (some_due : due ≠ []) (state : trp.state = 1)
    (len : trp.len = done.length) (multiplier : trp.multiplier = 128 ^ done.length)
    (remLen : trp.remLen = digitsValue done) {fuel : Nat} (enough : due.length < fuel)
    (b t : Bytes) :
    ∃ rc s', decodenbLoop avail fuel ⟨b, trp, due ++ t, calls⟩ = .ok (rc, s') ∧
      Onward avail ⟨b, trp, due ++ t, calls⟩ s' ∧
      ((rc = 0 ∧ ∃ trp' calls' done' due', s' = ⟨b, trp', due' ++ t, calls'⟩ ∧
          p.ds = done' ++ due' ∧ due' ≠ [] ∧ trp'.state = 1 ∧ trp'.len = done'.length ∧
          trp'.multiplier = 128 ^ done'.length ∧ trp'.remLen = digitsValue done') ∨
        (0 < rc ∧ ∃ trp' calls', s' = ⟨b, trp', t, calls'⟩ ∧ trp'.state = 1 ∧
          trp'.remLen = p.body.length)) := by
  induction due generalizing done trp calls fuel with
  | nil => exact absurd rfl some_due
  | cons d due ih =>
      obtain ⟨fuel, rfl⟩ :=
        Nat.exists_eq_succ_of_ne_zero (Nat.ne_of_gt (Nat.lt_of_le_of_lt (Nat.zero_le _) enough))
      have digits := congrArg List.length split
      rw [List.length_append, List.length_cons] at digits
      have few := p.few
      obtain ⟨r, le, run, moved⟩ := getfn_eq none_failed b trp (List.cons_ne_nil d [])
        (due ++ t) calls
      rw [List.length_singleton] at le run
      have run : getfn avail 1 ⟨b, trp, d :: due ++ t, calls⟩ =
          .ok (((r : Int), [d].take r), ⟨b, trp, [d].drop r ++ (due ++ t), calls + 1⟩) := run
      rw [decodenbLoop, bind_of_ok (get_apply _)]
      dsimp only
      rw [if_neg (by omega), bind_of_ok run]
      dsimp only
      rw [if_neg (by omega)]
      by_cases nothing : r = 0
      · subst nothing
        rw [if_pos (by decide)]
        exact ⟨_, _, rfl, moved, .inl ⟨rfl, _, _, done, d :: due, rfl, split, some_due, state, len,
          multiplier, remLen⟩⟩
      · obtain rfl : r = 1 := by omega
        rw [if_neg (by decide), bind_of_ok (setTransport_eq _ _ _ _ _)]
        have value : trp.remLen + d.toNat % 128 * trp.multiplier = digitsValue (done ++ [d]) := by
          rw [digitsValue_append, remLen, multiplier]
        have power : trp.multiplier * 128 = 128 ^ (done ++ [d]).length := by
          rw [multiplier, List.length_append, List.length_singleton, Nat.pow_succ]
        have count : trp.len + 1 = (done ++ [d]).length := by
          rw [len, List.length_append, List.length_singleton]
        have split' : p.ds = (done ++ [d]) ++ due := by
          rw [List.append_assoc, List.singleton_append, split]
        have numeral := numeral_of_append (split ▸ p.numeral) some_due
        simp only [List.take_one, List.headD_cons, List.head?_cons, Option.toList_some, value,
          power, count]
        cases numeral with
        | last lt =>
            rw [if_neg (by omega), bind_of_ok (get_apply _)]
            refine ⟨_, _, rfl, moved.of_same ⟨rfl, rfl⟩ ⟨rfl, rfl⟩, .inr ⟨?_, _, _, rfl, state, ?_⟩⟩
            · dsimp only
              rw [List.length_append, List.length_singleton]
              omega
            · dsimp only
              rw [p.whole, split', List.append_nil]
        | more ge rest =>
            rw [if_pos ge]
            obtain ⟨rc, s', ran, onward, outcome⟩ := ih
              ⟨128 ^ (done ++ [d]).length, digitsValue (done ++ [d]),
                (done ++ [d]).length, trp.state⟩
              (calls + 1) split' (List.ne_nil_of_length_pos rest.length_pos) state rfl rfl rfl
              (Nat.lt_of_succ_lt_succ enough)
            have moved : Onward avail ⟨b, trp, d :: due ++ t, calls⟩
                ⟨b, ⟨128 ^ (done ++ [d]).length, digitsValue (done ++ [d]), (done ++ [d]).length,
                  trp.state⟩, due ++ t, calls + 1⟩ :=
              moved.of_same ⟨rfl, rfl⟩ ⟨rfl, rfl⟩
            exact ⟨rc, s', ran, moved.trans onward, outcome⟩

/-- `MQTTPacket_readnb` from `case 1` on. -/
theorem readnbLength_outcome (none_failed : ∀ k, 0 ≤ avail k) (rest : Bytes)
    (trp : MQTTTransport) (calls : Nat) {done due : Bytes} (split : p.ds = done ++ due)
    (some_due : due ≠ []) (state : trp.state = 1)
    (len : trp.len = done.length)
    (value : done ≠ [] → trp.multiplier = 128 ^ done.length ∧ trp.remLen = digitsValue done)
    (within : buflen ≤ buf.length) (room : 5 ≤ buf.length) :
    ∃ rc s', readnbLength avail buflen
        ⟨filled buf [p.header], trp, due ++ (p.body ++ rest), calls⟩ = .ok (rc, s') ∧
      p.Outcome avail buflen buf rest
        ⟨filled buf [p.header], trp, due ++ (p.body ++ rest), calls⟩ rc s' := by
  have few : due.length < 5 := by
    have := p.few
    rw [split, List.length_append] at this
    omega
  -- the first digit starts the value anew
  obtain ⟨trp', start, state', len', multiplier', remLen'⟩ : ∃ trp' : MQTTTransport,
      (if trp.len = 0 then { trp with multiplier := 1, remLen := 0 } else trp) = trp' ∧
      trp'.state = 1 ∧ trp'.len = done.length ∧ trp'.multiplier = 128 ^ done.length ∧
      trp'.remLen = digitsValue done := by
    refine ⟨_, rfl, ?_⟩
    by_cases first : done = []
    · subst first
      rw [if_pos (show trp.len = 0 from len)]
      exact ⟨state, len, rfl, rfl⟩
    · have := List.length_pos_of_ne_nil first
      rw [if_neg (by omega)]
      exact ⟨state, len, value first⟩
  obtain ⟨rc, s₁, run, moved, outcome⟩ :=
    decodenbLoop_outcome none_failed trp' calls split some_due state'
    len' multiplier' remLen' few (filled buf [p.header]) (p.body ++ rest)
  have moved : Onward avail ⟨filled buf [p.header], trp, due ++ (p.body ++ rest), calls⟩ s₁ :=
    moved.of_same ⟨rfl, rfl⟩ ⟨rfl, rfl⟩
  have decode : mqttPacketDecodenb avail
      ⟨filled buf [p.header], trp, due ++ (p.body ++ rest), calls⟩ = .ok (rc, s₁) := by
    rw [mqttPacketDecodenb, bind_of_ok (setTransport_eq _ _ _ _ _), start, run]
  rw [readnbLength, bind_of_ok decode]
  rcases outcome with
    ⟨rfl, trp₁, calls₁, done₁, due₁, rfl, split₁, some₁, state₁, len₁, mult₁, rem₁⟩ |
      ⟨pos, trp₁, calls₁, rfl, state₁, rem₁⟩
  · rw [if_neg (by decide), if_pos rfl]
    exact ⟨_, _, rfl, .inl ⟨rfl, .length split₁ some₁ state₁ len₁ mult₁ rem₁, moved⟩⟩
  · have most := p.length_front_le
    have fits : [p.header].length + (mqttPacketEncode p.body.length).length ≤ buf.length := by
      rw [length_front] at most
      rw [List.length_singleton]
      omega
    have put : putBytes 1 (mqttPacketEncode p.body.length)
        ⟨filled buf [p.header], trp₁, p.body ++ rest, calls₁⟩ =
          .ok ((), ⟨filled buf p.front, trp₁, p.body ++ rest, calls₁⟩) := putBytes_filled fits
    have total : p.body.length + (1 + (mqttPacketEncode p.body.length).length) =
        (p.front ++ p.body).length := by
      rw [List.length_append, length_front, Nat.add_comm]
    rw [if_neg (by omega), if_neg (by omega), bind_of_ok (get_apply _)]
    dsimp only
    rw [rem₁, bind_of_ok put, bind_of_ok (setTransport_eq _ _ _ _ _), bind_of_ok (get_apply _)]
    dsimp only
    rw [rem₁, total]
    by_cases long : buflen < (p.front ++ p.body).length
    · rw [if_pos long]
      have large : ¬ (p.front ++ p.body).length ≤ buflen := by omega
      refine ⟨_, _, rfl, .inr ⟨by decide, (if_neg large).symm, ?_, ?_⟩⟩
      · rw [if_neg large]
      · rw [if_neg large]
    · rw [if_neg long, bind_of_ok (setTransport_eq _ _ _ _ _)]
      obtain ⟨rc', s', ran, outcome⟩ := readnbRest_outcome none_failed rest
        ⟨trp₁.multiplier, p.body.length, 1 + (mqttPacketEncode p.body.length).length, 2⟩ calls₁
        (List.nil_append p.body).symm rfl rfl length_front.symm (Nat.le_of_not_lt long) within
      rw [List.append_nil] at ran outcome
      refine ⟨rc', s', ran, Outcome.after ?_ outcome⟩
      exact moved.of_same ⟨rfl, rfl⟩ ⟨rfl, rfl⟩

/-- `MQTTPacket_readnb` from `case 0` on. -/
theorem readnbHeader_outcome (none_failed : ∀ k, 0 ≤ avail k) (trp : MQTTTransport) (calls : Nat)
    (within : buflen ≤ buf.length) (room : 5 ≤ buf.length) :
    ∃ rc s', readnbHeader avail buflen
        ⟨buf, trp, p.header :: p.ds ++ p.body ++ rest, calls⟩ = .ok (rc, s') ∧
      p.Outcome avail buflen buf rest
        ⟨buf, trp, p.header :: p.ds ++ p.body ++ rest, calls⟩ rc s' := by
  have input : p.header :: p.ds ++ p.body ++ rest = [p.header] ++ (p.ds ++ (p.body ++ rest)) := by
    simp only [List.cons_append, List.append_assoc, List.nil_append]
  obtain ⟨r, le, run, moved⟩ := getfn_eq none_failed buf { trp with state := 0 }
    (List.cons_ne_nil p.header []) (p.ds ++ (p.body ++ rest)) calls
  rw [List.length_singleton] at le run
  rw [input, readnbHeader, bind_of_ok (setTransport_eq _ _ _ _ _), bind_of_ok run]
  dsimp only
  rw [if_neg (by omega)]
  by_cases nothing : r = 0
  · subst nothing
    rw [if_pos (by decide), List.drop_zero, ← input]
    refine ⟨_, _, rfl, .inl ⟨rfl, .header (show 0 ≠ 1 by decide) (show 0 ≠ 2 by decide), ?_⟩⟩
    rw [input]
    exact moved.of_same ⟨rfl, rfl⟩ ⟨rfl, rfl⟩
  · obtain rfl : r = 1 := by omega
    have header : putBytes 0 [p.header] ⟨filled buf [], { trp with state := 0 },
        p.ds ++ (p.body ++ rest), calls + 1⟩ =
        .ok ((), ⟨filled buf [p.header], { trp with state := 0 }, p.ds ++ (p.body ++ rest),
          calls + 1⟩) :=
      putBytes_header (by omega)
    have digits : p.ds ≠ [] := List.ne_nil_of_length_pos p.numeral.length_pos
    rw [if_neg (by decide)]
    change ∃ rc s', (putBytes 0 [p.header] >>= _) ⟨filled buf [], { trp with state := 0 },
        p.ds ++ (p.body ++ rest), calls + 1⟩ = .ok (rc, s') ∧ _
    rw [bind_of_ok header, bind_of_ok (setTransport_eq _ _ _ _ _)]
    obtain ⟨rc, s', ran, outcome⟩ := readnbLength_outcome none_failed rest
      { trp with len := 0, state := 1 } (calls + 1) (List.nil_append p.ds).symm digits rfl rfl
        (fun absurd => (absurd rfl).elim) within room
    refine ⟨rc, s', ran, Outcome.after ?_ outcome⟩
    exact moved.of_same ⟨rfl, rfl⟩ ⟨rfl, rfl⟩

/-- What a call does with a packet that has partly come. -/
theorem readnb_polls (p : Incoming) (rest : Bytes) (none_failed : ∀ k, 0 ≤ avail k)
    (within : buflen ≤ buf.length)
    (room : 5 ≤ buf.length) :
    Polls (mqttPacketReadnb avail buflen) (p.Partway buflen buf rest) (p.Read buflen buf rest)
      (Onward avail) := by
  intro s partway
  cases partway with
  | @header trp calls not_length not_body =>
      rw [mqttPacketReadnb, bind_of_ok (get_apply _), if_neg not_length, if_neg not_body]
      exact readnbHeader_outcome none_failed trp calls within room
  | @length trp calls done due split some_due state len multiplier remLen =>
      rw [mqttPacketReadnb, bind_of_ok (get_apply _), if_pos state]
      exact readnbLength_outcome none_failed rest trp calls split some_due state len
        (fun _ => ⟨multiplier, remLen⟩) within room
  | @body trp calls done due split some_due state remLen len fits =>
      have two : ¬ trp.state = 1 := by omega
      rw [mqttPacketReadnb, bind_of_ok (get_apply _), if_neg two, if_pos state]
      exact readnbRest_outcome none_failed rest trp calls split state remLen len fits within

/-! ### In one piece -/

/-- A transport that gives all that it is asked for. -/
theorem getfn_all {avail : Nat → Int} {most : Nat} (generous : ∀ k, (most : Int) ≤ avail k)
    {due t : Bytes} (few : due.length ≤ most) (b : Bytes) (trp : MQTTTransport) (calls : Nat) :
    getfn avail due.length ⟨b, trp, due ++ t, calls⟩ =
      .ok (((due.length : Int), due), ⟨b, trp, t, calls + 1⟩) := by
  have enough := generous calls
  have length : (due ++ t).length = due.length + t.length := List.length_append
  have given : min (avail calls) (min due.length (due ++ t).length : Nat) = (due.length : Int) := by
    omega
  rw [getfn, bind_of_ok (get_apply _)]
  dsimp only
  rw [if_neg (by omega), given, Int.toNat_natCast, List.take_left, List.drop_left]
  rfl

/-- It gives a single byte. -/
theorem getfn_byte {avail : Nat → Int} {most : Nat} (generous : ∀ k, (most : Int) ≤ avail k)
    (pos : 0 < most) (c : Byte) (t b : Bytes) (trp : MQTTTransport) (calls : Nat) :
    getfn avail 1 ⟨b, trp, c :: t, calls⟩ = .ok ((1, [c]), ⟨b, trp, t, calls + 1⟩) :=
  getfn_all generous (show [c].length ≤ most from pos) b trp calls

theorem decodeLoop_numeral {most : Nat} (pos : 0 < most) (generous : ∀ k, (most : Int) ≤ avail k)
    {ds : Bytes} (numeral : Numeral ds) {left len multiplier value : Nat} (few : ds.length ≤ left)
    (b t : Bytes) (trp : MQTTTransport) (calls : Nat) :
    decodeLoop avail left len multiplier value ⟨b, trp, ds ++ t, calls⟩ =
      .ok ((len + ds.length, value + digitsValue ds * multiplier),
        ⟨b, trp, t, calls + ds.length⟩) := by
  induction numeral generalizing left len multiplier value calls with
  | @last d lt =>
      obtain ⟨left, rfl⟩ :=
        Nat.exists_eq_succ_of_ne_zero (Nat.ne_of_gt (Nat.lt_of_lt_of_le Nat.one_pos few))
      rw [decodeLoop, List.singleton_append, bind_of_ok (getfn_byte generous pos d t b trp calls)]
      dsimp only
      rw [if_neg (by decide), List.headD_cons, if_neg (by omega), digitsValue, digitsValue]
      rfl
  | @more d ds ge _ ih =>
      rw [List.length_cons] at few
      obtain ⟨left, rfl⟩ :=
        Nat.exists_eq_succ_of_ne_zero (Nat.ne_of_gt (Nat.lt_of_lt_of_le (Nat.succ_pos _) few))
      rw [decodeLoop, List.cons_append,
        bind_of_ok (getfn_byte generous pos d (ds ++ t) b trp calls)]
      dsimp only
      rw [if_neg (by decide), List.headD_cons, if_pos ge, ih (Nat.le_of_succ_le_succ few),
        digitsValue, List.length_cons]
      congr 3
      · omega
      · ring
      · omega

/-- `MQTTPacket_read` reads a packet that is there. -/
theorem mqttPacketRead_eq (p : Incoming)
    (generous : ∀ k, ((p.front ++ p.body).length : Int) ≤ avail k) (within : buflen ≤ buf.length)
    (room : 5 ≤ buf.length) (rest : Bytes) (trp : MQTTTransport) (calls : Nat) :
    ∃ rc s, mqttPacketRead avail buflen ⟨buf, trp, p.header :: p.ds ++ p.body ++ rest, calls⟩ =
      .ok (rc, s) ∧ p.Read buflen buf rest rc s := by
  have front_le := p.length_front_le
  have total : p.body.length + (1 + (mqttPacketEncode p.body.length).length) =
      (p.front ++ p.body).length := by
    rw [List.length_append, length_front, Nat.add_comm]
  have input : p.header :: p.ds ++ p.body ++ rest = p.header :: (p.ds ++ (p.body ++ rest)) := by
    simp only [List.cons_append, List.append_assoc]
  have pos : 0 < (p.front ++ p.body).length := by omega
  have first : getfn avail 1 ⟨buf, trp, p.header :: (p.ds ++ (p.body ++ rest)), calls⟩ =
      .ok ((1, [p.header]), ⟨filled buf [], trp, p.ds ++ (p.body ++ rest), calls + 1⟩) :=
    getfn_byte generous pos p.header _ buf trp calls
  have header : putBytes 0 [p.header] ⟨filled buf [], trp, p.ds ++ (p.body ++ rest), calls + 1⟩ =
      .ok ((), ⟨filled buf [p.header], trp, p.ds ++ (p.body ++ rest), calls + 1⟩) :=
    putBytes_header (by omega)
  have digits : mqttPacketDecode avail
      ⟨filled buf [p.header], trp, p.ds ++ (p.body ++ rest), calls + 1⟩ =
        .ok ((0 + p.ds.length, 0 + digitsValue p.ds * 1),
          ⟨filled buf [p.header], trp, p.body ++ rest, calls + 1 + p.ds.length⟩) :=
    decodeLoop_numeral pos generous p.numeral p.few _ _ _ _
  have length : putBytes 1 (mqttPacketEncode p.body.length)
      ⟨filled buf [p.header], trp, p.body ++ rest, calls + 1 + p.ds.length⟩ =
        .ok ((), ⟨filled buf p.front, trp, p.body ++ rest, calls + 1 + p.ds.length⟩) := by
    refine putBytes_filled (show [p.header].length + _ ≤ buf.length from ?_)
    rw [length_front] at front_le
    rw [List.length_singleton]
    omega
  rw [input, mqttPacketRead, bind_of_ok first]
  dsimp only
  rw [if_neg (by decide), bind_of_ok header, bind_of_ok digits]
  dsimp only
  rw [Nat.zero_add, Nat.mul_one, ← p.whole, bind_of_ok length, total]
  by_cases long : buflen < (p.front ++ p.body).length
  · have large : ¬ (p.front ++ p.body).length ≤ buflen := by omega
    rw [if_pos long]
    refine ⟨_, _, rfl, (if_neg large).symm, ?_, ?_⟩
    · rw [if_neg large]
    · rw [if_neg large]
  · have fits : (p.front ++ p.body).length ≤ buflen := by omega
    rw [if_neg long]
    by_cases none : p.body.length = 0
    · have empty : p.body = [] := List.length_eq_zero_iff.mp none
      rw [if_pos none]
      refine ⟨_, _, rfl, ?_, ?_, ?_⟩
      · rw [if_pos fits]
        rfl
      · rw [if_pos fits, empty, List.append_nil]
      · rw [if_pos fits, empty, List.nil_append]
    · have all : getfn avail p.body.length
          ⟨filled buf p.front, trp, p.body ++ rest, calls + 1 + p.ds.length⟩ =
            .ok (((p.body.length : Int), p.body),
              ⟨filled buf p.front, trp, rest, calls + 1 + p.ds.length + 1⟩) :=
        getfn_all generous (by rw [List.length_append]; omega) _ _ _
      have body : putBytes p.front.length p.body
          ⟨filled buf p.front, trp, rest, calls + 1 + p.ds.length + 1⟩ =
            .ok ((), ⟨filled buf (p.front ++ p.body), trp, rest,
              calls + 1 + p.ds.length + 1⟩) :=
        putBytes_filled (by rw [← List.length_append]; omega)
      rw [if_neg none, bind_of_ok all]
      dsimp only
      rw [← length_front, bind_of_ok body, if_neg (not_not.mpr rfl),
        packetType_front trp rest _ p.body]
      refine ⟨_, _, rfl, ?_, ?_, ?_⟩
      · rw [if_pos fits]
      · rw [if_pos fits]
      · rw [if_pos fits]

/-- What is read is determined. -/
theorem Read.unique {rc rc' : Int} {s s' : Nb} (read : p.Read buflen buf rest rc s)
    (read' : p.Read buflen buf rest rc' s') : rc = rc' ∧ s.buf = s'.buf ∧ s.input = s'.input :=
  ⟨read.rc.trans read'.rc.symm, read.buf.trans read'.buf.symm, read.input.trans read'.input.symm⟩

end Incoming

/-- A packet may come in any pieces, with any waits between them. The calls of `MQTTPacket_readnb`
return 0, and then what `MQTTPacket_read` returns that has all of it at once, with the same bytes in
the buffer and the same bytes left; and they do so if the transport gives something again and
again. -/
theorem readnb_agrees (p : Incoming) {avail avail' : Nat → Int} (none_failed : ∀ k, 0 ≤ avail k)
    (fair : ∀ k, ∃ k', k ≤ k' ∧ 1 ≤ avail k')
    (generous : ∀ k, ((p.front ++ p.body).length : Int) ≤ avail' k) {buf : Bytes} {buflen : Nat}
    (within : buflen ≤ buf.length) (room : 5 ≤ buf.length) (rest : Bytes) {trp : MQTTTransport}
    (fresh : trp.state = 0) (calls : Nat) :
    ∃ rc s', mqttPacketRead avail' buflen ⟨buf, trp, p.header :: p.ds ++ p.body ++ rest, calls⟩ =
        .ok (rc, s') ∧
      (∀ n, ∃ rc' s'', pollUntil (mqttPacketReadnb avail buflen) n
          ⟨buf, trp, p.header :: p.ds ++ p.body ++ rest, calls⟩ = .ok (rc', s'') ∧
        (rc' = 0 ∨ rc' = rc ∧ s''.buf = s'.buf ∧ s''.input = s'.input)) ∧
      ∃ n s'', pollUntil (mqttPacketReadnb avail buflen) n
          ⟨buf, trp, p.header :: p.ds ++ p.body ++ rest, calls⟩ = .ok (rc, s'') ∧ rc ≠ 0 ∧
        s''.buf = s'.buf ∧ s''.input = s'.input := by
  have polls := p.readnb_polls rest none_failed within room
  have start : p.Partway buflen buf rest ⟨buf, trp, p.header :: p.ds ++ p.body ++ rest, calls⟩ :=
    .header (by omega) (by omega)
  obtain ⟨rc, s', run, read⟩ := p.mqttPacketRead_eq generous within room rest trp calls
  refine ⟨rc, s', run, fun n => ?_, ?_⟩
  · obtain ⟨rc', s'', ran, ⟨again, -⟩ | ⟨-, read'⟩⟩ := pollUntil_rule polls n start
    · exact ⟨rc', s'', ran, .inl again⟩
    · exact ⟨rc', s'', ran, .inr (read'.unique read)⟩
  · obtain ⟨n, rc', s'', ran, done, read'⟩ := pollUntil_done fair polls start
    obtain ⟨same, buf_same, input_same⟩ := read'.unique read
    subst same
    exact ⟨n, s'', ran, done, buf_same, input_same⟩

/-- A publish packet, a byte at a time with a wait before each. -/
theorem readnb_agrees_bytewise :
    ∃ rc s', mqttPacketRead (fun _ => 100) 8
        ⟨List.replicate 8 0, ⟨0, 0, 0, 0⟩, [0x30, 3, 0, 1, 0x61, 0xC0], 0⟩ = .ok (rc, s') ∧
      (∀ n, ∃ rc' s'', pollUntil (mqttPacketReadnb (fun k => (k % 2 : Nat)) 8) n
          ⟨List.replicate 8 0, ⟨0, 0, 0, 0⟩, [0x30, 3, 0, 1, 0x61, 0xC0], 0⟩ = .ok (rc', s'') ∧
        (rc' = 0 ∨ rc' = rc ∧ s''.buf = s'.buf ∧ s''.input = s'.input)) ∧
      ∃ n s'', pollUntil (mqttPacketReadnb (fun k => (k % 2 : Nat)) 8) n
          ⟨List.replicate 8 0, ⟨0, 0, 0, 0⟩, [0x30, 3, 0, 1, 0x61, 0xC0], 0⟩ = .ok (rc, s'') ∧
        rc ≠ 0 ∧ s''.buf = s'.buf ∧ s''.input = s'.input :=
  readnb_agrees ⟨0x30, [3], [0, 1, 0x61], .last (by decide), by decide, by decide, by decide⟩
    (fun k => Int.natCast_nonneg _)
    (fun k => ⟨2 * k + 1, by omega, by
      have : (2 * k + 1) % 2 = 1 := by omega
      rw [this]
      decide⟩)
    (fun _ => by decide) (by decide) (by decide) [0xC0] rfl 0

end AcnSdk.Mqtt.Packets
