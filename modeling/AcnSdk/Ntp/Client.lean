/-
Setting the clock from a time server, `src/ntp/client.c`.

The answer of the server names the second in which the request was sent, by the clock of the
device, and those in which the server received it and answered it. The offset of the clock is half
the sum of two differences. Each difference is taken in 32 bits without a sign and is widened
afterwards, so one that is negative counts for 2 ^ 32 more.

* `ntpOffset_eq` — the offset that is computed, and the one that is meant.
* `ntpSetTime_offset_iff` — when the clock is set to now plus that one.
* `ntpSetTime_seconds_iff` — the same for seconds as integers, in any era.
-/

import Mathlib.Data.Int.Basic
import Mathlib.Tactic.Ring

namespace AcnSdk.Ntp

/-! ### The packet -/

/-- The order of the bytes of a word in memory. -/
inductive ByteOrder where
  | little | big
deriving DecidableEq, Repr

/-- `htonl`, and `ntohl`, which does the same. -/
def ByteOrder.htonl (order : ByteOrder) (x : BitVec 32) : BitVec 32 :=
  match order with
  | .little => x.extractLsb' 0 8 ++ x.extractLsb' 8 8 ++ x.extractLsb' 16 8 ++ x.extractLsb' 24 8
  | .big => x

/-- `struct NTPPacket`. -/
structure NTPPacket where
  mode : BitVec 3
  vn : BitVec 3
  li : BitVec 2
  stratum : BitVec 8
  poll : BitVec 8
  precision : BitVec 8
  rootDelay : BitVec 32
  rootDispersion : BitVec 32
  refId : BitVec 32
  refTmS : BitVec 32
  refTmF : BitVec 32
  origTmS : BitVec 32
  origTmF : BitVec 32
  rxTmS : BitVec 32
  rxTmF : BitVec 32
  txTmS : BitVec 32
  txTmF : BitVec 32
deriving DecidableEq, Repr

/-- `sizeof(struct NTPPacket)`. -/
def packetSize : Int := 48

/-- `NTP_TIMESTAMP_DELTA`: the seconds from 1900 to 1970. -/
def ntpTimestampDelta : BitVec 32 := 2208988800

/-- A time as the seconds since 1900, in 32 bits. -/
def ntpSeconds (time : BitVec 64) : BitVec 32 := ntpTimestampDelta + time.setWidth 32

/-- The request that is sent. -/
def ntpRequest (order : ByteOrder) (time : BitVec 64) : NTPPacket where
  li := 0
  vn := 4
  mode := 3
  stratum := 0
  poll := 0
  precision := 0
  rootDelay := 0
  rootDispersion := 0
  refId := 0
  refTmS := 0
  refTmF := 0
  origTmS := 0
  origTmF := 0
  rxTmS := 0
  rxTmF := 0
  txTmS := order.htonl (ntpSeconds time)
  txTmF := 0

/-- The answer in the byte order of the machine. -/
def NTPPacket.ntoh (order : ByteOrder) (pkt : NTPPacket) : NTPPacket :=
  { pkt with
    refTmS := order.htonl pkt.refTmS
    refTmF := order.htonl pkt.refTmF
    origTmS := order.htonl pkt.origTmS
    origTmF := order.htonl pkt.origTmF
    rxTmS := order.htonl pkt.rxTmS
    rxTmF := order.htonl pkt.rxTmF
    txTmS := order.htonl pkt.txTmS
    txTmF := order.htonl pkt.txTmF }

/-! ### The exchange -/

/-- `enum NTPResult`. -/
inductive NTPResult where
  | ok | dns | prtcl | timeout | conn
deriving DecidableEq, Repr

/-- The number of a result. -/
def NTPResult.toInt : NTPResult → Int
  | ok => 0
  | dns => 1
  | prtcl => 2
  | timeout => 3
  | conn => 4

/-- What the calls of the network return, and `time` when the request is built, when the answer is
there and when the clock is set. -/
structure Exchange where
  socket : Int
  server : Bool
  sendto : Int
  recvfrom : Int
  answer : NTPPacket
  sending : BitVec 64
  received : BitVec 64
  now : BitVec 64
  stime : BitVec 64 → Int

/-- What is returned, what was sent and what the clock was set to. -/
structure Outcome where
  result : Int
  request : Option NTPPacket
  time : Option (BitVec 64)
deriving DecidableEq, Repr

/-- The offset of the clock. -/
def ntpOffset (pkt : NTPPacket) (destTmS : BitVec 32) : BitVec 64 :=
  ((pkt.rxTmS - pkt.origTmS).setWidth 64 + (pkt.txTmS - destTmS).setWidth 64).sshiftRight 1

/-- `ntp_set_time` from the answer on. -/
def ntpAnswered (order : ByteOrder) (env : Exchange) (request : NTPPacket) : Outcome :=
  if env.recvfrom < 0 then ⟨NTPResult.conn.toInt, some request, none⟩
  else if env.recvfrom < packetSize then ⟨NTPResult.prtcl.toInt, some request, none⟩
  else if env.answer.stratum = 0 then ⟨NTPResult.prtcl.toInt, some request, none⟩
  else
    let offset := ntpOffset (env.answer.ntoh order) (ntpSeconds env.received)
    let stimeValue := offset + env.now
    ⟨(if env.stime stimeValue < 0 then NTPResult.prtcl else .ok).toInt, some request,
      some stimeValue⟩

/-- `ntp_set_time`. -/
def ntpSetTime (order : ByteOrder) (env : Exchange) : Outcome :=
  if env.socket < 0 then ⟨-1, none, none⟩
  else if env.server = false then ⟨NTPResult.dns.toInt, none, none⟩
  else
    let request := ntpRequest order env.sending
    if env.sendto < 0 then ⟨NTPResult.conn.toInt, some request, none⟩
    else ntpAnswered order env request

/-- The answer is accepted. -/
structure Exchange.Answered (env : Exchange) : Prop where
  socket : 0 ≤ env.socket
  server : env.server = true
  sendto : 0 ≤ env.sendto
  recvfrom : packetSize ≤ env.recvfrom
  stratum : env.answer.stratum ≠ 0

/-! ### The offset -/

/-- The offset that is meant: half the sum of the differences with their signs. -/
def clockOffset (orig rx tx dest : BitVec 32) : Int := ((rx - orig).toInt + (tx - dest).toInt) / 2

/-- How many of two differences are negative. -/
def negatives (a b : BitVec 32) : Int :=
  (if a.toInt < 0 then 1 else 0) + (if b.toInt < 0 then 1 else 0)

theorem negatives_eq_zero_iff {a b : BitVec 32} :
    negatives a b = 0 ↔ 0 ≤ a.toInt ∧ 0 ≤ b.toInt := by
  rw [negatives]
  split_ifs <;> omega

theorem toNat_eq_signed (a : BitVec 32) :
    (a.toNat : Int) = a.toInt + 2 ^ 32 * if a.toInt < 0 then 1 else 0 := by
  have value := BitVec.toInt_eq_toNat_cond a
  split_ifs at value ⊢ <;> omega

/-- Half the sum of the widened differences. The sum has room in 64 bits. -/
theorem toInt_halfSum (a b : BitVec 32) :
    ((a.setWidth 64 + b.setWidth 64).sshiftRight 1).toInt =
      (a.toInt + b.toInt) / 2 + 2 ^ 31 * negatives a b := by
  have a_lt := a.isLt
  have b_lt := b.isLt
  have a_eq := toNat_eq_signed a
  have b_eq := toNat_eq_signed b
  have sum : (a.setWidth 64 + b.setWidth 64).toNat = a.toNat + b.toNat := by
    rw [BitVec.toNat_add, BitVec.toNat_setWidth, BitVec.toNat_setWidth]
    omega
  have widened : (a.setWidth 64 + b.setWidth 64).toInt = a.toNat + b.toNat := by
    rw [BitVec.toInt_eq_toNat_of_lt (by omega), sum]
    rfl
  rw [BitVec.toInt_sshiftRight, Int.shiftRight_eq_div_pow, widened, a_eq, b_eq, negatives]
  omega

/-- Each negative difference makes the offset too large by 2 ^ 31. -/
theorem ntpOffset_eq (pkt : NTPPacket) (dest : BitVec 32) :
    (ntpOffset pkt dest).toInt = clockOffset pkt.origTmS pkt.rxTmS pkt.txTmS dest +
      2 ^ 31 * negatives (pkt.rxTmS - pkt.origTmS) (pkt.txTmS - dest) :=
  toInt_halfSum _ _

/-- The offset that is meant needs no more than 32 bits. -/
theorem clockOffset_bounds (orig rx tx dest : BitVec 32) :
    -2 ^ 31 ≤ clockOffset orig rx tx dest ∧ clockOffset orig rx tx dest < 2 ^ 31 := by
  have first := BitVec.toInt_lt (x := rx - orig)
  have first' := BitVec.le_toInt (rx - orig)
  have second := BitVec.toInt_lt (x := tx - dest)
  have second' := BitVec.le_toInt (tx - dest)
  rw [clockOffset]
  omega

/-- It is computed exactly if neither difference is negative. -/
theorem ntpOffset_iff (pkt : NTPPacket) (dest : BitVec 32) :
    ntpOffset pkt dest = BitVec.ofInt 64 (clockOffset pkt.origTmS pkt.rxTmS pkt.txTmS dest) ↔
      0 ≤ (pkt.rxTmS - pkt.origTmS).toInt ∧ 0 ≤ (pkt.txTmS - dest).toInt := by
  obtain ⟨ge, lt⟩ := clockOffset_bounds pkt.origTmS pkt.rxTmS pkt.txTmS dest
  have meant := BitVec.toInt_ofInt_eq_self (w := 64) (by decide)
    (n := clockOffset pkt.origTmS pkt.rxTmS pkt.txTmS dest) (by omega) (by omega)
  rw [← negatives_eq_zero_iff, ← BitVec.toInt_inj, ntpOffset_eq, meant]
  omega

/-- The signed difference of two words is that of the seconds they stand for, also where one of
these lies in the next era of 32 bits. -/
theorem toInt_sub_ofInt {s t : Int} (ge : -2 ^ 31 ≤ s - t) (lt : s - t < 2 ^ 31) :
    (BitVec.ofInt 32 s - BitVec.ofInt 32 t).toInt = s - t := by
  have words : BitVec.ofInt 32 s - BitVec.ofInt 32 t = BitVec.ofInt 32 (s - t) := by
    apply BitVec.eq_of_toInt_eq
    simp
  rw [words, BitVec.toInt_ofInt_eq_self (by decide) (by omega) (by omega)]

/-! ### Setting the clock -/

/-- The offset that an answer means. -/
def Exchange.offset (env : Exchange) (order : ByteOrder) : Int :=
  clockOffset (order.htonl env.answer.origTmS) (order.htonl env.answer.rxTmS)
    (order.htonl env.answer.txTmS) (ntpSeconds env.received)

theorem ntpSetTime_time {env : Exchange} (order : ByteOrder) (answered : env.Answered) :
    (ntpSetTime order env).time =
      some (ntpOffset (env.answer.ntoh order) (ntpSeconds env.received) + env.now) := by
  rw [ntpSetTime, if_neg (Int.not_lt.mpr answered.socket), if_neg (by simp [answered.server])]
  dsimp only
  rw [if_neg (Int.not_lt.mpr answered.sendto), ntpAnswered,
    if_neg (Int.not_lt.mpr (Int.le_trans (by decide) answered.recvfrom)),
    if_neg (Int.not_lt.mpr answered.recvfrom), if_neg answered.stratum]

/-- The clock is set to an accepted answer only. -/
theorem answered_of_time {env : Exchange} {order : ByteOrder} {time : BitVec 64}
    (set : (ntpSetTime order env).time = some time) : env.Answered := by
  unfold ntpSetTime ntpAnswered at set
  dsimp only at set
  split_ifs at set with socket server sendto recvfrom size stratum
  all_goals exact ⟨Int.not_lt.mp socket, by simpa using server, Int.not_lt.mp sendto,
    Int.not_lt.mp size, stratum⟩

/-- The clock is set to now plus some offset exactly if that is the one that is computed. -/
theorem ntpSetTime_time_iff {env : Exchange} (order : ByteOrder) (answered : env.Answered)
    (offset : BitVec 64) : (ntpSetTime order env).time = some (env.now + offset) ↔
      ntpOffset (env.answer.ntoh order) (ntpSeconds env.received) = offset := by
  rw [ntpSetTime_time order answered, Option.some.injEq, BitVec.add_comm env.now,
    BitVec.add_left_inj]

/-- An accepted answer sets the clock to now plus its offset exactly if neither difference is
negative. -/
theorem ntpSetTime_offset_iff {env : Exchange} (order : ByteOrder) (answered : env.Answered) :
    (ntpSetTime order env).time = some (env.now + BitVec.ofInt 64 (env.offset order)) ↔
      0 ≤ (order.htonl env.answer.rxTmS - order.htonl env.answer.origTmS).toInt ∧
        0 ≤ (order.htonl env.answer.txTmS - ntpSeconds env.received).toInt :=
  (ntpSetTime_time_iff order answered _).trans (ntpOffset_iff _ _)

/-- The exchange of a device whose clock differs from the one of the server by `ahead` seconds. -/
def exchangeAhead (ahead : BitVec 64) : Exchange where
  socket := 3
  server := true
  sendto := packetSize
  recvfrom := packetSize
  answer := { ntpRequest .big 0 with
    stratum := 1
    origTmS := ntpSeconds (1500000000 + ahead)
    rxTmS := ntpSeconds 1500000000
    txTmS := ntpSeconds 1500000000 }
  sending := 1500000000 + ahead
  received := 1500000000 + ahead
  now := 1500000000 + ahead
  stime _ := 0

theorem exchangeAhead_answered (ahead : BitVec 64) : (exchangeAhead ahead).Answered where
  socket := Int.natCast_nonneg 3
  server := rfl
  sendto := Int.natCast_nonneg 48
  recvfrom := Int.le_refl packetSize
  stratum := (by decide : (1 : BitVec 8) ≠ 0)

/-- A clock that is ten seconds slow is set right. -/
theorem ntpSetTime_offset_slow :
    (ntpSetTime .big (exchangeAhead (-10))).time = some 1500000000 := by
  have slow := (ntpSetTime_offset_iff .big (exchangeAhead_answered (-10))).mpr
    ⟨by decide, by decide⟩
  have offset : (exchangeAhead (-10)).offset .big = 10 := by decide
  rw [slow, offset]
  decide

/-- A clock that is ten seconds fast is not. -/
theorem not_ntpSetTime_offset_fast : (exchangeAhead 10).offset .big = -10 ∧
    (ntpSetTime .big (exchangeAhead 10)).time ≠
      some ((exchangeAhead 10).now + BitVec.ofInt 64 ((exchangeAhead 10).offset .big)) := by
  decide

/-! ### Seconds as integers -/

/-- The words of an answer name the seconds of four events: the request leaves, it is received, it
is answered, and the answer is there. -/
structure Exchange.Names (env : Exchange) (order : ByteOrder) (orig rx tx dest : Int) : Prop where
  orig : order.htonl env.answer.origTmS = BitVec.ofInt 32 orig
  rx : order.htonl env.answer.rxTmS = BitVec.ofInt 32 rx
  tx : order.htonl env.answer.txTmS = BitVec.ofInt 32 tx
  dest : ntpSeconds env.received = BitVec.ofInt 32 dest

/-- Where the clocks differ by less than 2 ^ 31 seconds, the clock is set right exactly if the
server is ahead at both times. -/
theorem ntpSetTime_seconds_iff {env : Exchange} {order : ByteOrder} {orig rx tx dest : Int}
    (answered : env.Answered) (names : env.Names order orig rx tx dest)
    (out_ge : -2 ^ 31 ≤ rx - orig) (out_lt : rx - orig < 2 ^ 31)
    (back_ge : -2 ^ 31 ≤ tx - dest) (back_lt : tx - dest < 2 ^ 31) :
    (ntpSetTime order env).time =
        some (env.now + BitVec.ofInt 64 ((rx - orig + (tx - dest)) / 2)) ↔
      orig ≤ rx ∧ dest ≤ tx := by
  have out : (order.htonl env.answer.rxTmS - order.htonl env.answer.origTmS).toInt = rx - orig := by
    rw [names.rx, names.orig, toInt_sub_ofInt out_ge out_lt]
  have back : (order.htonl env.answer.txTmS - ntpSeconds env.received).toInt = tx - dest := by
    rw [names.tx, names.dest, toInt_sub_ofInt back_ge back_lt]
  have exact_iff := ntpOffset_iff (env.answer.ntoh order) (ntpSeconds env.received)
  simp only [NTPPacket.ntoh, clockOffset, out, back, Int.sub_nonneg] at exact_iff
  exact (ntpSetTime_time_iff order answered _).trans exact_iff

end AcnSdk.Ntp
