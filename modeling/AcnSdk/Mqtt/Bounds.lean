/-
The destinations of what `cycle_r` reads.

`cycleRChecked` is `cycle_r` with the room of every destination: it overflows if and only if a read
asks for more than there is room for. What else can overflow, a callback or sending, is told apart.

* `cycleRChecked_same` — otherwise it does what `cycle_r` does.
* `payloadLoop_inBounds` — the pieces of a payload fit behind the topic.
* `checked_inBounds_iff`, `inBoundsOrRejected_iff` — when all reads fit, and what does not is
  rejected.
-/

import AcnSdk.Lib.Avoids
import AcnSdk.Lib.Within
import AcnSdk.Mqtt.Header

namespace AcnSdk.Mqtt.Client

open AcnSdk.Lib Prog

variable {τ β γ : Type} {env : Env} {w : World τ}

/-! ### The room of each destination -/

/-- `mqttread` to a local array of `room` bytes. -/
def readLocal (env : Env) (room : Nat) (n : Int) : Prog (World τ) (Int × Bytes) :=
  if n ≤ room then mqttread env n else throw .overflow

/-- A part that does not read. Its overflow is not one of a read. -/
def apart (x : Prog (World τ) β) : Prog (World τ) β :=
  fun w => relabel .overflow .assertion (x w)

section

variable (env : Env)

def decodeLoopChecked : Nat → Int → Int → Int → Prog (World τ) (Int × Int)
  | 0, _, _, _ => throw .endless
  | fuel + 1, len, multiplier, value => do
      let (rc, s) ← readLocal env 1 1
      let i := (s.headD 0).toNat
      if rc ≠ 1 then return (len, value)
      else if 4 < len + 1 then return (len + 1, value)
      else if 128 ≤ i then
        decodeLoopChecked fuel (len + 1) (multiplier * 128) (value + (i % 128 : Nat) * multiplier)
      else return (len + 1, value + (i % 128 : Nat) * multiplier)

def publishIdChecked (qos : Nat) (totalLen : Int) : Prog (World τ) (Option (Nat × Int)) :=
  if 0 < qos then do
    let (len, s) ← readLocal env 2 2
    if len ≠ 2 then return none else return some (readInt s, totalLen - 2)
  else return some (0, totalLen)

def payloadLoopChecked (topicLen restBuffer : Nat) (msgErr : Int) :
    Nat → Int → Int → Prog (World τ) (Option Int)
  | 0, _, _ => throw .endless
  | fuel + 1, totalLen, len =>
      if totalLen = 0 then return some len
      else do
        let len ← readInto env topicLen (if totalLen < restBuffer then totalLen else restBuffer)
        if len ≤ 0 then return none
        else do
          apart (deliverPiece topicLen msgErr len)
          payloadLoopChecked topicLen restBuffer msgErr fuel (totalLen - len) len

def publishBodyChecked (message : MQTTMessage) (topicLen restBuffer : Nat) (totalLen : Int) :
    Prog (World τ) Int := do
  modify fun w => { w with received := w.received ++ [(w.client.readbuf.take topicLen, message)] }
  let cb ← findDelivery topicLen
  let msgErr ← apart (onApp (deliveryMessageInit cb totalLen))
  let read ← payloadLoopChecked env topicLen restBuffer msgErr (totalLen.toNat + 1) totalLen 2
  match read with
  | none => return failure
  | some len => do
      apart (deliverDone topicLen msgErr)
      apart (sendAck env message len)

def cyclePublishChecked (head : MQTTHeader) (remLen : Int) : Prog (World τ) Int := do
  let topic ← publishTopic env remLen
  match topic with
  | none => return failure
  | some (topicLen, totalLen, restBuffer) => do
      let id ← publishIdChecked env head.qos totalLen
      match id with
      | none => return failure
      | some (id, totalLen) =>
          publishBodyChecked env ⟨head.qos, head.retain, head.dup, id⟩ topicLen restBuffer totalLen

def drainLoopChecked : Nat → Int → Prog (World τ) Unit
  | 0, _ => throw .endless
  | fuel + 1, remLen =>
      if remLen = 0 then return ()
      else do
        let (r, _) ← readLocal env 4 (if remLen < 4 then remLen else 4)
        if 0 < r then drainLoopChecked fuel (remLen - r) else return ()

def cycleCollectionChecked (packType : Nat) : Option (MQTTHeader → Int → Prog (World τ) Int) :=
  if packType = MsgType.connack.code then some fun _ => cycleConnack env
  else if packType = MsgType.publish.code then some (cyclePublishChecked env)
  else if packType = MsgType.suback.code then some fun _ => cycleSubscribe env
  else none

def cycleBodyChecked (head : MQTTHeader) (remLen : Int) : Prog (World τ) Int :=
  match cycleCollectionChecked env head.type with
  | none => do
      drainLoopChecked env (remLen.toNat + 1) remLen
      return head.type
  | some cycle => do
      let rc ← cycle head remLen
      apart (cycleEnd env head.type rc)

def cycleRChecked : Prog (World τ) Int := do
  let (rc, s) ← readLocal env 4 1
  if rc ≠ 1 then return failure
  else do
    let head := MQTTHeader.ofByte (s.headD 0)
    if head.type < 1 ∨ 15 ≤ head.type then return failure
    else do
      let (len, remLen) ← decodeLoopChecked env 5 0 1 0
      if len ≤ 0 ∨ maxMsgLen < remLen then return rc
      else cycleBodyChecked env head remLen

end

/-! ### Local arrays -/

theorem readLocal_eq {room : Nat} {n : Int} (fits : n ≤ room) :
    readLocal (τ := τ) env room n = mqttread env n := if_pos fits

theorem decodeLoopChecked_eq (fuel : Nat) (len multiplier value : Int) :
    decodeLoopChecked (τ := τ) env fuel len multiplier value =
      decodeLoop env fuel len multiplier value := by
  induction fuel generalizing len multiplier value with
  | zero => rfl
  | succ fuel ih =>
      rw [decodeLoopChecked, decodeLoop, readLocal_eq (Int.le_refl 1)]
      simp only [ih]

theorem publishIdChecked_eq (qos : Nat) (totalLen : Int) :
    publishIdChecked (τ := τ) env qos totalLen = publishId env qos totalLen := by
  rw [publishIdChecked, publishId, readLocal_eq (Int.le_refl 2)]

theorem drainLoopChecked_eq (fuel : Nat) (remLen : Int) :
    drainLoopChecked (τ := τ) env fuel remLen = drainLoop env fuel remLen := by
  induction fuel generalizing remLen with
  | zero => rfl
  | succ fuel ih =>
      have fits : (if remLen < 4 then remLen else 4) ≤ ((4 : Nat) : Int) := by
        split <;> omega
      rw [drainLoopChecked, drainLoop, readLocal_eq fits]
      simp only [ih]

/-! ### The same run -/

/-- The programs do the same, apart from which faults are overflows. -/
def Same (x y : Prog (World τ) β) : Prop := ∀ w, apart x w = apart y w

namespace Same

variable {x y : Prog (World τ) β}

theorem refl (x : Prog (World τ) β) : Same x x := fun _ => rfl

theorem of_apart (x : Prog (World τ) β) : Same (apart x) x :=
  fun _ => relabel_relabel (by decide) _

theorem bind {f g : β → Prog (World τ) γ} (first : Same x y) (later : ∀ b, Same (f b) (g b)) :
    Same (x >>= f) (y >>= g) := by
  intro w
  have firsts := first w
  rw [apart, apart] at firsts
  rw [apart, apart, bind_apply, bind_apply, relabel_bind, relabel_bind, firsts]
  congr 1
  funext r
  exact later r.1 r.2

theorem ite {p : Prop} [Decidable p] {x' y' : Prog (World τ) β} (yes : Same x y)
    (no : Same x' y') : Same (if p then x else x') (if p then y else y') := by
  split
  · exact yes
  · exact no

end Same

theorem payloadLoopChecked_same (topicLen restBuffer : Nat) (msgErr : Int) (fuel : Nat)
    (totalLen len : Int) :
    Same (payloadLoopChecked (τ := τ) env topicLen restBuffer msgErr fuel totalLen len)
      (payloadLoop env topicLen restBuffer msgErr fuel totalLen len) := by
  induction fuel generalizing totalLen len with
  | zero => exact .refl _
  | succ fuel ih =>
      rw [payloadLoopChecked, payloadLoop]
      refine .ite (.refl _) (.bind (.refl _) fun _ => .ite (.refl _) ?_)
      exact .bind (.of_apart _) fun _ => ih _ _

theorem publishBodyChecked_same (message : MQTTMessage) (topicLen restBuffer : Nat)
    (totalLen : Int) :
    Same (publishBodyChecked (τ := τ) env message topicLen restBuffer totalLen)
      (publishBody env message topicLen restBuffer totalLen) := by
  refine .bind (.refl _) fun _ => .bind (.refl _) fun _ => .bind (.of_apart _) fun _ => ?_
  refine .bind (payloadLoopChecked_same _ _ _ _ _ _) fun read => ?_
  cases read with
  | none => exact .refl _
  | some len => exact .bind (.of_apart _) fun _ => .of_apart _

theorem cyclePublishChecked_same (head : MQTTHeader) (remLen : Int) :
    Same (cyclePublishChecked (τ := τ) env head remLen) (cyclePublish env head remLen) := by
  refine .bind (.refl _) fun topic => ?_
  cases topic with
  | none => exact .refl _
  | some fields =>
      dsimp only
      rw [publishIdChecked_eq]
      refine .bind (.refl _) fun id => ?_
      cases id with
      | none => exact .refl _
      | some id => exact publishBodyChecked_same _ _ _ _

theorem cycleBodyChecked_same (head : MQTTHeader) (remLen : Int) :
    Same (cycleBodyChecked (τ := τ) env head remLen) (cycleBody env head remLen) := by
  rw [cycleBodyChecked, cycleBody, cycleCollectionChecked, cycleCollection]
  split_ifs with connack publish suback
  · exact .bind (.refl _) fun _ => .of_apart _
  · exact .bind (cyclePublishChecked_same _ _) fun _ => .of_apart _
  · exact .bind (.refl _) fun _ => .of_apart _
  · dsimp only
    rw [drainLoopChecked_eq]
    exact .refl _

/-- With the room of its destinations, `cycle_r` does what it does without. -/
theorem cycleRChecked_same (env : Env) : Same (cycleRChecked (τ := τ) env) (cycleR env) := by
  rw [cycleRChecked, cycleR, readLocal_eq (by decide)]
  refine .bind (.refl _) fun x => .ite (.refl _) (.ite (.refl _) ?_)
  rw [decodeLoopChecked_eq]
  exact .bind (.refl _) fun y => .ite (.refl _) (cycleBodyChecked_same _ _)

/-! ### The room stays -/

/-- The read buffer is as long as before. -/
def KeepsRoom (w w' : World τ) : Prop := w'.client.readbuf.length = w.client.readbuf.length

instance : IsPreorder (World τ) KeepsRoom where
  refl := fun _ => rfl
  trans := fun _ _ _ one two => two.trans one

theorem apart_ok {x : Prog (World τ) β} {r : β × World τ} (run : apart x w = .ok r) :
    x w = .ok r := by
  rw [apart] at run
  cases ran : x w with
  | error e =>
      rw [ran] at run
      cases run
  | ok r' =>
      rw [ran] at run
      exact run

section

variable {R : World τ → World τ → Prop} [IsPreorder (World τ) R]

/-- `R` looks at the read buffer and the callbacks only. -/
def Framed (R : World τ → World τ → Prop) : Prop :=
  ∀ w w' : World τ, w'.client.readbuf = w.client.readbuf → w'.delivery = w.delivery → R w w'

variable (frame : Framed R)

include frame

omit [IsPreorder (World τ) R] in
theorem onApp_within (x : Prog τ β) : Within R (onApp x) := by
  intro w b w' run
  obtain ⟨r, -, run⟩ := ok_of_bind run
  cases run
  exact frame _ _ rfl rfl

theorem deliverPiece_within (topicLen : Nat) (msgErr len : Int) :
    Within R (deliverPiece (τ := τ) topicLen msgErr len) :=
  .ite (fun _ => Within.get.bind fun _ => (Within.get.bind fun _ => .pure _).bind fun _ =>
    (onApp_within frame _).bind fun _ => .pure _) fun _ => .pure _

theorem publishId_within (qos : Nat) (totalLen : Int) :
    Within R (publishId (τ := τ) env qos totalLen) := by
  have read : Within R (mqttread (τ := τ) env 2) := by
    intro w b w' run
    rw [mqttread_eq] at run
    cases run
    exact frame _ _ rfl rfl
  exact .ite (fun _ => read.bind fun _ => .ite (fun _ => .pure _) fun _ => .pure _)
    fun _ => .pure _

end

theorem keepsRoom_framed : Framed (τ := τ) KeepsRoom := fun _ _ readbuf _ =>
  congrArg List.length readbuf

/-! ### Reads that fit -/

/-- No read of `x` asks for more than there is room for. -/
abbrev InBounds (x : Prog (World τ) β) (w : World τ) : Prop := Avoids .overflow (x w)

theorem inBounds_apart (x : Prog (World τ) β) (w : World τ) : InBounds (apart x) w :=
  avoids_relabel (by decide) _

theorem inBounds_bind (x : Prog (World τ) β) (f : β → Prog (World τ) γ) (w : World τ) :
    InBounds (x >>= f) w ↔ InBounds x w ∧ ∀ b w', x w = .ok (b, w') → InBounds (f b) w' := by
  rw [InBounds, bind_apply, avoids_bind]
  constructor
  · rintro ⟨first, later⟩
    exact ⟨first, fun b w' run => later (b, w') run⟩
  · rintro ⟨first, later⟩
    exact ⟨first, fun r run => later r.1 r.2 run⟩

theorem readInto_inBounds {i : Nat} {n : Int} :
    InBounds (readInto env i n) w ↔ i + n.toNat ≤ w.client.readbuf.length := by
  constructor
  · intro avoids
    by_contra large
    exact avoids (readInto_overflow (Nat.not_le.mp large))
  · intro fits
    rw [InBounds, readInto_eq fits]
    exact avoids_ok _ _

/-- The pieces of a payload fit behind the topic, whatever is left of the message. -/
theorem payloadLoop_inBounds {topicLen restBuffer : Nat} (msgErr : Int) (fuel : Nat)
    (totalLen len : Int) (room : topicLen + restBuffer ≤ w.client.readbuf.length) :
    InBounds (payloadLoopChecked env topicLen restBuffer msgErr fuel totalLen len) w := by
  induction fuel generalizing w totalLen len with
  | zero =>
      intro fault
      cases fault
  | succ fuel ih =>
      rw [payloadLoopChecked]
      by_cases whole : totalLen = 0
      · rw [if_pos whole]
        exact avoids_ok _ _
      · have fits : topicLen + (if totalLen < restBuffer then totalLen else restBuffer).toNat ≤
            w.client.readbuf.length := by
          split <;> omega
        rw [if_neg whole, InBounds]
        generalize (if totalLen < restBuffer then totalLen else restBuffer) = n at fits ⊢
        rw [bind_of_ok (readInto_eq fits)]
        split
        · exact avoids_ok _ _
        · rw [← InBounds, inBounds_bind]
          refine ⟨inBounds_apart _ _, fun _ w' run => ih _ _ ?_⟩
          rw [deliverPiece_within keepsRoom_framed _ _ _ _ _ _ (apart_ok run)]
          dsimp only
          rw [length_store_readBytes fits]
          exact room

theorem publishBody_inBounds (message : MQTTMessage) {topicLen restBuffer : Nat} (totalLen : Int)
    (room : topicLen + restBuffer ≤ w.client.readbuf.length) :
    InBounds (publishBodyChecked env message topicLen restBuffer totalLen) w := by
  rw [publishBodyChecked, InBounds, bind_of_ok (modify_apply _ _),
    bind_of_ok (findDelivery_eq topicLen _), ← InBounds, inBounds_bind]
  refine ⟨inBounds_apart _ _, fun msgErr w₁ init => ?_⟩
  have keeps := onApp_within keepsRoom_framed _ _ _ _ (apart_ok init)
  rw [inBounds_bind]
  refine ⟨payloadLoop_inBounds _ _ _ _ (room.trans (Nat.le_of_eq keeps.symm)), fun read w₂ _ => ?_⟩
  cases read with
  | none => exact avoids_ok _ _
  | some len =>
      dsimp only
      rw [inBounds_bind]
      exact ⟨inBounds_apart _ _, fun _ _ _ => inBounds_apart _ _⟩

/-! ### The topic of a message -/

/-- What reading the length of the topic comes to. -/
def topicRead (env : Env) (w : World τ) : Int := readResult env w 2

/-- The length of the topic, from the read buffer after that read. -/
def topicLength (env : Env) (w : World τ) : Nat :=
  readInt (store w.client.readbuf 0 (readBytes env w 2))

/-- The world after it. -/
def afterTopicLength (env : Env) (w : World τ) : World τ :=
  { w.read env 2 with client.readbuf := store w.client.readbuf 0 (readBytes env w 2) }

/-- The topic of a message fits, unless reading fails or it is as long as the message. -/
def TopicFits (env : Env) (remLen : Int) (w : World τ) : Prop :=
  0 < topicRead env w → topicLength env w < remLen - topicRead env w →
    topicLength env w ≤ w.client.readbuf.length

theorem publishTopic_failed (remLen : Int) (room : 2 ≤ w.client.readbuf.length)
    (failed : topicRead env w ≤ 0 ∨ remLen - topicRead env w ≤ topicLength env w) :
    ∃ w', publishTopic env remLen w = .ok (none, w') := by
  rw [publishTopic, bind_of_ok (readInto_eq (i := 0) (n := 2) room)]
  by_cases fails : readResult env w 2 ≤ 0
  · rw [if_pos fails]
    exact ⟨_, rfl⟩
  · rw [if_neg fails, bind_of_ok (get_apply _)]
    exact ⟨_, congrFun (if_pos (failed.resolve_left fails)) _⟩

/-- The topic is read after its length. -/
theorem publishTopic_read {remLen : Int} (room : 2 ≤ w.client.readbuf.length)
    (read : ¬ topicRead env w ≤ 0) (short : ¬ remLen - topicRead env w ≤ topicLength env w) :
    publishTopic env remLen w = (do
      let len' ← readInto env 0 (topicLength env w)
      if len' ≠ topicLength env w then return none
      else if w.client.readbuf.length ≤ topicLength env w then return none
      else return some (topicLength env w, remLen - topicRead env w - topicLength env w,
        w.client.readbuf.length - topicLength env w) : Prog (World τ) _)
      (afterTopicLength env w) := by
  have length : (store w.client.readbuf 0 (readBytes env w 2)).length =
      w.client.readbuf.length := length_store_readBytes (n := 2) room
  rw [publishTopic, bind_of_ok (readInto_eq (i := 0) (n := 2) room)]
  rw [if_neg (show ¬ readResult env w 2 ≤ 0 from read), bind_of_ok (get_apply _)]
  refine (congrFun (if_neg short) _).trans ?_
  dsimp only
  rw [length]
  rfl

/-- The reads of the topic fit, and then there is room for what follows it. -/
theorem publishTopic_inBounds (remLen : Int) (w : World τ) :
    InBounds (publishTopic env remLen) w ↔
      2 ≤ w.client.readbuf.length ∧ TopicFits env remLen w := by
  by_cases room : 2 ≤ w.client.readbuf.length
  · rw [and_iff_right room]
    by_cases failed : topicRead env w ≤ 0 ∨ remLen - topicRead env w ≤ topicLength env w
    · obtain ⟨w', run⟩ := publishTopic_failed remLen room failed
      rw [InBounds, run]
      refine iff_of_true (avoids_ok _ _) fun read long => ?_
      omega
    · have read : ¬ topicRead env w ≤ 0 := fun fails => failed (.inl fails)
      have long : ¬ remLen - topicRead env w ≤ topicLength env w := fun fails => failed (.inr fails)
      have length : (store w.client.readbuf 0 (readBytes env w 2)).length =
          w.client.readbuf.length := length_store_readBytes (n := 2) room
      rw [InBounds, publishTopic_read room read long, ← InBounds, inBounds_bind, readInto_inBounds,
        Nat.zero_add, Int.toNat_natCast, afterTopicLength, length]
      constructor
      · rintro ⟨fits, -⟩ _ _
        exact fits
      · intro fits
        refine ⟨fits (Int.not_le.mp read) (Int.not_le.mp long), fun b w' _ => ?_⟩
        split
        · exact avoids_ok _ _
        · split <;> exact avoids_ok _ _
  · refine iff_of_false ?_ fun both => room both.1
    rw [publishTopic, inBounds_bind, readInto_inBounds]
    exact fun both => room both.1

theorem readInto_keepsRoom (i : Nat) (n : Int) : Within KeepsRoom (readInto (τ := τ) env i n) := by
  intro w b w' run
  by_cases fits : i + n.toNat ≤ w.client.readbuf.length
  · rw [readInto_eq fits] at run
    cases run
    exact length_store_readBytes fits
  · rw [readInto_overflow (Nat.not_le.mp fits)] at run
    cases run

/-- What was read when there is a topic. -/
theorem publishTopic_some {remLen : Int} {fields : Nat × Int × Nat} {w' : World τ}
    (run : publishTopic env remLen w = .ok (some fields, w')) :
    2 ≤ w.client.readbuf.length ∧
      readInto env 0 (topicLength env w) (afterTopicLength env w) =
        .ok ((topicLength env w : Int), w') ∧
      fields.1 = topicLength env w ∧ fields.1 + fields.2.2 = w.client.readbuf.length := by
  have room : 2 ≤ w.client.readbuf.length := by
    by_contra small
    rw [publishTopic, bind_apply, readInto_overflow (Nat.not_le.mp small)] at run
    cases run
  refine ⟨room, ?_⟩
  by_cases failed : topicRead env w ≤ 0 ∨ remLen - topicRead env w ≤ topicLength env w
  · obtain ⟨w₁, fails⟩ := publishTopic_failed remLen room failed
    rw [fails] at run
    cases run
  · rw [not_or] at failed
    rw [publishTopic_read room failed.1 failed.2] at run
    obtain ⟨len', w₂, reads, run⟩ := run_of_bind run
    split at run
    · cases run
    · next whole =>
        split at run
        · cases run
        · next less =>
            rw [Decidable.not_not.mp whole] at reads
            cases run
            refine ⟨reads, rfl, ?_⟩
            dsimp only
            omega

/-- Behind the topic there is what is left of the read buffer. -/
theorem publishTopic_rest {remLen : Int} {fields : Nat × Int × Nat} {w' : World τ}
    (run : publishTopic env remLen w = .ok (some fields, w')) :
    fields.1 + fields.2.2 ≤ w'.client.readbuf.length := by
  obtain ⟨room, read, -, rest⟩ := publishTopic_some run
  have keeps := readInto_keepsRoom _ _ _ _ _ read
  have length : (afterTopicLength env w).client.readbuf.length = w.client.readbuf.length :=
    length_store_readBytes (n := 2) room
  rw [rest, keeps, length]

/-! ### Packets that fit -/

theorem cyclePublish_inBounds (head : MQTTHeader) (remLen : Int) (w : World τ) :
    InBounds (cyclePublishChecked env head remLen) w ↔
      2 ≤ w.client.readbuf.length ∧ TopicFits env remLen w := by
  rw [cyclePublishChecked, inBounds_bind, publishTopic_inBounds]
  refine and_iff_left fun topic w₁ run => ?_
  cases topic with
  | none => exact avoids_ok _ _
  | some fields =>
      have room := publishTopic_rest run
      dsimp only
      rw [publishIdChecked_eq, inBounds_bind]
      constructor
      · rw [publishId]
        split
        · rw [InBounds, bind_of_ok (mqttread_eq 2)]
          dsimp only
          split <;> exact avoids_ok _ _
        · exact avoids_ok _ _
      · intro id w₂ read
        cases id with
        | none => exact avoids_ok _ _
        | some id =>
            apply publishBody_inBounds
            rw [publishId_within keepsRoom_framed _ _ _ _ _ read]
            exact room

/-- There is room for the packet that is announced: all of it, or the topic of a message. -/
def PacketFits (env : Env) (type : Nat) (remLen : Int) (w : World τ) : Prop :=
  if type = MsgType.publish.code then 2 ≤ w.client.readbuf.length ∧ TopicFits env remLen w
  else if type = MsgType.connack.code ∨ type = MsgType.suback.code then
    remLen ≤ w.client.readbuf.length
  else True

theorem drainLoop_inBounds (fuel : Nat) (remLen : Int) (w : World τ) :
    InBounds (drainLoop env fuel remLen) w := by
  induction fuel generalizing w remLen with
  | zero =>
      intro fault
      cases fault
  | succ fuel ih =>
      rw [drainLoop]
      split
      · exact avoids_ok _ _
      · generalize (if remLen < 4 then remLen else 4) = n
        rw [InBounds, bind_of_ok (mqttread_eq n)]
        dsimp only
        split
        · exact ih _ _
        · exact avoids_ok _ _

theorem cycleBody_inBounds (head : MQTTHeader) (remLen : Nat) (w : World τ) :
    InBounds (cycleBodyChecked env head remLen) w ↔ PacketFits env head.type remLen w := by
  have whole {f : Int → Prog (World τ) Int} (ends : ∀ rc w, InBounds (f rc) w) :
      InBounds (readInto env 0 remLen >>= f) w ↔ (remLen : Int) ≤ w.client.readbuf.length := by
    rw [inBounds_bind, readInto_inBounds, Nat.zero_add, Int.toNat_natCast, Nat.cast_le]
    exact and_iff_left fun rc w' _ => ends rc w'
  rw [cycleBodyChecked, cycleCollectionChecked, PacketFits]
  by_cases connack : head.type = MsgType.connack.code
  · have not_publish : ¬ head.type = MsgType.publish.code := by
      rw [connack]
      decide
    rw [if_pos connack, if_neg not_publish, if_pos (.inl connack)]
    dsimp only
    rw [inBounds_bind, cycleConnack, whole fun rc w => by split <;> exact avoids_ok _ _]
    exact and_iff_left fun _ _ _ => inBounds_apart _ _
  · rw [if_neg connack]
    by_cases publish : head.type = MsgType.publish.code
    · rw [if_pos publish, if_pos publish]
      dsimp only
      rw [inBounds_bind, cyclePublish_inBounds]
      exact and_iff_left fun _ _ _ => inBounds_apart _ _
    · rw [if_neg publish, if_neg publish]
      by_cases suback : head.type = MsgType.suback.code
      · rw [if_pos suback, if_pos (.inr suback)]
        dsimp only
        rw [inBounds_bind, cycleSubscribe, whole fun rc w => by split <;> exact avoids_ok _ _]
        exact and_iff_left fun _ _ _ => inBounds_apart _ _
      · rw [if_neg suback, if_neg (not_or.mpr ⟨connack, suback⟩)]
        dsimp only
        rw [drainLoopChecked_eq, inBounds_bind]
        exact iff_of_true ⟨drainLoop_inBounds _ _ _, fun _ _ _ => avoids_ok _ _⟩ trivial

/-! ### Rejecting what does not fit -/

/-- The declared lengths of the packet are larger than the client has room for. -/
def TooLarge (env : Env) (w : World τ) : Prop :=
  TypeRead env w ∧ lengthRead env w ≠ [] ∧
    (maxMsgLen < declared env w ∨
      ((firstByte env w).type = MsgType.publish.code ∧ (w.client.readbuf.length < 2 ∨
        (0 < topicRead env (afterHeader env w) ∧
          w.client.readbuf.length < topicLength env (afterHeader env w)))) ∨
      (((firstByte env w).type = MsgType.connack.code ∨
        (firstByte env w).type = MsgType.suback.code) ∧
        w.client.readbuf.length < declared env w))

/-- `cycle_r` fails, whatever `keepalive` comes to. -/
def Rejects (env : Env) (w : World τ) : Prop :=
  ∃ w', cycleR env w = (keepalive env >>= fun _ => return failure) w'

/-- All that is read fits, and a packet that does not fit is rejected. -/
structure InBoundsOrRejected (env : Env) (w : World τ) : Prop where
  inBounds : InBounds (cycleRChecked env) w
  rejects : TooLarge env w → Rejects env w

/-- A packet is announced that the client allows, and that there is room for. -/
def AnnouncedFits (env : Env) (w : World τ) : Prop :=
  TypeRead env w → lengthRead env w ≠ [] → declared env w ≤ maxMsgLen ∧
    PacketFits env (firstByte env w).type (declared env w) (afterHeader env w)

theorem cycleRChecked_eq (env : Env) (w : World τ) :
    cycleRChecked env w = (cycleHeader env >>= fun header => match header with
      | .exit rc => return rc
      | .dispatch head remLen => cycleBodyChecked env head remLen) w := by
  rw [bind_apply, cycleRChecked, cycleHeader, readLocal_eq (by decide),
    bind_of_ok (mqttread_eq 1), bind_of_ok (mqttread_eq 1), decodeLoopChecked_eq]
  dsimp only
  split
  · rfl
  · split
    · rfl
    · rw [bind_of_ok (decodePacket_eq env _)]
      refine (bind_of_ok (decodePacket_eq env _)).trans ?_
      dsimp only
      split <;> rfl

theorem afterLength_client (n : Nat) (w : World τ) : (afterLength env n w).client = w.client := by
  induction n generalizing w with
  | zero => rfl
  | succ n ih =>
      rw [afterLength]
      split
      · rfl
      · split
        · exact ih _
        · rfl

theorem afterHeader_client (env : Env) (w : World τ) : (afterHeader env w).client = w.client :=
  afterLength_client 5 _

theorem cycleEnd_failure (type : Nat) (w : World τ) :
    cycleEnd env type failure w = (keepalive env >>= fun _ => return failure) w := by
  rw [cycleEnd]
  refine congrFun (congrArg (keepalive env >>= ·) (funext fun alive => ?_)) w
  split
  · rfl
  · exact if_neg (by decide)

theorem cyclePublish_failed (head : MQTTHeader) (remLen : Int)
    (room : 2 ≤ w.client.readbuf.length)
    (failed : topicRead env w ≤ 0 ∨ remLen - topicRead env w ≤ topicLength env w) :
    ∃ w', cyclePublish env head remLen w = .ok (failure, w') := by
  obtain ⟨w', run⟩ := publishTopic_failed remLen room failed
  refine ⟨w', ?_⟩
  rw [cyclePublish, bind_of_ok run]
  rfl

/-- What is announced fits, but is too large: this is a message that is shorter than its topic. -/
theorem rejects_of_fits (there : TypeRead env w) (some : lengthRead env w ≠ [])
    (small : declared env w ≤ maxMsgLen)
    (fits : PacketFits env (firstByte env w).type (declared env w) (afterHeader env w))
    (large : TooLarge env w) : Rejects env w := by
  have room : (afterHeader env w).client.readbuf.length = w.client.readbuf.length := by
    rw [afterHeader_client]
  have acts : ¬ (lengthRead env w = [] ∨ maxMsgLen < declared env w) := by
    rintro (none | above)
    · exact some none
    · exact Nat.not_lt.mpr small above
  obtain ⟨-, -, above | ⟨publish, topic⟩ | ⟨whole, above⟩⟩ := large
  · exact absurd above (Nat.not_lt.mpr small)
  · rw [PacketFits, if_pos publish] at fits
    obtain ⟨two, topicFits⟩ := fits
    rw [TopicFits, room] at topicFits
    obtain ⟨read, above⟩ := topic.resolve_left (by omega)
    have short : declared env w - topicRead env (afterHeader env w) ≤
        topicLength env (afterHeader env w) := by
      by_contra long
      exact Nat.not_le.mpr above (topicFits read (Int.not_le.mp long))
    obtain ⟨w', run⟩ := cyclePublish_failed (firstByte env w) (declared env w) two (.inr short)
    refine ⟨w', ?_⟩
    have cycle : cycleCollection (τ := τ) env (firstByte env w).type =
        .some (cyclePublish env) := by
      rw [cycleCollection, publish]
      rfl
    rw [cycleR_eq, bind_of_ok (cycleHeader_type there), if_neg acts, actOn, cycleBody, cycle]
    dsimp only
    rw [bind_of_ok run, cycleEnd_failure]
  · have not_publish : ¬ (firstByte env w).type = MsgType.publish.code := by
      rcases whole with type | type
      all_goals
        rw [type]
        decide
    rw [PacketFits, if_neg not_publish, if_pos whole, room] at fits
    omega

theorem checked_inBounds_iff (env : Env) (w : World τ) :
    InBounds (cycleRChecked env) w ↔
      (TypeRead env w → lengthRead env w ≠ [] → declared env w ≤ maxMsgLen →
        PacketFits env (firstByte env w).type (declared env w) (afterHeader env w)) := by
  rw [InBounds, cycleRChecked_eq]
  by_cases there : TypeRead env w
  · rw [bind_of_ok (cycleHeader_type there)]
    by_cases ends : lengthRead env w = [] ∨ maxMsgLen < declared env w
    · rw [if_pos ends]
      refine iff_of_true (avoids_ok _ _) fun _ some small => ?_
      exact absurd small (Nat.not_le.mpr (ends.resolve_left some))
    · rw [if_neg ends]
      rw [not_or] at ends
      refine (cycleBody_inBounds _ _ _).trans ⟨fun fits _ _ _ => fits, fun all => ?_⟩
      exact all there ends.1 (Nat.not_lt.mp ends.2)
  · rw [bind_of_ok (cycleHeader_noType there)]
    exact iff_of_true (avoids_ok _ _) fun type => absurd type there

theorem not_rejects_of_above (there : TypeRead env w) (above : maxMsgLen < declared env w) :
    ¬ Rejects env w := by
  rintro ⟨w', run⟩
  rw [cycleR_eq, bind_of_ok (cycleHeader_type there), if_pos (.inr above)] at run
  obtain ⟨alive, w'', -, fails⟩ := run_of_bind run.symm
  cases fails

theorem inBoundsOrRejected_iff (env : Env) (w : World τ) :
    InBoundsOrRejected env w ↔ AnnouncedFits env w := by
  constructor
  · rintro ⟨inBounds, rejects⟩ there some
    have small : declared env w ≤ maxMsgLen := by
      by_contra above
      have above := Nat.not_le.mp above
      exact not_rejects_of_above there above (rejects ⟨there, some, .inl above⟩)
    exact ⟨small, (checked_inBounds_iff env w).mp inBounds there some small⟩
  · intro announced
    constructor
    · exact (checked_inBounds_iff env w).mpr fun there some _ => (announced there some).2
    · intro large
      obtain ⟨small, fits⟩ := announced large.1 large.2.1
      exact rejects_of_fits large.1 large.2.1 small fits large

/-- The room of the destinations does not change what `cycle_r` does. All reads fit, and a packet
that does not is rejected, if and only if the announced packet is one that the client allows and
has room for. -/
theorem cycleR_bounds_iff (env : Env) (w : World τ) :
    apart (cycleRChecked env) w = apart (cycleR env) w ∧
      (InBoundsOrRejected env w ↔ AnnouncedFits env w) := by
  constructor
  · exact cycleRChecked_same env w
  · exact inBoundsOrRejected_iff env w

/-- The read buffer has eight bytes, and a `CONNACK` announces nine. -/
theorem not_inBoundsOrRejected_connack :
    ¬ InBoundsOrRejected calm (hearing [0x20, 9, 0, 0, 0, 0, 0, 0, 0, 0, 0]) := by
  intro fits
  have announced := (inBoundsOrRejected_iff _ _).mp fits (by decide +kernel) (by decide +kernel)
  have whole : ¬ (9 : Int) ≤ 8 := by decide
  exact whole announced.2

end AcnSdk.Mqtt.Client
