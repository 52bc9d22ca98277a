/-
The callback that a message goes to, as `delivery.c` looks for it and `cycle_publish` calls it.

* `cyclePublish_to` — the three steps of a message go to one callback.
* `selectsExactly_iff` — when it is the one whose topic is the topic of the message.
-/

import AcnSdk.Lib.CString
import AcnSdk.Lib.FirstMatch
import AcnSdk.Lib.Within
import AcnSdk.Mqtt.Bounds

namespace AcnSdk.Mqtt.Client

open AcnSdk.Lib Prog

variable {τ β γ : Type} {env : Env} {w : World τ}

/-! ### Looking for a topic -/

section

variable {m : Type → Type} {rs : List (Registered m)} {name : Bytes}

/-- The topic of a callback as the C string that `P_VALUE` gives. -/
def Registered.text (r : Registered m) : Bytes := cstr r.topic

/-- `linked_list_find_node` with `deliveryeq`, for a topic in the read buffer. -/
def selected (rs : List (Registered m)) (name : Bytes) : Option (Registered m) :=
  rs.find? fun r => deliveryeq r.topic name

theorem cstr_take (s : Bytes) (n : Nat) : cstr (s.take n) = (cstr s).take n :=
  List.take_takeWhile.symm

theorem deliveryeq_iff (topic name : Bytes) :
    deliveryeq topic name = true ↔ (cstr topic).take name.length = cstr name := by
  rw [deliveryeq, cstr_take, beq_iff_eq]

/-- Only the length of the name is compared. -/
theorem deliveryeq_plain (topic : Bytes) (plain : 0 ∉ name) :
    deliveryeq topic name = true ↔ name <+: cstr topic := by
  rw [deliveryeq_iff, cstr_eq_self plain, List.prefix_iff_eq_take, eq_comm]

/-- Only what is in front of the terminator is compared. -/
theorem deliveryeq_terminated (topic : Bytes) (terminated : 0 ∈ name) :
    deliveryeq topic name = true ↔ cstr topic = cstr name := by
  have shorter : (cstr name).length < name.length := by
    refine Nat.lt_of_le_of_ne (List.takeWhile_sublist _).length_le fun same => ?_
    have whole := (List.takeWhile_sublist _).eq_of_length same
    exact not_mem_cstr name (by rw [cstr, whole]; exact terminated)
  rw [deliveryeq_iff]
  constructor
  · intro front
    have length := congrArg List.length front
    rw [List.length_take] at length
    rwa [List.take_of_length_le (by omega)] at front
  · intro same
    rw [same, List.take_of_length_le (Nat.le_of_lt shorter)]

/-- A callback is selected exactly if it has the name as its topic. -/
def SelectsExactly (rs : List (Registered m)) (name : Bytes) : Prop :=
  ∀ r ∈ rs, selected rs name = some r ↔ r.text = name

/-- A topic that continues the name comes after the name itself, and what is in front of a
terminator in the name is not a topic. -/
structure Unambiguous (rs : List (Registered m)) (name : Bytes) : Prop where
  continued : ∀ before r after, rs = before ++ r :: after → name <+: r.text → r.text ≠ name →
    ∃ r' ∈ before, r'.text = name
  terminated : 0 ∈ name → ∀ r ∈ rs, r.text ≠ cstr name

theorem selectsExactly_iff (distinct : (rs.map Registered.text).Nodup) (name : Bytes) :
    SelectsExactly rs name ↔ Unambiguous rs name := by
  have covers : ∀ r : Registered m, r.text = name → deliveryeq r.topic name = true := by
    rintro r rfl
    exact (deliveryeq_plain r.topic (not_mem_cstr _)).mpr List.prefix_rfl
  have only_plain : 0 ∈ name → ∀ r : Registered m, r.text ≠ name := by
    rintro terminated r rfl
    exact not_mem_cstr _ terminated
  refine (find?_exact_iff distinct covers).trans ⟨fun after => ?_, fun unambiguous => ?_⟩
  · constructor
    · intro before r rest split continues
      have plain : 0 ∉ name := fun mem => not_mem_cstr _ (continues.subset mem)
      exact after before r rest split ((deliveryeq_plain r.topic plain).mpr continues)
    · intro terminated r mem same
      obtain ⟨before, rest, split⟩ := List.append_of_mem mem
      obtain ⟨r', -, name_eq⟩ := after before r rest split
        ((deliveryeq_terminated r.topic terminated).mpr same) (only_plain terminated r)
      exact only_plain terminated r' name_eq
  · intro before r rest split passes other
    by_cases terminated : 0 ∈ name
    · have mem : r ∈ rs := by
        rw [split]
        exact List.mem_append_right before List.mem_cons_self
      exact absurd ((deliveryeq_terminated r.topic terminated).mp passes)
        (unambiguous.terminated terminated r mem)
    · exact unambiguous.continued before r rest split
        ((deliveryeq_plain r.topic terminated).mp passes) other

/-- `arrow_mqtt_client_delivery_message_reg`, which compares whole topics. -/
def reg (rs : List (Registered m)) (dc : Registered m) : List (Registered m) :=
  match rs.find? fun r => strcmp r.text dc.text = 0 with
  | none => rs ++ [dc]
  | some _ => rs

/-- Registered topics are distinct. -/
theorem reg_distinct (distinct : (rs.map Registered.text).Nodup) (dc : Registered m) :
    ((reg rs dc).map Registered.text).Nodup := by
  rw [reg]
  split
  · next none =>
      rw [List.map_append, List.map_singleton]
      apply List.Nodup.append distinct (List.nodup_singleton _)
      intro name mem last
      obtain ⟨r, there, rfl⟩ := List.mem_map.mp mem
      have differs := List.find?_eq_none.mp none r there
      rw [decide_eq_true_eq, strcmp_eq_zero_iff] at differs
      exact differs (List.mem_singleton.mp last)
  · exact distinct

end

/-! ### One callback for the three steps -/

section

variable (cb : Option (DeliveryCallback (Prog τ)))

/-- `deliverPiece` to a callback that is known. -/
def deliverPieceTo (topicLen : Nat) (msgErr len : Int) : Prog (World τ) Unit :=
  if msgErr = 0 then do
    let w ← get
    let _ ← onApp (deliveryMessageProcess cb ((w.client.readbuf.drop topicLen).take len.toNat))
    return ()
  else return ()

/-- `payloadLoop` likewise. -/
def payloadLoopTo (env : Env) (topicLen restBuffer : Nat) (msgErr : Int) :
    Nat → Int → Int → Prog (World τ) (Option Int)
  | 0, _, _ => throw .endless
  | fuel + 1, totalLen, len =>
      if totalLen = 0 then return some len
      else do
        let len ← readInto env topicLen (if totalLen < restBuffer then totalLen else restBuffer)
        if len ≤ 0 then return none
        else do
          deliverPieceTo cb topicLen msgErr len
          payloadLoopTo env topicLen restBuffer msgErr fuel (totalLen - len) len

/-- `deliverDone` likewise. -/
def deliverDoneTo (msgErr : Int) : Prog (World τ) Unit :=
  if msgErr = 0 then do
    let _ ← onApp (deliveryMessageDone cb)
    return ()
  else return ()

/-- `publishBody` likewise. -/
def publishBodyTo (env : Env) (message : MQTTMessage) (topicLen restBuffer : Nat) (totalLen : Int) :
    Prog (World τ) Int := do
  modify fun w => { w with received := w.received ++ [(w.client.readbuf.take topicLen, message)] }
  let msgErr ← onApp (deliveryMessageInit cb totalLen)
  let read ← payloadLoopTo cb env topicLen restBuffer msgErr (totalLen.toNat + 1) totalLen 2
  match read with
  | none => return failure
  | some len => do
      deliverDoneTo cb msgErr
      sendAck env message len

end

/-- `cycle_publish` with one search for the callback, once the topic is read. -/
def cyclePublishTo (env : Env) (head : MQTTHeader) (remLen : Int) : Prog (World τ) Int := do
  let topic ← publishTopic env remLen
  match topic with
  | none => return failure
  | some (topicLen, totalLen, restBuffer) => do
      let w ← get
      let cb := (selected w.delivery (w.client.readbuf.take topicLen)).map (·.callback)
      let id ← publishId env head.qos totalLen
      match id with
      | none => return failure
      | some (id, totalLen) =>
          publishBodyTo cb env ⟨head.qos, head.retain, head.dup, id⟩ topicLen restBuffer totalLen

/-- The search for the topic finds what it found before. -/
def KeepsSelected (topicLen : Nat) (w w' : World τ) : Prop :=
  deliveryOf w' topicLen = deliveryOf w topicLen

instance (topicLen : Nat) : IsPreorder (World τ) (KeepsSelected topicLen) where
  refl := fun _ => rfl
  trans := fun _ _ _ one two => Eq.trans two one

theorem readInto_keepsSelected (topicLen : Nat) (n : Int) :
    Within (KeepsSelected topicLen) (readInto (τ := τ) env topicLen n) := by
  intro w b w' run
  by_cases fits : topicLen + n.toNat ≤ w.client.readbuf.length
  · rw [readInto_eq fits] at run
    cases run
    rw [KeepsSelected, deliveryOf, deliveryOf]
    dsimp only
    rw [take_store (Nat.le_of_add_right_le fits)]
    rfl
  · rw [readInto_overflow (Nat.not_le.mp fits)] at run
    cases run

theorem keepsSelected_framed (topicLen : Nat) : Framed (τ := τ) (KeepsSelected topicLen) := by
  intro w w' readbuf delivery
  rw [KeepsSelected, deliveryOf, deliveryOf, readbuf, delivery]

theorem payloadLoop_keepsSelected (topicLen restBuffer : Nat) (msgErr : Int) (fuel : Nat)
    (totalLen len : Int) : Within (KeepsSelected topicLen)
      (payloadLoop (τ := τ) env topicLen restBuffer msgErr fuel totalLen len) := by
  induction fuel generalizing totalLen len with
  | zero => exact .throw _
  | succ fuel ih =>
      rw [payloadLoop]
      exact .ite (fun _ => .pure _) fun _ => (readInto_keepsSelected _ _).bind fun _ =>
        .ite (fun _ => .pure _) fun _ =>
          (deliverPiece_within (keepsSelected_framed _) _ _ _).bind fun _ => ih _ _

section

variable {cb : Option (DeliveryCallback (Prog τ))} {topicLen : Nat}

theorem deliverPiece_to (here : deliveryOf w topicLen = cb) (msgErr len : Int) :
    deliverPiece topicLen msgErr len w = deliverPieceTo cb topicLen msgErr len w := by
  subst here
  rw [deliverPiece, deliverPieceTo]
  split
  · rw [bind_of_ok (get_apply w), bind_of_ok (findDelivery_eq topicLen w), bind_of_ok (get_apply w)]
  · rfl

theorem deliverDone_to (here : deliveryOf w topicLen = cb) (msgErr : Int) :
    deliverDone topicLen msgErr w = deliverDoneTo cb msgErr w := by
  subst here
  rw [deliverDone, deliverDoneTo]
  split
  · rw [bind_of_ok (findDelivery_eq topicLen w)]
  · rfl

theorem payloadLoop_to (here : deliveryOf w topicLen = cb) (restBuffer : Nat) (msgErr : Int)
    (fuel : Nat) (totalLen len : Int) :
    payloadLoop env topicLen restBuffer msgErr fuel totalLen len w =
      payloadLoopTo cb env topicLen restBuffer msgErr fuel totalLen len w := by
  induction fuel generalizing w totalLen len with
  | zero => rfl
  | succ fuel ih =>
      rw [payloadLoop, payloadLoopTo]
      split
      · rfl
      · refine bind_congr_of_ok rfl fun r w₁ read => ?_
        have here₁ := (readInto_keepsSelected _ _ _ _ _ read).trans here
        split
        · rfl
        · refine bind_congr_of_ok (deliverPiece_to here₁ msgErr r) fun _ w₂ deliver => ?_
          have kept := deliverPiece_within (keepsSelected_framed topicLen) _ _ _ _ _ _ deliver
          exact ih (kept.trans here₁) _ _

theorem publishBody_to (here : deliveryOf w topicLen = cb) (message : MQTTMessage)
    (restBuffer : Nat) (totalLen : Int) :
    publishBody env message topicLen restBuffer totalLen w =
      publishBodyTo cb env message topicLen restBuffer totalLen w := by
  rw [publishBody, publishBodyTo, bind_of_ok (modify_apply _ w), bind_of_ok (modify_apply _ w),
    bind_of_ok (findDelivery_eq topicLen _)]
  change (onApp (deliveryMessageInit (deliveryOf w topicLen) totalLen) >>= _) _ = _
  rw [here]
  refine bind_congr_of_ok rfl fun msgErr w₁ init => ?_
  have here₁ := (onApp_within (keepsSelected_framed topicLen) _ _ _ _ init).trans here
  refine bind_congr_of_ok (payloadLoop_to here₁ _ _ _ _ _) fun read w₂ loop => ?_
  have here₂ := (payloadLoop_keepsSelected _ _ _ _ _ _ _ _ _ loop).trans here₁
  cases read with
  | none => rfl
  | some len =>
      exact bind_congr_of_ok (deliverDone_to here₂ msgErr) fun _ _ _ => rfl

end

/-- The steps that start a message, pass on its pieces and end it go to one callback. -/
theorem cyclePublish_to (env : Env) (head : MQTTHeader) (remLen : Int) (w : World τ) :
    cyclePublish env head remLen w = cyclePublishTo env head remLen w := by
  rw [cyclePublish, cyclePublishTo]
  refine bind_congr_of_ok rfl fun topic w₁ _ => ?_
  cases topic with
  | none => rfl
  | some fields =>
      dsimp only
      rw [bind_of_ok (get_apply w₁)]
      refine bind_congr_of_ok rfl fun id w₂ read => ?_
      have here : deliveryOf w₂ fields.1 = deliveryOf w₁ fields.1 :=
        publishId_within (keepsSelected_framed _) _ _ _ _ _ read
      cases id with
      | none => rfl
      | some id => exact publishBody_to here _ _ _

/-! ### The topic of the message -/

/-- The topic as it comes from the stream: so many bytes as were announced. -/
def incomingTopic (env : Env) (w : World τ) : Bytes :=
  (w.read env 2).input.take (topicLength env w)

/-- The read buffer holds the topic, and the callbacks are the same. -/
theorem publishTopic_topic {remLen : Int} {fields : Nat × Int × Nat} {w' : World τ}
    (run : publishTopic env remLen w = .ok (some fields, w')) :
    w'.delivery = w.delivery ∧ w'.client.readbuf.take fields.1 = incomingTopic env w := by
  obtain ⟨room, read, length, rest⟩ := publishTopic_some run
  have size : (afterTopicLength env w).client.readbuf.length = w.client.readbuf.length :=
    length_store_readBytes (n := 2) room
  have fits : 0 + (topicLength env w : Int).toNat ≤
      (afterTopicLength env w).client.readbuf.length := by omega
  rw [readInto_eq fits] at read
  injection read with pair
  injection pair with result world
  subst world
  refine ⟨rfl, ?_⟩
  have bytes : readBytes env (afterTopicLength env w) (topicLength env w) =
      incomingTopic env w := congrArg (List.take · _) (readTakes_of_eq result)
  have same : readBytes env (afterTopicLength env w) (topicLength env w) =
      brought env (afterTopicLength env w) (topicLength env w) := by
    rw [readBytes, readTakes_of_eq result, brought, result]
  have whole : (readBytes env (afterTopicLength env w) (topicLength env w)).length =
      fields.1 := by
    rw [same, length_brought, result, length]
    rfl
  dsimp only
  rw [bytes] at whole ⊢
  rw [← whole, ← List.drop_zero (l := store _ _ _)]
  exact take_drop_store (Nat.zero_le _)

/-- All steps of a message go to one callback, and a callback is selected exactly if it has the
topic of the message. -/
structure DeliversExactly (env : Env) (head : MQTTHeader) (remLen : Int) (w : World τ) : Prop where
  one : cyclePublish env head remLen w = cyclePublishTo env head remLen w
  exact : ∀ fields w', publishTopic env remLen w = .ok (some fields, w') →
    ∀ r ∈ w'.delivery,
      selected w'.delivery (w'.client.readbuf.take fields.1) = some r ↔
        r.text = incomingTopic env w

/-- A message gets to its exact callback if and only if it has no topic that is read, or this is
not continued by a topic in front of it, or cut short at a terminator. -/
theorem cyclePublish_deliversExactly_iff (env : Env) (head : MQTTHeader) (remLen : Int)
    (w : World τ) (distinct : (w.delivery.map Registered.text).Nodup) :
    DeliversExactly env head remLen w ↔
      ((∃ fields w', publishTopic env remLen w = .ok (some fields, w')) →
        Unambiguous w.delivery (incomingTopic env w)) := by
  constructor
  · rintro delivers ⟨fields, w', run⟩
    obtain ⟨delivery, topic⟩ := publishTopic_topic run
    have exact := delivers.exact fields w' run
    rw [delivery, topic] at exact
    exact (selectsExactly_iff distinct _).mp exact
  · intro unambiguous
    constructor
    · exact cyclePublish_to env head remLen w
    · intro fields w' run
      obtain ⟨delivery, topic⟩ := publishTopic_topic run
      rw [delivery, topic]
      exact (selectsExactly_iff distinct _).mpr (unambiguous ⟨fields, w', run⟩)

/-- A callback that does nothing. -/
def idle (topic : Bytes) : Registered (Prog Unit) :=
  ⟨topic, fun _ => return 0, fun _ => return 0, return 0⟩

/-- A client that has registered these topics and hears a message with the topic `a`. -/
def subscribed (topics : List Bytes) : World Unit :=
  { hearing [0, 1, 0x61, 0x21] with delivery := topics.map idle }

theorem cyclePublish_deliversExactly_abc :
    DeliversExactly calm ⟨3, false, 0, false⟩ 4 (subscribed [[0x61], [0x61, 0x62]]) ↔
      ((∃ fields w', publishTopic calm 4 (subscribed [[0x61], [0x61, 0x62]]) =
          .ok (some fields, w')) →
        Unambiguous (subscribed [[0x61], [0x61, 0x62]]).delivery
          (incomingTopic calm (subscribed [[0x61], [0x61, 0x62]]))) :=
  cyclePublish_deliversExactly_iff calm _ 4 (subscribed [[0x61], [0x61, 0x62]]) (by decide +kernel)

/-- The callback for `ab` gets the message for `a`. -/
theorem not_deliversExactly_continued :
    ((subscribed [[0x61, 0x62]]).delivery.map Registered.text).Nodup ∧
      ¬ DeliversExactly calm ⟨3, false, 0, false⟩ 4 (subscribed [[0x61, 0x62]]) := by
  refine ⟨List.nodup_singleton _, fun delivers => ?_⟩
  have goes := delivers.exact _ _ rfl (idle [0x61, 0x62]) List.mem_cons_self
  have differ : (idle [0x61, 0x62]).text ≠ incomingTopic calm (subscribed [[0x61, 0x62]]) := by
    decide +kernel
  exact differ (goes.mp rfl)

end AcnSdk.Mqtt.Client
