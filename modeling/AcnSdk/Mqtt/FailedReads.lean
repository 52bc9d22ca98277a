/-
`cycle_r` on any well-formed packet, from a network whose reads bring all that they ask for or fail.

A read that fails loses what it has got by then. But the end of a packet is never lost: a call that
does not fail has taken the packet whole, and one that fails has not gone behind it.

* `cyclePublish_inside` — a message, whichever read fails.
* `cycleR_packet` — any packet whose fixed header is read.
-/

import AcnSdk.Mqtt.Frame
import AcnSdk.Mqtt.Sync

namespace AcnSdk.Mqtt.Client

open AcnSdk.Lib Prog

variable {τ : Type} {env : Env} {w w' : World τ}

/-- Every read brings all that it asks for, or fails. -/
def AllOrNothing (env : Env) : Prop := ∀ k, (∀ n, env.read k n = n) ∨ ∀ n, env.read k n ≤ 0

/-- The function of a packet takes it to its end, or fails and has not read beyond it. -/
def Inside (rest : Bytes) (rc : Int) (w' : World τ) : Prop :=
  rest <:+ w'.input ∧ (rc = success → w'.input = rest)

/-- A read of a part of `s` that fails takes nothing of what is behind `s`. -/
theorem read_failed {s rest : Bytes} {n : Nat} (fails : ∀ n, env.read w.reads n ≤ 0)
    (input : w.input = s ++ rest) (within : n ≤ s.length) :
    readResult env w n ≤ 0 ∧ rest <:+ (w.read env n).input := by
  constructor
  · rw [readResult, if_pos (fails n)]
    exact fails n
  · have le : readTakes env w n ≤ s.length := Nat.le_trans (readTakes_le env w n) within
    rw [World.read, input]
    exact ⟨s.drop (readTakes env w n), (List.drop_append_of_le_length le).symm⟩

section

variable (network : AllOrNothing env) {s rest : Bytes}

include network

theorem mqttread_inside {n : Nat} (input : w.input = s ++ rest) (within : n ≤ s.length)
    {r : Int × Bytes} (run : mqttread env n w = .ok (r, w')) :
    (r.1 = n ∧ w'.input = s.drop n ++ rest) ∨ (r.1 ≤ 0 ∧ rest <:+ w'.input) := by
  rcases network w.reads with exact | fails
  · have whole : w.input = s.take n ++ (s.drop n ++ rest) := by
      rw [input, ← List.append_assoc, List.take_append_drop]
    have read := mqttread_exact exact whole
    rw [List.length_take_of_le within, run] at read
    cases read
    exact .inl ⟨rfl, rfl⟩
  · cases run
    exact .inr (read_failed fails input within)

theorem readInto_inside {i n : Nat} (input : w.input = s ++ rest) (within : n ≤ s.length)
    {r : Int} (run : readInto env i n w = .ok (r, w')) :
    (r = n ∧ w'.input = s.drop n ++ rest) ∨ (r ≤ 0 ∧ rest <:+ w'.input) := by
  rw [readInto, bind_of_ok (get_apply w)] at run
  split_ifs at run with fits
  · rw [bind_apply] at run
    obtain ⟨⟨read, w₁⟩, ran, run⟩ := ok_of_bind run
    have outcome := mqttread_inside network input within ran
    cases run
    exact outcome
  · cases run

/-! ### Messages -/

/-- The payload is read to its end, or not beyond it. -/
theorem payloadLoop_inside {topicLen restBuffer fuel : Nat} {msgErr len : Int} {read : Option Int}
    (input : w.input = s ++ rest)
    (run : payloadLoop env topicLen restBuffer msgErr fuel s.length len w = .ok (read, w')) :
    rest <:+ w'.input ∧ (read ≠ none → w'.input = rest) := by
  induction fuel generalizing w s len with
  | zero => cases run
  | succ fuel ih =>
      rw [payloadLoop] at run
      by_cases all : s = []
      · subst all
        cases run
        exact ⟨⟨[], input.symm⟩, fun _ => input⟩
      · have pos : 0 < s.length := List.length_pos_iff.mpr all
        have chunk : (if (s.length : Int) < restBuffer then (s.length : Int) else restBuffer) =
            (min s.length restBuffer : Nat) := by
          split <;> omega
        rw [if_neg (by omega), chunk, bind_apply] at run
        obtain ⟨⟨r, w₁⟩, ran, run⟩ := ok_of_bind run
        dsimp only at run
        rcases readInto_inside network input (Nat.min_le_left _ _) ran with
          ⟨got, left⟩ | ⟨failed, left⟩
        · by_cases none : r ≤ 0
          · -- there is no room for a byte
            rw [if_pos none] at run
            cases run
            exact ⟨⟨_, left.symm⟩, fun some => absurd rfl some⟩
          · rw [if_neg none, bind_apply] at run
            obtain ⟨⟨_, w₂⟩, passed, run⟩ := ok_of_bind run
            have left₂ : w₂.input = s.drop (min s.length restBuffer) ++ rest :=
              (deliverPiece_nothingRead _ _ _ _ _ _ passed).trans left
            have length : (s.length : Int) - r = (s.drop (min s.length restBuffer)).length := by
              rw [List.length_drop]
              omega
            dsimp only at run
            rw [length] at run
            exact ih left₂ run
        · rw [if_pos failed] at run
          cases run
          exact ⟨left, fun some => absurd rfl some⟩

/-- The topic is read to its end, or not beyond the packet. -/
theorem publishTopic_inside {topic : Bytes} (some : 1 ≤ topic.length)
    (small : topic.length < 2 ^ 16) {remLen : Int}
    (input : w.input = writeInt topic.length ++ (topic ++ (s ++ rest)))
    {fields : Option (Nat × Int × Nat)} (run : publishTopic env remLen w = .ok (fields, w')) :
    rest <:+ w'.input ∧ ∀ f ∈ fields, f.2.1 = remLen - 2 - topic.length ∧ w'.input = s ++ rest := by
  have room : 0 + (2 : Int).toNat ≤ w.client.readbuf.length := by
    by_contra small
    rw [publishTopic, bind_apply, readInto_overflow (Nat.not_le.mp small)] at run
    cases run
  rcases network w.reads with exact | fails
  · rw [publishTopic_length remLen exact input room small] at run
    by_cases short : remLen - 2 ≤ topic.length
    · rw [if_pos short] at run
      cases run
      refine ⟨⟨topic ++ s, ?_⟩, fun f mem => absurd mem (Option.not_mem_none f)⟩
      rw [List.append_assoc]
      rfl
    · rw [if_neg short, bind_apply] at run
      obtain ⟨⟨len', w₁⟩, ran, run⟩ := ok_of_bind run
      dsimp only at run
      rcases readInto_inside network (rfl : _ = topic ++ (s ++ rest)) (Nat.le_refl _) ran with
        ⟨got, left⟩ | ⟨failed, left⟩
      · rw [List.drop_length, List.nil_append] at left
        rw [if_neg (not_not.mpr got)] at run
        split_ifs at run
        all_goals
          cases run
          refine ⟨⟨s, left.symm⟩, fun f mem => ?_⟩
          cases mem
        exact ⟨rfl, left⟩
      · rw [if_pos (by omega)] at run
        cases run
        exact ⟨(List.suffix_append _ _).trans left, fun f mem => absurd mem (Option.not_mem_none f)⟩
  · have read : readResult env w 2 ≤ 0 ∧ topic ++ (s ++ rest) <:+ (w.read env 2).input :=
      read_failed fails input (Nat.le_refl 2)
    rw [publishTopic, bind_of_ok (readInto_eq room), if_pos read.1] at run
    cases run
    have behind : rest <:+ topic ++ (s ++ rest) := ⟨topic ++ s, List.append_assoc _ _ _⟩
    exact ⟨behind.trans read.2, fun f mem => absurd mem (Option.not_mem_none f)⟩

theorem publishId_inside {message : MQTTMessage} {totalLen : Int}
    (input : w.input = Packet.idField message ++ (s ++ rest))
    {fields : Option (Nat × Int)} (run : publishId env message.qos totalLen w = .ok (fields, w')) :
    rest <:+ w'.input ∧ ∀ f ∈ fields,
      f.2 = totalLen - (if 0 < message.qos then 2 else 0) ∧ w'.input = s ++ rest := by
  rw [publishId] at run
  rw [Packet.idField] at input
  by_cases has : 0 < message.qos
  · rw [if_pos has, bind_apply] at run
    rw [if_pos has] at input ⊢
    obtain ⟨⟨⟨len, bytes⟩, w₁⟩, ran, run⟩ := ok_of_bind run
    dsimp only at run
    rcases mqttread_inside network (n := 2) input (Nat.le_refl 2) ran with
      ⟨got, left⟩ | ⟨failed, left⟩
    · have got : len = 2 := got
      have left : w₁.input = s ++ rest := left
      rw [if_neg (not_not.mpr got)] at run
      cases run
      refine ⟨⟨s, left.symm⟩, fun f mem => ?_⟩
      cases mem
      exact ⟨rfl, left⟩
    · dsimp only at failed
      rw [if_pos (by omega)] at run
      cases run
      exact ⟨(List.suffix_append _ _).trans left, fun f mem => absurd mem (Option.not_mem_none f)⟩
  · rw [if_neg has] at run input ⊢
    cases run
    refine ⟨⟨s, input.symm⟩, fun f mem => ?_⟩
    cases mem
    exact ⟨(Int.sub_zero _).symm, input⟩

theorem publishBody_inside {message : MQTTMessage} {topicLen restBuffer : Nat} {rc : Int}
    (input : w.input = s ++ rest)
    (run : publishBody env message topicLen restBuffer s.length w = .ok (rc, w')) :
    Inside rest rc w' := by
  rw [publishBody, bind_of_ok (modify_apply _ _), bind_of_ok (findDelivery_eq _ _),
    bind_apply] at run
  obtain ⟨⟨msgErr, w₁⟩, started, run⟩ := ok_of_bind run
  have left₁ : w₁.input = s ++ rest := (onApp_nothingRead _ _ _ _ started).trans input
  dsimp only at run
  rw [bind_apply] at run
  obtain ⟨⟨read, w₂⟩, loop, run⟩ := ok_of_bind run
  obtain ⟨inside, whole⟩ := payloadLoop_inside network left₁ loop
  cases read with
  | none =>
      cases run
      exact ⟨inside, fun same => absurd same (by decide)⟩
  | some len =>
      have ends : Within NothingRead (do
          deliverDone topicLen msgErr
          sendAck env message len : Prog (World τ) Int) :=
        (deliverDone_nothingRead _ _).bind fun _ => (sendAck_sends _ _).mono Sends.nothingRead
      have left : w'.input = rest := (ends _ _ _ run).trans (whole (Option.some_ne_none len))
      exact ⟨⟨[], left.symm⟩, fun _ => left⟩

/-- A message is read to its end, or the call fails and has not read beyond it. -/
theorem cyclePublish_inside {topic payload : Bytes} {message : MQTTMessage}
    (wf : (Packet.publish topic message payload).WellFormed)
    (input : w.input = (Packet.publish topic message payload).body ++ rest) {rc : Int}
    (run : cyclePublish env (Packet.publish topic message payload).head
      (Packet.publish topic message payload).body.length w = .ok (rc, w')) : Inside rest rc w' := by
  have total := Packet.length_publish_body topic message payload
  rw [Packet.publish_body] at input
  simp only [List.append_assoc] at input
  have failed : failure ≠ success := by decide
  rw [cyclePublish, bind_apply] at run
  obtain ⟨⟨fields, w₁⟩, gets, run⟩ := ok_of_bind run
  rw [← List.append_assoc (Packet.idField message)] at input
  obtain ⟨inside, topic_read⟩ :=
    publishTopic_inside network wf.shape.1 wf.shape.2.1 input gets
  cases fields with
  | none =>
      cases run
      exact ⟨inside, fun same => absurd same failed⟩
  | some fields =>
      obtain ⟨left_len, left⟩ := topic_read fields rfl
      rw [List.append_assoc] at left
      dsimp only at run
      rw [bind_apply] at run
      obtain ⟨⟨id, w₂⟩, gets', run⟩ := ok_of_bind run
      obtain ⟨inside', id_read⟩ := publishId_inside network left gets'
      cases id with
      | none =>
          cases run
          exact ⟨inside', fun same => absurd same failed⟩
      | some id =>
          obtain ⟨left_len', left'⟩ := id_read id rfl
          have payload_length : id.2 = (payload.length : Int) := by
            rw [left_len', left_len, total]
            split <;> omega
          dsimp only at run
          rw [payload_length] at run
          exact publishBody_inside network left' run

/-! ### Packets -/

theorem readBody_inside {body : Bytes} (some : body ≠ []) (input : w.input = body ++ rest)
    {len : Int}
    (run : readInto env 0 body.length w = .ok (len, w')) :
    (len = body.length ∧ w'.input = rest) ∨ (len ≤ 0 ∧ len ≠ body.length ∧ rest <:+ w'.input) := by
  have pos : 0 < body.length := List.length_pos_iff.mpr some
  rcases readInto_inside network input (Nat.le_refl _) run with ⟨got, left⟩ | ⟨failed, left⟩
  · rw [List.drop_length, List.nil_append] at left
    exact .inl ⟨got, left⟩
  · exact .inr ⟨failed, by omega, left⟩

theorem cycleConnack_inside {body : Bytes} (some : body ≠ []) (input : w.input = body ++ rest)
    {rc : Int} (run : cycleConnack env body.length w = .ok (rc, w')) : Inside rest rc w' := by
  rw [cycleConnack, bind_apply] at run
  obtain ⟨⟨len, w₁⟩, ran, run⟩ := ok_of_bind run
  dsimp only at run
  rcases readBody_inside network some input ran with ⟨got, left⟩ | ⟨-, other, left⟩
  · rw [if_neg (not_not.mpr got)] at run
    cases run
    exact ⟨⟨[], left.symm⟩, fun _ => left⟩
  · rw [if_pos other] at run
    cases run
    exact ⟨left, fun same => absurd same (by decide)⟩

theorem cycleSubscribe_inside {body : Bytes} (some : body ≠ []) (input : w.input = body ++ rest)
    {rc : Int} (run : cycleSubscribe env body.length w = .ok (rc, w')) : Inside rest rc w' := by
  have pos : 0 < body.length := List.length_pos_iff.mpr some
  rw [cycleSubscribe, bind_apply] at run
  obtain ⟨⟨len, w₁⟩, ran, run⟩ := ok_of_bind run
  dsimp only at run
  rcases readBody_inside network some input ran with ⟨got, left⟩ | ⟨failed, -, left⟩
  · rw [if_neg (by omega)] at run
    cases run
    exact ⟨⟨[], left.symm⟩, fun _ => left⟩
  · rw [if_pos failed] at run
    cases run
    exact ⟨left, fun same => absurd same (by decide)⟩

/-- A packet that the client has a function for is taken whole, or the call fails and has not read
beyond it. -/
theorem cycleBody_inside {p : Packet} (wf : p.WellFormed) (cycled : p.Cycled)
    (input : w.input = p.body ++ rest) {rc : Int}
    (run : cycleBody env p.head p.body.length w = .ok (rc, w')) :
    rest <:+ w'.input ∧ ((rc = p.type.code ∧ w'.input = rest) ∨ rc = failure) := by
  have function : ∃ cycle, cycleCollection (τ := τ) env p.head.type = some cycle ∧
      ∀ rc w₁, cycle p.head p.body.length w = .ok (rc, w₁) → Inside rest rc w₁ := by
    obtain ⟨flags, returnCode, rfl⟩ | ⟨topic, message, payload, rfl⟩ | ⟨id, codes, rfl⟩ :=
      wf.cycled_cases cycled
    · have some : (Packet.connack flags returnCode).body ≠ [] := List.cons_ne_nil _ _
      exact ⟨_, rfl, fun rc w₁ ran => cycleConnack_inside network some input ran⟩
    · exact ⟨_, rfl, fun rc w₁ ran => cyclePublish_inside network wf input ran⟩
    · have some : (Packet.suback id codes).body ≠ [] := List.cons_ne_nil _ _
      exact ⟨_, rfl, fun rc w₁ ran => cycleSubscribe_inside network some input ran⟩
  obtain ⟨cycle, found, inside⟩ := function
  rw [cycleBody, found] at run
  dsimp only at run
  rw [bind_apply] at run
  obtain ⟨⟨rc₁, w₁⟩, ran, run⟩ := ok_of_bind run
  obtain ⟨behind, whole⟩ := inside rc₁ w₁ ran
  have same : w'.input = w₁.input := cycleEnd_nothingRead _ _ _ _ _ run
  have settled := (cycleCollection_settles found p.head p.body.length).1 _ _ _ ran
  rw [same]
  refine ⟨behind, ?_⟩
  rw [cycleEnd, bind_apply] at run
  obtain ⟨⟨alive, w₂⟩, -, run⟩ := ok_of_bind run
  dsimp only at run
  split_ifs at run with dead done
  · cases run
    exact .inr rfl
  · cases run
    exact .inl ⟨by rw [Packet.head_type], whole done⟩
  · cases run
    exact .inr (settled.resolve_left done)

end

/-- If the first byte of the packet is read, then so are the others of its fixed header, and of its
body if the client has no function for the packet. -/
def ReadOn (env : Env) (p : Packet) (first : Nat) : Prop :=
  0 < env.read first 1 → Exact env first
    (first + (headerReads p + if p.Cycled then 0 else drainReads p.body.length))

/-- A packet that is only read. -/
theorem cycleR_drained {p : Packet} (wf : p.WellFormed) (short : p.body.length ≤ maxMsgLen)
    (not_cycled : ¬ p.Cycled) (readOn : ReadOn env p w.reads) (starts : 0 < env.read w.reads 1)
    {rest : Bytes} (input : w.input = p.bytes ++ rest) :
    cycleR env w = .ok ((p.type.code : Int),
      w.past (headerReads p + drainReads p.body.length) rest) := by
  have exact := readOn starts
  rw [if_neg not_cycled] at exact
  have later : Exact env (w.reads + headerReads p)
      (w.reads + headerReads p + drainReads p.body.length) :=
    fun k n first last => exact k n (by omega) (by omega)
  rw [cycleR_front wf (fun k n first last => exact k n first (by omega)) input,
    if_neg (Nat.not_lt.mpr short),
    cycleBody_drained (w := w.past (headerReads p) (p.body ++ rest)) not_cycled later rfl]
  simp only [World.past, Nat.add_assoc]

/-- A packet is taken whole, or the call fails: then it has read nothing, or it has not read beyond
the packet. -/
theorem cycleR_packet (network : AllOrNothing env) {p : Packet} (wf : p.WellFormed)
    (short : p.body.length ≤ maxMsgLen) (readOn : ReadOn env p w.reads) {rest : Bytes}
    (input : w.input = p.bytes ++ rest) {rc : Int} (run : cycleR env w = .ok (rc, w')) :
    (rc = p.type.code ∧ w'.input = rest) ∨
      (rc = failure ∧ (w'.input = w.input ∨ (p.Cycled ∧ rest <:+ w'.input))) := by
  by_cases starts : 0 < env.read w.reads 1
  · by_cases cycled : p.Cycled
    · have exact := readOn starts
      have front := cycleR_front wf (fun k n first last => exact k n first (by omega)) input
      rw [if_neg (Nat.not_lt.mpr short), run] at front
      obtain ⟨behind, whole | failed⟩ := cycleBody_inside network wf cycled rfl front.symm
      · exact .inl whole
      · exact .inr ⟨failed, .inr ⟨cycled, behind⟩⟩
    · rw [cycleR_drained wf short cycled readOn starts input] at run
      cases run
      exact .inl ⟨rfl, rfl⟩
  · have failed : readResult env w 1 ≤ 0 := by
      rw [readResult, if_pos (Int.not_lt.mp starts)]
      exact Int.not_lt.mp starts
    rw [cycleR, bind_of_ok (mqttread_eq 1)] at run
    dsimp only at run
    rw [if_pos (by omega)] at run
    cases run
    refine .inr ⟨rfl, .inl ?_⟩
    change w.input.drop (readTakes env w 1) = w.input
    rw [readTakes_one failed, List.drop_zero]

end AcnSdk.Mqtt.Client
