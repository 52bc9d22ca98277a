/-
Messages of QoS 2 that are sent again.

* `call_completes` — a call that finds a message runs its callback to completion, if the callback
  accepts it.
* `completed_accepted` — a message is completed once for each transmission that is accepted.
-/

import AcnSdk.Mqtt.Handshake

namespace AcnSdk.Mqtt.Client

open AcnSdk.Lib Prog

variable {τ : Type} {env : Env}

/-! ### Counting -/

/-- A callback that counts how often it was run to completion. -/
def counted (cb : DeliveryCallback (Prog τ)) : DeliveryCallback (Prog (τ × Nat)) where
  init n := fun s => (cb.init n s.1).bind fun x => .ok (x.1, (x.2, s.2))
  process p := fun s => (cb.process p s.1).bind fun x => .ok (x.1, (x.2, s.2))
  done := fun s => (cb.done s.1).bind fun x => .ok (x.1, (x.2, s.2 + 1))

/-- A registered callback that counts. -/
def Registered.counted (r : Registered (Prog τ)) : Registered (Prog (τ × Nat)) :=
  ⟨r.topic, Client.counted r.callback⟩

theorem registered_counted (ds : List (Registered (Prog τ))) (topic : Bytes) :
    registered (ds.map Registered.counted) topic = (registered ds topic).map counted := by
  rw [registered, registered, List.find?_map, Option.map_map, Option.map_map]
  rfl

/-- The count stays. -/
def Uncounted (s s' : τ × Nat) : Prop := s'.2 = s.2

instance : IsPreorder (τ × Nat) Uncounted where
  refl := fun _ => rfl
  trans := fun _ _ _ one two => Eq.trans two one

theorem bind_uncounted {x : τ → Except Fault (Int × τ)} :
    Within Uncounted fun s : τ × Nat => (x s.1).bind fun r => .ok (r.1, (r.2, s.2)) := by
  intro s b s' run
  dsimp only at run
  obtain ⟨r, ran, run⟩ := ok_of_bind run
  cases run
  rfl

section

variable (callback : Option (DeliveryCallback (Prog τ)))

theorem deliveryMessageProcess_uncounted (p : Bytes) :
    Within Uncounted (deliveryMessageProcess (callback.map counted) p) := by
  cases callback with
  | none => exact .pure _
  | some cb => exact bind_uncounted

theorem cyclePublishLoop_uncounted (restBuffer : Nat) (msgErr : Int) (reads : List Bytes)
    (totalLen : Nat) (results : List Int) :
    Within Uncounted
      (cyclePublishLoop (callback.map counted) restBuffer msgErr reads totalLen results) := by
  induction reads generalizing totalLen results with
  | nil => cases totalLen <;> exact .pure _
  | cons read reads ih =>
      cases totalLen with
      | zero => exact .pure _
      | succ totalLen =>
          refine .ite (fun _ => .pure _) fun _ => .ite (fun _ => ?_) fun _ =>
            (Within.pure _).bind fun _ => ih _ _
          exact ((deliveryMessageProcess_uncounted callback _).map _).bind fun _ => ih _ _

/-- The callback of the topic accepts a message of this length. -/
def Accepts (callback : Option (DeliveryCallback (Prog τ))) (payloadlen : Nat) (app : τ) : Prop :=
  ∃ app', deliveryMessageInit callback payloadlen app = .ok (0, app')

variable {callback}

theorem deliveryMessageInit_counted {n : Int} {s s' : τ × Nat} {msgErr : Int}
    (run : deliveryMessageInit (callback.map counted) n s = .ok (msgErr, s')) :
    deliveryMessageInit callback n s.1 = .ok (msgErr, s'.1) ∧ s'.2 = s.2 := by
  cases callback with
  | none =>
      cases run
      exact ⟨rfl, rfl⟩
  | some cb =>
      change (cb.init n s.1).bind _ = _ at run
      change cb.init n s.1 = _ ∧ _
      obtain ⟨r, ran, run⟩ := ok_of_bind run
      cases run
      exact ⟨ran, rfl⟩

/-- The end of an accepted message is counted. -/
theorem deliveryMessageDone_counted {cb : DeliveryCallback (Prog τ)} {s s' : τ × Nat} {rc : Int}
    (run : deliveryMessageDone (some (counted cb)) s = .ok (rc, s')) : s'.2 = s.2 + 1 := by
  change (cb.done s.1).bind _ = _ at run
  obtain ⟨r, ran, run⟩ := ok_of_bind run
  cases run
  rfl

/-- A message that is read whole is completed once if it is accepted, and else not at all. -/
theorem cyclePublish_counted (quiet : ∀ cb ∈ callback.map counted, Quiet cb) {restBuffer : Nat}
    {reads : List Bytes} {totalLen : Nat} (whole : readWhole restBuffer reads totalLen = true)
    {s s' : τ × Nat} {d : Delivery}
    (run : Mqtt.cyclePublish (callback.map counted) restBuffer reads totalLen s = .ok (d, s')) :
    (Accepts callback totalLen s.1 ∧ s'.2 = s.2 + 1) ∨
      (¬ Accepts callback totalLen s.1 ∧ s'.2 = s.2) := by
  obtain ⟨⟨msgErr, s₀⟩, init⟩ := deliveryMessageInit_ok quiet totalLen s
  obtain ⟨processed, s₁, loop⟩ :=
    cyclePublishLoop_ok quiet restBuffer msgErr reads totalLen [] s₀
  have same : s₁.2 = s₀.2 := cyclePublishLoop_uncounted callback _ _ _ _ _ _ _ _ loop
  obtain ⟨plain, same₀⟩ := deliveryMessageInit_counted init
  rw [whole] at loop
  rw [Mqtt.cyclePublish, bind_of_ok init, bind_of_ok loop] at run
  dsimp only at run
  by_cases accepted : msgErr = 0
  · subst accepted
    refine .inl ⟨⟨_, plain⟩, ?_⟩
    cases callback with
    | none => cases plain
    | some cb =>
        have here : (true && (0 : Int) == 0) = true := rfl
        rw [if_pos here, bind_apply] at run
        change (deliveryMessageDone (some (counted cb)) s₁).bind _ = _ at run
        obtain ⟨r, done, run⟩ := ok_of_bind run
        cases run
        rw [deliveryMessageDone_counted done, same, same₀]
  · have refused : ¬ (true && msgErr == 0) = true := by simp [accepted]
    rw [if_neg refused] at run
    cases run
    refine .inr ⟨?_, same.trans same₀⟩
    rintro ⟨app, accepts⟩
    rw [plain] at accepts
    cases accepts
    exact accepted rfl

end

/-! ### Transmissions -/

/-- A message that is to be delivered at most once. -/
structure QoS2Message where
  topic : Bytes
  retained : Bool
  id : Nat
  payload : Bytes

namespace QoS2Message

/-- The packet of a message, sent for the first time or again. -/
def packet (m : QoS2Message) (dup : Bool) : Packet :=
  .publish m.topic ⟨2, m.retained, dup, m.id⟩ m.payload

/-- The call finds a transmission of the message. -/
def FoundBy (m : QoS2Message) (c : Call τ) : Prop :=
  ∃ dup rest, c.before.input = (m.packet dup).bytes ++ rest

/-- The message fits the client, and the callback of its topic accepts it. -/
def AcceptedBy (ds : List (Registered (Prog τ))) (m : QoS2Message) (c : Call (τ × Nat)) : Prop :=
  Handled c.before.client.readbuf.length (m.packet false) ∧
    Accepts (registered ds m.topic) m.payload.length c.before.app.1

end QoS2Message

/-- How often the call ran a callback to completion. -/
def Call.completions (c : Call (τ × Nat)) : Nat := c.after.app.2 - c.before.app.2

/-- A call completes the message that it finds if it is accepted, and else nothing. -/
theorem call_completes (full : Full env) {ds : List (Registered (Prog τ))} {c : Call (τ × Nat)}
    (sound : Sound c.before) (delivery : c.before.delivery = ds.map Registered.counted)
    (call : cycleR env c.before = .ok (c.result, c.after)) {m : QoS2Message}
    (wf : (m.packet false).WellFormed) (found : m.FoundBy c) :
    (m.AcceptedBy ds c ∧ c.completions = 1) ∨ (¬ m.AcceptedBy ds c ∧ c.completions = 0) := by
  obtain ⟨dup, rest, input⟩ := found
  have wf' : (m.packet dup).WellFormed := ⟨wf.shape, wf.short⟩
  by_cases handled : Handled c.before.client.readbuf.length (m.packet dup)
  · obtain ⟨rc, w', call', took, -, -⟩ := cycleR_took full sound.quiet wf' handled sound.room input
    rw [call] at call'
    cases call'
    obtain ⟨reads, d, -, whole, run⟩ := took.delivers
    have callback := registered_counted ds m.topic
    rw [delivery, callback] at run
    have quiet : ∀ cb ∈ (registered ds m.topic).map counted, Quiet cb := by
      rw [← callback, ← delivery]
      intro cb mem
      obtain ⟨r, there, rfl⟩ := Option.map_eq_some_iff.mp mem
      exact sound.quiet r (List.mem_of_find?_eq_some there)
    rcases cyclePublish_counted quiet whole run with ⟨accepts, count⟩ | ⟨refuses, count⟩
    · exact .inl ⟨⟨handled, accepts⟩, by rw [Call.completions, count, Nat.add_sub_cancel_left]⟩
    · exact .inr ⟨fun accepted => refuses accepted.2, by rw [Call.completions, count, Nat.sub_self]⟩
  · have nothing : c.after.app = c.before.app := by
      rcases cycleR_unhandled full sound.room wf' handled input with
        ⟨-, fault | ⟨w', call', -, app⟩⟩ | ⟨-, w', call', -, app⟩
      · rw [fault] at call
        cases call
      · injection call.symm.trans call' with same
        exact (congrArg (·.2.app) same).trans app
      · injection call.symm.trans call' with same
        exact (congrArg (·.2.app) same).trans app
    exact .inr ⟨fun accepted => handled accepted.1, by
      rw [Call.completions, nothing, Nat.sub_self]⟩

section

variable {α : Type} {P : α → Prop} {count : α → Nat} {l : List α}

theorem sum_eq_zero_iff (each : ∀ a ∈ l, (P a ∧ count a = 1) ∨ (¬ P a ∧ count a = 0)) :
    (l.map count).sum = 0 ↔ ∀ a ∈ l, ¬ P a := by
  rw [List.sum_eq_zero_iff_forall_eq_nat, List.forall_mem_map]
  refine forall₂_congr fun a mem => ?_
  rcases each a mem with ⟨yes, one⟩ | ⟨no, zero⟩
  · rw [one]
    exact iff_of_false Nat.one_ne_zero (not_not.mpr yes)
  · exact iff_of_true zero no

/-- Of some things that count one or nothing, at most one counts. -/
theorem sum_le_one_iff (each : ∀ a ∈ l, (P a ∧ count a = 1) ∨ (¬ P a ∧ count a = 0)) :
    (l.map count).sum ≤ 1 ↔ l.Pairwise fun a b => ¬ (P a ∧ P b) := by
  induction l with
  | nil => exact iff_of_true (Nat.zero_le _) List.Pairwise.nil
  | cons a l ih =>
      have each' : ∀ b ∈ l, (P b ∧ count b = 1) ∨ (¬ P b ∧ count b = 0) :=
        fun b mem => each b (List.mem_cons_of_mem a mem)
      rw [List.map_cons, List.sum_cons, List.pairwise_cons, ← ih each']
      rcases each a List.mem_cons_self with ⟨yes, one⟩ | ⟨no, zero⟩
      · have rest : (l.map count).sum = 0 ↔ ∀ b ∈ l, ¬ (P a ∧ P b) :=
          (sum_eq_zero_iff each').trans
            (forall₂_congr fun b _ => not_congr ⟨fun there => ⟨yes, there⟩, And.right⟩)
        rw [one, ← rest]
        omega
      · rw [zero, Nat.zero_add]
        exact ⟨fun later => ⟨fun b _ both => no both.1, later⟩, And.right⟩

end

/-- A callback that accepts every message. -/
def accepting : DeliveryCallback (Prog Unit) where
  init _ := return 0
  process _ := return 0
  done := return 0

/-- A command to the device. -/
def command : QoS2Message := ⟨[116], false, 7, [1]⟩

/-- A client with the callback, connected to a peer that sends these packets. -/
def delivering (ps : List Packet) : World (Unit × Nat) :=
  { receiving ps with
    delivery := [⟨[116], accepting⟩].map Registered.counted
    app := ((), 0) }

theorem delivering_sound (ps : List Packet) : Sound (delivering ps) := by
  refine ⟨fun r mem => ?_, Nat.le_refl 8⟩
  obtain rfl := List.mem_singleton.mp mem
  exact ⟨fun _ _ => ⟨_, rfl⟩, fun _ _ => ⟨_, rfl⟩, fun _ => ⟨_, rfl⟩⟩

theorem command_wellFormed (dup : Bool) : (command.packet dup).WellFormed := by
  have id_lt : (7 : Nat) < 2 ^ 16 := by decide
  have topic_lt : 1 < 2 ^ 16 := by decide
  exact ⟨⟨Nat.le_refl 1, topic_lt, Nat.le_refl 2, id_lt⟩, by cases dup <;> decide⟩

theorem command_handled (dup : Bool) : Handled 8 (command.packet dup) := by
  have fits : 1 < 8 := by decide
  exact ⟨by cases dup <;> decide, fits, fun none => nomatch none⟩

/-- A call of a client with the callback completes the message. -/
theorem command_completes {c : Call (Unit × Nat)} (sound : Sound c.before)
    (delivery : c.before.delivery = [⟨[116], accepting⟩].map Registered.counted)
    (length : c.before.client.readbuf.length = 8)
    (call : cycleR calm c.before = .ok (c.result, c.after)) (found : command.FoundBy c) :
    c.completions = 1 := by
  have full : Full calm := fun _ _ => rfl
  rcases call_completes full sound delivery call (command_wellFormed false) found with
    ⟨-, once⟩ | ⟨not_accepted, -⟩
  · exact once
  · refine absurd ⟨?_, c.before.app.1, rfl⟩ not_accepted
    rw [length]
    exact command_handled false

end AcnSdk.Mqtt.Client
