/-
`mqtt_subscribe` of `src/arrow/mqtt.c`.

The commands of the cloud are subscribed to once a connection. The flag of the channel says that
this is done; where API calls go over MQTT, their answers are subscribed to as well, and it is set
even if this fails.

* `subscribed_iff` — a success, and the flag, mean that a SUBACK was received that grants the
  subscription if and only if every SUBACK that is taken does.
-/

import AcnSdk.Arrow.MqttChannel
import AcnSdk.Mqtt.Subscribe

namespace AcnSdk.Arrow

open AcnSdk.Lib AcnSdk.Mqtt AcnSdk.Mqtt.Client Prog

variable {τ : Type}

/-- The subscription to the answers of API calls, with `HTTP_VIA_MQTT`. -/
def mqttSubscribeApi (env : Env) (signedChar : Bool) (fuel : Nat) :
    Option (Nat × Registered (Prog τ)) → Prog (World τ) Unit
  | none => return ()
  | some (size, http) => do
      let _ ← arrowMqttClientSubscribe env signedChar fuel 2 size http
      return ()

/-- `mqtt_subscribe`, with the channel of `get_event_env`. -/
def mqttSubscribe (env : Env) (signedChar : Bool) (fuel size : Nat) (base : Registered (Prog τ))
    (api : Option (Nat × Registered (Prog τ))) (channel : MqttEnv) :
    Prog (World τ) (MqttEnv × Int) :=
  if channel.isInit .subscribe ∧ ¬ channel.isInit .commands then do
    let rc ← arrowMqttClientSubscribe env signedChar fuel 2 size base
    if rc < 0 then return (channel, rc)
    else do
      mqttSubscribeApi env signedChar fuel api
      return (channel.setInit .commands, 0)
  else return (channel, 0)

section

variable {env : Env} {signedChar : Bool} {fuel size : Nat} {base : Registered (Prog τ)}
  {api : Option (Nat × Registered (Prog τ))} {channel channel' : MqttEnv} {w w' : World τ}
  {rc : Int}

/-- The flag is set if and only if the subscription to the commands was made and succeeded. -/
theorem mqttSubscribe_flag (unset : channel.isInit .commands = false)
    (run : mqttSubscribe env signedChar fuel size base api channel w = .ok ((channel', rc), w')) :
    (channel.isInit .subscribe = false ∧ channel'.isInit .commands = false) ∨
      (channel.isInit .subscribe = true ∧ ∃ rc₁ w₁,
        arrowMqttClientSubscribe env signedChar fuel 2 size base w = .ok (rc₁, w₁) ∧
        (channel'.isInit .commands = true ↔ rc₁ = success)) := by
  rw [mqttSubscribe, unset] at run
  cases subscribe : channel.isInit .subscribe with
  | false =>
      rw [subscribe, if_neg (by decide)] at run
      cases run
      exact .inl ⟨rfl, unset⟩
  | true =>
      rw [subscribe, if_pos (by decide), bind_apply] at run
      obtain ⟨⟨rc₁, w₁⟩, call, run⟩ := ok_of_bind run
      refine .inr ⟨rfl, rc₁, w₁, call, ?_⟩
      dsimp only at run
      rcases subscribe_settles signedChar fuel 2 size base _ _ _ call with rfl | rfl
      · rw [if_neg (by decide), bind_apply] at run
        obtain ⟨r, -, run⟩ := ok_of_bind run
        cases run
        exact iff_of_true (by simp) rfl
      · rw [if_pos (by decide)] at run
        cases run
        exact iff_of_false (by simp [unset]) (by decide)

end

/-- A success of `arrow_mqtt_client_subscribe`, and the flag that `mqtt_subscribe` sets, mean that
a SUBACK was received that grants the subscription, if and only if every SUBACK that is taken does.
The calls keep to the packets. -/
theorem subscribed_iff {env : Env} (network : AllOrNothing env) {ps : List Packet}
    (wf : ∀ p ∈ ps, p.WellFormed) (signedChar : Bool) (fuel : Nat) :
    (∀ (qos size : Nat) (cb : Registered (Prog τ)) (w w' : World τ) (rc : Int),
      arrowMqttClientSubscribe env signedChar fuel qos size cb w = .ok (rc, w') →
        ∃ id cs w₂, subscribeCalls env fuel qos size cb w = .ok ((id, cs), w₂) ∧
          (Kept env ps w cs →
            ((rc = success → ∃ p, Grants id p ∧ Received ps p w w') ↔ AllGrant env ps id cs))) ∧
    ∀ (size : Nat) (base : Registered (Prog τ)) (api : Option (Nat × Registered (Prog τ)))
      (channel channel' : MqttEnv) (w w' : World τ) (rc : Int),
      channel.isInit .commands = false →
      mqttSubscribe env signedChar fuel size base api channel w = .ok ((channel', rc), w') →
        (channel.isInit .subscribe = false ∧ channel'.isInit .commands = false) ∨
        ∃ rc₁ w₁ id cs w₂,
          arrowMqttClientSubscribe env signedChar fuel 2 size base w = .ok (rc₁, w₁) ∧
          subscribeCalls env fuel 2 size base w = .ok ((id, cs), w₂) ∧
          (Kept env ps w cs →
            ((channel'.isInit .commands = true → ∃ p, Grants id p ∧ Received ps p w w₁) ↔
              AllGrant env ps id cs)) := by
  constructor
  · exact fun _ _ _ _ _ _ run => subscribe_granted_iff network wf run
  · intro size base api channel channel' w w' rc unset run
    rcases mqttSubscribe_flag unset run with none | ⟨-, rc₁, w₁, call, flag⟩
    · exact .inl none
    · obtain ⟨id, cs, w₂, calls, granted⟩ := subscribe_granted_iff network wf call
      rw [flag]
      exact .inr ⟨rc₁, w₁, id, cs, w₂, call, calls, granted⟩

/-- A callback for the topic `c`. -/
def onCommand : Registered (Prog Unit) where
  topic := [99]
  callback := ⟨fun _ => return 0, fun _ => return 0, return 0⟩

/-- A client that has just connected, to a peer that sends these packets. -/
def subscribing (ps : List Packet) : World Unit :=
  { receiving ps with client := ⟨List.replicate 16 0, List.replicate 16 0, 1, true, 0, false⟩ }

/-- A channel that has settings for commands. -/
def commandChannel : MqttEnv := (MqttEnv.mk 0 true).setInit .subscribe

/-- A subscription that is granted. -/
theorem subscribed_iff_granted :
    ∃ rc w' channel' rc₁ w₁ id cs w₂,
      arrowMqttClientSubscribe calm true 3 2 1 onCommand (subscribing [.suback 2 [0]]) =
        .ok (rc, w') ∧
      mqttSubscribe calm true 3 1 onCommand none commandChannel (subscribing [.suback 2 [0]]) =
        .ok ((channel', rc₁), w₁) ∧
      subscribeCalls calm 3 2 1 onCommand (subscribing [.suback 2 [0]]) = .ok ((id, cs), w₂) ∧
      ((rc = success → ∃ p, Grants id p ∧
          Received [.suback 2 [0]] p (subscribing [.suback 2 [0]]) w') ↔
        AllGrant calm [.suback 2 [0]] id cs) ∧
      ((commandChannel.isInit .subscribe = false ∧ channel'.isInit .commands = false) ∨
        ((channel'.isInit .commands = true → ∃ p, Grants id p ∧
            Received [.suback 2 [0]] p (subscribing [.suback 2 [0]]) w') ↔
          AllGrant calm [.suback 2 [0]] id cs)) := by
  let ps : List Packet := [.suback 2 [0]]
  have ends : endsWith (fun _ => true)
      (arrowMqttClientSubscribe calm true 3 2 1 onCommand (subscribing ps)) = true := by
    decide +kernel
  have ends' : endsWith (fun _ => true)
      (mqttSubscribe calm true 3 1 onCommand none commandChannel (subscribing ps)) = true := by
    decide +kernel
  obtain ⟨rc, w', run, -⟩ := endsWith_ok ends
  obtain ⟨⟨channel', rc₁⟩, w₁, run', -⟩ := endsWith_ok ends'
  have network : AllOrNothing calm := fun _ => .inl fun _ => rfl
  have wf : ∀ p ∈ ps, p.WellFormed := by
    intro p mem
    obtain rfl := List.mem_singleton.mp mem
    exact ⟨⟨by decide, List.cons_ne_nil _ _⟩, by decide⟩
  have kept (cs : List (Client.Call Unit)) : Kept calm ps (subscribing ps) cs :=
    calm_kept ⟨0, rfl⟩ (by decide)
  obtain ⟨client, channel⟩ := subscribed_iff (τ := Unit) network wf true 3
  obtain ⟨id, cs, w₂, calls, granted⟩ := client 2 1 onCommand _ _ _ run
  refine ⟨rc, w', channel', rc₁, w₁, id, cs, w₂, run, run', calls, granted (kept cs), ?_⟩
  rcases channel 1 onCommand none _ _ _ _ _ (by decide) run' with none | subscribes
  · exact .inl none
  · obtain ⟨_, _, _, _, _, call, calls', flagged⟩ := subscribes
    rw [run] at call
    rw [calls] at calls'
    cases call
    cases calls'
    exact .inr (flagged (kept cs))

/-- A subscription that is refused, and counts as made. -/
theorem not_subscribed_refused :
    ∃ rc w' channel' rc₁ w₁ id cs w₂,
      arrowMqttClientSubscribe calm true 3 2 1 onCommand (subscribing [.suback 2 [0x80]]) =
        .ok (rc, w') ∧
      rc = success ∧
      mqttSubscribe calm true 3 1 onCommand none commandChannel
        (subscribing [.suback 2 [0x80]]) = .ok ((channel', rc₁), w₁) ∧
      channel'.isInit .commands = true ∧
      subscribeCalls calm 3 2 1 onCommand (subscribing [.suback 2 [0x80]]) = .ok ((id, cs), w₂) ∧
      ¬ ∃ p, Grants id p ∧ Received [.suback 2 [0x80]] p (subscribing [.suback 2 [0x80]]) w' := by
  have ends : endsWith (fun rc => rc == success)
      (arrowMqttClientSubscribe calm true 3 2 1 onCommand (subscribing [.suback 2 [0x80]])) =
        true := by
    decide +kernel
  have ends' : endsWith (fun r => r.1.isInit .commands)
      (mqttSubscribe calm true 3 1 onCommand none commandChannel
        (subscribing [.suback 2 [0x80]])) = true := by
    decide +kernel
  have records : endsWith (fun _ => true)
      (subscribeCalls calm 3 2 1 onCommand (subscribing [.suback 2 [0x80]])) = true := by
    decide +kernel
  obtain ⟨rc, w', run, succeeds⟩ := endsWith_ok ends
  obtain ⟨⟨channel', rc₁⟩, w₁, run', flag⟩ := endsWith_ok ends'
  obtain ⟨⟨id, cs⟩, w₂, record, -⟩ := endsWith_ok records
  refine ⟨rc, w', channel', rc₁, w₁, id, cs, w₂, run, beq_iff_eq.mp succeeds, run', flag,
    record, ?_⟩
  rintro ⟨p, ⟨code, small, rfl⟩, rest, there, -⟩
  have mem := List.mem_singleton.mp (there.mem List.mem_cons_self)
  cases mem
  exact absurd small (by decide)

end AcnSdk.Arrow
