/-
The routines that connect and disconnect MQTT, `src/arrow/routine.c`, over the channels of
`src/arrow/mqtt.c`.

The routines remember in bits of their own what is connected. A channel is made when it is first
asked for, and a terminate gives it back. Drivers, network and the peer answer as they like.

* `Routines.mirrors_iff` — when the bit of telemetry and the channel agree in every state of a run.
-/

import AcnSdk.Arrow.MqttChannel
import AcnSdk.Lib.Retry

namespace AcnSdk.Arrow

open AcnSdk.Lib

/-- `enum _mqtt_mask_`. -/
inductive MqttMask where
  | acn | ibm | azure
deriving DecidableEq, Repr

/-- `arrow_routine_error_t`, as far as these routines return it. -/
inductive RoutineError where
  | success | receiveEvent | error | notInitialize | mqttConnectFailed | mqttSubscribeFailed
deriving DecidableEq, Repr

namespace MqttEnv

/-- A channel as `_mqtt_init_common` leaves it. -/
def fresh : MqttEnv := ⟨0, false⟩

/-- The terminate of a user, beside another one. The channel is freed if there is none. -/
def userTerminate (user other : InitFlag) (env : MqttEnv) : Option MqttEnv :=
  if env.isInit other then some (env.unsetInit user) else none

/-- `mqtt_subscribe`, where the peer answers `rc`. -/
def mqttSubscribe (rc : Int) (env : MqttEnv) : MqttEnv × Int :=
  if env.isInit .subscribe && !env.isInit .commands then
    if rc < 0 then (env, rc) else (env.setInit .commands, 0)
  else (env, 0)

/-- `mqtt_yield`, where `MQTTYield` returns `ret`. -/
def mqttYield (ret : Int) (env : MqttEnv) : Int :=
  if env.isInit .subscribe && env.isInit .client then ret else -1

end MqttEnv

/-- The channels, `_init_done`, and the bits `MQTT_INIT_TELEMETRY_ROUTINE` and
`MQTT_INIT_COMMAND_ROUTINE` of `_init_mqtt`. -/
structure Routines where
  channels : MqttMask → Option MqttEnv
  initDone : Bool
  telemetry : Bool
  command : Bool

/-- What `arrow_mqtt_connect_telemetry_routine` does: the state, the result, and how often it calls
`mqtt_telemetry_connect`. -/
structure Called where
  state : Routines
  error : RoutineError
  attempts : Nat

namespace Routines

/-- Nothing is connected yet. -/
def start (initDone : Bool) : Routines := ⟨fun _ => none, initDone, false, false⟩

/-- `get_telemetry_env` and `get_event_env`: the channel of a mask, made if it is missing. -/
def env (s : Routines) (mask : MqttMask) : MqttEnv := (s.channels mask).getD .fresh

def store (s : Routines) (mask : MqttMask) (o : Option MqttEnv) : Routines :=
  { s with channels := fun m => if m = mask then o else s.channels m }

/-- `mqtt_disconnect`. -/
def mqttDisconnect (s : Routines) : Routines :=
  { s with channels := fun m => (s.channels m).map MqttEnv.mqttDisconnect }

/-- `mqtt_terminate`. -/
def mqttTerminate (s : Routines) : Routines := { s with channels := fun _ => none }

section

-- `telemetryMask` is what the build selects, and `maxRetry` is `ARROW_MAX_RETRY`.
variable (telemetryMask : MqttMask) (maxRetry : Int)

def mqttTelemetryConnect (answers : Answers) (s : Routines) : Routines × Int :=
  let result := (s.env telemetryMask).mqttTelemetryConnect answers
  (s.store telemetryMask (some result.1), result.2)

def mqttTelemetryTerminate (s : Routines) : Routines :=
  s.store telemetryMask ((s.env telemetryMask).userTerminate .telemetry .subscribe)

def mqttSubscribeConnect (answers : Answers) (s : Routines) : Routines × Int :=
  let result := (s.env .acn).mqttSubscribeConnect answers
  (s.store .acn (some result.1), result.2)

def mqttSubscribeDisconnect (s : Routines) : Routines :=
  s.store .acn (some (s.env .acn).mqttSubscribeDisconnect)

def mqttSubscribeTerminate (s : Routines) : Routines :=
  s.store .acn ((s.env .acn).userTerminate .subscribe .telemetry)

def mqttSubscribe (rc : Int) (s : Routines) : Routines × Int :=
  let result := (s.env .acn).mqttSubscribe rc
  (s.store .acn (some result.1), result.2)

/-- `arrow_mqtt_connect_telemetry_routine`. -/
def connectTelemetry (answers : Nat → Answers) (s : Routines) : Called :=
  if s.telemetry then ⟨s, .error, 0⟩
  else
    let tried := retry (mqttTelemetryConnect telemetryMask) id maxRetry.toNat answers s
    if tried.success then ⟨{ tried.state with telemetry := true }, .success, tried.attempts⟩
    else ⟨tried.state, .mqttConnectFailed, tried.attempts⟩

/-- `arrow_mqtt_disconnect_telemetry_routine`. -/
def disconnectTelemetry (s : Routines) : Routines × RoutineError :=
  if s.telemetry then (s.mqttTelemetryTerminate telemetryMask, .success) else (s, .error)

/-- `arrow_mqtt_terminate_telemetry_routine`. -/
def terminateTelemetry (s : Routines) : Routines × RoutineError :=
  (s.mqttTelemetryTerminate telemetryMask, .success)

/-- `arrow_mqtt_connect_event_routine`. -/
def connectEvent (answers : Nat → Answers) (s : Routines) : Routines × RoutineError :=
  if s.command then (s, .error)
  else
    let tried := retry mqttSubscribeConnect id maxRetry.toNat answers s
    if tried.success then ({ tried.state with command := true }, .success)
    else (tried.state, .mqttSubscribeFailed)

/-- `arrow_mqtt_subscribe_event_routine`. A retry clears the bit. -/
def subscribeEvent (answers : Nat → Int) (s : Routines) : Routines × RoutineError :=
  let tried := retry mqttSubscribe (fun s => { s with command := false }) maxRetry.toNat answers s
  if tried.success then ({ tried.state with command := true }, .success)
  else (tried.state, .mqttSubscribeFailed)

/-- `arrow_mqtt_disconnect_event_routine`. -/
def disconnectEvent (s : Routines) : Routines × RoutineError :=
  if s.command then (s.mqttSubscribeDisconnect, .success) else (s, .error)

/-- `arrow_mqtt_terminate_event_routine`. -/
def terminateEvent (s : Routines) : Routines × RoutineError :=
  (s.mqttSubscribeTerminate, .success)

/-- `arrow_mqtt_event_receive_routine`. -/
def eventReceive (yielded : Int) (s : Routines) : Routines × RoutineError :=
  if !s.initDone || !s.command then (s, .notInitialize)
  else (s.store .acn (some (s.env .acn)),
    if (s.env .acn).mqttYield yielded = 0 then .receiveEvent else .success)

/-- `arrow_mqtt_connect_routine`. -/
def connect (telemetry event : Nat → Answers) (yielded : Int) (subscribed : Nat → Int)
    (s : Routines) : Routines × RoutineError :=
  if !s.initDone then (s, .notInitialize)
  else
    let called := s.connectTelemetry telemetryMask maxRetry telemetry
    if called.error ≠ .success then (called.state, called.error)
    else
      let result := called.state.connectEvent maxRetry event
      if result.2 ≠ .success then result
      else
        let received := result.1.eventReceive yielded
        if received.2 ≠ .receiveEvent then
          ((received.1.subscribeEvent maxRetry subscribed).1, .success)
        else (received.1, .success)

/-- `arrow_mqtt_disconnect_routine`. -/
def disconnect (s : Routines) : Routines × RoutineError :=
  if s.telemetry || s.command then
    ({ s.mqttDisconnect with telemetry := false, command := false }, .success)
  else (s, .error)

/-- `arrow_mqtt_terminate_routine`. -/
def terminate (s : Routines) : Routines × RoutineError :=
  ({ s.mqttTerminate with telemetry := false, command := false }, .success)

end

/-- Whether a telemetry routine comes to `mqtt_publish`: `arrow_mqtt_send_telemetry_routine` asks
for the bit of the commands too. -/
def publishes (s : Routines) (needsCommand : Bool) : Bool :=
  s.initDone && s.telemetry && (!needsCommand || s.command)

end Routines

/-- A call of a routine, with the answers that it meets. -/
inductive RoutineCall where
  | connectTelemetry (answers : Nat → Answers)
  | disconnectTelemetry
  | terminateTelemetry
  | connectEvent (answers : Nat → Answers)
  | subscribeEvent (answers : Nat → Int)
  | disconnectEvent
  | terminateEvent
  | connect (telemetry event : Nat → Answers) (yielded : Int) (subscribed : Nat → Int)
  | disconnect
  | terminate

namespace Routines

section

variable (telemetryMask : MqttMask) (maxRetry : Int)

def call (s : Routines) : RoutineCall → Routines
  | .connectTelemetry answers => (s.connectTelemetry telemetryMask maxRetry answers).state
  | .disconnectTelemetry => (s.disconnectTelemetry telemetryMask).1
  | .terminateTelemetry => (s.terminateTelemetry telemetryMask).1
  | .connectEvent answers => (s.connectEvent maxRetry answers).1
  | .subscribeEvent answers => (s.subscribeEvent maxRetry answers).1
  | .disconnectEvent => s.disconnectEvent.1
  | .terminateEvent => s.terminateEvent.1
  | .connect telemetry event yielded subscribed =>
      (s.connect telemetryMask maxRetry telemetry event yielded subscribed).1
  | .disconnect => s.disconnect.1
  | .terminate => s.terminate.1

/-- The state after some calls. -/
def run (initDone : Bool) (calls : List RoutineCall) : Routines :=
  calls.foldl (call telemetryMask maxRetry) (start initDone)

/-- The channel of telemetry is there, set up and connected. -/
def Connected (s : Routines) : Prop :=
  ∃ env, s.channels telemetryMask = some env ∧ env.isInit .telemetry = true ∧
    env.isInit .client = true

/-- The bit of telemetry mirrors the channel. -/
structure Mirrors (s : Routines) : Prop where
  channel : s.telemetry = true → s.Connected telemetryMask
  attempts : s.telemetry = false →
    ∀ answers, 0 < (s.connectTelemetry telemetryMask maxRetry answers).attempts
  published : ∀ needsCommand, s.publishes needsCommand = true →
    ∃ env, s.channels telemetryMask = some env ∧ env.isInit .client = true ∧ env.isOpen = true
  reconnects : ¬ s.Connected telemetryMask →
    ∀ answers, 0 < (s.connectTelemetry telemetryMask maxRetry answers).attempts

end

/-- Telemetry is not disconnected or terminated by its own routine while its bit is set. -/
def Meets (s : Routines) : RoutineCall → Prop
  | .disconnectTelemetry | .terminateTelemetry => s.telemetry = false
  | _ => True

/-- The socket of a channel is open with the flag of the client. -/
def Sound (s : Routines) : Prop :=
  ∀ mask env, s.channels mask = some env → env.isOpen = env.isInit .client

variable {s s' s'' : Routines} {mask : MqttMask} {o : Option MqttEnv}

/-! ### Channels -/

theorem channels_store (s : Routines) (mask m : MqttMask) (o : Option MqttEnv) :
    (s.store mask o).channels m = if m = mask then o else s.channels m := rfl

theorem env_eq {env : MqttEnv} (found : s.channels mask = some env) : s.env mask = env := by
  rw [Routines.env, found, Option.getD_some]

theorem Sound.env (sound : s.Sound) (mask : MqttMask) :
    (s.env mask).isOpen = (s.env mask).isInit .client := by
  cases found : s.channels mask with
  | none =>
      have fresh : s.env mask = .fresh := by rw [Routines.env, found, Option.getD_none]
      rw [fresh]
      rfl
  | some env =>
      rw [env_eq found]
      exact sound mask env found

theorem Sound.store (sound : s.Sound)
    (isOpen : ∀ env, o = some env → env.isOpen = env.isInit .client) : (s.store mask o).Sound := by
  intro m env found
  rw [channels_store] at found
  split_ifs at found
  · exact isOpen env found
  · exact sound m env found

theorem Sound.store_some (sound : s.Sound) {env : MqttEnv}
    (isOpen : env.isOpen = env.isInit .client) : (s.store mask (some env)).Sound := by
  refine sound.store ?_
  rintro _ ⟨⟩
  exact isOpen

theorem Sound.store_terminate (sound : s.Sound) {user other : InitFlag}
    (client : user ≠ .client) :
    (s.store mask ((s.env mask).userTerminate user other)).Sound := by
  refine sound.store fun env stored => ?_
  rw [MqttEnv.userTerminate] at stored
  split_ifs at stored
  · cases stored
    rw [MqttEnv.isOpen_unsetInit, sound.env mask]
    simp [client]

/-! ### What the routines for events keep -/

section

variable (telemetryMask : MqttMask) (maxRetry : Int)

/-- The bit of telemetry stays, and so does its connection. -/
structure Keeps (s s' : Routines) : Prop where
  bit : s'.telemetry = s.telemetry
  sound : s'.Sound
  connected : s.Connected telemetryMask → s'.Connected telemetryMask

variable {telemetryMask}

theorem Keeps.refl (sound : s.Sound) : Keeps telemetryMask s s := ⟨rfl, sound, id⟩

theorem Keeps.trans (first : Keeps telemetryMask s s') (second : Keeps telemetryMask s' s'') :
    Keeps telemetryMask s s'' :=
  ⟨second.bit.trans first.bit, second.sound, fun connected =>
    second.connected (first.connected connected)⟩

theorem Keeps.command (kept : Keeps telemetryMask s s') (b : Bool) :
    Keeps telemetryMask s { s' with command := b } :=
  ⟨kept.bit, kept.sound, kept.connected⟩

/-- A channel may be stored in which telemetry is as connected as before. -/
theorem Keeps.store (sound : (s.store mask o).Sound)
    (kept : (s.env mask).isInit .telemetry = true → (s.env mask).isInit .client = true →
      ∃ env, o = some env ∧ env.isInit .telemetry = true ∧ env.isInit .client = true) :
    Keeps telemetryMask s (s.store mask o) := by
  refine ⟨rfl, sound, ?_⟩
  rintro ⟨env, found, telemetry, client⟩
  unfold Connected
  rw [channels_store]
  split_ifs with same
  · subst same
    rw [env_eq found] at kept
    exact kept telemetry client
  · exact ⟨env, found, telemetry, client⟩

/-- A channel may be stored that has all flags it had. -/
theorem Keeps.store_some (sound : s.Sound) {env : MqttEnv}
    (isOpen : env.isOpen = env.isInit .client)
    (flags : ∀ f, (s.env mask).isInit f = true → env.isInit f = true) :
    Keeps telemetryMask s (s.store mask (some env)) := by
  refine .store (sound.store_some isOpen) ?_
  intro telemetry client
  exact ⟨env, rfl, flags _ telemetry, flags _ client⟩

theorem mqttSubscribeConnect_keeps (sound : s.Sound) (answers : Answers) :
    Keeps telemetryMask s (s.mqttSubscribeConnect answers).1 := by
  have connects : MqttEnv.Connects .subscribe (s.env .acn) _ :=
    MqttEnv.userConnect_connects answers (by decide) (sound.env .acn)
  exact .store_some sound connects.isOpen connects.flags

theorem mqttSubscribe_keeps (sound : s.Sound) (rc : Int) :
    Keeps telemetryMask s (s.mqttSubscribe rc).1 := by
  refine .store_some sound ?_ ?_
  · rw [MqttEnv.mqttSubscribe]
    split_ifs
    · exact sound.env .acn
    · simp [sound.env .acn]
    · exact sound.env .acn
  · intro f set
    rw [MqttEnv.mqttSubscribe]
    split_ifs
    · exact set
    · simp [set]
    · exact set

theorem mqttSubscribeTerminate_keeps (sound : s.Sound) :
    Keeps telemetryMask s s.mqttSubscribeTerminate := by
  refine .store (sound.store_terminate (by decide)) ?_
  intro telemetry client
  refine ⟨_, by rw [MqttEnv.userTerminate, if_pos telemetry], ?_, ?_⟩
  · simp [telemetry]
  · simp [client]

theorem mqttSubscribeDisconnect_keeps (sound : s.Sound) :
    Keeps telemetryMask s s.mqttSubscribeDisconnect := by
  refine .store (sound.store_some ?_) ?_
  · rw [MqttEnv.mqttSubscribeDisconnect, MqttEnv.userDisconnect]
    split_ifs
    · simp [sound.env .acn]
    · simp [MqttEnv.close]
  · intro telemetry client
    refine ⟨_, rfl, ?_⟩
    rw [MqttEnv.mqttSubscribeDisconnect, MqttEnv.userDisconnect, if_pos telemetry]
    simp [telemetry, client]

theorem connectEvent_keeps (sound : s.Sound) (answers : Nat → Answers) :
    Keeps telemetryMask s (s.connectEvent maxRetry answers).1 := by
  have tried : Keeps telemetryMask s
      (retry mqttSubscribeConnect id maxRetry.toNat answers s).state :=
    retry_keeps (Keeps telemetryMask s)
      (fun i _ kept => kept.trans (mqttSubscribeConnect_keeps kept.sound i))
      (fun _ kept => kept) _ answers (.refl sound)
  rw [connectEvent]
  dsimp only
  split_ifs
  · exact .refl sound
  · exact tried.command true
  · exact tried

theorem subscribeEvent_keeps (sound : s.Sound) (answers : Nat → Int) :
    Keeps telemetryMask s (s.subscribeEvent maxRetry answers).1 := by
  have tried : Keeps telemetryMask s
      (retry mqttSubscribe (fun s => { s with command := false }) maxRetry.toNat answers s).state :=
    retry_keeps (Keeps telemetryMask s)
      (fun rc _ kept => kept.trans (mqttSubscribe_keeps kept.sound rc))
      (fun _ kept => kept.command false) _ answers (.refl sound)
  rw [subscribeEvent]
  dsimp only
  split_ifs
  · exact tried.command true
  · exact tried

theorem disconnectEvent_keeps (sound : s.Sound) : Keeps telemetryMask s s.disconnectEvent.1 := by
  rw [disconnectEvent]
  split_ifs
  · exact mqttSubscribeDisconnect_keeps sound
  · exact .refl sound

theorem eventReceive_keeps (sound : s.Sound) (yielded : Int) :
    Keeps telemetryMask s (s.eventReceive yielded).1 := by
  rw [eventReceive]
  by_cases idle : (!s.initDone || !s.command) = true
  · rw [if_pos idle]
    exact .refl sound
  · rw [if_neg idle]
    exact .store_some sound (sound.env .acn) fun _ set => set

/-! ### One call -/

/-- The channel is connected if the bit is set. -/
structure Right (telemetryMask : MqttMask) (s : Routines) : Prop where
  sound : s.Sound
  channel : s.telemetry = true → s.Connected telemetryMask

theorem mqttTelemetryConnect_sound (sound : s.Sound) (answers : Answers) :
    (s.mqttTelemetryConnect telemetryMask answers).1.Sound := by
  have connects : MqttEnv.Connects .telemetry (s.env telemetryMask) _ :=
    MqttEnv.userConnect_connects answers (by decide) (sound.env telemetryMask)
  exact sound.store_some connects.isOpen

theorem mqttTelemetryConnect_connected (sound : s.Sound) (answers : Answers)
    (success : 0 ≤ (s.mqttTelemetryConnect telemetryMask answers).2) :
    (s.mqttTelemetryConnect telemetryMask answers).1.Connected telemetryMask := by
  have connects : MqttEnv.Connects .telemetry (s.env telemetryMask) _ :=
    MqttEnv.userConnect_connects answers (by decide) (sound.env telemetryMask)
  have zero := Int.le_antisymm
    (MqttEnv.userConnect_nonpos answers (s.env telemetryMask) (by decide)) success
  obtain ⟨telemetry, client⟩ := connects.success zero
  exact ⟨_, if_pos rfl, telemetry, client⟩

/-- The routine attempts a connect if the bit is clear, and sets the bit with the connection. -/
theorem connectTelemetry_cases (sound : s.Sound) (answers : Nat → Answers) :
    (s.telemetry = true ∧ s.connectTelemetry telemetryMask maxRetry answers = ⟨s, .error, 0⟩) ∨
    (s.telemetry = false ∧ 0 < (s.connectTelemetry telemetryMask maxRetry answers).attempts ∧
      Right telemetryMask (s.connectTelemetry telemetryMask maxRetry answers).state) := by
  rw [connectTelemetry]
  cases bit : s.telemetry with
  | true => exact .inl ⟨rfl, if_pos rfl⟩
  | false =>
      obtain ⟨done, failed⟩ := retry_rule (fun s' => s'.Sound ∧ s'.telemetry = false)
        (fun s' => s'.Sound ∧ s'.Connected telemetryMask)
        (fun s' => s'.Sound ∧ s'.telemetry = false)
        (fun i _ before success => ⟨mqttTelemetryConnect_sound before.1 i,
          mqttTelemetryConnect_connected before.1 i success⟩)
        (fun i _ before _ => ⟨mqttTelemetryConnect_sound before.1 i, before.2⟩)
        (fun _ before => before) maxRetry.toNat answers ⟨sound, bit⟩
      have pos : 0 < (retry (mqttTelemetryConnect telemetryMask) id maxRetry.toNat
        answers s).attempts := retry_attempts_pos _ _ _
      refine .inr ⟨rfl, ?_⟩
      dsimp only
      rw [if_neg Bool.false_ne_true]
      split_ifs with success
      · exact ⟨pos, (done success).1, fun _ => (done success).2⟩
      · have gaveUp := failed (Bool.eq_false_iff.mpr success)
        refine ⟨pos, gaveUp.1, ?_⟩
        intro set
        exact absurd (gaveUp.2 ▸ set) Bool.false_ne_true

variable (telemetryMask) in
/-- After telemetry is connected, a connect does what its event part does. -/
theorem connect_keeps (sound : s.Sound) (telemetry event : Nat → Answers) (yielded : Int)
    (subscribed : Nat → Int) :
    ∃ s₁, (s₁ = s ∨ s₁ = (s.connectTelemetry telemetryMask maxRetry telemetry).state) ∧
      Keeps telemetryMask s₁
        (s.connect telemetryMask maxRetry telemetry event yielded subscribed).1 := by
  have sound₁ : (s.connectTelemetry telemetryMask maxRetry telemetry).state.Sound := by
    rcases connectTelemetry_cases maxRetry sound telemetry with ⟨-, eq⟩ | ⟨-, -, right⟩
    · rw [eq]
      exact sound
    · exact right.sound
  rw [connect]
  generalize s.connectTelemetry telemetryMask maxRetry telemetry = called at sound₁
  have evented : Keeps telemetryMask _ _ := connectEvent_keeps maxRetry sound₁ event
  have received := evented.trans (eventReceive_keeps evented.sound yielded)
  have finished := received.trans (subscribeEvent_keeps maxRetry received.sound subscribed)
  dsimp only
  split_ifs
  · exact ⟨s, .inl rfl, .refl sound⟩
  · exact ⟨_, .inr rfl, .refl sound₁⟩
  · exact ⟨_, .inr rfl, evented⟩
  · exact ⟨_, .inr rfl, finished⟩
  · exact ⟨_, .inr rfl, received⟩

theorem mqttDisconnect_sound (sound : s.Sound) : s.mqttDisconnect.Sound := by
  intro mask env found
  obtain ⟨before, found₀, rfl⟩ := Option.map_eq_some_iff.mp found
  rw [MqttEnv.mqttDisconnect]
  split_ifs
  · simp [MqttEnv.close]
  · exact sound mask before found₀

theorem terminate_not_connected (s : Routines) :
    ¬ (s.mqttTelemetryTerminate telemetryMask).Connected telemetryMask := by
  rintro ⟨env, found, telemetry, -⟩
  rw [mqttTelemetryTerminate, channels_store, if_pos rfl, MqttEnv.userTerminate] at found
  split_ifs at found
  · cases found
    rw [MqttEnv.isInit_unsetInit] at telemetry
    exact absurd telemetry (by simp)

theorem call_sound (sound : s.Sound) (k : RoutineCall) :
    (s.call telemetryMask maxRetry k).Sound := by
  cases k with
  | connectTelemetry answers =>
      rcases connectTelemetry_cases maxRetry sound answers with ⟨-, eq⟩ | ⟨-, -, right⟩
      · rw [call, eq]
        exact sound
      · exact right.sound
  | disconnectTelemetry =>
      rw [call, disconnectTelemetry]
      split_ifs
      · exact sound.store_terminate (by decide)
      · exact sound
  | terminateTelemetry => exact sound.store_terminate (by decide)
  | connectEvent answers =>
      have kept : Keeps telemetryMask s _ := connectEvent_keeps maxRetry sound answers
      exact kept.sound
  | subscribeEvent answers =>
      have kept : Keeps telemetryMask s _ := subscribeEvent_keeps maxRetry sound answers
      exact kept.sound
  | disconnectEvent =>
      have kept : Keeps telemetryMask s _ := disconnectEvent_keeps sound
      exact kept.sound
  | terminateEvent =>
      have kept : Keeps telemetryMask s _ := mqttSubscribeTerminate_keeps sound
      exact kept.sound
  | connect telemetry event yielded subscribed =>
      obtain ⟨_, -, kept⟩ :=
        connect_keeps telemetryMask maxRetry sound telemetry event yielded subscribed
      exact kept.sound
  | disconnect =>
      rw [call, disconnect]
      split_ifs
      · exact mqttDisconnect_sound sound
      · exact sound
  | terminate =>
      rintro _ _ ⟨⟩

/-- While the bit mirrors the channel, a call leaves it so exactly if it meets the condition. -/
theorem call_channel_iff (sound : s.Sound)
    (channel : s.telemetry = true → s.Connected telemetryMask) (k : RoutineCall) :
    ((s.call telemetryMask maxRetry k).telemetry = true →
      (s.call telemetryMask maxRetry k).Connected telemetryMask) ↔ s.Meets k := by
  have kept : ∀ s', Keeps telemetryMask s s' →
      (s'.telemetry = true → s'.Connected telemetryMask) := by
    intro s' keeps set
    exact keeps.connected (channel (keeps.bit ▸ set))
  have connected : ∀ answers,
      (s.connectTelemetry telemetryMask maxRetry answers).state.telemetry = true →
      (s.connectTelemetry telemetryMask maxRetry answers).state.Connected telemetryMask := by
    intro answers
    rcases connectTelemetry_cases maxRetry sound answers with ⟨-, eq⟩ | ⟨-, -, right⟩
    · rw [eq]
      exact channel
    · exact right.channel
  cases k with
  | connectTelemetry answers => exact iff_of_true (connected answers) trivial
  | disconnectTelemetry =>
      rw [Meets, call, disconnectTelemetry]
      cases bit : s.telemetry with
      | true =>
          rw [if_pos rfl]
          exact iff_of_false (fun connects => terminate_not_connected s (connects bit)) (by decide)
      | false =>
          rw [if_neg Bool.false_ne_true]
          exact iff_of_true (fun set => absurd (bit ▸ set) Bool.false_ne_true) rfl
  | terminateTelemetry =>
      rw [Meets, call, terminateTelemetry]
      cases bit : s.telemetry with
      | true =>
          exact iff_of_false (fun connects => terminate_not_connected s (connects bit)) (by decide)
      | false => exact iff_of_true (fun set => absurd (bit ▸ set) Bool.false_ne_true) rfl
  | connectEvent answers =>
      exact iff_of_true (kept _ (connectEvent_keeps maxRetry sound answers)) trivial
  | subscribeEvent answers =>
      exact iff_of_true (kept _ (subscribeEvent_keeps maxRetry sound answers)) trivial
  | disconnectEvent => exact iff_of_true (kept _ (disconnectEvent_keeps sound)) trivial
  | terminateEvent => exact iff_of_true (kept _ (mqttSubscribeTerminate_keeps sound)) trivial
  | connect telemetry event yielded subscribed =>
      obtain ⟨s₁, same | same, keeps⟩ :=
        connect_keeps telemetryMask maxRetry sound telemetry event yielded subscribed
      · subst same
        exact iff_of_true (kept _ keeps) trivial
      · refine iff_of_true ?_ trivial
        intro set
        subst same
        exact keeps.connected (connected telemetry (keeps.bit ▸ set))
  | disconnect =>
      refine iff_of_true ?_ trivial
      rw [call, disconnect]
      split_ifs
      · rintro ⟨⟩
      · exact channel
  | terminate =>
      refine iff_of_true ?_ trivial
      rintro ⟨⟩

/-- The rest of what the bit tells follows from the channel. -/
theorem mirrors_iff_channel (sound : s.Sound) :
    Mirrors telemetryMask maxRetry s ↔ (s.telemetry = true → s.Connected telemetryMask) := by
  have attempts : s.telemetry = false →
      ∀ answers, 0 < (s.connectTelemetry telemetryMask maxRetry answers).attempts := by
    intro bit answers
    rcases connectTelemetry_cases maxRetry sound answers with ⟨set, -⟩ | ⟨-, pos, -⟩
    · exact absurd (bit ▸ set) Bool.false_ne_true
    · exact pos
  constructor
  · exact Mirrors.channel
  · intro channel
    refine ⟨channel, attempts, ?_, ?_⟩
    · intro needsCommand published
      have set : s.telemetry = true := by
        rw [publishes, Bool.and_eq_true, Bool.and_eq_true] at published
        exact published.1.2
      obtain ⟨env, found, -, client⟩ := channel set
      exact ⟨env, found, client, by rw [sound _ env found, client]⟩
    · intro closed
      exact attempts (Bool.eq_false_iff.mpr fun set => closed (channel set))

/-! ### Runs -/

variable (telemetryMask) (initDone : Bool)

theorem run_append (calls : List RoutineCall) (k : RoutineCall) :
    run telemetryMask maxRetry initDone (calls ++ [k]) =
      (run telemetryMask maxRetry initDone calls).call telemetryMask maxRetry k := by
  rw [run, run, List.foldl_append]
  rfl

theorem run_sound (calls : List RoutineCall) :
    (run telemetryMask maxRetry initDone calls).Sound := by
  induction calls using List.reverseRecOn with
  | nil =>
      rintro _ _ ⟨⟩
  | append_singleton calls k ih =>
      rw [run_append]
      exact call_sound maxRetry ih k

/-- In every run the bit of telemetry mirrors the channel in all states that are reached exactly if
all calls meet the condition in the states that they are made in. -/
theorem mirrors_iff (calls : List RoutineCall) :
    (∀ front, front <+: calls →
      Mirrors telemetryMask maxRetry (run telemetryMask maxRetry initDone front)) ↔
    ∀ front k, front ++ [k] <+: calls →
      (run telemetryMask maxRetry initDone front).Meets k := by
  refine forall_prefix_iff ?_ (fun front k mirrors => ?_) calls
  · rw [mirrors_iff_channel maxRetry (run_sound telemetryMask maxRetry initDone [])]
    exact fun set => absurd set Bool.false_ne_true
  · rw [mirrors_iff_channel maxRetry (run_sound telemetryMask maxRetry initDone _), run_append]
    exact call_channel_iff maxRetry (run_sound telemetryMask maxRetry initDone front)
      mirrors.channel k

/-- After its disconnect telemetry has no channel, but its bit is set: the next connect gives up
before it attempts one. -/
theorem not_mirrors_disconnected : ¬ (∀ front, front <+: [RoutineCall.connectTelemetry
    fun _ => Channel.accepted, .disconnectTelemetry] →
      Mirrors .acn (-1) (run .acn (-1) true front)) := by
  intro mirrors
  have disconnected := (mirrors _ (List.prefix_refl _)).reconnects ?_ fun _ => Channel.accepted
  · exact absurd disconnected (by decide)
  · rintro ⟨_, ⟨⟩, -⟩

end

end Routines

end AcnSdk.Arrow
