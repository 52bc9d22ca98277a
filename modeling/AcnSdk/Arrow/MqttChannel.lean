/-
The life cycle of the MQTT channel, `src/arrow/mqtt.c`, when telemetry and commands share it.

The channel records in flags which of its two users are set up and whether it is connected.
Each user's disconnect closes the connection or keeps it, depending on the flag of the other.
What drivers and network answer to a connect is an input.

* `shared_channel_iff` — when the channel is connected exactly while it has an active user.
-/

import AcnSdk.Lib.Runs

namespace AcnSdk.Arrow

/-- `enum _mqtt_init`. -/
inductive InitFlag where
  | common | telemetry | subscribe | client | commands
deriving DecidableEq, Repr

/-- The bit of the flag. -/
def InitFlag.bit : InitFlag → Nat
  | .common => 0
  | .telemetry => 1
  | .subscribe => 2
  | .client => 3
  | .commands => 5

def InitFlag.mask (flag : InitFlag) : BitVec 16 := .twoPow 16 flag.bit

/-- `mqtt_env_t`, and whether its socket is open. -/
structure MqttEnv where
  init : BitVec 16
  isOpen : Bool
deriving DecidableEq

/-- What is answered to a connect: by the driver (`telemetry_init` or `commands_init`, then
`api_publish_init` or `api_subscribe_init` where API calls go over MQTT), by `NetworkConnect` and
by `MQTTConnect`. -/
structure Answers where
  driver : Int
  api : Option Int
  network : Int
  connack : Int
deriving DecidableEq, Repr

namespace MqttEnv

/-- `_mqtt_env_is_init`. -/
def isInit (env : MqttEnv) (flag : InitFlag) : Bool := env.init &&& flag.mask != 0

/-- `_mqtt_env_set_init`. -/
def setInit (env : MqttEnv) (flag : InitFlag) : MqttEnv :=
  { env with init := env.init ||| flag.mask }

/-- `_mqtt_env_unset_init`. -/
def unsetInit (env : MqttEnv) (flag : InitFlag) : MqttEnv :=
  { env with init := env.init &&& ~~~ flag.mask }

/-- `_mqtt_env_connect`. -/
def connect (answers : Answers) (env : MqttEnv) : MqttEnv × Int :=
  if answers.network < 0 then (env, -1)
  else if answers.connack ≠ 0 then ({ env with isOpen := false }, -1)
  else ({ env.setInit .client with isOpen := true }, 0)

/-- `_mqtt_env_close`. -/
def close (env : MqttEnv) : MqttEnv :=
  { (env.unsetInit .client).unsetInit .commands with isOpen := false }

/-- The settings of a user, if it has none yet, with what is returned if that fails. -/
def userSettings (user : InitFlag) (answers : Answers) (env : MqttEnv) : MqttEnv × Option Int :=
  if env.isInit user then (env, none)
  else if answers.driver < 0 then (env, some answers.driver)
  else match answers.api with
    | none => (env.setInit user, none)
    | some api => if api < 0 then (env, some api) else (env.setInit user, none)

/-- The connect of a user. -/
def userConnect (user : InitFlag) (answers : Answers) (env : MqttEnv) : MqttEnv × Int :=
  let env := if env.isInit .common then env else env.setInit .common
  match env.userSettings user answers with
  | (env, some ret) => (env, ret)
  | (env, none) => if env.isInit .client then (env, 0) else env.connect answers

/-- The disconnect of a user, beside another one. -/
def userDisconnect (user other : InitFlag) (env : MqttEnv) : MqttEnv :=
  if env.isInit other then env.unsetInit user else env.close

/-- `mqtt_telemetry_connect`. -/
def mqttTelemetryConnect : Answers → MqttEnv → MqttEnv × Int := userConnect .telemetry

/-- `mqtt_telemetry_disconnect`. -/
def mqttTelemetryDisconnect : MqttEnv → MqttEnv := userDisconnect .telemetry .subscribe

/-- `mqtt_subscribe_connect`. -/
def mqttSubscribeConnect : Answers → MqttEnv → MqttEnv × Int := userConnect .subscribe

/-- `mqtt_subscribe_disconnect`. -/
def mqttSubscribeDisconnect : MqttEnv → MqttEnv := userDisconnect .subscribe .telemetry

/-- `mqtt_disconnect`. -/
def mqttDisconnect (env : MqttEnv) : MqttEnv := if env.isInit .client then env.close else env

/-! ### Flags -/

theorem bit_lt (flag : InitFlag) : flag.bit < 16 := by
  cases flag <;> decide

theorem bit_inj {f g : InitFlag} (eq : f.bit = g.bit) : f = g := by
  cases f <;> cases g <;> first | rfl | exact absurd eq (by decide)

theorem isInit_eq (env : MqttEnv) (f : InitFlag) : env.isInit f = env.init.getLsbD f.bit := by
  rw [isInit, InitFlag.mask, BitVec.and_twoPow]
  cases env.init.getLsbD f.bit with
  | true => cases f <;> rfl
  | false => rfl

@[simp] theorem isInit_setInit (env : MqttEnv) (f g : InitFlag) :
    (env.setInit f).isInit g = (env.isInit g || f == g) := by
  rw [isInit_eq, isInit_eq, setInit, BitVec.getLsbD_or, InitFlag.mask, BitVec.getLsbD_twoPow]
  by_cases same : f = g
  · subst same
    simp [bit_lt]
  · have other : f.bit ≠ g.bit := fun eq => same (bit_inj eq)
    simp [same, other]

@[simp] theorem isInit_unsetInit (env : MqttEnv) (f g : InitFlag) :
    (env.unsetInit f).isInit g = (env.isInit g && f != g) := by
  rw [isInit_eq, isInit_eq, unsetInit, BitVec.getLsbD_and, BitVec.getLsbD_not, InitFlag.mask,
    BitVec.getLsbD_twoPow]
  by_cases same : f = g
  · subst same
    simp [bit_lt]
  · have other : f.bit ≠ g.bit := fun eq => same (bit_inj eq)
    simp [same, other, bit_lt]

@[simp] theorem isInit_open (env : MqttEnv) (b : Bool) (f : InitFlag) :
    ({ env with isOpen := b } : MqttEnv).isInit f = env.isInit f := rfl

@[simp] theorem isOpen_setInit (env : MqttEnv) (f : InitFlag) :
    (env.setInit f).isOpen = env.isOpen := rfl

@[simp] theorem isOpen_unsetInit (env : MqttEnv) (f : InitFlag) :
    (env.unsetInit f).isOpen = env.isOpen := rfl

/-! ### What connect and disconnect do -/

section

variable {user : InitFlag} (answers : Answers) {env : MqttEnv}

/-- A connect sets flags, and the connection is open with the flag of the client. -/
structure Connects (user : InitFlag) (env : MqttEnv) (result : MqttEnv × Int) : Prop where
  flags : ∀ f, env.isInit f = true → result.1.isInit f = true
  success : result.2 = 0 → result.1.isInit user = true ∧ result.1.isInit .client = true
  failed : result.2 ≠ 0 → result.1.isInit .client = env.isInit .client
  isOpen : result.1.isOpen = result.1.isInit .client

theorem connect_connects (set : env.isInit user = true) (closed : env.isInit .client = false)
    (isOpen : env.isOpen = env.isInit .client) : Connects user env (env.connect answers) := by
  have minus : (-1 : Int) ≠ 0 := by decide
  unfold connect
  split_ifs
  · exact ⟨fun _ h => h, fun h => absurd h minus, fun _ => rfl, isOpen⟩
  · exact ⟨fun _ h => h, fun h => absurd h minus, fun _ => rfl, closed.symm⟩
  · refine ⟨fun f h => ?_, fun _ => ⟨?_, ?_⟩, fun h => absurd rfl h, ?_⟩
    · simp [h]
    · simp [set]
    · simp
    · simp

/-- The settings are there afterwards, or the result is negative. -/
theorem userSettings_cases (env : MqttEnv) (other : user ≠ .client) :
    (∃ env', env.userSettings user answers = (env', none) ∧ env'.isInit user = true ∧
      env'.isOpen = env.isOpen ∧ env'.isInit .client = env.isInit .client ∧
      ∀ f, env.isInit f = true → env'.isInit f = true) ∨
    ∃ ret < 0, env.userSettings user answers = (env, some ret) := by
  have made : (env.setInit user).isInit user = true ∧ (env.setInit user).isOpen = env.isOpen ∧
      (env.setInit user).isInit .client = env.isInit .client ∧
      ∀ f, env.isInit f = true → (env.setInit user).isInit f = true := by
    refine ⟨by simp, rfl, by simp [other], fun f h => by simp [h]⟩
  unfold userSettings
  by_cases set : env.isInit user = true
  · rw [if_pos set]
    exact .inl ⟨env, rfl, set, rfl, rfl, fun _ h => h⟩
  · rw [if_neg set]
    by_cases refused : answers.driver < 0
    · rw [if_pos refused]
      exact .inr ⟨_, refused, rfl⟩
    · rw [if_neg refused]
      cases answers.api with
      | none => exact .inl ⟨_, rfl, made⟩
      | some api =>
          by_cases refused : api < 0
          · exact .inr ⟨api, refused, if_pos refused⟩
          · exact .inl ⟨_, if_neg refused, made⟩

theorem userConnect_connects (other : user ≠ .client) (isOpen : env.isOpen = env.isInit .client) :
    Connects user env (env.userConnect user answers) := by
  obtain ⟨env₁, eq, flags, client, open₁⟩ :
      ∃ env₁, (if env.isInit .common then env else env.setInit .common) = env₁ ∧
        (∀ f, env.isInit f = true → env₁.isInit f = true) ∧
        env₁.isInit .client = env.isInit .client ∧ env₁.isOpen = env₁.isInit .client := by
    split_ifs
    · exact ⟨env, rfl, fun _ h => h, rfl, isOpen⟩
    · exact ⟨_, rfl, fun f h => by simp [h], by simp, by simp [isOpen]⟩
  rw [userConnect, eq]
  rcases userSettings_cases answers env₁ other with
    ⟨env₂, settings, set, open₂, client₂, flags₂⟩ | ⟨ret, negative, settings⟩
  · rw [settings]
    dsimp only
    have isOpen₂ : env₂.isOpen = env₂.isInit .client := by rw [open₂, open₁, client₂]
    by_cases connected : env₂.isInit .client = true
    · rw [if_pos connected]
      exact ⟨fun f h => flags₂ f (flags f h), fun _ => ⟨set, connected⟩, fun h => absurd rfl h,
        isOpen₂⟩
    · rw [if_neg connected]
      have connects := connect_connects answers set
        (Bool.eq_false_iff.mpr connected) isOpen₂
      refine ⟨fun f h => connects.flags f (flags₂ f (flags f h)), connects.success, ?_,
        connects.isOpen⟩
      intro refused
      rw [connects.failed refused, client₂, client]
  · rw [settings]
    exact ⟨flags, fun h => absurd h (Int.ne_of_lt negative), fun _ => client, open₁⟩

theorem connect_nonpos (env : MqttEnv) : (env.connect answers).2 ≤ 0 := by
  have minus : (-1 : Int) ≤ 0 := by decide
  unfold connect
  split_ifs
  · exact minus
  · exact minus
  · exact Int.le_refl 0

theorem userConnect_nonpos (env : MqttEnv) (other : user ≠ .client) :
    (env.userConnect user answers).2 ≤ 0 := by
  rw [userConnect]
  rcases userSettings_cases answers (if env.isInit .common then env else env.setInit .common) other
    with ⟨env', settings, -⟩ | ⟨ret, negative, settings⟩
  · rw [settings]
    dsimp only
    split_ifs
    · exact Int.le_refl 0
    · exact connect_nonpos answers env'
  · rw [settings]
    exact Int.le_of_lt negative

end

end MqttEnv

/-! ### The channel and its users -/

/-- Who uses the channel. -/
inductive User where
  | telemetry | subscribe
deriving DecidableEq, Repr

namespace User

def flag : User → InitFlag
  | .telemetry => .telemetry
  | .subscribe => .subscribe

def other : User → User
  | .telemetry => .subscribe
  | .subscribe => .telemetry

def connect : User → Answers → MqttEnv → MqttEnv × Int
  | .telemetry => MqttEnv.mqttTelemetryConnect
  | .subscribe => MqttEnv.mqttSubscribeConnect

def disconnect : User → MqttEnv → MqttEnv
  | .telemetry => MqttEnv.mqttTelemetryDisconnect
  | .subscribe => MqttEnv.mqttSubscribeDisconnect

theorem connect_eq (u : User) : u.connect = MqttEnv.userConnect u.flag := by
  cases u <;> rfl

theorem disconnect_eq (u : User) : u.disconnect = MqttEnv.userDisconnect u.flag u.other.flag := by
  cases u <;> rfl

theorem flag_ne_client (u : User) : u.flag ≠ .client := by
  cases u <;> decide

theorem eq_or_eq_other (u v : User) : v = u ∨ v = u.other := by
  cases u <;> cases v <;> simp [other]

theorem flag_other_ne (u : User) : u.other.flag ≠ u.flag := by
  cases u <;> decide

end User

/-- A call of the functions of the channel. -/
inductive Call where
  | connect (u : User) (answers : Answers)
  | disconnect (u : User)
  | mqttDisconnect
deriving DecidableEq, Repr

/-- The channel with its active users: from a connect that succeeds to a disconnect. -/
structure Channel where
  env : MqttEnv
  active : User → Bool

namespace Channel

/-- No user has called yet. -/
def start : Channel := ⟨⟨0, false⟩, fun _ => false⟩

def call (c : Channel) : Call → Channel
  | .connect u answers =>
      let result := u.connect answers c.env
      ⟨result.1, fun v => if v = u ∧ result.2 = 0 then true else c.active v⟩
  | .disconnect u => ⟨u.disconnect c.env, fun v => if v = u then false else c.active v⟩
  | .mqttDisconnect => ⟨c.env.mqttDisconnect, fun _ => false⟩

/-- The channel is connected while it has an active user, and closed without one. -/
structure Right (c : Channel) : Prop where
  connected : c.env.isInit .client = true ↔ ∃ u, c.active u = true
  closed : (∀ u, c.active u = false) → c.env.isOpen = false

/-- An active user that disconnects finds the flag of the other one set only if that one is active
too. -/
def Meets (c : Channel) : Call → Prop
  | .disconnect u => c.active u = true → c.env.isInit u.other.flag = true →
      c.active u.other = true
  | _ => True

/-- Active users have their flag, and the connection is open with the flag of the client. -/
structure Sound (c : Channel) : Prop where
  flags : ∀ u, c.active u = true → c.env.isInit u.flag = true
  isOpen : c.env.isOpen = c.env.isInit .client

variable {c : Channel}

theorem Sound.right (sound : c.Sound)
    (connected : c.env.isInit .client = true ↔ ∃ u, c.active u = true) : c.Right := by
  refine ⟨connected, fun none => ?_⟩
  rw [sound.isOpen, Bool.eq_false_iff, ne_eq, connected]
  rintro ⟨u, active⟩
  exact absurd (none u) (by rw [active]; decide)

/-! ### One call -/

theorem close_isInit_client (env : MqttEnv) : env.close.isInit .client = false := by
  simp [MqttEnv.close]

theorem close_isInit_flag (env : MqttEnv) (u : User) :
    env.close.isInit u.flag = env.isInit u.flag := by
  have client : (InitFlag.client != u.flag) = true := by cases u <;> rfl
  have commands : (InitFlag.commands != u.flag) = true := by cases u <;> rfl
  rw [MqttEnv.close, MqttEnv.isInit_open, MqttEnv.isInit_unsetInit, MqttEnv.isInit_unsetInit,
    client, commands, Bool.and_true, Bool.and_true]

theorem Sound.call (sound : c.Sound) (k : Call) : (c.call k).Sound := by
  cases k with
  | connect u answers =>
      have connects := MqttEnv.userConnect_connects answers u.flag_ne_client
        sound.isOpen
      rw [← u.connect_eq] at connects
      refine ⟨fun v active => ?_, connects.isOpen⟩
      by_cases succeeds : v = u ∧ (u.connect answers c.env).2 = 0
      · obtain ⟨rfl, zero⟩ := succeeds
        exact (connects.success zero).1
      · have before : c.active v = true := by
          simpa only [Channel.call, if_neg succeeds] using active
        exact connects.flags _ (sound.flags v before)
  | disconnect u =>
      have others : ∀ v, (c.call (.disconnect u)).active v = true →
          v ≠ u ∧ c.env.isInit v.flag = true := by
        intro v active
        have ne : v ≠ u := by
          rintro rfl
          exact absurd active (by simp [Channel.call])
        exact ⟨ne, sound.flags v (by simpa [Channel.call, ne] using active)⟩
      by_cases kept : c.env.isInit u.other.flag = true
      · have env : (c.call (.disconnect u)).env = c.env.unsetInit u.flag := by
          rw [Channel.call, u.disconnect_eq, MqttEnv.userDisconnect, if_pos kept]
        refine ⟨fun v active => ?_, ?_⟩
        · obtain ⟨ne, set⟩ := others v active
          obtain rfl := (u.eq_or_eq_other v).resolve_left ne
          simp [env, set, u.flag_other_ne.symm]
        · simp [env, sound.isOpen, u.flag_ne_client]
      · have env : (c.call (.disconnect u)).env = c.env.close := by
          rw [Channel.call, u.disconnect_eq, MqttEnv.userDisconnect, if_neg kept]
        refine ⟨fun v active => ?_, ?_⟩
        · rw [env, close_isInit_flag]
          exact (others v active).2
        · rw [env, close_isInit_client]
          rfl
  | mqttDisconnect =>
      refine ⟨fun v active => absurd active (by simp [Channel.call]), ?_⟩
      rw [Channel.call, MqttEnv.mqttDisconnect]
      dsimp only
      split_ifs with connected
      · rw [close_isInit_client]
        rfl
      · exact sound.isOpen

/-- From a state in which the channel is right, one call leaves it so exactly if the call meets the
condition. -/
theorem call_right_iff (sound : c.Sound) (right : c.Right) (k : Call) :
    (c.call k).Right ↔ c.Meets k := by
  have sound' := sound.call k
  cases k with
  | connect u answers =>
      have connects := MqttEnv.userConnect_connects answers u.flag_ne_client
        sound.isOpen
      rw [← u.connect_eq] at connects
      refine iff_of_true (sound'.right ?_) trivial
      by_cases zero : (u.connect answers c.env).2 = 0
      · exact iff_of_true (connects.success zero).2 ⟨u, by simp [Channel.call, zero]⟩
      · have same : (c.call (.connect u answers)).active = c.active := by
          funext v
          simp [Channel.call, zero]
        rw [same, ← right.connected, ← connects.failed zero]
        rfl
  | disconnect u =>
      have active : ∀ v, (c.call (.disconnect u)).active v = true ↔ v ≠ u ∧ c.active v = true := by
        intro v
        simp [Channel.call]
      have left : (∃ v, (c.call (.disconnect u)).active v = true) ↔ c.active u.other = true := by
        simp only [active]
        constructor
        · rintro ⟨v, ne, on⟩
          rwa [(u.eq_or_eq_other v).resolve_left ne] at on
        · intro on
          exact ⟨_, by cases u <;> decide, on⟩
      by_cases kept : c.env.isInit u.other.flag = true
      · have client : (c.call (.disconnect u)).env.isInit .client = c.env.isInit .client := by
          rw [Channel.call, u.disconnect_eq, MqttEnv.userDisconnect, if_pos kept]
          simp [u.flag_ne_client]
        constructor
        · intro right' on _
          rw [← left, ← right'.connected, client, right.connected]
          exact ⟨u, on⟩
        · intro meets
          refine sound'.right ?_
          rw [left, client, right.connected]
          constructor
          · rintro ⟨v, on⟩
            rcases u.eq_or_eq_other v with rfl | rfl
            · exact meets on kept
            · exact on
          · exact fun on => ⟨_, on⟩
      · have off : ¬ c.active u.other = true := fun on => kept (sound.flags _ on)
        have client : (c.call (.disconnect u)).env.isInit .client = false := by
          rw [Channel.call, u.disconnect_eq, MqttEnv.userDisconnect, if_neg kept,
            close_isInit_client]
        refine iff_of_true (sound'.right ?_) fun _ set => absurd set kept
        rw [left, client]
        exact iff_of_false (by decide) off
  | mqttDisconnect =>
      refine iff_of_true (sound'.right (iff_of_false ?_ ?_)) trivial
      · rw [Channel.call, MqttEnv.mqttDisconnect]
        dsimp only
        split_ifs with connected
        · rw [close_isInit_client]
          decide
        · exact connected
      · rintro ⟨u, active⟩
        exact absurd active (by simp [Channel.call])

/-! ### Runs -/

/-- The state after some calls. -/
def run (calls : List Call) : Channel := calls.foldl Channel.call start

theorem start_sound : start.Sound :=
  ⟨fun _ active => absurd active Bool.false_ne_true, rfl⟩

theorem start_right : start.Right :=
  start_sound.right (iff_of_false (by decide) fun ⟨_, active⟩ => Bool.false_ne_true active)

theorem run_sound (calls : List Call) : (run calls).Sound := by
  induction calls using List.reverseRecOn with
  | nil => exact start_sound
  | append_singleton calls k ih =>
      rw [run, List.foldl_append]
      exact ih.call k

/-- In every run the channel is right in all states that are reached exactly if all calls meet the
condition in the states that they are made in. -/
theorem shared_channel_iff (calls : List Call) :
    (∀ front, front <+: calls → (run front).Right) ↔
      ∀ front k, front ++ [k] <+: calls → (run front).Meets k := by
  refine Lib.forall_prefix_iff start_right (fun front k right => ?_) calls
  have step : run (front ++ [k]) = (run front).call k := by
    rw [run, run, List.foldl_append]
    rfl
  rw [step]
  exact call_right_iff (run_sound front) right k

/-- All that is asked of drivers and network succeeds. -/
def accepted : Answers := ⟨0, none, 3, 0⟩

/-- The flag of telemetry outlives its disconnect, so that the disconnect of the commands keeps the
connection, which nobody uses. -/
theorem not_right_stale : ¬ (∀ front, front <+: [Call.connect .telemetry accepted,
    .disconnect .telemetry, .connect .subscribe accepted, .disconnect .subscribe] →
      (run front).Right) := by
  intro right
  have unused := (right _ (List.prefix_refl _)).closed fun u => by cases u <;> decide
  exact absurd unused (by decide)

end Channel

end AcnSdk.Arrow
