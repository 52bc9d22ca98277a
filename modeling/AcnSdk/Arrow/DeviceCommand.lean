/-
The handler of device commands, `src/arrow/device_command.c`, and the settings of the HTTP client
that the handlers of events leave.

Both handlers keep the session open for their answers, and in a build with `HTTP_VIA_MQTT` send
them over MQTT. What becomes of the answers and what registered functions return are inputs.

* `restored_iff` — when the settings are as before after the handler of a command or a release.
-/

import AcnSdk.Arrow.SoftwareRelease

namespace AcnSdk.Arrow

open AcnSdk.Lib AcnSdk.Http AcnSdk.Json AcnSdk.Ssl

variable {σ ν : Type}

/-- `"deviceHid"` -/
abbrev deviceHidText : Bytes := [0x64, 0x65, 0x76, 0x69, 0x63, 0x65, 0x48, 0x69, 0x64]

/-- `"command"` -/
abbrev commandText : Bytes := [0x63, 0x6F, 0x6D, 0x6D, 0x61, 0x6E, 0x64]

/-- `"Command"` -/
abbrev commandTextUpper : Bytes := [0x43, 0x6F, 0x6D, 0x6D, 0x61, 0x6E, 0x64]

/-- `"payload"` -/
abbrev commandPayloadText : Bytes := [0x70, 0x61, 0x79, 0x6C, 0x6F, 0x61, 0x64]

/-- `"Payload"` -/
abbrev commandPayloadTextUpper : Bytes := [0x50, 0x61, 0x79, 0x6C, 0x6F, 0x61, 0x64]

/-- An event with all that its handler meets. `handlers` are the registered functions under their
names. -/
structure CommandEvent (ν : Type) where
  parameters : JsonNode ν
  handlers : List (Bytes × (Bytes → Int))
  received : Nat → RequestAnswer
  failed : Nat → RequestAnswer
  succeeded : Nat → RequestAnswer

/-- What the handler leaves. `error` is what it reports to have gone wrong. -/
structure CommandOutcome where
  ret : Int
  settings : HttpSettings
  error : Option String

/-- The text of a member under one of two names. The second name only counts if there is no member
under the first. -/
def eitherMember (node : JsonNode ν) (name upper : Bytes) : Option Bytes :=
  ((node.jsonFindMember name).or (node.jsonFindMember upper)).bind JsonNode.stringValue

namespace CommandEvent

/-- The error of an event, if its command does not succeed. -/
def error (ev : CommandEvent ν) : Option String :=
  match stringMember ev.parameters deviceHidText with
  | none => some "There is no device HID"
  | some _ =>
      match eitherMember ev.parameters commandText commandTextUpper with
      | none => some "There is no command"
      | some cmd =>
          match eitherMember ev.parameters commandPayloadText commandPayloadTextUpper with
          | none => some "There is no payload"
          | some pay =>
              match ev.handlers.find? fun h => strcmp h.1 cmd == 0 with
              | none => some "There is no a command handler"
              | some h => if h.2 pay < 0 then some "Something went wrong" else none

/-- The answers to the report of the result. -/
def answers (ev : CommandEvent ν) : Nat → RequestAnswer :=
  if ev.error.isSome then ev.failed else ev.succeeded

end CommandEvent

/-- `ev_DeviceCommand`. `viaMqtt` is the build with `HTTP_VIA_MQTT`. -/
def evDeviceCommand (ev : CommandEvent ν) (maxRetry : Int) (viaMqtt : Bool) (s : HttpSettings) :
    CommandOutcome :=
  let tried := retryRequest maxRetry ev.received (s.begun viaMqtt)
  if tried.success then
    let tried := retryRequest maxRetry ev.answers (tried.state.closeSet true)
    if tried.success then ⟨0, tried.state.setProtocol .viaHttp, ev.error⟩
    else ⟨-2, tried.state, ev.error⟩
  else ⟨-2, tried.state, none⟩

/-! ### The settings -/

/-- The settings are those of `http_client_init`. -/
def Restored (s : HttpSettings) : Prop := s.close = true ∧ s.protocol = .viaHttp

/-- The first answer, if it is given up, leaves the settings as they were. -/
def GivesUpRestored (maxRetry : Int) (viaMqtt : Bool) (received : Nat → RequestAnswer) : Prop :=
  viaMqtt = false ∧ ∃ i ≤ maxRetry.toNat, (received i).Closes

/-- The first answer succeeds, and the second one too unless answers go over HTTP; or the first one
is given up with the settings as they were. -/
def CommandEvent.Meets (ev : CommandEvent ν) (maxRetry : Int) (viaMqtt : Bool) : Prop :=
  (Answered maxRetry ev.received → viaMqtt = true → Answered maxRetry ev.answers) ∧
  (¬ Answered maxRetry ev.received → GivesUpRestored maxRetry viaMqtt ev.received)

/-- The event has no transaction; or the first answer succeeds, and the one about a failure before
the download too unless answers go over HTTP; or the first one is given up with the settings as they
were. -/
def ReleaseEvent.Restores (ev : ReleaseEvent σ ν) (maxRetry : Int) (viaMqtt : Bool) : Prop :=
  (stringMember ev.parameters softwareReleaseTransHidText).isSome = true →
    (Answered maxRetry ev.received →
      (∀ checksum, ev.checksum = some checksum → ev.callbacks.initResult checksum < 0) →
        viaMqtt = true → Answered maxRetry ev.failed) ∧
    (¬ Answered maxRetry ev.received → GivesUpRestored maxRetry viaMqtt ev.received)

variable {maxRetry : Int} {viaMqtt : Bool}

theorem begun_protocol (viaMqtt : Bool) :
    (HttpSettings.initial.begun viaMqtt).protocol = .viaHttp ↔ viaMqtt = false := by
  cases viaMqtt <;> decide

theorem begun_close (viaMqtt : Bool) : (HttpSettings.initial.begun viaMqtt).close = false := by
  cases viaMqtt <;> rfl

theorem received_protocol (received : Nat → RequestAnswer) :
    (retryRequest maxRetry received (HttpSettings.initial.begun viaMqtt)).state.protocol =
      .viaHttp ↔
      viaMqtt = false := by
  rw [retryRequest_protocol, begun_protocol]

/-- The first answer, given up. -/
theorem received_restored {received : Nat → RequestAnswer}
    (gaveUp : ¬
      (retryRequest maxRetry received (HttpSettings.initial.begun viaMqtt)).success = true) :
    Restored (retryRequest maxRetry received (HttpSettings.initial.begun viaMqtt)).state ↔
      GivesUpRestored maxRetry viaMqtt received := by
  rw [Restored, GivesUpRestored, received_protocol,
    retryRequest_close (Bool.eq_false_iff.mpr gaveUp), begun_close, and_comm]
  simp

/-- A later answer, from a state that is set to close the session. -/
theorem answered_restored (maxRetry : Int) (answers : Nat → RequestAnswer) (s : HttpSettings) :
    Restored (retryRequest maxRetry answers (s.closeSet true)).state ↔ s.protocol = .viaHttp := by
  rw [Restored, retryRequest_protocol]
  exact and_iff_right (retryRequest_closed maxRetry answers rfl)

theorem setProtocol_restored (maxRetry : Int) (answers : Nat → RequestAnswer) (s : HttpSettings) :
    Restored ((retryRequest maxRetry answers (s.closeSet true)).state.setProtocol .viaHttp) :=
  ⟨retryRequest_closed maxRetry answers rfl, rfl⟩

theorem command_restored (ev : CommandEvent ν) (maxRetry : Int) (viaMqtt : Bool) :
    Restored (evDeviceCommand ev maxRetry viaMqtt .initial).settings ↔
      ev.Meets maxRetry viaMqtt := by
  rw [evDeviceCommand, CommandEvent.Meets]
  dsimp only
  split_ifs with received answered
  · have first := (retryRequest_success _ _ _).mp received
    have second := (retryRequest_success _ _ _).mp answered
    refine iff_of_true (setProtocol_restored _ _ _) ⟨fun _ _ => second, ?_⟩
    exact fun none => absurd first none
  · have first := (retryRequest_success _ _ _).mp received
    have second := mt (retryRequest_success _ _ _).mpr answered
    dsimp only
    rw [answered_restored, received_protocol]
    constructor
    · rintro rfl
      exact ⟨fun _ on => absurd on Bool.false_ne_true, fun none => absurd first none⟩
    · rintro ⟨meets, -⟩
      exact Bool.eq_false_iff.mpr fun on => second (meets first on)
  · have first := mt (retryRequest_success _ _ _).mpr received
    dsimp only
    rw [received_restored received]
    constructor
    · intro restored
      exact ⟨fun some => absurd some first, fun _ => restored⟩
    · rintro ⟨-, meets⟩
      exact meets first

/-! ### Releases -/

section Release

variable {ev : ReleaseEvent σ ν} {done : Downloaded} {s s' : HttpSettings} {md5 : Md5}

theorem softwareReleaseDone_restored (http : s.protocol = .viaHttp) :
    Restored (softwareReleaseDone ev maxRetry done s).settings := by
  have left : ∀ answers, Restored (retryRequest maxRetry answers (s.closeSet true)).state :=
    fun answers => (answered_restored maxRetry answers s).mpr http
  rw [softwareReleaseDone]
  dsimp only
  split_ifs
  · exact setProtocol_restored _ _ _
  · exact left _
  · exact setProtocol_restored _ _ _
  · exact left _

theorem softwareReleaseDone_failed (fails : done.ret < 0) :
    Restored (softwareReleaseDone ev maxRetry done s).settings ↔
      s.protocol = .viaHttp ∨ Answered maxRetry ev.failed := by
  rw [softwareReleaseDone, if_pos fails]
  dsimp only
  split_ifs with answered
  · exact iff_of_true (setProtocol_restored _ _ _) (.inr ((retryRequest_success _ _ _).mp answered))
  · have none := mt (retryRequest_success _ _ _).mpr answered
    rw [or_iff_left none]
    exact answered_restored maxRetry ev.failed s

/-- Without a download the settings stay, and the result is negative. -/
theorem releaseBody_stays (md5 : Md5) (s : HttpSettings)
    (refused : ∀ checksum, ev.checksum = some checksum → ev.callbacks.initResult checksum < 0) :
    ∃ done, releaseBody ev md5 s = .ok (done, s) ∧ done.ret < 0 := by
  have minus : (-1 : Int) < 0 := by decide
  rw [releaseBody]
  cases members : ev.checksum with
  | none => exact ⟨_, rfl, minus⟩
  | some checksum =>
      have init := refused checksum members
      exact ⟨_, if_pos init, init⟩

/-- A download is made over HTTP. -/
theorem releaseBody_http {checksum : Bytes} (members : ev.checksum = some checksum)
    (init : ¬ ev.callbacks.initResult checksum < 0)
    (run : releaseBody ev md5 s = .ok (done, s')) : s'.protocol = .viaHttp := by
  rw [releaseBody, members] at run
  dsimp only at run
  rw [if_neg init] at run
  obtain ⟨_, -, run⟩ := Prog.ok_of_bind run
  cases run
  exact request_protocol _ _

theorem only_ok {β : Type} {P : β → Prop} {b : β} :
    (∀ o, (.ok b : Except Fault β) = .ok o → P o) ↔ P b := by
  constructor
  · exact fun all => all b rfl
  · rintro holds _ ⟨⟩
    exact holds

theorem release_restored (ev : ReleaseEvent σ ν) (maxRetry : Int) (viaMqtt : Bool) (md5 : Md5) :
    (∀ o, evDeviceSoftwareRelease ev maxRetry viaMqtt md5 .initial = .ok o → Restored o.settings) ↔
      ev.Restores maxRetry viaMqtt := by
  rw [evDeviceSoftwareRelease, ReleaseEvent.Restores]
  cases stringMember ev.parameters softwareReleaseTransHidText with
  | none =>
      refine iff_of_true ?_ fun some => absurd some Bool.false_ne_true
      rintro _ ⟨⟩
      exact ⟨rfl, rfl⟩
  | some hid =>
      dsimp only
      rw [Option.isSome_some, forall_prop_of_true rfl]
      split_ifs with received
      · have first := (retryRequest_success _ _ _).mp received
        rw [and_iff_left fun none => absurd first none, forall_prop_of_true first]
        by_cases refused : ∀ checksum, ev.checksum = some checksum →
            ev.callbacks.initResult checksum < 0
        · obtain ⟨done, body, fails⟩ := releaseBody_stays md5
            (retryRequest maxRetry ev.received (HttpSettings.initial.begun viaMqtt)).state refused
          rw [forall_prop_of_true refused, Prog.then_of_ok body]
          refine only_ok.trans ?_
          rw [softwareReleaseDone_failed fails, received_protocol]
          cases viaMqtt <;> simp
        · refine iff_of_true ?_ fun none => absurd none refused
          intro o run
          obtain ⟨checksum, begins⟩ := not_forall.mp refused
          obtain ⟨members, init⟩ := Classical.not_imp.mp begins
          obtain ⟨⟨done, s'⟩, body, run⟩ := Prog.ok_of_bind run
          cases run
          exact softwareReleaseDone_restored (releaseBody_http members init body)
      · have first := mt (retryRequest_success _ _ _).mpr received
        rw [and_iff_right fun some => absurd some first, forall_prop_of_true first, only_ok]
        exact received_restored received

end Release

/-- After the handler of a command or of a release the settings are as before exactly if the event
meets its condition. -/
theorem restored_iff (maxRetry : Int) (viaMqtt : Bool) :
    (∀ ev : CommandEvent ν, Restored (evDeviceCommand ev maxRetry viaMqtt .initial).settings ↔
      ev.Meets maxRetry viaMqtt) ∧
    ∀ (ev : ReleaseEvent σ ν) (md5 : Md5),
      (∀ o, evDeviceSoftwareRelease ev maxRetry viaMqtt md5 .initial = .ok o →
        Restored o.settings) ↔ ev.Restores maxRetry viaMqtt :=
  ⟨fun ev => command_restored ev maxRetry viaMqtt, fun ev md5 =>
    release_restored ev maxRetry viaMqtt md5⟩

/-- A command whose first answer finds no network. -/
def unansweredCommand : CommandEvent Nat where
  parameters := .container none .object []
  handlers := []
  received := fun _ => ⟨-1, false, false⟩
  failed := fun _ => ⟨0, false, false⟩
  succeeded := fun _ => ⟨0, false, false⟩

/-- The handler gives up and leaves the client set to keep its session. -/
theorem not_restored_unanswered :
    ¬ Restored (evDeviceCommand unansweredCommand (-1) false .initial).settings := by
  rintro ⟨close, -⟩
  exact absurd close (by decide)

end AcnSdk.Arrow
