/-
A request to change states of the device, `ev_DeviceStateRequest` of `src/arrow/state.c`, and what
all calls on the path of an event read.

The states stand as text in the payload of the request. The call answers the request before it
decodes the payload and after it has handled the states. What becomes of the answers is an input.

* `avoids_handler` — when `arrow_device_state_handler` reads only what is there.
* `typeSafe_iff` — the same for every function that a message goes through.
-/

import AcnSdk.Arrow.ApiClient
import AcnSdk.Arrow.DeviceCommand
import AcnSdk.Arrow.MessageReads
import AcnSdk.Json.Parse
import AcnSdk.Lib.Runs

namespace AcnSdk.Arrow

open AcnSdk.Lib AcnSdk.Data AcnSdk.Http AcnSdk.Json AcnSdk.Time Prog

variable {ν : Type}

/-! ### The states of a message -/

section Handler

variable (layout : Layout) (atof : Bytes → ν)

/-- What the member of a message has to be for a state: its timestamp is a string if it has a value,
and the value is one if it is taken. -/
def UpdateReads (tmp : JsonNode ν) (devState : DeviceState ν) : Prop :=
  ∀ value, tmp.jsonFindMember valueText = some value →
    ∃ timestamp, fillStringFromJson tmp timestampText = some timestamp ∧
      ∀ r, timestampParse .zero timestamp = .ok r →
        timestampLess layout devState.ts r.1 ≠ 0 → value.tag = .string

/-- What the member of a message has to be for the states of the device: if there are any it has a
key, and it is right for the state that the key names. -/
structure MemberReads (tmp : JsonNode ν) (states : List (DeviceState ν)) : Prop where
  keyed : states ≠ [] → tmp.key.isSome = true
  update : ∀ name, tmp.key = some name →
    ∀ devState, states.find? (fun devState => devState.name = name) = some devState →
      UpdateReads layout tmp devState

/-- Each member of a message is right for the states that those before it leave. -/
def HandlerReads (main : JsonNode ν) (states : List (DeviceState ν)) : Prop :=
  ∀ front tmp, front ++ [tmp] <+: main.jsonFirstChild →
    ∀ left, handleMembers layout atof front states = .ok left → MemberReads layout tmp left

theorem avoids_timestampParse (t : Timestamp) (s : Bytes) :
    Avoids .nullPointer (timestampParse t s) :=
  (failsOnly_timestampParse t s).avoids Fault.noConfusion

theorem avoids_updateState (tmp : JsonNode ν) (devState : DeviceState ν) :
    Avoids .nullPointer (updateState layout atof tmp devState) ↔
      UpdateReads layout tmp devState := by
  rw [updateState, UpdateReads]
  cases tmp.jsonFindMember valueText with
  | none =>
      exact iff_of_true (avoids_ok _ _) fun value some => absurd some.symm (Option.some_ne_none _)
  | some value =>
      have taken : ∀ ts : Timestamp, Avoids .nullPointer
          (if timestampLess layout devState.ts ts ≠ 0 then do
              let s ← stringOf (some value)
              return { devState with ts := ts, value := devState.value.parse atof s }
            else return devState : Except Fault (DeviceState ν)) ↔
          (timestampLess layout devState.ts ts ≠ 0 → value.tag = .string) := by
        intro ts
        split_ifs with newer
        · rw [imp_iff_right newer, ← avoids_string]
          exact avoids_last _ fun s => avoids_ok _ _
        · exact iff_of_true (avoids_ok _ _) fun later => absurd later newer
      simp only [Option.some.injEq, forall_eq']
      rw [avoids_stringOf_then]
      apply exists_congr
      intro timestamp
      apply and_congr_right
      intro _
      rw [avoids_then]
      refine (and_iff_right (avoids_timestampParse _ _)).trans ?_
      apply forall_congr'
      intro r
      apply imp_congr_right
      intro _
      exact taken r.1

theorem avoids_handleMember (tmp : JsonNode ν) (states : List (DeviceState ν)) :
    Avoids .nullPointer (handleMember layout atof tmp states) ↔ MemberReads layout tmp states := by
  induction states with
  | nil =>
      refine iff_of_true (avoids_ok _ _) ⟨fun none => absurd rfl none, ?_⟩
      intro name _ devState found
      cases found
  | cons devState rest ih =>
      rw [handleMember]
      cases key : tmp.key with
      | none =>
          refine iff_of_false (not_avoids_error _) fun reads => ?_
          have keyed := reads.keyed (List.cons_ne_nil _ _)
          rw [key] at keyed
          cases keyed
      | some name =>
          have keyed : tmp.key.isSome = true := by rw [key]; rfl
          dsimp only
          split_ifs with here
          · refine (avoids_last _ fun devState => avoids_ok _ _).trans ?_
            rw [avoids_updateState]
            have first : (devState :: rest).find? (fun devState => devState.name = name) =
                some devState :=
              List.find?_cons_of_pos (decide_eq_true here)
            constructor
            · intro update
              refine ⟨fun _ => keyed, fun name' key' devState' found => ?_⟩
              cases key.symm.trans key'
              cases first.symm.trans found
              exact update
            · intro reads
              exact reads.update name key devState first
          · refine (avoids_last _ fun rest => avoids_ok _ _).trans (ih.trans ?_)
            have later : (devState :: rest).find? (fun devState => devState.name = name) =
                rest.find? fun devState => devState.name = name :=
              List.find?_cons_of_neg (mt of_decide_eq_true here)
            constructor
            · intro reads
              refine ⟨fun _ => keyed, fun name' key' devState' found => ?_⟩
              cases key.symm.trans key'
              exact reads.update name key devState' (later.symm.trans found)
            · intro reads
              refine ⟨fun _ => keyed, fun name' key' devState' found => ?_⟩
              cases key.symm.trans key'
              exact reads.update name key devState' (later.trans found)

variable {layout atof} in
theorem avoids_front {front tmps : List (JsonNode ν)} (reached : front <+: tmps)
    {states : List (DeviceState ν)}
    (avoids : Avoids .nullPointer (handleMembers layout atof tmps states)) :
    Avoids .nullPointer (handleMembers layout atof front states) := by
  obtain ⟨more, rfl⟩ := reached
  rw [handleMembers_append, avoids_bind] at avoids
  exact avoids.1

theorem avoids_handleMembers (tmps : List (JsonNode ν)) (states : List (DeviceState ν)) :
    Avoids .nullPointer (handleMembers layout atof tmps states) ↔
      ∀ front tmp, front ++ [tmp] <+: tmps →
        ∀ left, handleMembers layout atof front states = .ok left →
          MemberReads layout tmp left := by
  have prefixes : (∀ front, front <+: tmps →
      Avoids .nullPointer (handleMembers layout atof front states)) ↔
        ∀ front tmp, front ++ [tmp] <+: tmps →
          ∀ left, handleMembers layout atof front states = .ok left →
            MemberReads layout tmp left := by
    refine forall_prefix_iff (avoids_ok _ _) ?_ tmps
    intro front tmp good
    rw [handleMembers_append, avoids_bind]
    refine (and_iff_right good).trans ?_
    apply forall_congr'
    intro left
    apply imp_congr_right
    intro _
    rw [← avoids_handleMember layout atof]
    exact avoids_last _ fun states => avoids_ok _ _
  constructor
  · intro avoids
    exact prefixes.mp fun front reached => avoids_front reached avoids
  · intro meets
    exact prefixes.mpr meets tmps ⟨[], List.append_nil tmps⟩

/-- The handler reads only what is there if every member is right for the states that it meets. -/
theorem avoids_handler (main : JsonNode ν) (states : List (DeviceState ν)) :
    Avoids .nullPointer (arrowDeviceStateHandler layout atof main states) ↔
      HandlerReads layout atof main states := by
  have run : arrowDeviceStateHandler layout atof main states =
      (handleMembers layout atof main.jsonFirstChild states).bind fun left => .ok (0, left) := by
    rw [arrowDeviceStateHandler, bind_apply, get_apply, ok_bind, bind_apply, lift]
    cases handleMembers layout atof main.jsonFirstChild states <;> rfl
  rw [run, HandlerReads, ← avoids_handleMembers]
  exact avoids_last _ fun left => avoids_ok _ _

end Handler

/-! ### The request -/

/-- `"transHid"` -/
abbrev transHidText : Bytes := [0x74, 0x72, 0x61, 0x6E, 0x73, 0x48, 0x69, 0x64]

/-- A request with all that its call meets. -/
structure StateRequest (ν : Type) where
  /-- `_device_hid`, which is set by `arrow_state_mqtt_run` and until `arrow_state_mqtt_stop`. -/
  deviceHid : Option Bytes
  parameters : JsonNode ν
  received : Nat → RequestAnswer
  error : Nat → RequestAnswer
  complete : Nat → RequestAnswer

/-- What the call changes: the settings of the HTTP client and the states of the device. -/
structure Device (ν : Type) where
  settings : HttpSettings
  states : List (DeviceState ν)

section Request

variable (layout : Layout) (atof : Bytes → ν) (libc : Libc ν)

/-- `arrow_device_state_handler` for what `json_decode` gives. NULL has no members. -/
def handleDecoded (main : Option (JsonNode ν)) (states : List (DeviceState ν)) :
    Except Fault (Int × List (DeviceState ν)) :=
  match main with
  | none => .ok (0, states)
  | some main => arrowDeviceStateHandler layout atof main states

/-- The part of `ev_DeviceStateRequest` after the first answer. The second one goes on with the
counter of the retries. -/
def handlePayload (ev : StateRequest ν) (maxRetry : Int) (retry : Nat) (payload : JsonNode ν)
    (s : Device ν) : Except Fault (Int × Device ν) := do
  let text ← stringOf (some payload)
  let handled ← handleDecoded layout atof (jsonDecode libc text) s.states
  let answers := if handled.1 < 0 then ev.error else ev.complete
  let tried := retryRequest (maxRetry - retry) answers s.settings
  return (if tried.success then 0 else -2, ⟨tried.state, handled.2⟩)

/-- `ev_DeviceStateRequest`. -/
def evDeviceStateRequest (ev : StateRequest ν) (maxRetry : Int) (s : Device ν) :
    Except Fault (Int × Device ν) :=
  if ev.deviceHid = none then return (-1, s)
  else
    match ev.parameters.jsonFindMember deviceHidText with
    | none => return (-1, s)
    | some _ =>
        match ev.parameters.jsonFindMember transHidText with
        | none => return (-1, s)
        | some transHid =>
            match ev.parameters.jsonFindMember commandPayloadText with
            | none => return (-1, s)
            | some payload => do
                let _ ← stringOf (some transHid)
                let tried := retryRequest maxRetry ev.received s.settings
                let s := { s with settings := tried.state }
                if tried.success then
                  handlePayload layout atof libc ev maxRetry (tried.attempts - 1) payload s
                else return (-2, s)

/-- What the text of a payload has to be, when its request is answered by the answer `i`: if it does
not decode the second answer fails, and else its members are right for the states. -/
structure PayloadReads (ev : StateRequest ν) (maxRetry : Int)
    (states : List (DeviceState ν)) (i : Nat)
    (text : Bytes) : Prop where
  undecoded : jsonDecode libc text = none → ¬ Answered (maxRetry - i) ev.complete
  decoded : ∀ main, jsonDecode libc text = some main → HandlerReads layout atof main states

/-- What a request has to be, if the device has a hid and all three members are there: the hid of
the transaction is a string, and so is the payload if the first answer succeeds. -/
def RequestReads (ev : StateRequest ν) (maxRetry : Int) (states : List (DeviceState ν)) : Prop :=
  ev.deviceHid ≠ none → (ev.parameters.jsonFindMember deviceHidText).isSome = true →
    ∀ transHid, ev.parameters.jsonFindMember transHidText = some transHid →
      ∀ payload, ev.parameters.jsonFindMember commandPayloadText = some payload →
        transHid.tag = .string ∧
          ∀ i ≤ maxRetry.toNat, FirstAnswer RequestAnswer.ret ev.received i →
            ∃ text, payload.stringValue = some text ∧
              PayloadReads layout atof libc ev maxRetry states i text

/-- A request with all that its call needs. -/
structure RequestComplete (ev : StateRequest ν) (states : List (DeviceState ν)) : Prop where
  deviceHid : (ev.parameters.jsonFindMember deviceHidText).isSome = true
  transHid : (fillStringFromJson ev.parameters transHidText).isSome = true
  payload : ∃ text main, fillStringFromJson ev.parameters commandPayloadText = some text ∧
    jsonDecode libc text = some main ∧ HandlerReads layout atof main states

theorem avoids_handleDecoded (main : Option (JsonNode ν)) (states : List (DeviceState ν)) :
    Avoids .nullPointer (handleDecoded layout atof main states) ↔
      ∀ main', main = some main' → HandlerReads layout atof main' states := by
  cases main with
  | none =>
      exact iff_of_true (avoids_ok _ _) fun main' some => absurd some.symm (Option.some_ne_none _)
  | some main =>
      simp only [Option.some.injEq, forall_eq']
      exact avoids_handler layout atof main states

section Payload

variable {layout atof libc} {ev : StateRequest ν} {maxRetry : Int} {retry : Nat}
    {payload : JsonNode ν}
  {s : Device ν}

theorem avoids_handlePayload :
    Avoids .nullPointer (handlePayload layout atof libc ev maxRetry retry payload s) ↔
      ∃ text, payload.stringValue = some text ∧
        ∀ main, jsonDecode libc text = some main → HandlerReads layout atof main s.states := by
  rw [handlePayload, avoids_stringOf_then]
  apply exists_congr
  intro text
  apply and_congr_right
  intro _
  rw [← avoids_handleDecoded]
  exact avoids_last _ fun handled => avoids_ok _ _

variable (layout atof libc ev maxRetry retry s) in
theorem handlePayload_undecoded {text : Bytes} (string : payload.stringValue = some text)
    (undecoded : jsonDecode libc text = none) :
    ∃ s', handlePayload layout atof libc ev maxRetry retry payload s =
      .ok (if (retryRequest (maxRetry - retry) ev.complete s.settings).success then 0
        else -2, s') := by
  have read : stringOf (some payload) = .ok text := stringOf_eq string
  rw [handlePayload, then_of_ok read, undecoded]
  exact ⟨_, rfl⟩

/-- The call for a request with all three members. -/
theorem answers_typeSafe_iff {device transHid : JsonNode ν}
    (hasDevice : ev.parameters.jsonFindMember deviceHidText = some device)
    (hasTrans : ev.parameters.jsonFindMember transHidText = some transHid)
    (hasPayload : ev.parameters.jsonFindMember commandPayloadText = some payload) :
    TypeSafe (RequestComplete layout atof libc ev s.states)
        (Except.map Prod.fst do
          let _ ← stringOf (some transHid)
          let tried := retryRequest maxRetry ev.received s.settings
          let s := { s with settings := tried.state }
          if tried.success then
            handlePayload layout atof libc ev maxRetry (tried.attempts - 1) payload s
          else return (-2, s)) ↔
      transHid.tag = .string ∧
        ∀ i ≤ maxRetry.toNat, FirstAnswer RequestAnswer.ret ev.received i →
          ∃ text, payload.stringValue = some text ∧
            PayloadReads layout atof libc ev maxRetry s.states i text := by
  have gaveUp : (-2 : Int) < 0 := by decide
  cases string : transHid.stringValue with
  | none =>
      have untagged : ¬ transHid.tag = .string := by
        rw [← stringValue_isSome, string]
        exact Bool.false_ne_true
      refine iff_of_false (fun safe => ?_) fun both => untagged both.1
      have unread : stringOf (some transHid) = .error .nullPointer := by
        rw [stringOf, Option.bind_some, string]
      apply safe.reads
      rw [unread]
      rfl
  | some trans =>
      have tagged : transHid.tag = .string := by
        rw [← stringValue_isSome, string]
        rfl
      have read : stringOf (some transHid) = .ok trans := stringOf_eq string
      rw [then_of_ok read, and_iff_right tagged]
      dsimp only
      split_ifs with success
      · obtain ⟨i, le, first, attempts⟩ := retryRequest_attempts success
        rw [attempts, Nat.add_sub_cancel]
        constructor
        · intro safe i' _ first'
          obtain rfl := first.unique first'
          obtain ⟨text, member, handler⟩ := avoids_handlePayload.mp ((avoids_map _ _).mp safe.reads)
          refine ⟨text, member, ⟨fun undecoded answered => ?_, handler⟩⟩
          have lacks : ¬ RequestComplete layout atof libc ev s.states := by
            rintro ⟨-, -, text', main, member', decoded, -⟩
            rw [fillStringFromJson, hasPayload, Option.bind_some, member,
              Option.some.injEq] at member'
            rw [← member', undecoded] at decoded
            cases decoded
          obtain ⟨ret, returned, negative⟩ := safe.rejects lacks
          obtain ⟨s', run⟩ := handlePayload_undecoded layout atof libc ev maxRetry i
            ⟨(retryRequest maxRetry ev.received s.settings).state, s.states⟩ member undecoded
          rw [run, if_pos ((retryRequest_success _ _ _).mpr answered)] at returned
          cases returned
          exact absurd negative (Int.lt_irrefl 0)
        · intro all
          obtain ⟨text, member, undecoded, decoded⟩ := all i le first
          refine ⟨(avoids_map _ _).mpr (avoids_handlePayload.mpr ⟨text, member, decoded⟩),
            fun lacks => ?_⟩
          cases decodes : jsonDecode libc text with
          | none =>
              obtain ⟨s', run⟩ := handlePayload_undecoded layout atof libc ev maxRetry i
                ⟨(retryRequest maxRetry ev.received s.settings).state, s.states⟩ member decodes
              rw [run, if_neg (mt (retryRequest_success _ _ _).mp (undecoded decodes))]
              exact ⟨-2, rfl, gaveUp⟩
          | some main =>
              refine absurd ⟨?_, ?_, text, main, ?_, decodes, decoded main decodes⟩ lacks
              · rw [hasDevice]
                rfl
              · rw [fillStringFromJson, hasTrans, Option.bind_some, string]
                rfl
              · rw [fillStringFromJson, hasPayload, Option.bind_some, member]
      · refine iff_of_true ⟨avoids_ok _ _, fun _ => ⟨-2, rfl, gaveUp⟩⟩ fun i le first => ?_
        exact absurd ((retryRequest_success _ _ _).mpr ⟨i, le, first.1⟩) success

end Payload

/-- The call reads only what is there exactly if its request is as it should be, and then its result
is negative for a request that lacks something. -/
theorem evDeviceStateRequest_typeSafe_iff (ev : StateRequest ν) (maxRetry : Int) (s : Device ν) :
    TypeSafe (RequestComplete layout atof libc ev s.states)
        ((evDeviceStateRequest layout atof libc ev maxRetry s).map Prod.fst) ↔
      RequestReads layout atof libc ev maxRetry s.states := by
  have refused : (-1 : Int) < 0 := by decide
  rw [evDeviceStateRequest, RequestReads]
  split_ifs with unknown
  · exact iff_of_true ⟨avoids_ok _ _, fun _ => ⟨-1, rfl, refused⟩⟩ fun known => absurd unknown known
  rw [imp_iff_right unknown]
  cases hasDevice : ev.parameters.jsonFindMember deviceHidText with
  | none =>
      refine iff_of_true ⟨avoids_ok _ _, fun _ => ⟨-1, rfl, refused⟩⟩ fun some => ?_
      exact absurd some Bool.false_ne_true
  | some device =>
      cases hasTrans : ev.parameters.jsonFindMember transHidText with
      | none =>
          refine iff_of_true ⟨avoids_ok _ _, fun _ => ⟨-1, rfl, refused⟩⟩ fun _ transHid some => ?_
          exact absurd some.symm (Option.some_ne_none _)
      | some transHid =>
          cases hasPayload : ev.parameters.jsonFindMember commandPayloadText with
          | none =>
              refine iff_of_true ⟨avoids_ok _ _, fun _ => ⟨-1, rfl, refused⟩⟩
                fun _ _ _ payload some => ?_
              exact absurd some.symm (Option.some_ne_none _)
          | some payload =>
              simp only [Option.isSome_some, Option.some.injEq, forall_eq', true_imp_iff]
              exact answers_typeSafe_iff hasDevice hasTrans hasPayload

end Request

/-! ### All calls -/

/-- The queue of events at the end of a message. -/
structure EndOfMessage (ν : Type) where
  state : EventState ν
  items : List (Addr × EventBase ν)
  stack : Stack ν
  holds : Holds state items
  represents : Represents 0 state.machines stack

/-- What the calls have in common: the build, the library functions and what is left open of the
signature. -/
structure EventSetting (ν : Type) where
  out : DebugOutput
  signer : Signer ν
  printf : ν → Bytes
  image : JsonNode ν → Bytes
  layout : Layout
  atof : Bytes → ν
  libc : Libc ν

/-- A call that a message goes through, in a state that it may be made in. `check_signature` is part
of the first two. -/
inductive EventCall (ν : Type) where
  | processEventFinish (message : EndOfMessage ν)
  | processHttpFinish (main : Option (JsonNode ν)) (s : ApiState ν)
  | arrowMqttApiEventProc (res : { res : ApiResponse ν // res.pAddHandler.isSome = true })
      (s : ApiState ν)
  | arrowDeviceStateHandler (main : JsonNode ν) (states : List (DeviceState ν))
  | evDeviceStateRequest (ev : StateRequest ν) (maxRetry : Int) (s : Device ν)

namespace EventCall

variable (setting : EventSetting ν)

/-- What the call returns. -/
def run : EventCall ν → Except Fault Int
  | .processEventFinish message =>
      (processEventFinishRead
        (getEventRead setting.signer setting.printf setting.out hidText nameText)
        message.state).map Prod.fst
  | .processHttpFinish main s =>
      (processHttpFinishRead (getEventRead setting.signer setting.printf setting.out requestIdText
        eventNameText) main s).map Prod.fst
  | .arrowMqttApiEventProc res s =>
      (apiEventProcRead setting.out setting.image res.1 s).map fun r => r.1.1
  | .arrowDeviceStateHandler main states =>
      (Arrow.arrowDeviceStateHandler setting.layout setting.atof main states).map Prod.fst
  | .evDeviceStateRequest ev maxRetry s =>
      (Arrow.evDeviceStateRequest setting.layout setting.atof setting.libc ev maxRetry
        s).map Prod.fst

/-- What the call needs of its message. -/
def Needs : EventCall ν → Prop
  | .processEventFinish message =>
      ∃ main, message.stack.root = some main ∧ Complete hidText nameText main
  | .processHttpFinish main _ =>
      ∃ main', main = some main' ∧ Complete requestIdText eventNameText main'
  | .arrowMqttApiEventProc _ s => ∃ e rest, s.apiEventQueue = e :: rest ∧
      (fillStringFromJson e.parameters statusText).isSome = true
  | .arrowDeviceStateHandler main states => HandlerReads setting.layout setting.atof main states
  | .evDeviceStateRequest ev _ s =>
      RequestComplete setting.layout setting.atof setting.libc ev s.states

/-- What the message of the call has to be. -/
def Meets : EventCall ν → Prop
  | .processEventFinish message =>
      ∀ main, message.stack.root = some main → EventReads setting.out hidText nameText main
  | .processHttpFinish main _ =>
      ∀ main', main = some main' → EventReads setting.out requestIdText eventNameText main'
  | .arrowMqttApiEventProc _ s =>
      ∀ e rest, s.apiEventQueue = e :: rest → ResponseReads setting.out e rest
  | .arrowDeviceStateHandler main states => HandlerReads setting.layout setting.atof main states
  | .evDeviceStateRequest ev maxRetry s =>
      RequestReads setting.layout setting.atof setting.libc ev maxRetry s.states

/-- Every call reads only what is there under its tag, and returns a negative result for a message
that lacks something, exactly if its message is as it should be. -/
theorem typeSafe_iff (call : EventCall ν) :
    TypeSafe (call.Needs setting) (call.run setting) ↔ call.Meets setting := by
  cases call with
  | processEventFinish message =>
      rw [run, processEventFinishRead_result _ message.holds message.represents]
      exact finish_typeSafe_iff _ _ _ _ _ _
  | processHttpFinish main s =>
      rw [run, processHttpFinishRead_result]
      exact finish_typeSafe_iff _ _ _ _ _ _
  | arrowMqttApiEventProc res s => exact apiEventProc_typeSafe_iff _ _ res.2 s
  | arrowDeviceStateHandler main states =>
      have reads := (avoids_map Prod.fst _).trans
        (avoids_handler setting.layout setting.atof main states)
      constructor
      · intro safe
        exact reads.mp safe.reads
      · intro meets
        exact ⟨reads.mpr meets, fun lacks => absurd meets lacks⟩
  | evDeviceStateRequest ev maxRetry s =>
      exact evDeviceStateRequest_typeSafe_iff _ _ _ ev maxRetry s

end EventCall

/-- `{"d":{"value":"1"}}` -/
def untimedText : Bytes :=
  [0x7B, 0x22, 0x64, 0x22, 0x3A, 0x7B, 0x22, 0x76, 0x61, 0x6C, 0x75, 0x65, 0x22, 0x3A, 0x22,
    0x31, 0x22,
   0x7D, 0x7D]

/-- A state with a value and no timestamp. -/
def untimed : JsonNode Nat :=
  .container none .object
    [.container (some [0x64]) .object [.scalar (some valueText) (.string [0x31])]]

/-- A build that prints nothing. -/
def quietSetting : EventSetting Nat :=
  ⟨⟨false, false⟩, ⟨fun _ => none, fun _ _ _ _ _ => none⟩, fun _ => [], fun _ => [], .plain,
    fun _ => 0, Libc.nat⟩

/-- The handler reads the timestamp without looking whether it is there. -/
theorem untimed_not_typeSafe :
    jsonDecode Libc.nat untimedText = some untimed ∧
      ¬ TypeSafe
        ((EventCall.arrowDeviceStateHandler untimed [⟨[0x64], .string none, .zero⟩]).Needs
          quietSetting)
        ((EventCall.arrowDeviceStateHandler untimed [⟨[0x64], .string none, .zero⟩]).run
          quietSetting) := by
  refine ⟨rfl, fun safe => ?_⟩
  exact safe.reads rfl

end AcnSdk.Arrow
