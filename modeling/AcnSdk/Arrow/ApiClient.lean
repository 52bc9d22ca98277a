/-
API requests over MQTT, `src/http/client_mqtt.c`.

A request is published as a message with an id of its own, and the response is whatever the
queue of API responses holds as soon as it holds anything. The id of the response is not
looked at. What the broker does during a call is an input: the messages that arrive while the
request is published and in each yield before the timer has expired, and the result of the
publish. Whatever arrives while the connection is made anew, after a failure, counts as
arriving after the call.

* `waiting_eq` — what is left in the queue between the calls.
* `correlates_iff` — when one call that succeeds has a response of its own.
* `responses_correlate_iff` — when all calls of a run do.
-/

import AcnSdk.Arrow.ApiEvents
import Mathlib.Data.List.Induction

namespace AcnSdk.Arrow

open AcnSdk.Lib AcnSdk.Json Prog

variable {ν : Type}

/-! ### The request -/

/-- `"requestId"` -/
abbrev requestIdText : Bytes := [0x72, 0x65, 0x71, 0x75, 0x65, 0x73, 0x74, 0x49, 0x64]

/-- `"eventName"` -/
abbrev eventNameText : Bytes := [0x65, 0x76, 0x65, 0x6E, 0x74, 0x4E, 0x61, 0x6D, 0x65]

/-- `"GatewayToServer_ApiRequest"` -/
abbrev apiRequestText : Bytes :=
  [0x47, 0x61, 0x74, 0x65, 0x77, 0x61, 0x79, 0x54, 0x6F, 0x53, 0x65, 0x72, 0x76, 0x65, 0x72, 0x5F,
   0x41, 0x70, 0x69, 0x52, 0x65, 0x71, 0x75, 0x65, 0x73, 0x74]

/-- `"GS-"` -/
abbrev idPrefix : Bytes := [0x47, 0x53, 0x2D]

/-- The members of `http_request_t` that the client uses. -/
structure ApiRequest where
  uri : Bytes
  meth : Bytes
  header : List (Bytes × Bytes)
  payload : Option Bytes
  /-- `_response_payload_meth._p_add_handler` -/
  pAddHandler : Option Bytes → Bytes → Int × Option Bytes

/-- `reqhid`, with the text of `get_time`. -/
def requestId (time : Bytes) : Bytes := idPrefix ++ time

/-- `json_append_member` with `json_mkstring`. -/
def appendString (object : JsonNode ν) (key s : Bytes) : JsonNode ν :=
  object.appendNode (.scalar (some key) (.string s))

/-- A member with the value of a header field, if the request has it. -/
def appendHeader (req : ApiRequest) (object : JsonNode ν) (key field : Bytes) : JsonNode ν :=
  match req.header.find? fun h => h.1 = field with
  | none => object
  | some h => appendString object key h.2

/-- The `_parameters` of the request. -/
def apiParameters (req : ApiRequest) : JsonNode ν :=
  let parameters := appendString (.container none .object []) [0x75, 0x72, 0x69] req.uri
  let parameters := appendString parameters [0x6D, 0x65, 0x74, 0x68, 0x6F, 0x64] req.meth
  let parameters := appendHeader req parameters
    -- "apiKey" from "x-arrow-apikey"
    [0x61, 0x70, 0x69, 0x4B, 0x65, 0x79]
    [0x78, 0x2D, 0x61, 0x72, 0x72, 0x6F, 0x77, 0x2D, 0x61, 0x70, 0x69, 0x6B, 0x65, 0x79]
  let parameters := match req.payload with
    | none => parameters
    | some body => appendString parameters [0x62, 0x6F, 0x64, 0x79] body
  let parameters := appendHeader req parameters
    -- "apiRequestSignature" from "x-arrow-signature"
    [0x61, 0x70, 0x69, 0x52, 0x65, 0x71, 0x75, 0x65, 0x73, 0x74, 0x53, 0x69, 0x67, 0x6E, 0x61,
     0x74, 0x75, 0x72, 0x65]
    [0x78, 0x2D, 0x61, 0x72, 0x72, 0x6F, 0x77, 0x2D, 0x73, 0x69, 0x67, 0x6E, 0x61, 0x74, 0x75,
     0x72, 0x65]
  let parameters := appendHeader req parameters
    -- "apiRequestSignatureVersion" from "x-arrow-version"
    [0x61, 0x70, 0x69, 0x52, 0x65, 0x71, 0x75, 0x65, 0x73, 0x74, 0x53, 0x69, 0x67, 0x6E, 0x61,
     0x74, 0x75, 0x72, 0x65, 0x56, 0x65, 0x72, 0x73, 0x69, 0x6F, 0x6E]
    [0x78, 0x2D, 0x61, 0x72, 0x72, 0x6F, 0x77, 0x2D, 0x76, 0x65, 0x72, 0x73, 0x69, 0x6F, 0x6E]
  appendHeader req parameters
    -- "timestamp" from "x-arrow-date"
    [0x74, 0x69, 0x6D, 0x65, 0x73, 0x74, 0x61, 0x6D, 0x70]
    [0x78, 0x2D, 0x61, 0x72, 0x72, 0x6F, 0x77, 0x2D, 0x64, 0x61, 0x74, 0x65]

/-- The `_node` of the request. A signature that cannot be made is left empty. -/
def apiNode (signer : Signer ν) (req : ApiRequest) (time : Bytes) : JsonNode ν :=
  let parameters := apiParameters req
  let sig := signer.arrowEventSign (requestId time) apiRequestText false parameters
  let node := appendString (.container none .object []) requestIdText (requestId time)
  let node := appendString node eventNameText apiRequestText
  let node := node.appendNode (.scalar (some encryptedText) (.bool false))
  let node := node.appendNode (parameters.withKey (some parametersText))
  let node := appendString node signatureText (sig.getD [])
  appendString node signatureVersionText versionOne

/-! ### The call -/

/-- What is outside the client during a call. -/
structure Exchange (ν : Type) where
  /-- The text of `get_time`. -/
  time : Bytes
  /-- The API messages that arrive during `mqtt_api_publish`, and its result. -/
  publish : JsonNode ν → List (Option (JsonNode ν)) × Int
  /-- The API messages of each `mqtt_yield` before the timer has expired. -/
  yields : List (List (Option (JsonNode ν)))

section Call

variable (limited : Bool) (image : JsonNode ν → Bytes) (signer : Signer ν)
  (event : JsonNode ν → Option (EventBase ν))

/-- The loop of `http_mqtt_client_do` that waits for an event. -/
def awaitEvents : List (List (Option (JsonNode ν))) → Prog (ApiState ν) Unit
  | [] => return ()
  | mains :: rest => do
      if (← arrowMqttApiHasEvents) = 0 then
        receiveAll limited event mains
        awaitEvents rest
      else return ()

/-- `http_mqtt_client_do` from the publish to the label `http_mqtt_error`. -/
def exchange (req : ApiRequest) (x : Exchange ν) : Prog (ApiState ν) (Int × ApiResponse ν) := do
  let published := x.publish (apiNode signer req x.time)
  receiveAll limited event published.1
  if published.2 < 0 then return (-1, .init req.pAddHandler)
  else
    awaitEvents limited event x.yields
    if (← arrowMqttApiHasEvents) ≤ 0 then return (-1, .init req.pAddHandler)
    else collect image ((← get).apiEventQueue.length + 1) (.init req.pAddHandler)

/-- `http_mqtt_client_do`. -/
def httpMqttClientDo (req : ApiRequest) (x : Exchange ν) :
    Prog (ApiState ν) (Int × ApiResponse ν) := do
  arrowMqttApiWait image 1
  let answer ← exchange limited image signer event req x
  arrowMqttApiWait image 0
  return answer

end Call

/-! ### Runs -/

/-- What happens to the queue: a message arrives between two calls, or a call is made. -/
inductive Step (ν : Type) where
  | arrives (main : Option (JsonNode ν))
  | call (req : ApiRequest) (x : Exchange ν)

section Runs

variable (limited : Bool) (image : JsonNode ν → Bytes) (signer : Signer ν)
  (event : JsonNode ν → Option (EventBase ν))

def Step.perform : Step ν → Prog (ApiState ν) Unit
  | .arrives main => receive limited event main
  | .call req x => do
      let _ ← httpMqttClientDo limited image signer event req x
      return ()

def runSteps : List (Step ν) → Prog (ApiState ν) Unit
  | [] => return ()
  | step :: rest => do
      step.perform limited image signer event
      runSteps rest

/-- No response has arrived, and none is waited for. -/
def ApiState.start : ApiState ν := ⟨[], 0⟩

/-- A response that the call ends well with is filled from events with the id of its request. -/
def Correlates (s : ApiState ν) (req : ApiRequest) (x : Exchange ν) : Prop :=
  ∀ res s', httpMqttClientDo limited image signer event req x s = .ok ((0, res), s') →
    ∀ e ∈ res.origins, e.id = requestId x.time

/-- The events that wait in the queue after some steps. -/
def waiting : List (Step ν) → List (EventBase ν) :=
  List.foldl (fun events step => match step with
    | .arrives main => events ++ admitted limited 0 events (main.bind event).toList
    | .call _ _ => []) []

/-- The events that a call finds: the last of those that wait, and those that arrive during the
publish; or else those of the first yield that brings any. -/
def found (queue : List (EventBase ν)) (req : ApiRequest) (x : Exchange ν) : List (EventBase ν) :=
  let old := remaining 1 queue
  let early := old ++
    admitted limited 1 old (eventsOf event (x.publish (apiNode signer req x.time)).1)
  if early = [] then
    ((x.yields.map fun mains => admitted limited 1 [] (eventsOf event mains)).find?
      (· ≠ [])).getD []
  else early

/-- What keeps a response from being filled with that of another request: of the events that the
call finds all with the status OK have the id of the request, unless the call does not succeed,
since the publish or the last event fails or an event cannot be handled. -/
def Meets (queue : List (EventBase ν)) (req : ApiRequest) (x : Exchange ν) : Prop :=
  (∀ e ∈ surplus 1 queue, Droppable e) → 0 ≤ (x.publish (apiNode signer req x.time)).2 →
    (∀ e ∈ found limited signer event queue req x, Readable e) →
      (∃ e, (found limited signer event queue req x).getLast? = some e ∧ Fills e) →
        ∀ e ∈ found limited signer event queue req x, Fills e → e.id = requestId x.time

end Runs

/-! ### One call -/

section Call

variable {limited : Bool} {image : JsonNode ν → Bytes} {signer : Signer ν}
  {event : JsonNode ν → Option (EventBase ν)} {req : ApiRequest} {x : Exchange ν}

theorem awaitEvents_eq (queue : List (EventBase ν)) (yields : List (List (Option (JsonNode ν)))) :
    awaitEvents limited event yields ⟨queue, 1⟩ = .ok ((), ⟨if queue = [] then
      ((yields.map fun mains => admitted limited 1 [] (eventsOf event mains)).find?
        (· ≠ [])).getD []
      else queue, 1⟩) := by
  induction yields generalizing queue with
  | nil =>
      rw [awaitEvents, pure_apply]
      split_ifs with empty
      · rw [empty]
        rfl
      · rfl
  | cons mains rest ih =>
      simp only [awaitEvents, arrowMqttApiHasEvents, bind_apply, get_apply, ok_bind, pure_apply]
      by_cases empty : queue = []
      · subst empty
        have zero : (([] : List (EventBase ν)).length : Int) = 0 := rfl
        rw [if_pos zero, bind_apply, receiveAll_eq, ok_bind, ih, if_pos rfl, List.nil_append,
          List.map_cons, List.find?_cons]
        by_cases brought : admitted limited 1 [] (eventsOf event mains) = []
        · simp [brought]
        · simp [brought]
      · have some : ¬ (queue.length : Int) = 0 := by
          rwa [Int.natCast_eq_zero, List.length_eq_zero_iff]
        rw [if_neg some, if_neg empty, pure_apply]

/-- What is left to do when the call waits no longer. -/
theorem exchange_eq (queue : List (EventBase ν)) :
    exchange limited image signer event req x ⟨remaining 1 queue, 1⟩ =
      if (x.publish (apiNode signer req x.time)).2 < 0 then
        .ok ((-1, .init req.pAddHandler), ⟨remaining 1 queue ++ admitted limited 1
          (remaining 1 queue) (eventsOf event (x.publish (apiNode signer req x.time)).1), 1⟩)
      else if found limited signer event queue req x = [] then
        .ok ((-1, .init req.pAddHandler), ⟨[], 1⟩)
      else collect image ((found limited signer event queue req x).length + 1)
        (.init req.pAddHandler) ⟨found limited signer event queue req x, 1⟩ := by
  rw [exchange, bind_apply, receiveAll_eq, ok_bind]
  split_ifs with failed none
  · rfl
  · rw [bind_apply, awaitEvents_eq, ok_bind]
    simp only [found] at none
    simp only [arrowMqttApiHasEvents, bind_apply, get_apply, ok_bind, pure_apply, none]
    rfl
  · rw [bind_apply, awaitEvents_eq, ok_bind]
    have some : ¬ ((found limited signer event queue req x).length : Int) ≤ 0 := by
      have positive := List.length_pos_of_ne_nil none
      omega
    simp only [found] at some
    simp only [found, arrowMqttApiHasEvents, bind_apply, get_apply, ok_bind, pure_apply,
      if_neg some]

/-- `arrow_mqtt_api_wait`, if it ends, leaves no more than the capacity. -/
theorem state_of_wait (num : Nat) {s : ApiState ν} {r : Unit × ApiState ν}
    (run : arrowMqttApiWait image num s = .ok r) : r.2 = ⟨remaining num s.apiEventQueue, num⟩ := by
  rw [arrowMqttApiWait_eq image _ _ (droppable_of_wait image num run)] at run
  cases run
  rfl

/-- A call that ends leaves an empty queue. -/
theorem state_of_call {s : ApiState ν} {r : (Int × ApiResponse ν) × ApiState ν}
    (run : httpMqttClientDo limited image signer event req x s = .ok r) : r.2 = .start := by
  rw [httpMqttClientDo, bind_apply] at run
  obtain ⟨r₁, first, run⟩ := ok_of_bind run
  rw [bind_apply] at run
  obtain ⟨r₂, exchanged, run⟩ := ok_of_bind run
  rw [bind_apply] at run
  obtain ⟨r₃, last, run⟩ := ok_of_bind run
  cases run
  have state := state_of_wait 0 last
  rw [state, remaining, Nat.sub_zero, List.drop_length]
  rfl

variable (image) in
/-- The call succeeds on the events that it finds, if the last one has the status OK, and fills the
response from those that have it. -/
theorem call_succeeds {s : ApiState ν}
    (droppable : ∀ e ∈ surplus 1 s.apiEventQueue, Droppable e)
    (published : 0 ≤ (x.publish (apiNode signer req x.time)).2)
    (readable : ∀ e ∈ found limited signer event s.apiEventQueue req x, Readable e)
    (last : ∃ e, (found limited signer event s.apiEventQueue req x).getLast? = some e ∧ Fills e) :
    ∃ res, httpMqttClientDo limited image signer event req x s = .ok ((0, res), .start) ∧
      res.origins = (found limited signer event s.apiEventQueue req x).filter (Fills ·) := by
  obtain ⟨e, is_last, fills⟩ := last
  have some : found limited signer event s.apiEventQueue req x ≠ [] := by
    intro none
    rw [none] at is_last
    cases is_last
  have fills : Fills ((found limited signer event s.apiEventQueue req x).getLast some) := by
    rw [List.getLast?_eq_some_getLast some] at is_last
    cases is_last
    exact fills
  have waited : arrowMqttApiWait image 1 s = .ok ((), ⟨remaining 1 s.apiEventQueue, 1⟩) :=
    arrowMqttApiWait_eq image 1 s droppable
  obtain ⟨res, collected, origins⟩ := collect_eq image some 1 readable
    (Nat.lt_succ_self _) (.init req.pAddHandler) rfl
  rw [if_pos fills] at collected
  have closed : arrowMqttApiWait image 0 (⟨[], 1⟩ : ApiState ν) = .ok ((), .start) :=
    arrowMqttApiWait_eq image 0 ⟨[], 1⟩ (List.forall_mem_nil _)
  refine ⟨res, ?_, origins⟩
  rw [httpMqttClientDo, bind_apply, waited, ok_bind, bind_apply, exchange_eq,
    if_neg (Int.not_lt.mpr published), if_neg some, collected, ok_bind, bind_apply, closed]
  rfl

/-- What it takes for a call to succeed. -/
theorem of_call_succeeds {s s' : ApiState ν} {res : ApiResponse ν}
    (run : httpMqttClientDo limited image signer event req x s = .ok ((0, res), s')) :
    (∀ e ∈ surplus 1 s.apiEventQueue, Droppable e) ∧
      0 ≤ (x.publish (apiNode signer req x.time)).2 ∧
      (∀ e ∈ found limited signer event s.apiEventQueue req x, Readable e) ∧
      ∃ e, (found limited signer event s.apiEventQueue req x).getLast? = some e ∧ Fills e := by
  have minus : (-1 : Int) ≠ 0 := by decide
  rw [httpMqttClientDo, bind_apply] at run
  obtain ⟨r₁, first, run⟩ := ok_of_bind run
  have state := state_of_wait 1 first
  rw [bind_apply, state] at run
  obtain ⟨⟨answer, s₂⟩, answered, run⟩ := ok_of_bind run
  obtain ⟨r₃, last, run⟩ := ok_of_bind run
  cases run
  rw [Nat.cast_one, exchange_eq] at answered
  split_ifs at answered with failed none
  · cases answered
  · cases answered
  · have readable := readable_of_collect image answered
    obtain ⟨res', collected, -⟩ := collect_eq image none 1 readable
      (Nat.lt_succ_self _) (.init req.pAddHandler) rfl
    rw [answered] at collected
    refine ⟨droppable_of_wait image 1 first, Int.not_lt.mp failed, readable, _,
      List.getLast?_eq_some_getLast none, ?_⟩
    by_contra idle
    rw [if_neg idle] at collected
    cases collected

/-- Whether a call keeps to its own response. -/
theorem correlates_iff (s : ApiState ν) :
    Correlates limited image signer event s req x ↔
      Meets limited signer event s.apiEventQueue req x := by
  constructor
  · intro correlates droppable published readable last e mem fills
    obtain ⟨res, run, origins⟩ := call_succeeds image droppable published readable last
    refine correlates res _ run e ?_
    rw [origins]
    exact List.mem_filter.mpr ⟨mem, decide_eq_true fills⟩
  · intro meets res s' run e mem
    obtain ⟨droppable, published, readable, last⟩ := of_call_succeeds run
    obtain ⟨res', run', origins⟩ := call_succeeds image droppable published readable last
    rw [run] at run'
    cases run'
    rw [origins] at mem
    obtain ⟨mem, fills⟩ := List.mem_filter.mp mem
    exact meets droppable published readable last e mem (of_decide_eq_true fills)

end Call

/-! ### All calls of a run -/

section Runs

variable {limited : Bool} {image : JsonNode ν → Bytes} {signer : Signer ν}
  {event : JsonNode ν → Option (EventBase ν)}

theorem runSteps_append (front back : List (Step ν)) (s : ApiState ν) :
    runSteps limited image signer event (front ++ back) s =
      (runSteps limited image signer event front s).bind fun r =>
        runSteps limited image signer event back r.2 := by
  induction front generalizing s with
  | nil => rfl
  | cons step front ih =>
      rw [List.cons_append, runSteps, runSteps, bind_apply, bind_apply]
      cases step.perform limited image signer event s with
      | error fault => rfl
      | ok r => exact ih r.2

/-- The queue and its capacity between the calls. -/
theorem waiting_eq {front : List (Step ν)} {s : ApiState ν}
    (run : runSteps limited image signer event front .start = .ok ((), s)) :
    s = ⟨waiting limited event front, 0⟩ := by
  induction front using List.reverseRecOn generalizing s with
  | nil =>
      cases run
      rfl
  | append_singleton front step ih =>
      rw [runSteps_append] at run
      obtain ⟨r, before, run⟩ := ok_of_bind run
      rw [runSteps, bind_apply] at run
      have same := ih before
      rw [waiting, List.foldl_append]
      cases step with
      | arrives main =>
          rw [Step.perform, receive_eq, ok_bind] at run
          cases run
          rw [same]
          rfl
      | call req x =>
          rw [Step.perform, bind_apply] at run
          obtain ⟨⟨_, s₁⟩, performed, run⟩ := ok_of_bind run
          obtain ⟨r', called, same⟩ := ok_of_bind performed
          cases same
          cases run
          exact state_of_call called

/-- With `ARROW_MAX_MQTT_COMMANDS` no response waits between the calls. -/
theorem waiting_limited (front : List (Step ν)) : waiting true event front = [] := by
  induction front using List.reverseRecOn with
  | nil => rfl
  | append_singleton front step ih =>
      rw [waiting, List.foldl_append]
      cases step with
      | arrives main =>
          change waiting true event front ++ admitted true 0 (waiting true event front) _ = []
          rw [ih, admitted, if_pos rfl, List.nil_append]
          exact List.take_zero
      | call req x => rfl

/-- In every run all calls that succeed have a response of their own exactly if each of them, with
the events that wait before it, meets the condition. -/
theorem responses_correlate_iff (limited : Bool) (image : JsonNode ν → Bytes) (signer : Signer ν)
    (event : JsonNode ν → Option (EventBase ν)) (steps : List (Step ν)) :
    (∀ front req x s, front ++ [.call req x] <+: steps →
        runSteps limited image signer event front .start = .ok ((), s) →
          Correlates limited image signer event s req x) ↔
      ∀ front req x s, front ++ [.call req x] <+: steps →
        runSteps limited image signer event front .start = .ok ((), s) →
          Meets limited signer event (waiting limited event front) req x := by
  constructor
  · intro correlates front req x s reached run
    have meets := (correlates_iff s).mp (correlates front req x s reached run)
    rwa [waiting_eq run] at meets
  · intro meets front req x s reached run
    have meets := meets front req x s reached run
    rw [correlates_iff, waiting_eq run]
    exact meets

end Runs

/-! ### A response that comes late -/

/-- No bytes are kept of a payload. -/
def ignored : Option Bytes → Bytes → Int × Option Bytes := fun payload _ => (0, payload)

def plainRequest : ApiRequest := ⟨[0x2F], [0x47], [], none, ignored⟩

def unsigned : Signer Unit := ⟨fun _ => none, fun _ _ _ _ _ => none⟩

/-- The response to the request of that time, with the status OK. -/
def response (time : Bytes) : JsonNode Unit :=
  .container none .object [
    .scalar (some requestIdText) (.string (requestId time)),
    .scalar (some eventNameText) (.string []),
    .scalar (some encryptedText) (.bool false),
    .container (some parametersText) .object [.scalar (some statusText) (.string okText)]]

/-- The event of a message without a fault. -/
def eventOf (main : JsonNode Unit) : Option (EventBase Unit) :=
  ((getEvent unsigned requestIdText eventNameText main).toOption).join

/-- The time of the first call runs out, and its response arrives during the second one. -/
def lateSteps : List (Step Unit) :=
  [.call plainRequest ⟨[0x31], fun _ => ([], 0), [[], []]⟩,
    .call plainRequest ⟨[0x32], fun _ => ([], 0), [[some (response [0x31])]]⟩]

theorem not_correlates_late : ¬ ∀ front req x s, front ++ [.call req x] <+: lateSteps →
    runSteps true (fun _ => []) unsigned eventOf front .start = .ok ((), s) →
      Correlates true (fun _ => []) unsigned eventOf s req x := by
  intro correlates
  have second := correlates [_] _ _ .start (List.prefix_refl lateSteps) rfl
  have own := second _ _ rfl ⟨requestId [0x31], [], false, _⟩ List.mem_cons_self
  exact absurd own (by decide)

end AcnSdk.Arrow
