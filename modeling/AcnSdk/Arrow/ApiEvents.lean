/-
The queue of API responses, `src/arrow/events.c`.

Responses to API requests arrive as messages and wait in a queue for the request that takes
them. The queue is open to as many of them as `arrow_mqtt_api_wait` has last said, if the
number of commands is limited at all. What arrives is taken at its decoded tree; what makes an
event of it is a parameter, as for the receiver of the messages.

* `receiveAll_eq` — what a run of arrivals adds to the queue.
* `arrowMqttApiWait_eq`, `droppable_of_wait` — what waiting for a number of responses drops, and
  when it can.
* `collect_eq` — what a response is filled from.
-/

import AcnSdk.Arrow.EventBase
import AcnSdk.Arrow.StateNewest

namespace AcnSdk.Arrow

open AcnSdk.Lib AcnSdk.Json Prog

variable {ν : Type}

/-- `__api_event_queue` and `api_mqtt_max_capacity`. -/
structure ApiState (ν : Type) where
  apiEventQueue : List (EventBase ν)
  apiMqttMaxCapacity : Int

/-- The members of `http_response_t` that an event fills in, and, which the code does not keep,
the events that they come from. -/
structure ApiResponse (ν : Type) where
  mHttpResponseCode : Nat
  payload : Option Bytes
  processedPayloadChunk : Nat
  /-- `_p_add_handler`, if it has been set. -/
  pAddHandler : Option (Option Bytes → Bytes → Int × Option Bytes)
  origins : List (EventBase ν)

namespace ApiResponse

/-- `http_response_init`. -/
def init (pAddHandler : Option Bytes → Bytes → Int × Option Bytes) : ApiResponse ν :=
  ⟨0, none, 0, some pAddHandler, []⟩

/-- The `dummy` of `arrow_mqtt_api_wait`, which is not initialised. -/
def dummy : ApiResponse ν := ⟨0, none, 0, none, []⟩

/-- `http_response_add_payload`. -/
def addPayload (res : ApiResponse ν) (buf : Bytes) : Except Fault (Int × ApiResponse ν) :=
  match res.pAddHandler with
  | none => throw .nullPointer
  | some handler =>
      let added := handler res.payload buf
      let res := { res with payload := added.2 }
      if added.1 < 0 then return (-1, res)
      else return (0, { res with processedPayloadChunk := res.processedPayloadChunk + 1 })

end ApiResponse

/-- `"status"` -/
abbrev statusText : Bytes := [0x73, 0x74, 0x61, 0x74, 0x75, 0x73]

/-- `"OK"` -/
abbrev okText : Bytes := [0x4F, 0x4B]

/-- `"payload"` -/
abbrev payloadText : Bytes := [0x70, 0x61, 0x79, 0x6C, 0x6F, 0x61, 0x64]

/-! ### The functions -/

section Functions

-- the C string at the address of a node
variable (image : JsonNode ν → Bytes)

/-- The part of `arrow_mqtt_api_event_proc` before the event is removed. -/
def fillResponse (tmp : EventBase ν) (res : ApiResponse ν) : Except Fault (Int × ApiResponse ν) :=
  match tmp.parameters.jsonFindMember statusText with
  | none => return (-1, res)
  | some status => do
      if (← stringOf (some status)) ≠ okText then return (-1, res)
      else
        let res := { res with mHttpResponseCode := 200, origins := res.origins ++ [tmp] }
        match tmp.parameters.jsonFindMember payloadText with
        | none => return (0, res)
        | some payload => do
            let added ← res.addPayload (image payload)
            return (0, added.2)

/-- `arrow_mqtt_api_has_events`. -/
def arrowMqttApiHasEvents : Prog (ApiState ν) Int := return (← get).apiEventQueue.length

/-- `arrow_mqtt_api_event_proc`. -/
def arrowMqttApiEventProc (res : ApiResponse ν) : Prog (ApiState ν) (Int × ApiResponse ν) := do
  match (← get).apiEventQueue with
  | [] => return (-1, res)
  | tmp :: rest =>
      let filled ← lift (fillResponse image tmp res)
      modify fun s => { s with apiEventQueue := s.apiEventQueue.tail }
      return (if rest.isEmpty then filled.1 else 1, filled.2)

/-- The loop of `arrow_mqtt_api_wait`. -/
def dropSurplus : Nat → Prog (ApiState ν) Unit
  | 0 => throw .endless
  | fuel + 1 => do
      if (← arrowMqttApiHasEvents) > (← get).apiMqttMaxCapacity then
        let _ ← arrowMqttApiEventProc image .dummy
        dropSurplus fuel
      else return ()

/-- `arrow_mqtt_api_wait`. -/
def arrowMqttApiWait (num : Int) : Prog (ApiState ν) Unit := do
  modify fun s => { s with apiMqttMaxCapacity := num }
  dropSurplus image ((← get).apiEventQueue.length + 1)

/-- The loop of `http_mqtt_client_do` over the events. -/
def collect : Nat → ApiResponse ν → Prog (ApiState ν) (Int × ApiResponse ν)
  | 0, _ => throw .endless
  | fuel + 1, res => do
      let taken ← arrowMqttApiEventProc image res
      if taken.1 > 0 then collect fuel taken.2 else return taken

end Functions

section Receiving

-- whether `ARROW_MAX_MQTT_COMMANDS` is defined, and the event that a decoded tree holds
variable (limited : Bool) (event : JsonNode ν → Option (EventBase ν))

/-- `process_http_init`. -/
def processHttpInit : Prog (ApiState ν) Int := do
  if limited ∧ (← arrowMqttApiHasEvents) ≥ (← get).apiMqttMaxCapacity then return -1
  else return 0

/-- `process_http_finish`, with what `json_decode_finish` gives. -/
def processHttpFinish (main : Option (JsonNode ν)) : Prog (ApiState ν) Int :=
  match main.bind event with
  | none => return -1
  | some apiE => do
      modify fun s => { s with apiEventQueue := s.apiEventQueue ++ [apiE] }
      return 0

/-- A message that arrives: only if the first callback accepts it are the others called. -/
def receive (main : Option (JsonNode ν)) : Prog (ApiState ν) Unit := do
  if (← processHttpInit limited) = 0 then
    let _ ← processHttpFinish event main
    return ()
  else return ()

/-- Messages that arrive one after the other. -/
def receiveAll : List (Option (JsonNode ν)) → Prog (ApiState ν) Unit
  | [] => return ()
  | main :: rest => do
      receive limited event main
      receiveAll rest

end Receiving

/-! ### What arrivals add -/

section Receiving

variable {limited : Bool} (event : JsonNode ν → Option (EventBase ν))

/-- The events of some messages. -/
def eventsOf (mains : List (Option (JsonNode ν))) : List (EventBase ν) :=
  mains.filterMap fun main => main.bind event

/-- How much of some events goes into a queue of the capacity. -/
def admitted (limited : Bool) (capacity : Int) (queue events : List (EventBase ν)) :
    List (EventBase ν) :=
  if limited then events.take (capacity.toNat - queue.length) else events

theorem receive_eq (main : Option (JsonNode ν)) (s : ApiState ν) :
    receive limited event main s = .ok ((), { s with
      apiEventQueue := s.apiEventQueue ++
        admitted limited s.apiMqttMaxCapacity s.apiEventQueue (main.bind event).toList }) := by
  have finish : ∀ s : ApiState ν, ∃ ret, processHttpFinish event main s =
      .ok (ret, { s with apiEventQueue := s.apiEventQueue ++ (main.bind event).toList }) := by
    intro s
    rw [processHttpFinish]
    cases main.bind event with
    | none => exact ⟨-1, by simp⟩
    | some e => exact ⟨0, rfl⟩
  obtain ⟨ret, finish⟩ := finish s
  simp only [receive, processHttpInit, arrowMqttApiHasEvents, bind_apply, get_apply, ok_bind,
    pure_apply]
  by_cases full : limited = true ∧ (s.apiEventQueue.length : Int) ≥ s.apiMqttMaxCapacity
  · have none : s.apiMqttMaxCapacity.toNat - s.apiEventQueue.length = 0 := by omega
    have refused : (-1 : Int) ≠ 0 := by decide
    rw [if_pos full, pure_apply, ok_bind, if_neg refused, pure_apply, admitted, if_pos full.1,
      none, List.take_zero, List.append_nil]
  · have all : admitted limited s.apiMqttMaxCapacity s.apiEventQueue (main.bind event).toList =
        (main.bind event).toList := by
      rw [admitted]
      split_ifs with limit
      · have room : 1 ≤ s.apiMqttMaxCapacity.toNat - s.apiEventQueue.length := by
          have below := mt (And.intro limit) full
          omega
        exact List.take_of_length_le ((by cases main.bind event <;> simp : _ ≤ 1).trans room)
      · rfl
    rw [if_neg full, pure_apply, ok_bind, if_pos rfl, bind_apply, finish, all]
    rfl

/-- What a run of arrivals does to the queue. -/
theorem receiveAll_eq (mains : List (Option (JsonNode ν))) (s : ApiState ν) :
    receiveAll limited event mains s = .ok ((), { s with
      apiEventQueue := s.apiEventQueue ++
        admitted limited s.apiMqttMaxCapacity s.apiEventQueue (eventsOf event mains) }) := by
  induction mains generalizing s with
  | nil => simp [receiveAll, eventsOf, admitted]
  | cons main rest ih =>
      rw [receiveAll, bind_apply, receive_eq, ok_bind, ih]
      have split : eventsOf event (main :: rest) =
          (main.bind event).toList ++ eventsOf event rest := by
        rw [eventsOf, List.filterMap_cons]
        cases main.bind event <;> rfl
      have first : (main.bind event).toList.length ≤ 1 := by cases main.bind event <;> simp
      rw [split]
      generalize eventsOf event rest = later
      generalize (main.bind event).toList = now at first
      simp only [List.append_assoc]
      congr 4
      cases limited with
      | false => rfl
      | true =>
          simp only [admitted, if_true, List.length_append, List.length_take]
          rw [List.take_append]
          congr 2
          omega

end Receiving

/-! ### What the events fill in -/

/-- The status of an event, if it has one, is a string. -/
def Readable (e : EventBase ν) : Prop :=
  ∀ status, e.parameters.jsonFindMember statusText = some status → status.stringValue.isSome

/-- An event with the status that a response is filled for. -/
def Fills (e : EventBase ν) : Prop := fillStringFromJson e.parameters statusText = some okText

instance (e : EventBase ν) : Decidable (Fills e) := inferInstanceAs (Decidable (_ = _))

/-- An event that can be dropped, though the response that it is dropped into has no handler. -/
def Droppable (e : EventBase ν) : Prop :=
  Readable e ∧ (Fills e → e.parameters.jsonFindMember payloadText = none)

section Filling

variable (image : JsonNode ν → Bytes) {e : EventBase ν} {res : ApiResponse ν}

theorem fillResponse_idle (readable : Readable e) (idle : ¬ Fills e) :
    fillResponse image e res = .ok (-1, res) := by
  rw [fillResponse]
  cases found : e.parameters.jsonFindMember statusText with
  | none => rfl
  | some status =>
      obtain ⟨s, text⟩ := Option.isSome_iff_exists.mp (readable status found)
      have other : s ≠ okText := by
        rintro rfl
        exact idle (by rw [Fills, fillStringFromJson, found]; exact text)
      have read : stringOf (some status) = .ok s := stringOf_eq text
      simp only [read, bind, Except.bind, if_pos other]
      rfl

theorem addPayload_eq (res : ApiResponse ν) (set : res.pAddHandler.isSome) (buf : Bytes) :
    ∃ r, res.addPayload buf = .ok r ∧ r.2.pAddHandler = res.pAddHandler ∧
      r.2.origins = res.origins := by
  obtain ⟨handler, set⟩ := Option.isSome_iff_exists.mp set
  simp only [ApiResponse.addPayload, set]
  split_ifs <;> exact ⟨_, rfl, rfl, rfl⟩

theorem fillResponse_fills (fills : Fills e)
    (handled : res.pAddHandler.isSome ∨ e.parameters.jsonFindMember payloadText = none) :
    ∃ res', fillResponse image e res = .ok (0, res') ∧ res'.pAddHandler = res.pAddHandler ∧
      res'.origins = res.origins ++ [e] := by
  obtain ⟨status, found, text⟩ := Option.bind_eq_some_iff.mp fills
  have read : stringOf (some status) = .ok okText := stringOf_eq text
  simp only [fillResponse, found, read, bind, Except.bind, ne_eq, not_true_eq_false, if_false]
  cases carried : e.parameters.jsonFindMember payloadText with
  | none => exact ⟨_, rfl, rfl, rfl⟩
  | some payload =>
      have set : res.pAddHandler.isSome := by
        rw [carried] at handled
        exact handled.resolve_right (Option.some_ne_none _)
      obtain ⟨r, added, same, origins⟩ :=
        addPayload_eq { res with mHttpResponseCode := 200, origins := res.origins ++ [e] } set
          (image payload)
      simp only [added]
      exact ⟨r.2, rfl, same, origins⟩

/-- What it takes for an event to be filled in without a fault. -/
theorem readable_of_fillResponse {r : Int × ApiResponse ν}
    (run : fillResponse image e res = .ok r) :
    Readable e ∧ (Fills e → res.pAddHandler.isSome ∨
      e.parameters.jsonFindMember payloadText = none) := by
  rw [fillResponse] at run
  cases found : e.parameters.jsonFindMember statusText with
  | none =>
      refine ⟨fun status member => ?_, fun fills => ?_⟩
      · rw [found] at member
        cases member
      · rw [Fills, fillStringFromJson, found] at fills
        cases fills
  | some status =>
      rw [found] at run
      cases text : status.stringValue with
      | none =>
          have unreadable : stringOf (some status) = .error .nullPointer := by
            rw [stringOf, Option.bind_some, text]
          simp only [unreadable, bind, Except.bind] at run
          cases run
      | some s =>
          have read : stringOf (some status) = .ok s := stringOf_eq text
          refine ⟨fun other member => ?_, fun fills => ?_⟩
          · rw [found] at member
            cases member
            rw [text]
            rfl
          · rw [Fills, fillStringFromJson, found, Option.bind_some, text] at fills
            cases fills
            simp only [read, bind, Except.bind, ne_eq, not_true_eq_false, if_false] at run
            cases carried : e.parameters.jsonFindMember payloadText with
            | none => exact .inr rfl
            | some payload =>
                left
                rw [carried] at run
                cases set : res.pAddHandler with
                | some handler => rfl
                | none =>
                    simp only [ApiResponse.addPayload, set] at run
                    cases run

end Filling

/-! ### The loops over the queue -/

section Loops

variable (image : JsonNode ν → Bytes)

/-- One call of `arrow_mqtt_api_event_proc`. -/
theorem eventProc_eq {e : EventBase ν} {rest : List (EventBase ν)} {capacity : Int}
    {res : ApiResponse ν} :
    arrowMqttApiEventProc image res ⟨e :: rest, capacity⟩ =
      (fillResponse image e res).bind fun filled =>
        .ok ((if rest.isEmpty then filled.1 else 1, filled.2), ⟨rest, capacity⟩) := by
  simp only [arrowMqttApiEventProc, bind_apply, get_apply, ok_bind, lift]
  cases fillResponse image e res <;> rfl

/-- The loop over events that can be read. -/
theorem collect_eq {es : List (EventBase ν)} (found : es ≠ []) (capacity : Int)
    (readable : ∀ e ∈ es, Readable e) {fuel : Nat} (enough : es.length < fuel)
    (res : ApiResponse ν) (set : res.pAddHandler.isSome) :
    ∃ res', collect image fuel res ⟨es, capacity⟩ =
        .ok ((if Fills (es.getLast found) then 0 else -1, res'), ⟨[], capacity⟩) ∧
      res'.origins = res.origins ++ es.filter (Fills ·) := by
  induction es generalizing fuel res with
  | nil => exact absurd rfl found
  | cons e rest ih =>
      obtain ⟨fuel, rfl⟩ := Nat.exists_eq_succ_of_ne_zero (Nat.ne_zero_of_lt enough)
      obtain ⟨res₁, filled, set₁, origins₁⟩ : ∃ res₁,
          fillResponse image e res = .ok (if Fills e then 0 else -1, res₁) ∧
          res₁.pAddHandler.isSome ∧ res₁.origins = res.origins ++ [e].filter (Fills ·) := by
        by_cases fills : Fills e
        · obtain ⟨res₁, filled, same, origins⟩ := fillResponse_fills image fills (.inl set)
          rw [if_pos fills]
          exact ⟨res₁, filled, by rw [same]; exact set, by simp [origins, fills]⟩
        · rw [if_neg fills]
          exact ⟨res, fillResponse_idle image (readable e List.mem_cons_self) fills, set,
            by simp [fills]⟩
      rw [collect, bind_apply, eventProc_eq, filled]
      cases rest with
      | nil =>
          refine ⟨res₁, ?_, origins₁⟩
          have last : ¬ (if Fills e then (0 : Int) else -1) > 0 := by
            split_ifs <;> decide
          simp only [ok_bind, List.isEmpty_nil, if_true, List.getLast_singleton]
          rw [if_neg last]
          rfl
      | cons e' rest =>
          have more : ∀ e'' ∈ e' :: rest, Readable e'' :=
            fun e'' mem => readable e'' (List.mem_cons_of_mem _ mem)
          obtain ⟨res', collected, origins⟩ :=
            ih (List.cons_ne_nil _ _) more (Nat.lt_of_succ_lt_succ enough) res₁ set₁
          refine ⟨res', ?_, ?_⟩
          · have again : (1 : Int) > 0 := by decide
            simp only [ok_bind, List.isEmpty_cons, Bool.false_eq_true, if_false, if_pos again,
              collected, List.getLast_cons (List.cons_ne_nil e' rest)]
          · rw [origins, origins₁, List.append_assoc, ← List.filter_append]
            rfl

theorem readable_of_collect {es : List (EventBase ν)} {capacity : Int} {fuel : Nat}
    {res : ApiResponse ν} {r : (Int × ApiResponse ν) × ApiState ν}
    (run : collect image fuel res ⟨es, capacity⟩ = .ok r) : ∀ e ∈ es, Readable e := by
  induction es generalizing fuel res with
  | nil => exact List.forall_mem_nil _
  | cons e rest ih =>
      cases fuel with
      | zero => cases run
      | succ fuel =>
          rw [collect, bind_apply, eventProc_eq] at run
          obtain ⟨r₁, processed, run⟩ := ok_of_bind run
          obtain ⟨taken, filled, same⟩ := ok_of_bind processed
          cases same
          refine List.forall_mem_cons.mpr ⟨(readable_of_fillResponse image filled).1, ?_⟩
          cases rest with
          | nil => exact List.forall_mem_nil _
          | cons e' rest => exact ih run

/-- Dropping the surplus. -/
theorem dropSurplus_eq {drop kept : List (EventBase ν)} {num : Nat}
    (surplus : drop = [] ∧ kept.length ≤ num ∨ kept.length = num)
    (droppable : ∀ e ∈ drop, Droppable e) {fuel : Nat} (enough : drop.length < fuel) :
    dropSurplus image fuel ⟨drop ++ kept, num⟩ = .ok ((), ⟨kept, num⟩) := by
  induction drop generalizing fuel with
  | nil =>
      obtain ⟨fuel, rfl⟩ := Nat.exists_eq_succ_of_ne_zero (Nat.ne_zero_of_lt enough)
      have few : ¬ ((kept.length : Int) > num) := by
        have le : kept.length ≤ num := surplus.elim And.right Nat.le_of_eq
        omega
      simp [dropSurplus, arrowMqttApiHasEvents, few]
  | cons e drop ih =>
      obtain ⟨fuel, rfl⟩ := Nat.exists_eq_succ_of_ne_zero (Nat.ne_zero_of_lt enough)
      have full : kept.length = num := surplus.resolve_left fun h => List.cons_ne_nil _ _ h.1
      have many : ((e :: drop ++ kept).length : Int) > num := by
        rw [List.length_append, List.length_cons]
        omega
      obtain ⟨readable, bare⟩ := droppable e List.mem_cons_self
      obtain ⟨r, filled⟩ : ∃ r, fillResponse image e .dummy = .ok r := by
        by_cases fills : Fills e
        · obtain ⟨res', filled, -⟩ := fillResponse_fills image fills (.inr (bare fills))
          exact ⟨_, filled⟩
        · exact ⟨_, fillResponse_idle image readable fills⟩
      have rest := ih (.inr full) (fun e' mem => droppable e' (List.mem_cons_of_mem _ mem))
        (Nat.lt_of_succ_lt_succ enough)
      simp only [dropSurplus, arrowMqttApiHasEvents, bind_apply, get_apply, ok_bind, pure_apply,
        if_pos many]
      rw [List.cons_append, eventProc_eq, filled]
      exact rest

theorem droppable_of_dropSurplus {drop kept : List (EventBase ν)} {num : Nat}
    (full : drop = [] ∨ kept.length = num) {fuel : Nat} {r : Unit × ApiState ν}
    (run : dropSurplus image fuel ⟨drop ++ kept, num⟩ = .ok r) : ∀ e ∈ drop, Droppable e := by
  induction drop generalizing fuel with
  | nil => exact List.forall_mem_nil _
  | cons e drop ih =>
      have full : kept.length = num := full.resolve_left (List.cons_ne_nil _ _)
      cases fuel with
      | zero => cases run
      | succ fuel =>
          have many : ((e :: drop ++ kept).length : Int) > num := by
            rw [List.length_append, List.length_cons]
            omega
          simp only [dropSurplus, arrowMqttApiHasEvents, bind_apply, get_apply, ok_bind,
            pure_apply, if_pos many] at run
          rw [List.cons_append, eventProc_eq] at run
          obtain ⟨r₁, processed, run⟩ := ok_of_bind run
          obtain ⟨taken, filled, same⟩ := ok_of_bind processed
          cases same
          obtain ⟨readable, handled⟩ := readable_of_fillResponse image filled
          exact List.forall_mem_cons.mpr ⟨⟨readable, fun fills =>
            (handled fills).resolve_left Bool.false_ne_true⟩, ih (.inr full) run⟩

/-- The events that `arrow_mqtt_api_wait` drops. -/
def surplus (num : Nat) (queue : List (EventBase ν)) : List (EventBase ν) :=
  queue.take (queue.length - num)

/-- Those that it leaves. -/
def remaining (num : Nat) (queue : List (EventBase ν)) : List (EventBase ν) :=
  queue.drop (queue.length - num)

theorem surplus_cases (num : Nat) (queue : List (EventBase ν)) :
    surplus num queue = [] ∧ (remaining num queue).length ≤ num ∨
      (remaining num queue).length = num := by
  rw [surplus, remaining, List.length_drop, List.take_eq_nil_iff]
  omega

theorem arrowMqttApiWait_eq (num : Nat) (s : ApiState ν)
    (droppable : ∀ e ∈ surplus num s.apiEventQueue, Droppable e) :
    arrowMqttApiWait image num s = .ok ((), ⟨remaining num s.apiEventQueue, num⟩) := by
  have length : (surplus num s.apiEventQueue).length < s.apiEventQueue.length + 1 := by
    rw [surplus, List.length_take]
    omega
  have dropped := dropSurplus_eq image (surplus_cases num _) droppable length
  rwa [surplus, remaining, List.take_append_drop] at dropped

theorem droppable_of_wait (num : Nat) {s : ApiState ν} {r : Unit × ApiState ν}
    (run : arrowMqttApiWait image num s = .ok r) :
    ∀ e ∈ surplus num s.apiEventQueue, Droppable e := by
  have dropped : dropSurplus image (s.apiEventQueue.length + 1)
      ⟨surplus num s.apiEventQueue ++ remaining num s.apiEventQueue, num⟩ = .ok r := by
    rw [surplus, remaining, List.take_append_drop]
    exact run
  exact droppable_of_dropSurplus image ((surplus_cases num _).imp_left And.left) dropped

end Loops

end AcnSdk.Arrow
