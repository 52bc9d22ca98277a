/-
What becomes of queued responses: `arrow_mqtt_api_wait` drops them, and
`arrow_mqtt_api_event_proc` fills the response of a request from one.

The response has `default_add_payload_handler`, and lies on a heap of blocks of bytes, as does the
node of the payload: what is handed over is the address of the node.

* `drains_iff` — when the surplus can be dropped.
* `appendsExactly_iff` — when the payload of an event is what is appended.
-/

import AcnSdk.Arrow.ApiEvents
import AcnSdk.Http.Response

namespace AcnSdk.Arrow

open AcnSdk.Lib AcnSdk.Data AcnSdk.Http AcnSdk.Json Prog Heap

variable {ν β : Type}

/-! ### Dropping the surplus -/

/-- At most `num` events are left, the last ones in their order, and no handler is called. -/
def Drains (image : JsonNode ν → Bytes) (num : Nat) (s : ApiState ν) : Prop :=
  ∃ s', arrowMqttApiWait image num s = .ok ((), s') ∧ s'.apiEventQueue <:+ s.apiEventQueue ∧
    s'.apiEventQueue.length = min num s.apiEventQueue.length

theorem drains_iff (image : JsonNode ν → Bytes) (num : Nat) (s : ApiState ν) :
    Drains image num s ↔ ∀ e ∈ surplus num s.apiEventQueue, Droppable e := by
  constructor
  · rintro ⟨s', run, -⟩
    exact droppable_of_wait image num run
  · intro droppable
    refine ⟨_, arrowMqttApiWait_eq image num s droppable, List.drop_suffix _ _, ?_⟩
    dsimp only
    rw [remaining, List.length_drop]
    omega

/-! ### Filling a response -/

/-- The members of `http_response_t` that an event fills in. -/
structure HttpResponse where
  mHttpResponseCode : Nat
  body : PayloadState

/-- The queue, and the memory. -/
structure ApiMemory (ν : Type) where
  api : ApiState ν
  heap : Heap Bytes

def onApiHeap (x : HeapM Bytes β) : Prog (ApiMemory ν) β := fun m =>
  (x m.heap).bind fun r => .ok (r.1, { m with heap := r.2 })

section

variable (fresh : Nat → Byte) (node : Addr)

/-- `http_response_add_payload` of `p_stack(payload)`, where `payload` is a node. -/
def addNode (body : PayloadState) : HeapM Bytes PayloadState := do
  let len ← strlen node
  let (_, body) ← httpResponseAddPayload fresh body (.stack node len)
  return body

/-- The part of `arrow_mqtt_api_event_proc` before the event is removed. -/
def fillFrom (tmp : EventBase ν) (res : HttpResponse) : HeapM Bytes (Int × HttpResponse) :=
  match tmp.parameters.jsonFindMember statusText with
  | none => return (-1, res)
  | some status => do
      let text ← lift (stringOf (some status))
      if text ≠ okText then return (-1, res)
      else
        let res := { res with mHttpResponseCode := 200 }
        match tmp.parameters.jsonFindMember payloadText with
        | none => return (0, res)
        | some _ => do
            let body ← addNode fresh node res.body
            return (0, { res with body := body })

/-- `arrow_mqtt_api_event_proc`, where the payload of the first event is at `node`. -/
def apiEventProcInto (res : HttpResponse) : Prog (ApiMemory ν) (Int × HttpResponse) := do
  match (← get).api.apiEventQueue with
  | [] => return (-1, res)
  | tmp :: rest => do
      let filled ← onApiHeap (fillFrom fresh node tmp res)
      modify fun m => { m with api.apiEventQueue := m.api.apiEventQueue.tail }
      return (if rest.isEmpty then filled.1 else 1, filled.2)

end

/-- An event with the status `"OK"` and a string as its payload. -/
structure CarriesPayload (e : EventBase ν) (s : Bytes) : Prop where
  fills : Fills e
  found : ∃ key, e.parameters.jsonFindMember payloadText = some (.scalar key (.string s))
  plain : 0 ∉ s

/-- What was collected in a response since it was initialised, apart from the node. -/
def Collects (h : Heap Bytes) (node : Addr) (body : PayloadState) (old : Bytes) : Prop :=
  (body.payload = .init ∧ old = []) ∨
    ∃ b size, body.payload = ⟨some b, dynamicTag, false, true, size⟩ ∧
      h.cells b = some (old ++ [0]) ∧ 0 ∉ old ∧ node ≠ b

/-- The first event leaves the queue, and its payload is behind what was collected. -/
def AppendsExactly (fresh : Nat → Byte) (node : Addr) (res : HttpResponse) (m : ApiMemory ν)
    (old s : Bytes) : Prop :=
  ∃ ret res' m', apiEventProcInto fresh node res m = .ok ((ret, res'), m') ∧
    m'.api = { m.api with apiEventQueue := m.api.apiEventQueue.tail } ∧
    ∃ a tail, res'.body.payload.value = some a ∧ m'.heap.cells a = some (old ++ s ++ 0 :: tail)

section

variable {fresh : Nat → Byte} {node : Addr} {h : Heap Bytes} {body : PayloadState}
  {block old s : Bytes}

theorem strlen_overflow (cell : h.cells node = some block) (endless : 0 ∉ block) :
    strlen node h = .error .overflow := by
  have string : stringIn block (block.length + 1) = .error .overflow := by
    rw [stringIn, List.take_of_length_le (Nat.le_succ _), cstr_eq_self endless]
    exact if_pos ⟨Nat.lt_succ_self _, rfl⟩
  simp only [strlen, bind_apply, read_eq cell, ok_bind, string, lift_error, error_bind]

/-- An empty response gets the C string at the address of the node. -/
theorem addNode_init {rest : Bytes} (cell : h.cells node = some (s ++ 0 :: rest)) (plain : 0 ∉ s)
    (empty : body.payload = .init) :
    addNode fresh node body h = .ok (
      ⟨⟨some h.brk, dynamicTag, false, true, s.length % 2 ^ 16⟩, body.processedPayloadChunk + 1⟩,
      { cells := fun a => if a = h.brk then some (s ++ [0]) else h.cells a, brk :=
        h.brk + 1 }) := by
  have moved := propertyMove_stack cell plain .init
  have length : strlen node h = .ok (s.length, h) := strlen_eq cell plain
  have none : body.payload.isEmpty = true := by
    rw [empty]
    rfl
  rw [addNode, bind_of_ok length, httpResponseAddPayload, defaultAddPayloadHandler, none,
    if_pos rfl, empty]
  simp only [bind_apply, moved, alloc, ok_bind]
  rfl

/-- A response that has something already does not get more. -/
theorem addNode_full {rest : Bytes} (cell : h.cells node = some (s ++ 0 :: rest)) (plain : 0 ∉ s)
    (live : node < h.brk) {b size : Nat}
    (full : body.payload = ⟨some b, dynamicTag, false, true, size⟩)
    (text : h.cells b = some (old ++ [0])) (old_plain : 0 ∉ old) (differ : node ≠ b) :
    addNode fresh node body h = .error .overflow := by
  have length : strlen node h = .ok (s.length, h) := strlen_eq cell plain
  have beyond : dynmcConcat fresh body.payload (.stack node s.length) h = .error .overflow := by
    have value : body.payload.value = some b := by rw [full]
    have raw : body.payload.isRaw = false := by rw [full]
    have owner : body.payload.isOwner = true := by rw [full]
    have size_eq : concatSize (.stack node s.length) h = .ok (s.length, h) := length
    have size_le : s.length ≤ (s ++ 0 :: rest).length := by
      rw [List.length_append]
      exact Nat.le_add_right _ _
    exact dynmcConcat_beyond fresh text old_plain value raw owner rfl size_eq size_le cell differ
      live
  have some_payload : body.payload.isEmpty = false := by
    rw [full]
    rfl
  have some_node : (Property.stack node s.length).isEmpty = false := rfl
  rw [addNode, bind_of_ok length, httpResponseAddPayload, defaultAddPayloadHandler, some_payload,
    if_neg Bool.false_ne_true, propertyConcat, some_node, if_neg Bool.false_ne_true, some_payload,
    if_neg Bool.false_ne_true]
  simp only [bind_apply, beyond, error_bind]

theorem fillFrom_eq {e : EventBase ν} (carries : CarriesPayload e s) (res : HttpResponse) :
    fillFrom fresh node e res h =
      (addNode fresh node res.body h).bind fun r => .ok ((0, ⟨200, r.1⟩), r.2) := by
  obtain ⟨status, found, text⟩ := Option.bind_eq_some_iff.mp carries.fills
  obtain ⟨key, payload⟩ := carries.found
  have read : stringOf (some status) = .ok okText := stringOf_eq text
  simp only [fillFrom, found, payload, read]
  rfl

theorem apiEventProcInto_eq {e : EventBase ν} {rest : List (EventBase ν)} (capacity : Int)
    (carries : CarriesPayload e s) (res : HttpResponse) :
    apiEventProcInto fresh node res ⟨⟨e :: rest, capacity⟩, h⟩ =
      (addNode fresh node res.body h).bind fun r =>
        .ok ((if rest.isEmpty then 0 else 1, ⟨200, r.1⟩), ⟨⟨rest, capacity⟩, r.2⟩) := by
  rw [apiEventProcInto, bind_of_ok (get_apply _)]
  dsimp only
  rw [bind_apply, onApiHeap, fillFrom_eq carries]
  cases addNode fresh node res.body h <;> rfl

/-- The payload is appended if and only if nothing was collected before it, and it is the C string
at the address of its node. -/
theorem appendsExactly_iff (fresh : Nat → Byte) {e : EventBase ν} (rest : List (EventBase ν))
    (capacity : Int) (carries : CarriesPayload e s) {res : HttpResponse}
    (collects : Collects h node res.body old) (cell : h.cells node = some block)
    (live : node < h.brk) :
    AppendsExactly fresh node res ⟨⟨e :: rest, capacity⟩, h⟩ old s ↔
      res.body.payload = .init ∧ ∃ tail, block = s ++ 0 :: tail := by
  rw [AppendsExactly, apiEventProcInto_eq capacity carries]
  by_cases ends : 0 ∈ block
  · obtain ⟨t, tail, rfl, plain⟩ := List.eq_append_cons_of_mem ends
    rcases collects with ⟨empty, rfl⟩ | ⟨b, size, full, text, old_plain, differ⟩
    · rw [addNode_init cell plain empty]
      rw [and_iff_right empty]
      constructor
      · rintro ⟨ret, res', m', run, -, a, tail', value, there⟩
        cases run
        cases value
        dsimp only at there
        rw [if_pos rfl, List.nil_append, Option.some.injEq] at there
        have same := congrArg cstr there
        rw [cstr_terminated plain, cstr_terminated carries.plain] at same
        exact ⟨tail, by rw [same]⟩
      · rintro ⟨tail', same⟩
        have text := congrArg cstr same
        rw [cstr_terminated plain, cstr_terminated carries.plain] at text
        subst text
        exact ⟨_, _, _, rfl, rfl, h.brk, [], rfl, if_pos rfl⟩
    · rw [addNode_full cell plain live full text old_plain differ]
      refine iff_of_false ?_ ?_
      · rintro ⟨ret, res', m', run, -⟩
        cases run
      · rintro ⟨empty, -⟩
        rw [full] at empty
        cases empty
  · refine iff_of_false ?_ ?_
    · rintro ⟨ret, res', m', run, -⟩
      rw [addNode, bind_apply, strlen_overflow cell ends] at run
      cases run
    · rintro ⟨-, tail, rfl⟩
      exact ends (List.mem_append_right s List.mem_cons_self)

end

/-- The surplus is dropped if and only if no event of it has the status `"OK"` together with a
payload, and every status is a string. The payload of an event is appended if and only if it is
the first, and is the C string at the address of its node. -/
theorem apiQueue_iff (image : JsonNode ν → Bytes) (num : Nat) (queue : ApiState ν)
    (fresh : Nat → Byte) {node : Addr} {h : Heap Bytes} {block old s : Bytes} {e : EventBase ν}
    (rest : List (EventBase ν)) (capacity : Int) (carries : CarriesPayload e s)
    {res : HttpResponse} (collects : Collects h node res.body old)
    (cell : h.cells node = some block) (live : node < h.brk) :
    (Drains image num queue ↔ ∀ e ∈ surplus num queue.apiEventQueue, Droppable e) ∧
      (AppendsExactly fresh node res ⟨⟨e :: rest, capacity⟩, h⟩ old s ↔
        res.body.payload = .init ∧ ∃ tail, block = s ++ 0 :: tail) := by
  constructor
  · exact drains_iff image num queue
  · exact appendsExactly_iff fresh rest capacity carries collects cell live

/-- An event with the status `"OK"` and the payload `x`. -/
def okEvent : EventBase Unit where
  id := []
  name := []
  encrypted := false
  parameters := .container none .object [.scalar (some statusText) (.string okText),
    .scalar (some payloadText) (.string [0x78])]

theorem okEvent_carries : CarriesPayload okEvent [0x78] := by
  constructor
  · exact by decide
  · exact ⟨some payloadText, rfl⟩
  · decide

/-- The node of that payload, whose first bytes are all zero. -/
def zeroNode : Heap Bytes := ⟨fun a => if a = 0 then some [0, 0, 0, 0] else none, 1⟩

theorem apiQueue_okEvent :
    (Drains (fun _ => []) 1 ⟨[okEvent], 1⟩ ↔ ∀ e ∈ surplus 1 [okEvent], Droppable e) ∧
      (AppendsExactly (fun _ => 0) 0 ⟨0, .init⟩ ⟨⟨[okEvent], 1⟩, zeroNode⟩ [] [0x78] ↔
        PayloadState.init.payload = .init ∧
          ∃ tail : Bytes, ([0, 0, 0, 0] : Bytes) = [0x78] ++ 0 :: tail) :=
  apiQueue_iff (fun _ => []) 1 ⟨[okEvent], 1⟩ (fun _ => 0) [] 1 okEvent_carries (.inl ⟨rfl, rfl⟩)
    rfl Nat.one_pos

/-- It is dropped into a response that is not initialised, and a response that is initialised gets
the bytes of the node. -/
theorem not_drains_okEvent :
    ¬ Drains (fun _ => []) 0 ⟨[okEvent], 1⟩ ∧
      ¬ AppendsExactly (fun _ => 0) 0 ⟨0, .init⟩ ⟨⟨[okEvent], 1⟩, zeroNode⟩ [] [0x78] := by
  constructor
  · intro drains
    have droppable := (drains_iff _ _ _).mp drains okEvent List.mem_cons_self
    cases droppable.2 okEvent_carries.fills
  · intro appends
    have collects : Collects zeroNode 0 PayloadState.init [] := .inl ⟨rfl, rfl⟩
    obtain ⟨-, tail, same⟩ := (appendsExactly_iff (fun _ => 0) [] 1 okEvent_carries collects rfl
      Nat.one_pos).mp appends
    cases same

end AcnSdk.Arrow
