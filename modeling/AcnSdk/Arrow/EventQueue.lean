/-
The queue of device events, `src/arrow/events.c`.

A message is decoded piece by piece, and its event is appended to a linked list, if the list
was not full when the message began. The event at the head of the list stays there while its
handler runs; `arrow_mqtt_event_proc` is therefore in two parts here, before and after the
handler. The mutex of the queue is left out, and memory never runs out.

* `Holds` — the list and the events in it.
* `processEventFinish_eq`, `eventProcEnd_eq` — what the two changes of the list do to it.
-/

import AcnSdk.Arrow.EventBase
import AcnSdk.Json.DecodeRun

namespace AcnSdk.Arrow

open AcnSdk.Lib AcnSdk.Data AcnSdk.Json Heap

variable {ν β γ : Type}

/-! ### The data -/

/-- `mqtt_event_t`, without the `device_hid` that nothing sets. -/
structure MqttEvent (ν : Type) where
  base : EventBase ν
  next : Option Addr

def mqttEventLink (ν : Type) : Link (MqttEvent ν) where
  next := MqttEvent.next
  setNext p e := { e with next := p }
  next_setNext _ _ := rfl

/-- `__event_queue` and `sm`, with the events and the parse machines. -/
structure EventState (ν : Type) where
  eventQueue : Option Addr
  events : Heap (MqttEvent ν)
  machines : Heap (Jpm ν)

/-- `"hid"` -/
abbrev hidText : Bytes := [0x68, 0x69, 0x64]

/-- `"name"` -/
abbrev nameText : Bytes := [0x6E, 0x61, 0x6D, 0x65]

/-- `"ServerToGateway_DeviceCommand"` -/
abbrev deviceCommandText : Bytes :=
  [0x53, 0x65, 0x72, 0x76, 0x65, 0x72, 0x54, 0x6F, 0x47, 0x61, 0x74, 0x65, 0x77, 0x61, 0x79, 0x5F,
   0x44, 0x65, 0x76, 0x69, 0x63, 0x65, 0x43, 0x6F, 0x6D, 0x6D, 0x61, 0x6E, 0x64]

/-- `"SendCommand"` -/
abbrev sendCommandText : Bytes :=
  [0x53, 0x65, 0x6E, 0x64, 0x43, 0x6F, 0x6D, 0x6D, 0x61, 0x6E, 0x64]

/-- `"ServerToGateway_DeviceStateRequest"` -/
abbrev deviceStateRequestText : Bytes :=
  [0x53, 0x65, 0x72, 0x76, 0x65, 0x72, 0x54, 0x6F, 0x47, 0x61, 0x74, 0x65, 0x77, 0x61, 0x79, 0x5F,
   0x44, 0x65, 0x76, 0x69, 0x63, 0x65, 0x53, 0x74, 0x61, 0x74, 0x65, 0x52, 0x65, 0x71, 0x75, 0x65,
   0x73, 0x74]

/-- `"ServerToGateway_GatewaySoftwareUpdate"` -/
abbrev gatewaySoftwareUpdateText : Bytes :=
  [0x53, 0x65, 0x72, 0x76, 0x65, 0x72, 0x54, 0x6F, 0x47, 0x61, 0x74, 0x65, 0x77, 0x61, 0x79, 0x5F,
   0x47, 0x61, 0x74, 0x65, 0x77, 0x61, 0x79, 0x53, 0x6F, 0x66, 0x74, 0x77, 0x61, 0x72, 0x65, 0x55,
   0x70, 0x64, 0x61, 0x74, 0x65]

/-- `"ServerToGateway_DeviceSoftwareRelease"` -/
abbrev deviceSoftwareReleaseText : Bytes :=
  [0x53, 0x65, 0x72, 0x76, 0x65, 0x72, 0x54, 0x6F, 0x47, 0x61, 0x74, 0x65, 0x77, 0x61, 0x79, 0x5F,
   0x44, 0x65, 0x76, 0x69, 0x63, 0x65, 0x53, 0x6F, 0x66, 0x74, 0x77, 0x61, 0x72, 0x65, 0x52, 0x65,
   0x6C, 0x65, 0x61, 0x73, 0x65]

/-- `"ServerToGateway_GatewaySoftwareRelease"` -/
abbrev gatewaySoftwareReleaseText : Bytes :=
  [0x53, 0x65, 0x72, 0x76, 0x65, 0x72, 0x54, 0x6F, 0x47, 0x61, 0x74, 0x65, 0x77, 0x61, 0x79, 0x5F,
   0x47, 0x61, 0x74, 0x65, 0x77, 0x61, 0x79, 0x53, 0x6F, 0x66, 0x74, 0x77, 0x61, 0x72, 0x65, 0x52,
   0x65, 0x6C, 0x65, 0x61, 0x73, 0x65]

/-- `"ServerToGateway_DeviceStart"` -/
abbrev deviceStartText : Bytes :=
  [0x53, 0x65, 0x72, 0x76, 0x65, 0x72, 0x54, 0x6F, 0x47, 0x61, 0x74, 0x65, 0x77, 0x61, 0x79, 0x5F,
   0x44, 0x65, 0x76, 0x69, 0x63, 0x65, 0x53, 0x74, 0x61, 0x72, 0x74]

/-- `"ServerToGateway_DeviceStop"` -/
abbrev deviceStopText : Bytes :=
  [0x53, 0x65, 0x72, 0x76, 0x65, 0x72, 0x54, 0x6F, 0x47, 0x61, 0x74, 0x65, 0x77, 0x61, 0x79, 0x5F,
   0x44, 0x65, 0x76, 0x69, 0x63, 0x65, 0x53, 0x74, 0x6F, 0x70]

/-- The functions of `sub_list`. -/
inductive Submodule where
  | deviceCommand | deviceStateRequest | gatewaySoftwareUpdate | deviceSoftwareRelease
deriving DecidableEq, Repr

/-- The settings of the build. -/
structure EventConfig where
  /-- `ARROW_MAX_MQTT_COMMANDS` -/
  maxMqttCommands : Nat
  /-- not `NO_SOFTWARE_UPDATE` -/
  softwareUpdate : Bool
  /-- not `NO_RELEASE_UPDATE` -/
  releaseUpdate : Bool
  /-- `DEVICE_STARTSTOP` -/
  deviceStartstop : Bool

section Names

variable (cfg : EventConfig)

/-- `sub_list`. -/
def subList : List (Bytes × Submodule) :=
  [(deviceCommandText, .deviceCommand), (sendCommandText, .deviceCommand),
    (deviceStateRequestText, .deviceStateRequest)] ++
  (if cfg.softwareUpdate then [(gatewaySoftwareUpdateText, .gatewaySoftwareUpdate)] else []) ++
  (if cfg.releaseUpdate then [(deviceSoftwareReleaseText, .deviceSoftwareRelease),
    (gatewaySoftwareReleaseText, .deviceSoftwareRelease)] else []) ++
  (if cfg.deviceStartstop then [(deviceStartText, .deviceSoftwareRelease),
    (deviceStopText, .deviceSoftwareRelease)] else [])

/-- The loop of `arrow_mqtt_event_proc` over the names, which goes on after a match. -/
def currentProcessor (name : Bytes) : Option Submodule :=
  (subList cfg).foldl (fun current sub => if sub.1 = name then some sub.2 else current) none

end Names

/-! ### The functions -/

/-- A program over the events. -/
def onEvents (x : HeapM (MqttEvent ν) β) : Prog (EventState ν) β := fun s =>
  (x s.events).bind fun r => .ok (r.1, { s with events := r.2 })

/-- A program over the parse machines. -/
def onJpm (x : JpmM ν β) : Prog (EventState ν) β := fun s =>
  (x s.machines).bind fun r => .ok (r.1, { s with machines := r.2 })

@[simp] theorem onEvents_apply (x : HeapM (MqttEvent ν) β) (s : EventState ν) :
    onEvents x s = (x s.events).bind fun r => .ok (r.1, { s with events := r.2 }) := rfl

@[simp] theorem onJpm_apply (x : JpmM ν β) (s : EventState ν) :
    onJpm x s = (x s.machines).bind fun r => .ok (r.1, { s with machines := r.2 }) := rfl

/-- The loop of `arrow_mqtt_has_events`. -/
def countEvents : Nat → Option Addr → HeapM (MqttEvent ν) Int
  | 0, _ => throw .endless
  | _ + 1, none => return 0
  | fuel + 1, some tmp => do
      let e ← read tmp
      let ret ← countEvents fuel e.next
      return ret + 1

/-- `arrow_mqtt_has_events`. -/
def arrowMqttHasEvents : Prog (EventState ν) Int := do
  let root := (← get).eventQueue
  onEvents do countEvents (← bound) root

section Functions

variable (cfg : EventConfig) (libc : Libc ν) (signer : Signer ν)

/-- `process_event_init`. There is always enough static memory without `STATIC_ACN`. -/
def processEventInit (enough : Bool) : Prog (EventState ν) Int := do
  if (← arrowMqttHasEvents) ≥ cfg.maxMqttCommands then return -1
  else if enough then onJpm (jsonDecodeInit 0)
  else return -1

/-- `process_event`. The tree of a failed message is deleted. -/
def processEvent (str : Bytes) : Prog (EventState ν) Int := do
  let r ← onJpm (jsonDecodePart libc 0 str)
  if r ≠ str.length then
    let _ ← onJpm (jsonDecodeFinish 0)
    return -1
  else return 0

/-- `process_event_finish`. The event is made when all its members are there. -/
def processEventFinish : Prog (EventState ν) Int := do
  match ← onJpm (jsonDecodeFinish 0) with
  | none => return -1
  | some main =>
      match ← Prog.lift (getEvent signer hidText nameText main) with
      | none => return -1
      | some base => do
          let mqttE ← onEvents (alloc ⟨base, none⟩)
          let queue := (← get).eventQueue
          let queue ← onEvents (arrowLinkedListAdd (mqttEventLink ν) queue mqttE)
          modify fun s => { s with eventQueue := queue }
          return 0

/-- `arrow_mqtt_event_proc` up to the call of the processor: the event, what is in it, and its
processor. -/
def eventProcBegin : Prog (EventState ν) (Option (Addr × EventBase ν × Option Submodule)) := do
  match (← get).eventQueue with
  | none => return none
  | some tmp =>
      let e ← onEvents (read tmp)
      return some (tmp, e.base, currentProcessor cfg e.base.name)

/-- `arrow_mqtt_event_proc` from the label `mqtt_event_proc_error` on. -/
def eventProcEnd (tmp : Addr) (ret : Int) : Prog (EventState ν) Int := do
  let root := (← get).eventQueue
  let queue ← onEvents do
    let root ← deref root
    arrowLinkedListDel (mqttEventLink ν) root root
  modify fun s => { s with eventQueue := queue }
  onEvents (free tmp)
  return if queue.isSome ∧ ret = 0 then 1 else ret

end Functions

/-! ### What they do -/

/-- The events in the queue, with their addresses. -/
structure Holds (s : EventState ν) (items : List (Addr × EventBase ν)) : Prop where
  linked : Linked (mqttEventLink ν) MqttEvent.base s.events s.eventQueue items
  nodup : (items.map Prod.fst).Nodup
  live : ∀ a ∈ items.map Prod.fst, a < s.events.brk

section Effects

variable {cfg : EventConfig} {libc : Libc ν} {signer : Signer ν} {s : EventState ν}
  {items : List (Addr × EventBase ν)}

theorem Holds.length_le (holds : Holds s items) : items.length ≤ s.events.brk := by
  rw [← List.length_map Prod.fst]
  exact length_le_of_nodup holds.nodup holds.live

/-- The queue does not depend on the machines. -/
theorem Holds.machines (holds : Holds s items) (machines : Heap (Jpm ν)) :
    Holds { s with machines := machines } items :=
  ⟨holds.linked, holds.nodup, holds.live⟩

theorem countEvents_eq {h : Heap (MqttEvent ν)} {root : Option Addr}
    (linked : Linked (mqttEventLink ν) MqttEvent.base h root items) (fuel : Nat)
    (enough : items.length < fuel) : countEvents fuel root h = .ok (items.length, h) := by
  induction linked generalizing fuel with
  | nil =>
      obtain ⟨fuel, rfl⟩ := Nat.exists_eq_succ_of_ne_zero (Nat.ne_zero_of_lt enough)
      rfl
  | cons cell _ ih =>
      obtain ⟨fuel, rfl⟩ := Nat.exists_eq_succ_of_ne_zero (Nat.ne_zero_of_lt enough)
      have rest := ih fuel (Nat.lt_of_succ_lt_succ enough)
      simp only [mqttEventLink] at rest
      simp [countEvents, read_eq cell, rest]

theorem hasEvents_eq (holds : Holds s items) :
    arrowMqttHasEvents s = .ok (items.length, s) := by
  have counted := countEvents_eq holds.linked (s.events.brk + 2)
    (Nat.lt_add_right 1 (Nat.lt_succ_of_le holds.length_le))
  simp [arrowMqttHasEvents, counted]

variable (cfg) in
/-- A message begins only if the queue is not full. -/
theorem processEventInit_eq (holds : Holds s items) {m : Jpm ν}
    (cell : s.machines.cells 0 = some m) (live : 0 < s.machines.brk) (enough : Bool) :
    processEventInit cfg enough s = .ok (-1, s) ∨
      items.length < cfg.maxMqttCommands ∧ ∃ machines,
        processEventInit cfg enough s = .ok (0, { s with machines := machines }) ∧
          Represents 0 machines (Stack.init : Stack ν) := by
  by_cases full : (items.length : Int) ≥ cfg.maxMqttCommands
  · exact .inl (by simp [processEventInit, hasEvents_eq holds, full])
  · have room : items.length < cfg.maxMqttCommands := Int.ofNat_lt.mp (Int.not_le.mp full)
    cases enough with
    | false => exact .inl (by simp [processEventInit, hasEvents_eq holds])
    | true =>
        obtain ⟨machines, init, rep⟩ := init_represents cell live
        refine .inr ⟨room, machines, ?_, rep⟩
        simp [processEventInit, hasEvents_eq holds, Nat.not_le.mpr room, init]

theorem processEvent_eq {st st' : Stack ν} (rep : Represents 0 s.machines st) {str : Bytes}
    (ran : st.run libc str = some st') :
    ∃ machines, processEvent libc str s = .ok (0, { s with machines := machines }) ∧
      Represents 0 machines st' := by
  have follows := decodeBytes_follows libc rep str
  rw [ran] at follows
  obtain ⟨machines, decoded, rep'⟩ := follows
  exact ⟨machines, by simp [processEvent, jsonDecodePart, decoded], rep'⟩

/-- An event, once it is allocated, goes to the end of the list. -/
theorem addLast_eq (holds : Holds s items) (base : EventBase ν) :
    ∃ p' h', arrowLinkedListAdd (mqttEventLink ν) s.eventQueue s.events.brk
        { cells := fun b => if b = s.events.brk then some ⟨base, none⟩ else s.events.cells b,
          brk := s.events.brk + 1 } = .ok (p', h') ∧
      ∀ machines, Holds ⟨p', h', machines⟩ (items ++ [(s.events.brk, base)]) := by
  have new : s.events.brk ∉ items.map Prod.fst :=
    fun mem => Nat.lt_irrefl _ (holds.live _ mem)
  let h₁ : Heap (MqttEvent ν) :=
    { cells := fun b => if b = s.events.brk then some ⟨base, none⟩ else s.events.cells b,
      brk := s.events.brk + 1 }
  have linked₁ : Linked (mqttEventLink ν) MqttEvent.base h₁ s.eventQueue items := by
    refine holds.linked.congr fun a ha => ?_
    have other : a ≠ s.events.brk := fun eq => new (eq ▸ ha)
    simp [h₁, other]
  obtain ⟨p', h', added, brk, linked'⟩ := arrowLinkedListAdd_linked (e := ⟨base, none⟩)
    (fun _ _ => rfl) linked₁ holds.nodup (Nat.le_succ_of_le holds.length_le) new
    (by simp [h₁])
  refine ⟨p', h', added, fun machines => ⟨linked', ?_, ?_⟩⟩
  · rw [List.map_append]
    refine List.nodup_append.mpr ⟨holds.nodup, List.nodup_singleton _, fun a ha b hb eq => ?_⟩
    rw [List.map_singleton, List.mem_singleton] at hb
    rw [eq, hb] at ha
    exact new ha
  · intro a ha
    rw [List.map_append, List.map_singleton, List.mem_append, List.mem_singleton] at ha
    rw [brk]
    exact ha.elim (fun old => Nat.lt_succ_of_lt (holds.live a old))
      fun eq => eq ▸ Nat.lt_succ_self _

variable (signer) in
/-- The end of a message appends its event, if it has one. -/
theorem processEventFinish_eq (holds : Holds s items) {st : Stack ν}
    (rep : Represents 0 s.machines st)
    (tags : ∀ main, st.root = some main → ExpectedTags hidText nameText main) :
    ∃ s', (∃ m, s'.machines.cells 0 = some m) ∧ 0 < s'.machines.brk ∧
      ((processEventFinish signer s = .ok (-1, s') ∧ Holds s' items ∧
          ∀ main base, st.root = some main → Members hidText nameText main base →
            ¬ Signed signer main base) ∨
        ∃ main base a, st.root = some main ∧ Members hidText nameText main base ∧
          Signed signer main base ∧ processEventFinish signer s = .ok (0, s') ∧
          Holds s' (items ++ [(a, base)])) := by
  obtain ⟨machines, finished, cell, live⟩ := rep.finish_caller
  cases root : st.root with
  | none =>
      rw [root] at finished
      refine ⟨{ s with machines := machines }, cell, live, .inl ⟨?_, holds.machines _, ?_⟩⟩
      · simp [processEventFinish, finished]
      · exact fun main _ some => absurd some (Option.some_ne_none main).symm
  | some main =>
      rw [root] at finished
      obtain ⟨made, event, iff⟩ := getEvent_eq signer (tags main root)
      cases made with
      | none =>
          refine ⟨{ s with machines := machines }, cell, live, .inl ⟨?_, holds.machines _, ?_⟩⟩
          · simp [processEventFinish, finished, event]
          · intro main' base same members signed
            cases same
            cases (iff base).mpr ⟨members, signed⟩
      | some base =>
          obtain ⟨members, signed⟩ := (iff base).mp rfl
          obtain ⟨p', h', added, appended⟩ := addLast_eq holds base
          refine ⟨⟨p', h', machines⟩, cell, live,
            .inr ⟨main, base, s.events.brk, rfl, members, signed, ?_, appended machines⟩⟩
          simp [processEventFinish, finished, event, alloc, added]

theorem eventProcBegin_nil (cfg : EventConfig) (holds : Holds s []) :
    eventProcBegin cfg s = .ok (none, s) := by
  have empty : s.eventQueue = none := by
    cases root : s.eventQueue with
    | none => rfl
    | some a =>
        have linked := holds.linked
        rw [root] at linked
        cases linked
  simp [eventProcBegin, empty]

theorem eventProcBegin_cons (cfg : EventConfig) {a : Addr} {e : EventBase ν}
    (holds : Holds s ((a, e) :: items)) :
    eventProcBegin cfg s = .ok (some (a, e, currentProcessor cfg e.name), s) := by
  obtain ⟨linked, -, -⟩ := holds
  obtain ⟨queue, events, machines⟩ := s
  obtain @⟨⟩ | ⟨cell, -⟩ := linked
  simp [eventProcBegin, read_eq cell]

/-- The end of a call removes the event at the head, which is the one that is released. -/
theorem eventProcEnd_eq {a : Addr} {e : EventBase ν} (holds : Holds s ((a, e) :: items))
    (ret : Int) :
    ∃ ret' s', eventProcEnd a ret s = .ok (ret', s') ∧ s'.machines = s.machines ∧
      s'.events.cells a = none ∧ Holds s' items := by
  obtain ⟨linked, nodup, live⟩ := holds
  obtain ⟨queue, events, machines⟩ := s
  rw [List.map_cons, List.nodup_cons] at nodup
  obtain @⟨⟩ | ⟨cell, rest⟩ := linked
  rename_i x
  have cell' : (events.set a ((mqttEventLink ν).setNext none x)).cells a =
      some ((mqttEventLink ν).setNext none x) := by
    simp
  refine ⟨if ((mqttEventLink ν).next x).isSome ∧ ret = 0 then 1 else ret,
    ⟨(mqttEventLink ν).next x, (events.set a ((mqttEventLink ν).setNext none x)).erase a, machines⟩,
    ?_, rfl, by simp, ?_, nodup.2, fun b hb => live b (List.mem_cons_of_mem _ hb)⟩
  · simp [eventProcEnd, arrowLinkedListDel_root cell, free_eq cell']
  · refine rest.congr fun b hb => ?_
    have other : b ≠ a := fun eq => nodup.1 (eq ▸ hb)
    simp [other]

end Effects

end AcnSdk.Arrow
