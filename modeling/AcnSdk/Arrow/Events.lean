/-
Received messages, `src/arrow/events.c`.

Device events and API responses arrive as published JSON messages. Each of the two has
a parse machine of its own, a static variable, and a queue; the functions that receive
them are the same but for these, the limit of the queue and the names of two members.
What makes an event of a decoded tree (`get_event_base` and the check of its signature)
is a parameter: no tree, no event. The queue is a sequence here; `Arrow.EventReceivers` says that
the linked list of `Arrow.EventQueue` and the queue of `Arrow.ApiEvents` do the same.
-/

import AcnSdk.Json.DecodeRun
import AcnSdk.Mqtt.Publish

namespace AcnSdk.Arrow

open AcnSdk.Lib AcnSdk.Json AcnSdk.Mqtt Heap

variable {ν ε : Type}

/-- Programs over the parse machines and a queue of events. -/
abbrev EventM (ν ε : Type) := StateT (List ε) (JpmM ν)

/-- A program over the machines leaves the queue as it is. -/
def onMachines {β : Type} (x : JpmM ν β) : EventM ν ε β := fun queue => do return (← x, queue)

namespace EventM

variable {β γ : Type}

@[simp] theorem pure_apply (b : β) (queue : List ε) (h : Heap (Jpm ν)) :
    (pure b : EventM ν ε β) queue h = .ok ((b, queue), h) := rfl

@[simp] theorem bind_apply (x : EventM ν ε β) (f : β → EventM ν ε γ) (queue : List ε)
    (h : Heap (Jpm ν)) : (x >>= f) queue h = (x queue h).bind fun r => f r.1.1 r.1.2 r.2 := rfl

@[simp] theorem get_apply (queue : List ε) (h : Heap (Jpm ν)) :
    (get : EventM ν ε (List ε)) queue h = .ok ((queue, queue), h) := rfl

@[simp] theorem onMachines_apply (x : JpmM ν β) (queue : List ε) (h : Heap (Jpm ν)) :
    (onMachines x : EventM ν ε β) queue h = (x h).bind fun r => .ok ((r.1, queue), r.2) := rfl

/-- A list of calls, of which the first meets no fault. -/
theorem mapM_cons_of_ok {α : Type} {f : α → EventM ν ε β} {a : α} {queue queue' : List ε}
    {h h' : Heap (Jpm ν)} {b : β} (first : f a queue h = .ok ((b, queue'), h')) (rest : List α) :
    (a :: rest).mapM f queue h =
      (rest.mapM f queue' h').bind fun r => .ok ((b :: r.1.1, r.1.2), r.2) := by
  rw [List.mapM_cons, bind_apply, first]
  rfl

end EventM

/-- The static variables and the settings of one kind of messages. -/
structure Receiver (ν ε : Type) where
  sm : Addr
  /-- The queue is full at this length, if it has a limit. -/
  limit : Option Nat
  /-- The event that a decoded tree holds, if it is complete and its signature is right. -/
  event : JsonNode ν → Option ε

namespace Receiver

variable (libc : Libc ν) (r : Receiver ν ε)

/-- `process_event_init` and `process_http_init`. -/
def processInit (_size : Int) : EventM ν ε Int := do
  if r.limit.any (· ≤ (← get).length) then return -1
  else onMachines (jsonDecodeInit r.sm)

/-- `process_event` and `process_http`. The tree of a failed message is deleted. -/
def process (str : Bytes) : EventM ν ε Int := do
  let result ← onMachines (jsonDecodePart libc r.sm str)
  if result ≠ str.length then
    let _ ← onMachines (jsonDecodeFinish r.sm)
    return -1
  else return 0

/-- `process_event_finish` and `process_http_finish`. -/
def processFinish : EventM ν ε Int := do
  match ← onMachines (jsonDecodeFinish r.sm) with
  | none => return -1
  | some root =>
      match r.event root with
      | none => return -1
      | some e =>
          modify (· ++ [e])
          return 0

/-- The callbacks registered for the topic of the messages. -/
def callbacks : DeliveryCallback (EventM ν ε) where
  init := r.processInit
  process := r.process libc
  done := r.processFinish

end Receiver

/-! ### The two kinds of messages -/

section Kinds

-- `get_event_base` with the names of the members for the id and the name of the event, and
-- the check of the signature
variable (getEvent : Bytes → Bytes → JsonNode ν → Option ε) (limit : Option Nat)

/-- `"hid"` and `"name"` with the machine `sm`. -/
def eventReceiver : Receiver ν ε where
  sm := 0
  limit := limit
  event := getEvent [0x68, 0x69, 0x64] [0x6E, 0x61, 0x6D, 0x65]

/-- `"requestId"` and `"eventName"` with the machine `sm_http`. -/
def httpReceiver : Receiver ν ε where
  sm := 1
  limit := limit
  event := getEvent [0x72, 0x65, 0x71, 0x75, 0x65, 0x73, 0x74, 0x49, 0x64]
    [0x65, 0x76, 0x65, 0x6E, 0x74, 0x4E, 0x61, 0x6D, 0x65]

variable (libc : Libc ν)

/-- `base_event_callbacks`. -/
def baseEventCallbacks : DeliveryCallback (EventM ν ε) :=
  (eventReceiver getEvent limit).callbacks libc

/-- `http_event_callbacks`. -/
def httpEventCallbacks : DeliveryCallback (EventM ν ε) :=
  (httpReceiver getEvent limit).callbacks libc

end Kinds

end AcnSdk.Arrow
