/-
That the models of the functions which receive messages agree, `src/arrow/events.c`.

`Arrow.Events` has one receiver for both kinds of messages, over a sequence of events.
`Arrow.EventQueue` has the linked list of the device events, and `Arrow.ApiEvents` the messages of
API responses as they are decoded. With enough memory, and unless a union is read under another
tag, these do what the receiver does.

* `callbacks_simulate` — any calls of the callbacks for device events.
* `processHttpInit_agrees`, `processHttpFinish_agrees` — the callbacks for API responses.
-/

import AcnSdk.Arrow.ApiClient
import AcnSdk.Arrow.Events
import AcnSdk.Arrow.MessageReads

namespace AcnSdk.Arrow

open AcnSdk.Lib AcnSdk.Json AcnSdk.Mqtt

variable {ν α β γ : Type}

/-! ### The event of a tree -/

/-- What `getEvent` makes of a tree, and nothing where it meets a fault. -/
def madeEvent (signer : Signer ν) (id name : Bytes) (main : JsonNode ν) : Option (EventBase ν) :=
  match getEvent signer id name main with
  | .ok base => base
  | .error _ => none

theorem failsOnly_signChecker (signer : Signer ν) (main : JsonNode ν) (base : EventBase ν) :
    FailsOnly .nullPointer (mqttEventSignChecker signer main base) := by
  unfold mqttEventSignChecker
  split
  · exact failsOnly_ok _ _
  split
  · exact failsOnly_ok _ _
  refine (failsOnly_stringOf _).bind fun vers => ?_
  refine (failsOnly_stringOf _).bind fun sign => ?_
  exact failsOnly_ok _ _

/-- An event is made, or a union is read under another tag. -/
theorem failsOnly_getEvent (signer : Signer ν) (id name : Bytes) (main : JsonNode ν) :
    FailsOnly .nullPointer (getEvent signer id name main) := by
  refine (failsOnly_getEventBase main id name).bind fun made => ?_
  cases made with
  | none => exact failsOnly_ok _ _
  | some base =>
      refine (failsOnly_signChecker signer main base).bind fun valid => ?_
      cases valid with
      | false => exact failsOnly_ok _ _
      | true => exact failsOnly_ok _ _

/-! ### The list and the sequence -/

/-- The program over the list ends as the one over the sequence of its events does, unless it reads
a union under another tag. -/
def Simulates (x : Prog (EventState ν) β) (y : EventM ν (EventBase ν) β) : Prop :=
  ∀ s items, Holds s items → ∀ b queue machines,
    y (items.map Prod.snd) s.machines = .ok ((b, queue), machines) →
      x s = .error .nullPointer ∨
        ∃ s' items', x s = .ok (b, s') ∧ s'.machines = machines ∧ Holds s' items' ∧
          items'.map Prod.snd = queue

namespace Simulates

variable {x : Prog (EventState ν) β} {y : EventM ν (EventBase ν) β}

theorem pure (b : β) : Simulates (ν := ν) (Pure.pure b) (Pure.pure b) := by
  intro s items holds b' queue machines ran
  cases ran
  exact .inr ⟨s, items, rfl, rfl, holds, rfl⟩

theorem bind {f : β → Prog (EventState ν) γ} {g : β → EventM ν (EventBase ν) γ}
    (first : Simulates x y) (rest : ∀ b, Simulates (f b) (g b)) :
    Simulates (x >>= f) (y >>= g) := by
  intro s items holds c queue machines ran
  obtain ⟨⟨⟨b, queue₁⟩, machines₁⟩, ran₁, ran⟩ := Prog.ok_of_bind ran
  rw [Prog.bind_apply]
  rcases first s items holds b queue₁ machines₁ ran₁ with
    fault | ⟨s₁, items₁, run, rfl, holds₁, rfl⟩
  · exact .inl (by rw [fault]; rfl)
  · rw [run, Prog.ok_bind]
    exact rest b s₁ items₁ holds₁ c queue machines ran

/-- Calls one after the other. -/
theorem mapM {f : α → Prog (EventState ν) β} {g : α → EventM ν (EventBase ν) β}
    (each : ∀ a, Simulates (f a) (g a)) (calls : List α) :
    Simulates (calls.mapM f) (calls.mapM g) := by
  induction calls with
  | nil =>
      rw [List.mapM_nil, List.mapM_nil]
      exact .pure []
  | cons a calls ih =>
      rw [List.mapM_cons, List.mapM_cons]
      exact (each a).bind fun b => ih.bind fun bs => .pure (b :: bs)

/-- A program over the machines alone. -/
theorem machines (m : JpmM ν β) : Simulates (onJpm m) (onMachines m) := by
  intro s items holds b queue machines ran
  rw [EventM.onMachines_apply] at ran
  obtain ⟨⟨b', machines'⟩, run, rest⟩ := Prog.ok_of_bind ran
  cases rest
  exact .inr ⟨{ s with machines := machines' }, items, by rw [onJpm_apply, run]; rfl, rfl,
    holds.machines _, rfl⟩

end Simulates

/-! ### Device events -/

section DeviceEvents

variable (cfg : EventConfig) (libc : Libc ν) (signer : Signer ν)

/-- `base_event_callbacks` with the linked list, and enough memory. -/
def listCallbacks : DeliveryCallback (Prog (EventState ν)) where
  init _ := processEventInit cfg true
  process := processEvent libc
  done := processEventFinish signer

/-- The receiver of device events. -/
abbrev deviceReceiver : Receiver ν (EventBase ν) :=
  eventReceiver (madeEvent signer) (some cfg.maxMqttCommands)

theorem processEventInit_simulates (size : Int) :
    Simulates (processEventInit cfg true) ((deviceReceiver cfg signer).processInit size) := by
  intro s items holds
  have counted := hasEvents_eq holds
  by_cases full : cfg.maxMqttCommands ≤ items.length
  · intro b queue machines ran
    have refused : (deviceReceiver cfg signer).processInit size (items.map Prod.snd) s.machines =
        .ok ((-1, items.map Prod.snd), s.machines) := by
      simp [Receiver.processInit, eventReceiver, full]
    rw [refused] at ran
    cases ran
    exact .inr ⟨s, items, by simp [processEventInit, counted, full], rfl, holds, rfl⟩
  · have opened : (deviceReceiver cfg signer).processInit size (items.map Prod.snd) s.machines =
        onMachines (jsonDecodeInit 0) (items.map Prod.snd) s.machines := by
      simp [Receiver.processInit, eventReceiver, full]
    have begun : processEventInit cfg true s = onJpm (jsonDecodeInit 0) s := by
      simp [processEventInit, counted, full]
    rw [opened, begun]
    exact Simulates.machines _ s items holds

theorem processEvent_simulates (str : Bytes) :
    Simulates (processEvent libc str) ((deviceReceiver cfg signer).process libc str) := by
  refine (Simulates.machines _).bind fun r => ?_
  split
  · exact (Simulates.machines _).bind fun _ => .pure (-1)
  · exact .pure 0

theorem processEventFinish_simulates :
    Simulates (processEventFinish signer) (deviceReceiver cfg signer).processFinish := by
  refine (Simulates.machines _).bind fun root => ?_
  cases root with
  | none => exact .pure (-1)
  | some main =>
      intro s items holds b queue machines ran
      cases made : getEvent signer hidText nameText main with
      | error e =>
          obtain rfl := failsOnly_getEvent signer hidText nameText main e made
          exact .inl (by simp [made])
      | ok base =>
          have event : (deviceReceiver cfg signer).event main = base := by
            simp [eventReceiver, madeEvent, made]
          right
          cases base with
          | none =>
              simp only [event] at ran
              cases ran
              exact ⟨s, items, by simp [made], rfl, holds, rfl⟩
          | some base =>
              simp only [event] at ran
              cases ran
              obtain ⟨p', h', added, appended⟩ := addLast_eq holds base
              refine ⟨⟨p', h', s.machines⟩, items ++ [(s.events.brk, base)], ?_, rfl,
                appended s.machines, by simp⟩
              simp [made, Heap.alloc, added]

/-- A call of one of the callbacks. -/
inductive CallbackCall where
  | init (size : Int)
  | process (str : Bytes)
  | done

def CallbackCall.run {m : Type → Type} (callback : DeliveryCallback m) : CallbackCall → m Int
  | .init size => callback.init size
  | .process str => callback.process str
  | .done => callback.done

/-- The callbacks for device events, called in any order, do with the list what the receiver does
with the sequence of its events. -/
theorem callbacks_simulate (calls : List CallbackCall) :
    Simulates (calls.mapM (CallbackCall.run (listCallbacks cfg libc signer)))
      (calls.mapM (CallbackCall.run
        (baseEventCallbacks (madeEvent signer) (some cfg.maxMqttCommands) libc))) := by
  refine Simulates.mapM (fun call => ?_) calls
  cases call with
  | init size => exact processEventInit_simulates cfg signer size
  | process str => exact processEvent_simulates cfg libc signer str
  | done => exact processEventFinish_simulates cfg signer

end DeviceEvents

/-! ### API responses -/

section ApiResponses

variable (limited : Bool) (getEvent : Bytes → Bytes → JsonNode ν → Option (EventBase ν))
  (s : ApiState ν)

/-- The receiver of API responses, in a state with some capacity. -/
def apiReceiver : Receiver ν (EventBase ν) :=
  httpReceiver getEvent (if limited then some s.apiMqttMaxCapacity.toNat else none)

/-- Both refuse the message, or both begin it. -/
theorem processHttpInit_agrees (size : Int) (h : Heap (Jpm ν)) :
    (processHttpInit limited s = .ok (-1, s) ∧
      (apiReceiver limited getEvent s).processInit size s.apiEventQueue h =
        .ok ((-1, s.apiEventQueue), h)) ∨
    (processHttpInit limited s = .ok (0, s) ∧
      (apiReceiver limited getEvent s).processInit size s.apiEventQueue h =
        onMachines (jsonDecodeInit 1) s.apiEventQueue h) := by
  cases limited with
  | false => exact .inr ⟨rfl, rfl⟩
  | true =>
      have same : s.apiMqttMaxCapacity.toNat ≤ s.apiEventQueue.length ↔
          (s.apiEventQueue.length : Int) ≥ s.apiMqttMaxCapacity := Int.toNat_le
      by_cases full : (s.apiEventQueue.length : Int) ≥ s.apiMqttMaxCapacity
      · refine .inl ⟨by simp [processHttpInit, arrowMqttApiHasEvents, full], ?_⟩
        simp [Receiver.processInit, apiReceiver, httpReceiver, full]
      · refine .inr ⟨by simp [processHttpInit, arrowMqttApiHasEvents, full], ?_⟩
        simp [Receiver.processInit, apiReceiver, httpReceiver, full]

/-- Both make the same of what the decoder gives. -/
theorem processHttpFinish_agrees {h h' : Heap (Jpm ν)} {main : Option (JsonNode ν)}
    (finished : jsonDecodeFinish 1 h = .ok (main, h')) :
    ∃ ret queue,
      processHttpFinish (getEvent requestIdText eventNameText) main s =
        .ok (ret, { s with apiEventQueue := queue }) ∧
      (apiReceiver limited getEvent s).processFinish s.apiEventQueue h =
        .ok ((ret, queue), h') := by
  cases main with
  | none =>
      refine ⟨-1, s.apiEventQueue, rfl, ?_⟩
      simp [Receiver.processFinish, apiReceiver, httpReceiver, finished]
  | some main =>
      have same : (apiReceiver limited getEvent s).event main =
          getEvent requestIdText eventNameText main := rfl
      have ended : jsonDecodeFinish (apiReceiver limited getEvent s).sm h = .ok (some main, h') :=
        finished
      cases event : getEvent requestIdText eventNameText main with
      | none =>
          refine ⟨-1, s.apiEventQueue, by simp [processHttpFinish, event], ?_⟩
          simp [Receiver.processFinish, ended, same, event]
      | some e =>
          refine ⟨0, s.apiEventQueue ++ [e], by simp [processHttpFinish, event], ?_⟩
          simp [Receiver.processFinish, ended, same, event]
          rfl

end ApiResponses

end AcnSdk.Arrow
