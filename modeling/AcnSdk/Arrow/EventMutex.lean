/-
The mutex of the two event queues, `src/arrow/events.c` with `ARROW_THREAD`.

The caller is one thread. If it takes the mutex while it holds it, it waits for ever. What an
event is filled into and what is made of it leaves the mutex alone; it is left out here, as are
the parts of `process_event_init` and `process_http_init` behind the look at the queue, of which
only what they return is kept. A processor may call all functions but `arrow_mqtt_event_proc`.

* `access_endsFree_iff`, `perform_endsFree_iff` — after which calls the mutex is free, and all
  changes were made while it was held.
* `run_guarded_iff` — a run in which this is so after every call.
-/

import AcnSdk.Arrow.ApiEvents
import AcnSdk.Lib.Runs
import AcnSdk.Lib.Within

namespace AcnSdk.Arrow.EventMutex

open AcnSdk.Lib Prog

variable {ν β γ : Type}

/-- The queues, and whether the caller holds `_event_mutex`. `unguarded` is a record of whether a
queue was changed while it did not. -/
structure Guarded (ν : Type) where
  eventQueue : List (EventBase ν)
  api : ApiState ν
  held : Bool
  unguarded : Bool

/-- `ARROW_MAX_MQTT_COMMANDS` if it is defined, and whether `DBG` does anything. -/
structure Config where
  maxCommands : Option Int
  debug : Bool

/-! ### The functions -/

/-- `MQTT_EVENTS_QUEUE_LOCK`. -/
def lock : Prog (Guarded ν) Unit := do
  if (← get).held then throw .endless else modify fun s => { s with held := true }

/-- `MQTT_EVENTS_QUEUE_UNLOCK`. -/
def unlock : Prog (Guarded ν) Unit := modify fun s => { s with held := false }

def changeEvents (f : List (EventBase ν) → List (EventBase ν)) : Prog (Guarded ν) Unit :=
  modify fun s => { s with
    eventQueue := f s.eventQueue
    unguarded := s.unguarded || !s.held }

def changeApi (f : List (EventBase ν) → List (EventBase ν)) : Prog (Guarded ν) Unit :=
  modify fun s => { s with
    api.apiEventQueue := f s.api.apiEventQueue
    unguarded := s.unguarded || !s.held }

/-- `arrow_mqtt_has_events`. -/
def arrowMqttHasEvents : Prog (Guarded ν) Int := do
  lock
  let s ← get
  -- the early return does not give the mutex back
  if s.eventQueue.isEmpty then return 0
  else do
    unlock
    return s.eventQueue.length

/-- `arrow_mqtt_api_has_events`. -/
def arrowMqttApiHasEvents : Prog (Guarded ν) Int := do
  lock
  let s ← get
  if s.api.apiEventQueue.isEmpty then return 0
  else do
    unlock
    return s.api.apiEventQueue.length

/-- `arrow_mqtt_event_proc` from `mqtt_event_proc_error` on. -/
def eventProcError (ret : Int) : Prog (Guarded ν) Int := do
  lock
  changeEvents List.tail
  unlock
  if ¬ (← get).eventQueue.isEmpty ∧ ret = 0 then return 1 else return ret

/-- `arrow_mqtt_event_proc`, with the processor of the event. -/
def arrowMqttEventProc (currentProcessor : Prog (Guarded ν) Int) : Prog (Guarded ν) Int := do
  if (← get).eventQueue.isEmpty then return -1
  else do
    let ret ← currentProcessor
    eventProcError ret

/-- `arrow_mqtt_api_event_proc`, with what filling the response comes to. -/
def arrowMqttApiEventProc (filled : Int) : Prog (Guarded ν) Int := do
  if (← get).api.apiEventQueue.isEmpty then return -1
  else do
    lock
    changeApi List.tail
    unlock
    if (← get).api.apiEventQueue.isEmpty then return filled else return 1

/-- The loop of `arrow_mqtt_api_wait`, going round at most `fuel` times. -/
def waitLoop : Nat → Prog (Guarded ν) Unit
  | 0 => throw .endless
  | fuel + 1 => do
      let has ← arrowMqttApiHasEvents
      if (← get).api.apiMqttMaxCapacity < has then do
        let _ ← arrowMqttApiEventProc (-1)
        waitLoop fuel
      else return ()

/-- `arrow_mqtt_api_wait`. -/
def arrowMqttApiWait (num : Int) : Prog (Guarded ν) Int := do
  modify fun s => { s with api.apiMqttMaxCapacity := num }
  waitLoop ((← get).api.apiEventQueue.length + 2)
  return 0

section

variable (cfg : Config)

/-- `process_event_init`. -/
def processEventInit (started : Int) : Prog (Guarded ν) Int := do
  match cfg.maxCommands with
  | none => return started
  | some max => do
      let has ← arrowMqttHasEvents
      if max ≤ has then return -1 else return started

/-- `process_http_init`. -/
def processHttpInit (started : Int) : Prog (Guarded ν) Int := do
  match cfg.maxCommands with
  | none => return started
  | some _ => do
      let has ← arrowMqttApiHasEvents
      if (← get).api.apiMqttMaxCapacity ≤ has then return -1 else return started

/-- `process_event_finish`, with the event that the message holds. -/
def processEventFinish : Option (EventBase ν) → Prog (Guarded ν) Int
  | none => return -1
  | some mqttE => do
      changeEvents (· ++ [mqttE])
      return 0

/-- `process_http_finish` likewise. -/
def processHttpFinish : Option (EventBase ν) → Prog (Guarded ν) Int
  | none => return -1
  | some apiE => do
      changeApi (· ++ [apiE])
      if cfg.debug then do
        let _ ← arrowMqttApiHasEvents
        return 0
      else return 0

end

/-! ### Runs -/

/-- The calls that a processor may make. -/
inductive Access (ν : Type) where
  | hasEvents
  | apiHasEvents
  | apiEventProc (filled : Int)
  | apiWait (num : Int)
  | eventInit (started : Int)
  | httpInit (started : Int)
  | eventFinish (event : Option (EventBase ν))
  | httpFinish (event : Option (EventBase ν))

/-- All calls. The processor of an event makes some calls of its own. -/
inductive Call (ν : Type) where
  | access (a : Access ν)
  | eventProc (processor : List (Access ν)) (ret : Int)

section

variable (cfg : Config)

def access : Access ν → Prog (Guarded ν) Int
  | .hasEvents => arrowMqttHasEvents
  | .apiHasEvents => arrowMqttApiHasEvents
  | .apiEventProc filled => arrowMqttApiEventProc filled
  | .apiWait num => arrowMqttApiWait num
  | .eventInit started => processEventInit cfg started
  | .httpInit started => processHttpInit cfg started
  | .eventFinish event => processEventFinish event
  | .httpFinish event => processHttpFinish cfg event

def accesses : List (Access ν) → Prog (Guarded ν) Unit
  | [] => return ()
  | a :: as => do
      let _ ← access cfg a
      accesses as

def perform : Call ν → Prog (Guarded ν) Int
  | .access a => access cfg a
  | .eventProc processor ret =>
      arrowMqttEventProc do
        accesses cfg processor
        return ret

def run : List (Call ν) → Prog (Guarded ν) Unit
  | [] => return ()
  | c :: cs => do
      let _ ← perform cfg c
      run cs

end

/-- The mutex is free, and no queue was changed without it. -/
structure Free (s : Guarded ν) : Prop where
  released : s.held = false
  guarded : s.unguarded = false

/-- A program ends, and leaves the mutex free. -/
def EndsFree (x : Prog (Guarded ν) β) (s : Guarded ν) : Prop := ∃ b s', x s = .ok (b, s') ∧ Free s'

/-- The calls after which the mutex is free. -/
def Access.Meets (cfg : Config) (s : Guarded ν) : Access ν → Prop
  | .hasEvents => s.eventQueue ≠ []
  | .apiHasEvents => s.api.apiEventQueue ≠ []
  | .apiEventProc _ => True
  | .apiWait num => s.api.apiEventQueue ≠ [] ∧ 1 ≤ num
  | .eventInit _ => cfg.maxCommands ≠ none → s.eventQueue ≠ []
  | .httpInit _ => cfg.maxCommands ≠ none → s.api.apiEventQueue ≠ []
  | .eventFinish event | .httpFinish event => event = none

/-- Every call is made in a state in which it meets its condition. -/
def AllMeet (cfg : Config) : List (Access ν) → Guarded ν → Prop
  | [], _ => True
  | a :: as, s => a.Meets cfg s ∧ ∀ ret s', access cfg a s = .ok (ret, s') → AllMeet cfg as s'

def Call.Meets (cfg : Config) (s : Guarded ν) : Call ν → Prop
  | .access a => a.Meets cfg s
  | .eventProc processor _ => s.eventQueue ≠ [] → AllMeet cfg processor s

/-! ### What is spoiled stays so -/

/-- The record of a change without the mutex stays. -/
def Records (s s' : Guarded ν) : Prop := s.unguarded = true → s'.unguarded = true

instance : IsPreorder (Guarded ν) Records where
  refl := fun _ => id
  trans := fun _ _ _ one two => two ∘ one

/-- So does a mutex that is held. -/
def Stays (s s' : Guarded ν) : Prop := (s.held = true → s'.held = true) ∧ Records s s'

instance : IsPreorder (Guarded ν) Stays where
  refl := fun _ => ⟨id, id⟩
  trans := fun _ _ _ one two => ⟨two.1 ∘ one.1, two.2 ∘ one.2⟩

theorem Free.of_stays {s s' : Guarded ν} (stays : Stays s s') (free : Free s') : Free s := by
  constructor
  · by_contra held
    have := stays.1 (Bool.eq_true_of_not_eq_false held)
    rw [free.released] at this
    cases this
  · by_contra unguarded
    have := stays.2 (Bool.eq_true_of_not_eq_false unguarded)
    rw [free.guarded] at this
    cases this

/-- Where a caller gets the mutex it did not hold it. -/
theorem lock_stays {f : Unit → Prog (Guarded ν) β} (later : Within Records (f ())) :
    Within Stays (lock >>= f) := by
  intro s b s' run
  rw [lock, bind_apply, bind_of_ok (get_apply s)] at run
  by_cases held : s.held = true
  · rw [if_pos held] at run
    cases run
  · rw [if_neg held] at run
    exact ⟨fun holds => absurd holds held, later { s with held := true } b s' run⟩

theorem unlock_records : Within Records (unlock (ν := ν)) := .modify fun _ => id

theorem changed (s : Guarded ν) : s.unguarded = true → (s.unguarded || !s.held) = true := by
  intro unguarded
  rw [unguarded]
  rfl

theorem changeEvents_stays (f : List (EventBase ν) → List (EventBase ν)) :
    Within Stays (changeEvents f) :=
  .modify fun s => ⟨id, changed s⟩

theorem changeApi_stays (f : List (EventBase ν) → List (EventBase ν)) :
    Within Stays (changeApi f) :=
  .modify fun s => ⟨id, changed s⟩

theorem hasEvents_stays : Within Stays (arrowMqttHasEvents (ν := ν)) :=
  lock_stays (Within.get.bind fun _ => .ite (fun _ => .pure _) fun _ =>
    unlock_records.bind fun _ => .pure _)

theorem apiHasEvents_stays : Within Stays (arrowMqttApiHasEvents (ν := ν)) :=
  lock_stays (Within.get.bind fun _ => .ite (fun _ => .pure _) fun _ =>
    unlock_records.bind fun _ => .pure _)

theorem eventProcError_stays (ret : Int) : Within Stays (eventProcError (ν := ν) ret) := by
  refine lock_stays (((changeEvents_stays _).mono fun _ _ => And.right).bind fun _ => ?_)
  exact unlock_records.bind fun _ => Within.get.bind fun _ =>
    .ite (fun _ => .pure _) fun _ => .pure _

theorem apiEventProc_stays (filled : Int) :
    Within Stays (arrowMqttApiEventProc (ν := ν) filled) := by
  refine Within.get.bind fun s => .ite (fun _ => .pure _) fun _ => ?_
  refine lock_stays (((changeApi_stays _).mono fun _ _ => And.right).bind fun _ => ?_)
  exact unlock_records.bind fun _ => Within.get.bind fun _ =>
    .ite (fun _ => .pure _) fun _ => .pure _

theorem waitLoop_stays (fuel : Nat) : Within Stays (waitLoop (ν := ν) fuel) := by
  induction fuel with
  | zero => exact .throw _
  | succ fuel ih =>
      rw [waitLoop]
      exact apiHasEvents_stays.bind fun _ => Within.get.bind fun _ =>
        .ite (fun _ => (apiEventProc_stays _).bind fun _ => ih) fun _ => .pure _

theorem access_stays (cfg : Config) (a : Access ν) : Within Stays (access cfg a) := by
  cases a with
  | hasEvents => exact hasEvents_stays
  | apiHasEvents => exact apiHasEvents_stays
  | apiEventProc filled => exact apiEventProc_stays filled
  | apiWait num =>
      refine Within.bind (.modify fun s => ⟨id, id⟩) fun _ => ?_
      exact Within.get.bind fun _ => (waitLoop_stays _).bind fun _ => .pure _
  | eventInit started =>
      rw [access, processEventInit]
      cases cfg.maxCommands with
      | none => exact .pure _
      | some max => exact hasEvents_stays.bind fun _ => .ite (fun _ => .pure _) fun _ => .pure _
  | httpInit started =>
      rw [access, processHttpInit]
      cases cfg.maxCommands with
      | none => exact .pure _
      | some max =>
          exact apiHasEvents_stays.bind fun _ => Within.get.bind fun _ =>
            .ite (fun _ => .pure _) fun _ => .pure _
  | eventFinish event =>
      cases event with
      | none => exact .pure _
      | some mqttE => exact (changeEvents_stays _).bind fun _ => .pure _
  | httpFinish event =>
      cases event with
      | none => exact .pure _
      | some apiE =>
          refine (changeApi_stays _).bind fun _ => .ite (fun _ => ?_) fun _ => .pure _
          exact apiHasEvents_stays.bind fun _ => .pure _

theorem accesses_stays (cfg : Config) (as : List (Access ν)) : Within Stays (accesses cfg as) := by
  induction as with
  | nil => exact .pure _
  | cons a as ih => exact (access_stays cfg a).bind fun _ => ih

/-! ### Ends with a free mutex -/

theorem endsFree_bind {x : Prog (Guarded ν) β} {f : β → Prog (Guarded ν) γ} {s : Guarded ν}
    (later : ∀ b, Within Stays (f b)) :
    EndsFree (x >>= f) s ↔ ∃ b s', x s = .ok (b, s') ∧ Free s' ∧ EndsFree (f b) s' := by
  constructor
  · rintro ⟨c, s₂, run, free⟩
    obtain ⟨b, s₁, first, rest⟩ := run_of_bind run
    exact ⟨b, s₁, first, .of_stays (later b s₁ c s₂ rest) free, c, s₂, rest, free⟩
  · rintro ⟨b, s₁, first, -, c, s₂, rest, free⟩
    exact ⟨c, s₂, (bind_of_ok first).trans rest, free⟩

/-- Without a change of the state. -/
theorem Free.released_eq {s : Guarded ν} (free : Free s) : { s with held := false } = s := by
  rw [← free.released]

section

variable {s : Guarded ν} (free : Free s)

include free

theorem lock_eq : lock s = .ok ((), { s with held := true }) := by
  rw [lock, bind_of_ok (get_apply s), if_neg (by rw [free.released]; exact Bool.false_ne_true)]
  rfl

theorem hasEvents_eq : arrowMqttHasEvents s =
    .ok ((s.eventQueue.length : Int), { s with held := s.eventQueue.isEmpty }) := by
  rw [arrowMqttHasEvents, bind_of_ok (lock_eq free), bind_of_ok (get_apply _)]
  dsimp only
  cases s.eventQueue <;> rfl

theorem apiHasEvents_eq : arrowMqttApiHasEvents s =
    .ok ((s.api.apiEventQueue.length : Int), { s with held := s.api.apiEventQueue.isEmpty }) := by
  rw [arrowMqttApiHasEvents, bind_of_ok (lock_eq free), bind_of_ok (get_apply _)]
  dsimp only
  cases s.api.apiEventQueue <;> rfl

/-- The first event is taken out while the mutex is held. -/
theorem apiEventProc_eq (filled : Int) : ∃ ret, arrowMqttApiEventProc filled s =
    .ok (ret, { s with api.apiEventQueue := s.api.apiEventQueue.tail }) := by
  obtain ⟨events, ⟨queue, capacity⟩, held, unguarded⟩ := s
  obtain ⟨rfl, rfl⟩ := free
  cases queue with
  | nil => exact ⟨-1, rfl⟩
  | cons e rest =>
      cases rest with
      | nil => exact ⟨filled, rfl⟩
      | cons e' rest => exact ⟨1, rfl⟩

/-- Looking at a queue gives the mutex back if there is something in it. -/
theorem endsFree_look {look : Prog (Guarded ν) Int} {queue : List (EventBase ν)}
    (looks : look s = .ok ((queue.length : Int), { s with held := queue.isEmpty }))
    {f : Int → Prog (Guarded ν) β} (later : ∀ n, Within Stays (f n)) :
    EndsFree (look >>= f) s ↔ queue ≠ [] ∧ EndsFree (f queue.length) s := by
  rw [endsFree_bind later]
  constructor
  · rintro ⟨n, s', run, free', ends⟩
    rw [looks] at run
    cases run
    have some : queue.isEmpty = false := free'.released
    rw [some, free.released_eq] at ends
    exact ⟨List.isEmpty_eq_false_iff.mp some, ends⟩
  · rintro ⟨some, ends⟩
    refine ⟨_, s, ?_, free, ends⟩
    rw [looks, List.isEmpty_eq_false_iff.mpr some, free.released_eq]

/-- To the queue of responses this does what it does without a mutex. -/
theorem apiEventProc_refines {image : Json.JsonNode ν → Bytes} {res : ApiResponse ν}
    {r : Int × ApiResponse ν} {api' : ApiState ν}
    (run : Arrow.arrowMqttApiEventProc image res s.api = .ok (r, api')) :
    ∃ filled, arrowMqttApiEventProc filled s = .ok (r.1, { s with api := api' }) := by
  obtain ⟨events, ⟨queue, capacity⟩, held, unguarded⟩ := s
  obtain ⟨rfl, rfl⟩ := free
  cases queue with
  | nil =>
      cases run
      exact ⟨-1, rfl⟩
  | cons e rest =>
      rw [Arrow.arrowMqttApiEventProc, bind_of_ok (get_apply _)] at run
      obtain ⟨added, s₁, fills, run⟩ := run_of_bind run
      obtain ⟨filled, -, fills⟩ := ok_of_bind fills
      cases fills
      refine ⟨added.1, ?_⟩
      cases rest with
      | nil =>
          cases run
          rfl
      | cons e' rest =>
          cases run
          rfl

theorem endsFree_pure (b : β) : EndsFree (pure b) s := ⟨b, s, rfl, free⟩

theorem endsFree_look_iff {look : Prog (Guarded ν) Int} {queue : List (EventBase ν)}
    (looks : look s = .ok ((queue.length : Int), { s with held := queue.isEmpty }))
    {f : Int → Prog (Guarded ν) β} (last : ∀ n, ∃ b, f n s = .ok (b, s))
    (later : ∀ n, Within Stays (f n)) : EndsFree (look >>= f) s ↔ queue ≠ [] := by
  rw [endsFree_look free looks later]
  obtain ⟨b, ends⟩ := last queue.length
  exact and_iff_left ⟨b, s, ends, free⟩

/-- A change without the mutex is on record. -/
theorem not_endsFree_change {change : Prog (Guarded ν) Unit} {s' : Guarded ν}
    (changes : change s = .ok ((), s')) (record : s'.unguarded = (s.unguarded || !s.held))
    {f : Unit → Prog (Guarded ν) β} (later : ∀ u, Within Stays (f u)) :
    ¬ EndsFree (change >>= f) s := by
  rw [endsFree_bind later]
  rintro ⟨u, s₁, run, free', -⟩
  rw [changes] at run
  cases run
  have guarded := free'.guarded
  rw [record, free.released, Bool.not_false, Bool.or_true] at guarded
  cases guarded

end

theorem endsFree_last (x : Prog (Guarded ν) β) (c : γ) (s : Guarded ν) :
    EndsFree (x >>= fun _ => pure c) s ↔ EndsFree x s := by
  rw [endsFree_bind fun _ => .pure _]
  constructor
  · rintro ⟨b, s', run, free, -⟩
    exact ⟨b, s', run, free⟩
  · rintro ⟨b, s', run, free⟩
    exact ⟨b, s', run, free, endsFree_pure free c⟩

/-- The loop gives the mutex back if it leaves something in the queue. -/
theorem waitLoop_endsFree_iff {fuel : Nat} {s : Guarded ν} (free : Free s)
    (enough : s.api.apiEventQueue.length < fuel) :
    EndsFree (waitLoop fuel) s ↔ s.api.apiEventQueue ≠ [] ∧ 1 ≤ s.api.apiMqttMaxCapacity := by
  induction fuel generalizing s with
  | zero => exact absurd enough (Nat.not_lt_zero _)
  | succ fuel ih =>
      have later : ∀ has : Int, Within Stays (do
          if (← get).api.apiMqttMaxCapacity < has then do
            let _ ← arrowMqttApiEventProc (-1)
            waitLoop fuel
          else return () : Prog (Guarded ν) Unit) := fun has =>
        Within.get.bind fun _ => .ite (fun _ => (apiEventProc_stays _).bind fun _ =>
          waitLoop_stays fuel) fun _ => .pure _
      rw [waitLoop, endsFree_look free (apiHasEvents_eq free) later]
      apply and_congr_right
      intro some
      have pos := List.length_pos_iff.mpr some
      rw [EndsFree, bind_of_ok (get_apply s)]
      by_cases surplus : s.api.apiMqttMaxCapacity < s.api.apiEventQueue.length
      · obtain ⟨ret, proc⟩ := apiEventProc_eq free (-1)
        let s' : Guarded ν := { s with api.apiEventQueue := s.api.apiEventQueue.tail }
        have shorter : s'.api.apiEventQueue.length = s.api.apiEventQueue.length - 1 :=
          List.length_tail
        rw [if_pos surplus, bind_of_ok proc]
        refine (ih (s := s') ⟨free.released, free.guarded⟩ (by omega)).trans ?_
        constructor
        · exact And.right
        · intro one
          refine ⟨fun none => ?_, one⟩
          rw [none, List.length_nil] at shorter
          omega
      · rw [if_neg surplus]
        refine iff_of_true (endsFree_pure free ()) ?_
        omega

/-- After which calls the mutex is free, and has guarded all changes. -/
theorem access_endsFree_iff (cfg : Config) (a : Access ν) {s : Guarded ν} (free : Free s) :
    EndsFree (access cfg a) s ↔ a.Meets cfg s := by
  have events := hasEvents_eq free
  have api := apiHasEvents_eq free
  cases a with
  | hasEvents =>
      rw [access, ← bind_pure arrowMqttHasEvents]
      exact endsFree_look_iff free events (fun n => ⟨n, rfl⟩) fun n => .pure n
  | apiHasEvents =>
      rw [access, ← bind_pure arrowMqttApiHasEvents]
      exact endsFree_look_iff free api (fun n => ⟨n, rfl⟩) fun n => .pure n
  | apiEventProc filled =>
      obtain ⟨ret, proc⟩ := apiEventProc_eq free filled
      exact iff_of_true ⟨ret, _, proc, free.released, free.guarded⟩ trivial
  | apiWait num =>
      let s' : Guarded ν := { s with api.apiMqttMaxCapacity := num }
      have free' : Free s' := ⟨free.released, free.guarded⟩
      have enough : s'.api.apiEventQueue.length < s.api.apiEventQueue.length + 2 :=
        Nat.lt_add_of_pos_right (Nat.succ_pos 1)
      have loop := waitLoop_endsFree_iff free' enough
      rw [access, arrowMqttApiWait, EndsFree, bind_of_ok (modify_apply _ s),
        bind_of_ok (get_apply _)]
      exact (endsFree_last _ 0 s').trans loop
  | eventInit started =>
      rw [access, processEventInit, Access.Meets]
      cases cfg.maxCommands with
      | none => exact iff_of_true (endsFree_pure free started) fun limited => absurd rfl limited
      | some max =>
          refine (endsFree_look_iff free events (fun n => ?_) fun n =>
            .ite (fun _ => .pure _) fun _ => .pure _).trans
            ⟨fun some _ => some, fun some => some (Option.some_ne_none _)⟩
          split
          · exact ⟨-1, rfl⟩
          · exact ⟨started, rfl⟩
  | httpInit started =>
      rw [access, processHttpInit, Access.Meets]
      cases cfg.maxCommands with
      | none => exact iff_of_true (endsFree_pure free started) fun limited => absurd rfl limited
      | some max =>
          refine (endsFree_look_iff free api (fun n => ?_) fun n =>
            Within.get.bind fun _ => .ite (fun _ => .pure _) fun _ => .pure _).trans
            ⟨fun some _ => some, fun some => some (Option.some_ne_none _)⟩
          rw [bind_of_ok (get_apply s)]
          split
          · exact ⟨-1, rfl⟩
          · exact ⟨started, rfl⟩
  | eventFinish event =>
      cases event with
      | none => exact iff_of_true (endsFree_pure free (-1)) rfl
      | some mqttE =>
          refine iff_of_false ?_ (Option.some_ne_none mqttE)
          exact not_endsFree_change free (modify_apply _ s) rfl fun _ => .pure _
  | httpFinish event =>
      cases event with
      | none => exact iff_of_true (endsFree_pure free (-1)) rfl
      | some apiE =>
          refine iff_of_false ?_ (Option.some_ne_none apiE)
          refine not_endsFree_change free (modify_apply _ s) rfl fun _ => ?_
          exact .ite (fun _ => apiHasEvents_stays.bind fun _ => .pure _) fun _ => .pure _

/-! ### Runs of calls -/

theorem accesses_endsFree_iff (cfg : Config) (as : List (Access ν)) {s : Guarded ν}
    (free : Free s) : EndsFree (accesses cfg as) s ↔ AllMeet cfg as s := by
  induction as generalizing s with
  | nil => exact iff_of_true (endsFree_pure free ()) trivial
  | cons a as ih =>
      rw [accesses, endsFree_bind fun _ => accesses_stays cfg as, AllMeet]
      constructor
      · rintro ⟨ret, s₁, run, free₁, ends⟩
        refine ⟨(access_endsFree_iff cfg a free).mp ⟨ret, s₁, run, free₁⟩, fun ret' s' run' => ?_⟩
        rw [run] at run'
        cases run'
        exact (ih free₁).mp ends
      · rintro ⟨meets, rest⟩
        obtain ⟨ret, s₁, run, free₁⟩ := (access_endsFree_iff cfg a free).mpr meets
        exact ⟨ret, s₁, run, free₁, (ih free₁).mpr (rest ret s₁ run)⟩

/-- `arrow_mqtt_event_proc` takes the event out while it holds the mutex. -/
theorem endsFree_eventProc (currentProcessor : Prog (Guarded ν) Int) {s : Guarded ν}
    (some : s.eventQueue ≠ []) :
    EndsFree (arrowMqttEventProc currentProcessor) s ↔ EndsFree currentProcessor s := by
  rw [arrowMqttEventProc, EndsFree, bind_of_ok (get_apply s), List.isEmpty_eq_false_iff.mpr some,
    if_neg Bool.false_ne_true, ← EndsFree, endsFree_bind eventProcError_stays]
  constructor
  · rintro ⟨ret, s', run, free', -⟩
    exact ⟨ret, s', run, free'⟩
  · rintro ⟨ret, s', run, free'⟩
    refine ⟨ret, s', run, free', ?_⟩
    rw [EndsFree, eventProcError, bind_of_ok (lock_eq free'), changeEvents,
      bind_of_ok (modify_apply _ _), unlock, bind_of_ok (modify_apply _ _),
      bind_of_ok (get_apply _)]
    have record : (s'.unguarded || !true) = false := by
      rw [free'.guarded]
      rfl
    split
    · exact ⟨1, _, rfl, rfl, record⟩
    · exact ⟨ret, _, rfl, rfl, record⟩

theorem perform_endsFree_iff (cfg : Config) (c : Call ν) {s : Guarded ν} (free : Free s) :
    EndsFree (perform cfg c) s ↔ c.Meets cfg s := by
  cases c with
  | access a => exact access_endsFree_iff cfg a free
  | eventProc processor ret =>
      rw [Call.Meets]
      by_cases empty : s.eventQueue = []
      · refine iff_of_true ⟨-1, s, ?_, free⟩ fun some => absurd empty some
        rw [perform, arrowMqttEventProc, bind_of_ok (get_apply s), empty]
        rfl
      · rw [perform, endsFree_eventProc _ empty, endsFree_last, accesses_endsFree_iff cfg _ free]
        exact ⟨fun all _ => all, fun all => all empty⟩

theorem run_append (cfg : Config) (front back : List (Call ν)) (s : Guarded ν) :
    run cfg (front ++ back) s = (run cfg front >>= fun _ => run cfg back) s := by
  induction front generalizing s with
  | nil => rfl
  | cons c front ih =>
      rw [List.cons_append, run, run, bind_assoc]
      exact bind_congr_of_ok rfl fun _ s' _ => ih s'

/-- One call more. -/
theorem run_endsFree_step (cfg : Config) (front : List (Call ν)) (c : Call ν) {s : Guarded ν}
    (before : EndsFree (run cfg front) s) :
    EndsFree (run cfg (front ++ [c])) s ↔
      ∀ s', run cfg front s = .ok ((), s') → c.Meets cfg s' := by
  obtain ⟨u, s₁, ran, free⟩ := before
  have last : run cfg [c] = (perform cfg c >>= fun _ => pure ()) := rfl
  rw [EndsFree, run_append, bind_of_ok ran, last, ← EndsFree, endsFree_last,
    perform_endsFree_iff cfg c free]
  constructor
  · intro meets s' ran'
    rw [ran] at ran'
    cases ran'
    exact meets
  · intro meets
    exact meets s₁ ran

/-- A caller that has not yet called anything. -/
def Guarded.start (eventQueue : List (EventBase ν)) (api : ApiState ν) : Guarded ν :=
  ⟨eventQueue, api, false, false⟩

/-- After every call of a run the mutex is free, it is never waited for, and the queues are
changed only while it is held, if and only if every call meets its condition in the state in which
it is made. -/
theorem run_guarded_iff (cfg : Config) (eventQueue : List (EventBase ν)) (api : ApiState ν)
    (calls : List (Call ν)) :
    (∀ front, front <+: calls → EndsFree (run cfg front) (.start eventQueue api)) ↔
      ∀ front c, front ++ [c] <+: calls →
        ∀ s, run cfg front (.start eventQueue api) = .ok ((), s) → c.Meets cfg s := by
  apply forall_prefix_iff
  · exact ⟨(), _, rfl, rfl, rfl⟩
  · intro front c before
    exact run_endsFree_step cfg front c before

/-- Nothing is in the queues, and the caller asks whether there is. -/
theorem not_guarded_hasEvents :
    ¬ ∀ front, front <+: [Call.access .hasEvents] →
      EndsFree (run ⟨none, false⟩ front) (.start (ν := Unit) [] ⟨[], 0⟩) := by
  intro guarded
  obtain ⟨u, s', ran, free⟩ := guarded _ List.prefix_rfl
  cases ran
  cases free.released

end AcnSdk.Arrow.EventMutex
