/-
Arrivals and handlers interleaved, `src/arrow/events.c`.

Messages arrive one after the other, callback by callback, and events are taken one after the
other; between any two callbacks an event may be taken or its handler may return, and while a
handler runs messages may arrive. A schedule is any list of such actions; one that is not
possible in a state changes nothing. Beside the state of the code a run records the documents
that `process_event_finish` has accepted, what the handlers have been called with, and the events
whose call of `arrow_mqtt_event_proc` has ended.

* `Safe` — what holds in every state, whatever the schedule.
* `Effect` — when a step changes the queue, and how.
* `perform_safe` — one action.
* `eventQueue_safe` — all runs.
-/

import AcnSdk.Arrow.EventQueue

namespace AcnSdk.Arrow

open AcnSdk.Lib AcnSdk.Data AcnSdk.Json Heap

variable {ν β : Type}

/-! ### Schedules -/

inductive Action where
  /-- `process_event_init` for a message in some pieces, with or without enough memory. -/
  | message (pieces : List Bytes) (enough : Bool)
  /-- `process_event` for the next piece, or `process_event_finish` if there is none. -/
  | deliver
  /-- A call of `arrow_mqtt_event_proc`. -/
  | proc
  /-- The handler of that call returns. -/
  | returns (ret : Int)

structure System (ν : Type) where
  state : EventState ν
  /-- The message under way: what has been delivered of it, and the other pieces. -/
  receiving : Option (Bytes × List Bytes)
  /-- The event whose handler is running. -/
  running : Option (Addr × EventBase ν)
  enqueued : List Bytes
  dispatched : List (Submodule × EventBase ν)
  returned : List (EventBase ν)

/-- Before the first message. -/
def System.start : System ν :=
  ⟨⟨none, ⟨fun _ => none, 0⟩, callerHeap⟩, none, none, [], [], []⟩

/-- A program over the state of the code. -/
def onState (x : Prog (EventState ν) β) : Prog (System ν) β := fun sys =>
  (x sys.state).bind fun r => .ok (r.1, { sys with state := r.2 })

@[simp] theorem onState_apply (x : Prog (EventState ν) β) (sys : System ν) :
    onState x sys = (x sys.state).bind fun r => .ok (r.1, { sys with state := r.2 }) := rfl

section Schedules

variable (cfg : EventConfig) (libc : Libc ν) (signer : Signer ν)

def Action.perform : Action → Prog (System ν) Unit
  | .message pieces enough => do
      if (← get).receiving.isNone then
        let ret ← onState (processEventInit cfg enough)
        modify fun sys => { sys with receiving := if ret = 0 then some ([], pieces) else none }
      else return ()
  | .deliver => do
      match (← get).receiving with
      | none => return ()
      | some (got, str :: rest) =>
          let _ ← onState (processEvent libc str)
          modify fun sys => { sys with receiving := some (got ++ str, rest) }
      | some (got, []) =>
          let ret ← onState (processEventFinish signer)
          modify fun sys => { sys with
            receiving := none
            enqueued := if ret = 0 then sys.enqueued ++ [got] else sys.enqueued }
  | .proc => do
      if (← get).running.isNone then
        match ← onState (eventProcBegin cfg) with
        | none => return ()
        | some (tmp, base, some processor) =>
            modify fun sys => { sys with
              running := some (tmp, base)
              dispatched := sys.dispatched ++ [(processor, base)] }
        | some (tmp, base, none) =>
            let _ ← onState (eventProcEnd tmp (-1))
            modify fun sys => { sys with returned := sys.returned ++ [base] }
      else return ()
  | .returns ret => do
      match (← get).running with
      | none => return ()
      | some (tmp, base) =>
          let _ ← onState (eventProcEnd tmp ret)
          modify fun sys => { sys with running := none, returned := sys.returned ++ [base] }

def runActions : List Action → Prog (System ν) Unit
  | [] => return ()
  | a :: rest => do
      a.perform cfg libc signer
      runActions rest

end Schedules

/-! ### What holds -/

section Safety

variable (cfg : EventConfig) (libc : Libc ν) (signer : Signer ν)

/-- A document that the decoder accepts, with the expected tags. -/
def Expected (doc : Bytes) : Prop :=
  ∃ st : Stack ν, Stack.init.run libc doc = some st ∧
    ∀ main, st.root = some main → ExpectedTags hidText nameText main

/-- The event is that of the document, and signed as the document says. -/
def Carries (doc : Bytes) (e : EventBase ν) : Prop :=
  ∃ st : Stack ν, ∃ main, Stack.init.run libc doc = some st ∧ st.root = some main ∧
    Members hidText nameText main e ∧ Signed signer main e

/-- The messages of the action are expected ones. -/
def Action.Expected : Action → Prop
  | .message pieces _ => Arrow.Expected libc pieces.flatten
  | _ => True

/-- What the handler of an event is called with, if it has one. -/
def dispatch (e : EventBase ν) : Option (Submodule × EventBase ν) :=
  (currentProcessor cfg e.name).map fun processor => (processor, e)

/-- The parse machine between messages and during one, which goes on only if there is room. -/
def Ready (sys : System ν) (items : List (Addr × EventBase ν)) : Prop :=
  match sys.receiving with
  | none => (∃ m, sys.state.machines.cells 0 = some m) ∧ 0 < sys.state.machines.brk
  | some (got, rest) => items.length < cfg.maxMqttCommands ∧
      Arrow.Expected libc (got ++ rest.flatten) ∧
        ∃ st, Stack.init.run libc got = some st ∧ Represents 0 sys.state.machines st

/-- A state of a run, with the events in its queue. -/
structure Safe (sys : System ν) (items : List (Addr × EventBase ν)) : Prop where
  holds : Holds sys.state items
  bounded : items.length ≤ cfg.maxMqttCommands
  /-- The events that have been in the queue are those of the accepted documents, in order. -/
  carried : List.Forall₂ (Carries libc signer) sys.enqueued (sys.returned ++ items.map Prod.snd)
  /-- Of these the first ones have been dispatched, each once. -/
  dispatched : sys.dispatched =
    (sys.returned ++ (sys.running.map Prod.snd).toList).filterMap (dispatch cfg)
  /-- The event whose handler is running is the head of the queue. -/
  running : ∀ r, sys.running = some r → items.head? = some r
  ready : Ready cfg libc sys items

/-- The changes of the queue: a delivered document whose event is right is appended, and the head
is removed when its handler returns, or when it has none. -/
inductive Effect : Action → System ν → List (Addr × EventBase ν) → System ν →
    List (Addr × EventBase ν) → Prop where
  | keeps {a sys items sys'} (still : ∀ ret, a = .returns ret → sys.running = none)
      (enqueued : sys'.enqueued = sys.enqueued) (returned : sys'.returned = sys.returned) :
      Effect a sys items sys' items
  | appends {sys items sys' doc a e} (complete : sys.receiving = some (doc, []))
      (carries : Carries libc signer doc e) (enqueued : sys'.enqueued = sys.enqueued ++ [doc])
      (returned : sys'.returned = sys.returned) :
      Effect .deliver sys items sys' (items ++ [(a, e)])
  | returns {ret sys items sys' tmp e} (running : sys.running = some (tmp, e))
      (released : sys'.state.events.cells tmp = none) (enqueued : sys'.enqueued = sys.enqueued)
      (returned : sys'.returned = sys.returned ++ [e]) :
      Effect (.returns ret) sys ((tmp, e) :: items) sys' items
  | unknown {sys items sys' tmp e} (idle : sys.running = none)
      (none : currentProcessor cfg e.name = none)
      (released : sys'.state.events.cells tmp = .none) (enqueued : sys'.enqueued = sys.enqueued)
      (returned : sys'.returned = sys.returned ++ [e]) :
      Effect .proc sys ((tmp, e) :: items) sys' items

end Safety

/-! ### One action -/

section Actions

variable {cfg : EventConfig} {libc : Libc ν} {signer : Signer ν} {sys sys' : System ν}
  {items items' : List (Addr × EventBase ν)}

/-- The part of the state that the messages under way depend on. -/
theorem Ready.congr (ready : Ready cfg libc sys items) (receiving : sys'.receiving = sys.receiving)
    (machines : sys'.state.machines = sys.state.machines) (fewer : items'.length ≤ items.length) :
    Ready cfg libc sys' items' := by
  unfold Ready at *
  rw [receiving, machines]
  split at ready
  · exact ready
  · exact ⟨Nat.lt_of_le_of_lt fewer ready.1, ready.2⟩

/-- What an action leads to from a state of a run. -/
def Leads (cfg : EventConfig) (libc : Libc ν) (signer : Signer ν) (a : Action) (sys : System ν)
    (items : List (Addr × EventBase ν)) : Prop :=
  ∃ sys' items', a.perform cfg libc signer sys = .ok ((), sys') ∧ Safe cfg libc signer sys' items' ∧
    Effect cfg libc signer a sys items sys' items'

/-- An action that is not possible. -/
theorem Leads.skip {a : Action} (safe : Safe cfg libc signer sys items)
    (same : a.perform cfg libc signer sys = .ok ((), sys))
    (still : ∀ ret, a = .returns ret → sys.running = none) : Leads cfg libc signer a sys items :=
  ⟨sys, items, same, safe, .keeps still rfl rfl⟩

theorem message_safe (safe : Safe cfg libc signer sys items) {pieces : List Bytes}
    (expected : Arrow.Expected libc pieces.flatten) (enough : Bool) :
    Leads cfg libc signer (.message pieces enough) sys items := by
  have still : ∀ ret, Action.message pieces enough = .returns ret → sys.running = none := by
    intro ret eq
    cases eq
  cases receiving : sys.receiving with
  | some r => exact .skip safe (by simp [Action.perform, receiving]) still
  | none =>
      have ready := safe.ready
      rw [Ready, receiving] at ready
      obtain ⟨⟨m, cell⟩, live⟩ := ready
      rcases processEventInit_eq cfg safe.holds cell live enough with
        refused | ⟨room, machines, accepted, rep⟩
      · refine .skip safe ?_ still
        simp only [Action.perform, bind_apply, Prog.get_apply, ok_bind, receiving,
          Option.isNone_none, if_true, onState_apply, refused]
        obtain ⟨state, receiving', running, enqueued, dispatched, returned⟩ := sys
        cases receiving
        rfl
      · refine ⟨{ sys with
          state := { sys.state with machines := machines }
          receiving := some ([], pieces) }, items, ?_, ?_, .keeps still rfl rfl⟩
        · simp [Action.perform, receiving, accepted]
        · exact ⟨safe.holds.machines _, safe.bounded, safe.carried, safe.dispatched, safe.running,
            room, expected, Stack.init, rfl, rep⟩

/-- The next piece of a message. -/
theorem piece_safe (safe : Safe cfg libc signer sys items) {got str : Bytes} {rest : List Bytes}
    (receiving : sys.receiving = some (got, str :: rest)) :
    Leads cfg libc signer .deliver sys items := by
  have ready := safe.ready
  rw [Ready, receiving] at ready
  obtain ⟨room, expected, st, ran, rep⟩ := ready
  rw [List.flatten_cons, ← List.append_assoc] at expected
  obtain ⟨st', next⟩ : ∃ st', st.run libc str = some st' := by
    obtain ⟨final, whole, -⟩ := expected
    rw [Stack.run_append, Stack.run_append, ran, Option.bind_some] at whole
    obtain ⟨st', next, -⟩ := Option.bind_eq_some_iff.mp whole
    exact ⟨st', next⟩
  obtain ⟨machines, processed, rep'⟩ := processEvent_eq rep next
  refine ⟨{ sys with
    state := { sys.state with machines := machines }
    receiving := some (got ++ str, rest) }, items, ?_, ?_, .keeps ?_ rfl rfl⟩
  · simp [Action.perform, receiving, processed]
  · refine ⟨safe.holds.machines _, safe.bounded, safe.carried, safe.dispatched, safe.running, room,
      expected, st', ?_, rep'⟩
    rw [Stack.run_append, ran]
    exact next
  · intro ret eq
    cases eq

/-- The end of a message. -/
theorem finish_safe (safe : Safe cfg libc signer sys items) {got : Bytes}
    (receiving : sys.receiving = some (got, [])) : Leads cfg libc signer .deliver sys items := by
  have ready := safe.ready
  rw [Ready, receiving] at ready
  obtain ⟨room, ⟨final, whole, tags⟩, st, ran, rep⟩ := ready
  rw [List.flatten_nil, List.append_nil, ran] at whole
  have same : st = final := Option.some.inj whole
  subst same
  obtain ⟨s', cell, live, outcome⟩ := processEventFinish_eq signer safe.holds rep tags
  rcases outcome with ⟨refused, holds, -⟩ | ⟨main, base, a, root, members, signed, accepted, holds⟩
  · refine ⟨{ sys with state := s', receiving := none }, items, ?_, ?_, .keeps ?_ rfl rfl⟩
    · simp [Action.perform, receiving, refused]
    · exact ⟨holds, safe.bounded, safe.carried, safe.dispatched, safe.running, cell, live⟩
    · intro ret eq
      cases eq
  · have carries : Carries libc signer got base := ⟨st, main, ran, root, members, signed⟩
    refine ⟨{ sys with state := s', receiving := none, enqueued := sys.enqueued ++ [got] },
      items ++ [(a, base)], ?_, ?_, .appends receiving carries rfl rfl⟩
    · simp [Action.perform, receiving, accepted]
    · refine ⟨holds, ?_, ?_, safe.dispatched, ?_, cell, live⟩
      · rw [List.length_append]
        exact room
      · rw [List.map_append, ← List.append_assoc]
        exact List.rel_append safe.carried (.cons carries .nil)
      · intro r running
        rw [List.head?_append, safe.running r running]
        rfl

theorem proc_safe (safe : Safe cfg libc signer sys items) :
    Leads cfg libc signer .proc sys items := by
  have still : ∀ ret, Action.proc = .returns ret → sys.running = none := by
    intro ret eq
    cases eq
  cases running : sys.running with
  | some r => exact .skip safe (by simp [Action.perform, running]) still
  | none =>
      cases items with
      | nil =>
          have empty := eventProcBegin_nil cfg safe.holds
          refine .skip safe ?_ still
          obtain ⟨state, receiving, running', enqueued, dispatched, returned⟩ := sys
          cases running
          simp [Action.perform, empty]
      | cons item rest =>
          obtain ⟨tmp, e⟩ := item
          have taken := eventProcBegin_cons cfg safe.holds
          have dispatched := safe.dispatched
          rw [running, Option.map_none, Option.toList_none, List.append_nil] at dispatched
          cases processor : currentProcessor cfg e.name with
          | some p =>
              have called : dispatch cfg e = some (p, e) := by
                rw [dispatch, processor]
                rfl
              rw [processor] at taken
              refine ⟨{ sys with
                running := some (tmp, e)
                dispatched := sys.dispatched ++ [(p, e)] }, (tmp, e) :: rest, ?_, ?_,
                .keeps still rfl rfl⟩
              · simp [Action.perform, running, taken]
              · refine ⟨safe.holds, safe.bounded, safe.carried, ?_, ?_,
                  safe.ready.congr rfl rfl (Nat.le_refl _)⟩
                · simp [dispatched, called]
                · rintro r ⟨⟩
                  rfl
          | none =>
              have skipped : dispatch cfg e = none := by
                rw [dispatch, processor]
                rfl
              rw [processor] at taken
              obtain ⟨ret', s', ended, machines, released, holds⟩ := eventProcEnd_eq safe.holds (-1)
              refine ⟨{ sys with state := s', returned := sys.returned ++ [e] }, rest, ?_, ?_,
                .unknown running processor released rfl rfl⟩
              · simp [Action.perform, running, taken, ended]
              · refine ⟨holds, Nat.le_of_succ_le safe.bounded, ?_, ?_, ?_,
                  safe.ready.congr rfl machines (Nat.le_succ _)⟩
                · rw [List.append_assoc]
                  exact safe.carried
                · simp [running, dispatched, skipped]
                · intro r some
                  rw [running] at some
                  cases some

theorem returns_safe (safe : Safe cfg libc signer sys items) (ret : Int) :
    Leads cfg libc signer (.returns ret) sys items := by
  cases running : sys.running with
  | none => exact .skip safe (by simp [Action.perform, running]) fun _ _ => running
  | some r =>
      obtain ⟨tmp, e⟩ := r
      obtain ⟨rest, rfl⟩ := List.head?_eq_some_iff.mp (safe.running _ running)
      obtain ⟨ret', s', ended, machines, released, holds⟩ := eventProcEnd_eq safe.holds ret
      have dispatched := safe.dispatched
      rw [running] at dispatched
      refine ⟨{ sys with state := s', running := none, returned := sys.returned ++ [e] }, rest, ?_,
        ?_, .returns running released rfl rfl⟩
      · simp [Action.perform, running, ended]
      · refine ⟨holds, Nat.le_of_succ_le safe.bounded, ?_, ?_, ?_,
          safe.ready.congr rfl machines (Nat.le_succ _)⟩
        · rw [List.append_assoc]
          exact safe.carried
        · rw [Option.map_none, Option.toList_none, List.append_nil]
          exact dispatched
        · intro r some
          cases some

/-- Every action is possible without a fault in every state of a run, and leads to such a state. -/
theorem perform_safe (safe : Safe cfg libc signer sys items) {a : Action}
    (expected : a.Expected libc) : Leads cfg libc signer a sys items := by
  cases a with
  | message pieces enough => exact message_safe safe expected enough
  | proc => exact proc_safe safe
  | returns ret => exact returns_safe safe ret
  | deliver =>
      cases receiving : sys.receiving with
      | none =>
          refine .skip safe (by simp [Action.perform, receiving]) fun ret eq => ?_
          cases eq
      | some r =>
          obtain ⟨got, rest⟩ := r
          cases rest with
          | nil => exact finish_safe safe receiving
          | cons str rest => exact piece_safe safe receiving

end Actions

/-! ### Runs -/

section Runs

variable {cfg : EventConfig} {libc : Libc ν} {signer : Signer ν}

theorem start_safe : Safe cfg libc signer .start [] :=
  ⟨⟨.nil, List.nodup_nil, List.forall_mem_nil _⟩, Nat.zero_le _, .nil, rfl,
    fun _ some => absurd some (Option.some_ne_none _).symm, ⟨jsonParseMachineInit, rfl⟩,
      Nat.one_pos⟩

theorem runActions_append (front back : List Action) (sys : System ν) :
    runActions cfg libc signer (front ++ back) sys =
      (runActions cfg libc signer front sys).bind fun r => runActions cfg libc signer back r.2 := by
  induction front generalizing sys with
  | nil => rfl
  | cons a front ih =>
      rw [List.cons_append, runActions, runActions, bind_apply, bind_apply]
      cases a.perform cfg libc signer sys with
      | error fault => rfl
      | ok r => exact ih r.2

theorem run_safe {sys : System ν} {items : List (Addr × EventBase ν)}
    (safe : Safe cfg libc signer sys items) {actions : List Action}
    (expected : ∀ a ∈ actions, a.Expected libc) :
    ∃ sys' items', runActions cfg libc signer actions sys = .ok ((), sys') ∧
      Safe cfg libc signer sys' items' := by
  induction actions generalizing sys items with
  | nil => exact ⟨sys, items, rfl, safe⟩
  | cons a rest ih =>
      obtain ⟨sys₁, items₁, first, safe₁, -⟩ := perform_safe safe (expected a List.mem_cons_self)
      obtain ⟨sys', items', later, safe'⟩ :=
        ih safe₁ fun b mem => expected b (List.mem_cons_of_mem _ mem)
      refine ⟨sys', items', ?_, safe'⟩
      rw [runActions, bind_apply, first, ok_bind, later]

/-- Whatever the schedule, every state of a run is a safe one, and every step of it changes the
queue as it should. -/
theorem eventQueue_safe (cfg : EventConfig) (libc : Libc ν) (signer : Signer ν)
    (actions : List Action) (expected : ∀ a ∈ actions, a.Expected libc) (front : List Action)
    (a : Action) (reached : front ++ [a] <+: actions) :
    ∃ sys items sys' items', runActions cfg libc signer front .start = .ok ((), sys) ∧
      Safe cfg libc signer sys items ∧
      runActions cfg libc signer (front ++ [a]) .start = .ok ((), sys') ∧
      Safe cfg libc signer sys' items' ∧ Effect cfg libc signer a sys items sys' items' := by
  have mem : ∀ b ∈ front ++ [a], b.Expected libc := fun b mem => expected b (reached.subset mem)
  have start : Safe cfg libc signer .start [] := start_safe
  obtain ⟨sys, items, run, safe⟩ := run_safe start fun b hb => mem b (List.mem_append_left _ hb)
  obtain ⟨sys', items', performed, safe', effect⟩ := perform_safe safe
    (mem a (List.mem_append_right _ List.mem_cons_self))
  refine ⟨sys, items, sys', items', run, safe, ?_, safe', effect⟩
  rw [runActions_append, run, ok_bind, runActions, bind_apply, performed]
  rfl

/-- Whether the decoder accepts a document, and its members have the expected tags. -/
def expectedMembers (libc : Libc ν) (doc : Bytes) : Bool :=
  match Stack.init.run libc doc with
  | none => false
  | some st => st.root.all fun main =>
      [(hidText, JsonTag.string), (nameText, .string), (encryptedText, .bool),
        (signatureVersionText, .string), (signatureText, .string)].all fun member =>
          (main.jsonFindMember member.1).all fun node => node.tag == member.2

theorem expected_of_members {doc : Bytes} (checked : expectedMembers libc doc = true) :
    Expected libc doc := by
  unfold expectedMembers at checked
  split at checked
  · cases checked
  · next st ran =>
      refine ⟨st, ran, fun main root => ?_⟩
      rw [root] at checked
      simp only [Option.all_some, List.all_cons, List.all_nil, Bool.and_true, Bool.and_eq_true,
        Option.all_eq_true, beq_iff_eq] at checked
      obtain ⟨hid, name, encrypted, version, signature⟩ := checked
      exact ⟨hid, name, encrypted, version, signature⟩

/-- The message `{"hid":"d","name":"SendCommand","encrypted":false,"parameters":{"a":"b"}}` in
two pieces. -/
def commandPieces : List Bytes :=
  [[0x7B, 0x22, 0x68, 0x69, 0x64, 0x22, 0x3A, 0x22, 0x64, 0x22, 0x2C, 0x22, 0x6E, 0x61, 0x6D, 0x65,
    0x22, 0x3A, 0x22, 0x53, 0x65, 0x6E, 0x64, 0x43, 0x6F, 0x6D, 0x6D],
    [0x61, 0x6E, 0x64, 0x22, 0x2C, 0x22, 0x65, 0x6E, 0x63, 0x72, 0x79, 0x70, 0x74, 0x65, 0x64,
     0x22, 0x3A, 0x66, 0x61, 0x6C, 0x73, 0x65, 0x2C, 0x22, 0x70, 0x61, 0x72, 0x61, 0x6D, 0x65,
     0x74, 0x65, 0x72, 0x73, 0x22, 0x3A, 0x7B, 0x22, 0x61, 0x22, 0x3A, 0x22, 0x62, 0x22, 0x7D,
     0x7D]]

/-- A command is received, its handler called, and the message comes again while it runs. -/
def commandSchedule : List Action :=
  [.message commandPieces true, .deliver, .deliver, .deliver, .proc, .message commandPieces true,
    .deliver, .deliver, .deliver, .returns 0]

def oneCommand : EventConfig := ⟨2, true, true, false⟩

theorem eventQueue_safe_command :
    ∃ sys items sys' items',
      runActions oneCommand Libc.nat ⟨fun _ => none, fun _ _ _ _ _ => none⟩
        (commandSchedule.take 9) .start = .ok ((), sys) ∧
      Safe oneCommand Libc.nat ⟨fun _ => none, fun _ _ _ _ _ => none⟩ sys items ∧
      runActions oneCommand Libc.nat ⟨fun _ => none, fun _ _ _ _ _ => none⟩
        (commandSchedule.take 9 ++ [.returns 0]) .start = .ok ((), sys') ∧
      Safe oneCommand Libc.nat ⟨fun _ => none, fun _ _ _ _ _ => none⟩ sys' items' ∧
      Effect oneCommand Libc.nat ⟨fun _ => none, fun _ _ _ _ _ => none⟩ (.returns 0) sys items sys'
        items' := by
  have message : (Action.message commandPieces true).Expected Libc.nat :=
    expected_of_members (by decide +kernel)
  have expected : ∀ a ∈ commandSchedule, a.Expected Libc.nat := by
    simp only [commandSchedule, List.forall_mem_cons]
    exact ⟨message, trivial, trivial, trivial, trivial, message, trivial, trivial, trivial, trivial,
      List.forall_mem_nil _⟩
  exact eventQueue_safe oneCommand Libc.nat ⟨fun _ => none, fun _ _ _ _ _ => none⟩ commandSchedule
    expected (commandSchedule.take 9) (.returns 0) (List.prefix_refl _)

end Runs

end AcnSdk.Arrow
