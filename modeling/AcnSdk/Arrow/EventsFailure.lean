/-
What a message that is not JSON leaves behind.

`process_event` finishes the decoder as soon as a piece is rejected, while
`cycle_publish` goes on delivering. Whether that is harmless depends on where the first
rejected byte stands: `json_parse_machine_fin` does not reset the link of the caller's
machine, which then still leads to a machine that has been released, unless there was
none.

* `process_rejected` — the caller's machine after a rejected piece.
* `Inert.process`, `Inert.finish` — without a link it rejects everything from then on.
* `Dangling.process`, `Dangling.finish` — with one the next piece or the end of the
  message touches the released machine.
* `failsCleanly_iff` — the two together, for every message in every split into pieces.
-/

import AcnSdk.Arrow.Events

namespace AcnSdk.Json

open AcnSdk.Lib

/-- How many containers are open at the first rejected byte, if there is one. -/
def Stack.rejectDepth {ν : Type} (libc : Libc ν) (st : Stack ν) : Bytes → Option Nat
  | [] => none
  | byte :: rest =>
      match st.step libc byte with
      | some st => st.rejectDepth libc rest
      | none => some st.below.length

section RejectDepth

variable {ν : Type} {libc : Libc ν} {st st' : Stack ν}

theorem rejectDepth_append {front : Bytes} (ran : st.run libc front = some st') (rest : Bytes) :
    st.rejectDepth libc (front ++ rest) = st'.rejectDepth libc rest := by
  induction front generalizing st with
  | nil =>
      cases ran
      rfl
  | cons byte front ih =>
      rw [Stack.run_cons] at ran
      obtain ⟨st₁, step, ran⟩ := Option.bind_eq_some_iff.mp ran
      rw [List.cons_append, Stack.rejectDepth, step]
      exact ih ran

theorem rejectDepth_of_reject {front : Bytes} {depth : Nat}
    (deep : st.rejectDepth libc front = some depth) (rest : Bytes) :
    st.rejectDepth libc (front ++ rest) = some depth := by
  induction front generalizing st with
  | nil => cases deep
  | cons byte front ih =>
      rw [List.cons_append, Stack.rejectDepth] at *
      cases step : st.step libc byte with
      | some st₁ =>
          rw [step] at deep
          exact ih deep
      | none =>
          rw [step] at deep
          exact deep

theorem rejectDepth_of_step {byte : Byte} (failed : st.step libc byte = none) (rest : Bytes) :
    st.rejectDepth libc (byte :: rest) = some st.below.length := by
  rw [Stack.rejectDepth, failed]

end RejectDepth

end AcnSdk.Json

namespace AcnSdk.Arrow

open AcnSdk.Lib AcnSdk.Json AcnSdk.Mqtt Heap

variable {ν ε : Type}

/-! ### The machine after a failure -/

/-- An emptied machine without machines after it. -/
def Inert (sm : Addr) (h : Heap (Jpm ν)) : Prop :=
  ∃ m, h.cells sm = some m ∧ m.next = none ∧ m.processByte = none ∧ m.root = none

/-- A machine with a link to a released one. -/
def Dangling (sm : Addr) (h : Heap (Jpm ν)) : Prop :=
  ∃ m a, h.cells sm = some m ∧ m.next = some a ∧ h.cells a = none

/-- `json_decode_finish` after a rejected byte. -/
theorem finish_of_rejected {sm : Addr} {h : Heap (Jpm ν)} {depth : Nat}
    (rejected : Rejected sm h depth) :
    ∃ root h', jsonDecodeFinish sm h = .ok (root, h') ∧
      (depth = 0 → Inert sm h') ∧ (depth ≠ 0 → Dangling sm h') := by
  obtain ⟨path, linked, nodup, live, rfl⟩ := rejected
  obtain ⟨m, h', -, next, finished, effect⟩ := finish_of_path linked nodup live
  refine ⟨_, h', finished, fun none => ?_, fun some => ?_⟩
  · rw [List.length_eq_zero_iff] at none
    subst none
    exact ⟨_, effect.caller, next, rfl, rfl⟩
  · obtain ⟨a, rest, rfl⟩ := List.exists_cons_of_length_pos (Nat.pos_of_ne_zero some)
    exact ⟨_, a, effect.caller, next, effect.released a List.mem_cons_self⟩

section Pieces

variable (libc : Libc ν) (r : Receiver ν ε) {h : Heap (Jpm ν)} {st st' : Stack ν} (queue : List ε)

/-- A piece that the decoder accepts. -/
theorem process_accepted (rep : Represents r.sm h st) {str : Bytes}
    (ran : st.run libc str = some st') :
    ∃ h', r.process libc str queue h = .ok ((0, queue), h') ∧ Represents r.sm h' st' := by
  have follows := decodeBytes_follows libc rep str
  rw [ran] at follows
  obtain ⟨h', decoded, rep'⟩ := follows
  exact ⟨h', by simp [Receiver.process, jsonDecodePart, decoded], rep'⟩

/-- A rejected byte makes `process_event` finish the decoder. -/
theorem process_eq_of_rejected {str : Bytes} {h₁ h' : Heap (Jpm ν)} {root : Option (JsonNode ν)}
    (rejected : jsonDecodeBytes libc r.sm str h = .ok (false, h₁))
    (finished : jsonDecodeFinish r.sm h₁ = .ok (root, h')) :
    r.process libc str queue h = .ok ((-1, queue), h') := by
  have short : (-1 : Int) ≠ str.length := by omega
  simp only [Receiver.process, jsonDecodePart, EventM.bind_apply, EventM.onMachines_apply,
    bind_apply, rejected, ok_bind, Bool.false_eq_true, if_false, pure_apply, if_pos short, finished,
    EventM.pure_apply]

/-- A piece that the decoder rejects. -/
theorem process_rejected (rep : Represents r.sm h st) {str : Bytes} (ran : st.run libc str = none) :
    ∃ depth h', st.rejectDepth libc str = some depth ∧
      r.process libc str queue h = .ok ((-1, queue), h') ∧
      (depth = 0 → Inert r.sm h') ∧ (depth ≠ 0 → Dangling r.sm h') := by
  have follows := decodeBytes_follows libc rep str
  rw [ran] at follows
  obtain ⟨h₁, front, byte, back, st', rfl, fronted, failed, decoded, rejected⟩ := follows
  obtain ⟨root, h', finished, left⟩ := finish_of_rejected rejected
  refine ⟨_, h', ?_, process_eq_of_rejected libc r queue decoded finished, left⟩
  rw [rejectDepth_append fronted, rejectDepth_of_step failed]

variable {r}

theorem Inert.decodeFinish (inert : Inert r.sm h) :
    ∃ h', jsonDecodeFinish r.sm h = .ok (none, h') ∧ Inert r.sm h' := by
  obtain ⟨m, cell, next, -, root⟩ := inert
  refine ⟨h.set r.sm (jsonParseMachineFin m), ?_, jsonParseMachineFin m, by simp, next, rfl, rfl⟩
  simp [jsonDecodeFinish, read_eq cell, next, jsonDecodeRelease, update_eq cell, root]

/-- An inert machine rejects every byte. -/
theorem Inert.process (inert : Inert r.sm h) {str : Bytes} (nonempty : str ≠ []) :
    ∃ h', r.process libc str queue h = .ok ((-1, queue), h') ∧ Inert r.sm h' := by
  obtain ⟨h', finished, inert'⟩ := inert.decodeFinish
  obtain ⟨m, cell, next, stopped, -⟩ := inert
  obtain ⟨byte, rest, rfl⟩ := List.exists_cons_of_ne_nil nonempty
  have rejected : jsonDecodeBytes libc r.sm (byte :: rest) h = .ok (false, h) := by
    simp [jsonDecodeBytes, jsonParseMachineProcess, jsonParseMachineProcessFrom, read_eq cell, next,
      stopped]
  exact ⟨h', process_eq_of_rejected libc r queue rejected finished, inert'⟩

/-- An inert machine has no event. -/
theorem Inert.finish (inert : Inert r.sm h) :
    ∃ h', r.processFinish queue h = .ok ((-1, queue), h') ∧ Inert r.sm h' := by
  obtain ⟨h', finished, inert'⟩ := inert.decodeFinish
  exact ⟨h', by simp [Receiver.processFinish, finished], inert'⟩

/-- The next byte after a dangling link reads the released machine. -/
theorem Dangling.process (dangling : Dangling r.sm h) {str : Bytes} (nonempty : str ≠ []) :
    r.process libc str queue h = .error .released := by
  obtain ⟨m, a, cell, next, gone⟩ := dangling
  obtain ⟨byte, rest, rfl⟩ := List.exists_cons_of_ne_nil nonempty
  have touched : Heap.read a h = .error .released := by simp [Heap.read, gone]
  simp [Receiver.process, jsonDecodePart, jsonDecodeBytes, jsonParseMachineProcess,
    jsonParseMachineProcessFrom, read_eq cell, next, touched]

/-- The end of the message after a dangling link reads the released machine. -/
theorem Dangling.finish (dangling : Dangling r.sm h) :
    r.processFinish queue h = .error .released := by
  obtain ⟨m, a, cell, next, gone⟩ := dangling
  have touched : Heap.read a h = .error .released := by simp [Heap.read, gone]
  simp [Receiver.processFinish, jsonDecodeFinish, read_eq cell, next, jsonDecodeRelease, touched]

variable (r) in
/-- Whatever the decoded tree holds, the end of a message meets no fault of its own. -/
theorem processFinish_eq {root : Option (JsonNode ν)} {h' : Heap (Jpm ν)}
    (finished : jsonDecodeFinish r.sm h = .ok (root, h')) :
    ∃ code queue', r.processFinish queue h = .ok ((code, queue'), h') := by
  cases root with
  | none => exact ⟨-1, queue, by simp [Receiver.processFinish, finished]⟩
  | some root =>
      cases event : r.event root with
      | none => exact ⟨-1, queue, by simp [Receiver.processFinish, finished, event]⟩
      | some e => exact ⟨0, queue ++ [e], by simp [Receiver.processFinish, finished, event]; rfl⟩

end Pieces

/-! ### Messages -/

section Messages

variable (libc : Libc ν) {r : Receiver ν ε} {h : Heap (Jpm ν)} {st st' : Stack ν} (queue : List ε)

theorem pieces_accepted (rep : Represents r.sm h st) {pieces : List Bytes}
    (ran : st.run libc pieces.flatten = some st') :
    ∃ h', pieces.mapM (r.process libc) queue h = .ok ((.replicate pieces.length 0, queue), h') ∧
      Represents r.sm h' st' := by
  induction pieces generalizing h st with
  | nil =>
      cases ran
      exact ⟨h, rfl, rep⟩
  | cons str pieces ih =>
      rw [List.flatten_cons, Stack.run_append] at ran
      obtain ⟨st₁, first, rest⟩ := Option.bind_eq_some_iff.mp ran
      obtain ⟨h₁, accepted, rep₁⟩ := process_accepted libc r queue rep first
      obtain ⟨h', more, rep'⟩ := ih rep₁ rest
      refine ⟨h', ?_, rep'⟩
      rw [EventM.mapM_cons_of_ok accepted, more]
      rfl

theorem pieces_inert (inert : Inert r.sm h) {pieces : List Bytes}
    (nonempty : ∀ str ∈ pieces, str ≠ []) :
    ∃ h', pieces.mapM (r.process libc) queue h = .ok ((.replicate pieces.length (-1), queue), h') ∧
      Inert r.sm h' := by
  induction pieces generalizing h with
  | nil => exact ⟨h, rfl, inert⟩
  | cons str pieces ih =>
      obtain ⟨h₁, rejected, inert₁⟩ := inert.process libc queue (nonempty str List.mem_cons_self)
      obtain ⟨h', more, inert'⟩ := ih inert₁ fun s hs => nonempty s (List.mem_cons_of_mem _ hs)
      refine ⟨h', ?_, inert'⟩
      rw [EventM.mapM_cons_of_ok rejected, more]
      rfl

/-- What the pieces of a rejected message do. -/
def RejectedBy (r : Receiver ν ε) (queue : List ε) (depth : Nat)
    (result : Except Fault ((List Int × List ε) × Heap (Jpm ν))) : Prop :=
  if depth = 0 then
    ∃ accepted rejected h', result =
        .ok ((.replicate accepted 0 ++ .replicate (rejected + 1) (-1), queue), h') ∧ Inert r.sm h'
  else
    result = .error .released ∨ ∃ accepted h',
      result = .ok ((.replicate accepted 0 ++ [-1], queue), h') ∧ Dangling r.sm h'

theorem pieces_rejected (rep : Represents r.sm h st) {pieces : List Bytes}
    (nonempty : ∀ str ∈ pieces, str ≠ []) (ran : st.run libc pieces.flatten = none) :
    ∃ depth, st.rejectDepth libc pieces.flatten = some depth ∧
      RejectedBy r queue depth (pieces.mapM (r.process libc) queue h) := by
  induction pieces generalizing h st with
  | nil => cases ran
  | cons str pieces ih =>
      have nonempty' : ∀ s ∈ pieces, s ≠ [] := fun s hs => nonempty s (List.mem_cons_of_mem _ hs)
      rw [List.flatten_cons, Stack.run_append] at ran
      rw [List.flatten_cons]
      cases first : st.run libc str with
      | some st₁ =>
          rw [first] at ran
          obtain ⟨h₁, accepted, rep₁⟩ := process_accepted libc r queue rep first
          obtain ⟨depth, deep, rejected⟩ := ih rep₁ nonempty' ran
          refine ⟨depth, (rejectDepth_append first _).trans deep, ?_⟩
          rw [EventM.mapM_cons_of_ok accepted]
          unfold RejectedBy at rejected ⊢
          split
          · rw [if_pos ‹_›] at rejected
            obtain ⟨a, b, h', eq, inert⟩ := rejected
            exact ⟨a + 1, b, h', by rw [eq]; rfl, inert⟩
          · rw [if_neg ‹_›] at rejected
            rcases rejected with eq | ⟨a, h', eq, dangling⟩
            · exact .inl (by rw [eq]; rfl)
            · exact .inr ⟨a + 1, h', by rw [eq]; rfl, dangling⟩
      | none =>
          obtain ⟨depth, h₁, deep, rejected, inert, dangling⟩ :=
            process_rejected libc r queue rep first
          refine ⟨depth, rejectDepth_of_reject deep _, ?_⟩
          rw [EventM.mapM_cons_of_ok rejected]
          unfold RejectedBy
          split
          · obtain ⟨h', more, inert'⟩ := pieces_inert libc queue (inert ‹_›) nonempty'
            exact ⟨0, pieces.length, h', by rw [more]; rfl, inert'⟩
          · cases pieces with
            | nil => exact .inr ⟨0, h₁, rfl, dangling ‹_›⟩
            | cons next pieces =>
                have touched := (dangling ‹_›).process libc queue
                    (nonempty' next List.mem_cons_self)
                left
                rw [List.mapM_cons, EventM.bind_apply, touched]
                rfl

/-- A failed message is over: once a piece is rejected so is every later one, the end of
the message is an error, the caller's machine has no link and the queue is as it was. All
of it without a fault. -/
def FailsCleanly (sm : Addr) (queue : List ε)
    (result : Except Fault ((Delivery × List ε) × Heap (Jpm ν))) : Prop :=
  ∃ delivery queue' h', result = .ok ((delivery, queue'), h') ∧
    delivery.processed.Pairwise (fun earlier later => earlier < 0 → later < 0) ∧
    ((∃ code ∈ delivery.processed, code < 0) →
      (∃ m, h'.cells sm = some m ∧ m.next = none) ∧ (∀ code ∈ delivery.done, code < 0) ∧
        queue' = queue)

/-- A message without a rejected piece has nothing to clean. -/
theorem failsCleanly_of_accepted {sm : Addr} (count : Nat) {done : Option Int} {queue' : List ε}
    {h' : Heap (Jpm ν)} :
    FailsCleanly sm queue (.ok ((⟨.replicate count 0, done⟩, queue'), h')) := by
  have none : ∀ code ∈ List.replicate count (0 : Int), ¬ code < 0 := by
    intro code mem
    rw [List.eq_of_mem_replicate mem]
    decide
  refine ⟨_, queue', h', rfl, ?_, fun ⟨code, mem, negative⟩ => absurd negative (none code mem)⟩
  exact List.pairwise_of_forall_mem_list fun a mem _ _ negative => absurd negative (none a mem)

theorem failsCleanly_of_inert {sm : Addr} {accepted rejected : Nat} {done : Option Int}
    {h' : Heap (Jpm ν)} (inert : Inert sm h') (negative : ∀ code ∈ done, code < 0) :
    FailsCleanly sm queue
      (.ok ((⟨.replicate accepted 0 ++ .replicate (rejected + 1) (-1), done⟩, queue), h')) := by
  obtain ⟨m, cell, next, -, -⟩ := inert
  refine ⟨_, queue, h', rfl, ?_, fun _ => ⟨⟨m, cell, next⟩, negative, rfl⟩⟩
  rw [List.pairwise_append]
  refine ⟨List.pairwise_replicate.mpr (.inr fun h => h),
    List.pairwise_replicate.mpr (.inr fun h => h), ?_⟩
  intro _ _ later mem _
  rw [List.eq_of_mem_replicate mem]
  decide

theorem not_failsCleanly_of_dangling {sm : Addr} {accepted : Nat} {done : Option Int}
    {queue' : List ε} {h' : Heap (Jpm ν)} (dangling : Dangling sm h') :
    ¬ FailsCleanly sm queue (.ok ((⟨.replicate accepted 0 ++ [-1], done⟩, queue'), h')) := by
  rintro ⟨delivery, queue'', h'', eq, -, clean⟩
  cases eq
  obtain ⟨m, a, cell, next, -⟩ := dangling
  obtain ⟨⟨m', cell', next'⟩, -⟩ := clean ⟨-1, by simp, by decide⟩
  rw [cell] at cell'
  cases cell'
  rw [next] at next'
  cases next'

theorem not_failsCleanly_error {sm : Addr} {e : Fault} :
    ¬ FailsCleanly sm queue (.error e : Except Fault ((Delivery × List ε) × Heap (Jpm ν))) := by
  rintro ⟨_, _, _, eq, -⟩
  cases eq

/-- The end of a message after its pieces. -/
def finishPieces (r : Receiver ν ε) (processed : List Int) (whole : Bool) :
    EventM ν ε Delivery := do
  if whole then
    let done ← r.processFinish
    return ⟨processed, some done⟩
  else return ⟨processed, none⟩

theorem failsCleanly_accepted (rep : Represents r.sm h st) {pieces : List Bytes}
    (ran : st.run libc pieces.flatten = some st') (whole : Bool) :
    FailsCleanly r.sm queue
      ((pieces.mapM (r.process libc) >>= fun processed => finishPieces r processed whole)
        queue h) := by
  obtain ⟨h', accepted, rep'⟩ := pieces_accepted libc queue rep ran
  rw [EventM.bind_apply, accepted, ok_bind]
  cases whole with
  | false => exact failsCleanly_of_accepted queue pieces.length
  | true =>
      obtain ⟨h'', finished⟩ := rep'.finish
      obtain ⟨code, queue', eq⟩ := processFinish_eq r queue finished
      simp only [finishPieces, if_true, EventM.bind_apply, eq, ok_bind, EventM.pure_apply]
      exact failsCleanly_of_accepted queue pieces.length

theorem failsCleanly_rejected {depth : Nat} {result : EventM ν ε (List Int)}
    (rejected : RejectedBy r queue depth (result queue h)) (whole : Bool) :
    FailsCleanly r.sm queue ((result >>= fun processed => finishPieces r processed whole) queue h) ↔
      depth = 0 := by
  rw [EventM.bind_apply]
  unfold RejectedBy at rejected
  by_cases zero : depth = 0
  · rw [if_pos zero] at rejected
    obtain ⟨a, b, h', eq, inert⟩ := rejected
    simp only [eq, ok_bind, zero, iff_true]
    cases whole with
    | false => exact failsCleanly_of_inert queue inert (by simp)
    | true =>
        obtain ⟨h'', finished, inert'⟩ := inert.finish queue
        simp only [finishPieces, if_true, EventM.bind_apply, finished, ok_bind, EventM.pure_apply]
        exact failsCleanly_of_inert queue inert' (by simp)
  · rw [if_neg zero] at rejected
    simp only [zero, iff_false]
    rcases rejected with eq | ⟨a, h', eq, dangling⟩
    · rw [eq]
      exact not_failsCleanly_error queue
    · rw [eq, ok_bind]
      cases whole with
      | false => exact not_failsCleanly_of_dangling queue dangling
      | true =>
          simp only [finishPieces, if_true, EventM.bind_apply, dangling.finish queue, error_bind]
          exact not_failsCleanly_error queue

/-- A message fails cleanly exactly if its first rejected byte, if any, stands outside every
container. -/
theorem failsCleanly_iff {x : Jpm ν} (cell : h.cells r.sm = some x) (live : r.sm < h.brk)
    (restBuffer : Nat) (reads : List Bytes) (totalLen : Nat) :
    FailsCleanly r.sm queue
        (cyclePublish (some (r.callbacks libc)) restBuffer reads totalLen queue h) ↔
      r.limit.any (· ≤ queue.length) = true ∨
        ∀ depth, (Stack.init : Stack ν).rejectDepth libc
          (delivered restBuffer reads totalLen).flatten = some depth → depth = 0 := by
  have process_eq : deliveryMessageProcess (some (r.callbacks libc)) = r.process libc := rfl
  have done_eq : deliveryMessageDone (some (r.callbacks libc)) = r.processFinish := rfl
  have init_eq : deliveryMessageInit (some (r.callbacks libc)) totalLen =
      r.processInit totalLen := rfl
  rw [cyclePublish_eq, process_eq, done_eq, init_eq, EventM.bind_apply]
  by_cases full : r.limit.any (· ≤ queue.length) = true
  · have refused : r.processInit totalLen queue h = .ok ((-1, queue), h) := by
      simp [Receiver.processInit, full]
    simp only [refused, full, true_or, iff_true]
    exact failsCleanly_of_accepted queue 0
  · obtain ⟨h₁, init, rep⟩ := init_represents cell live
    have begun : r.processInit totalLen queue h = .ok ((0, queue), h₁) := by
      simp [Receiver.processInit, full, init]
    simp only [begun, ok_bind, if_true, full, Bool.false_eq_true, false_or]
    cases ran : (Stack.init : Stack ν).run libc (delivered restBuffer reads totalLen).flatten with
    | some st =>
        have none := rejectDepth_append ran []
        rw [List.append_nil] at none
        simp only [none, Stack.rejectDepth, reduceCtorEq, false_implies, implies_true, iff_true]
        exact failsCleanly_accepted libc queue rep ran _
    | none =>
        obtain ⟨depth, deep, rejected⟩ := pieces_rejected libc queue rep
          (fun str mem => delivered_ne_nil mem) ran
        simp only [deep, Option.some.injEq, forall_eq']
        exact failsCleanly_rejected queue rejected _

end Messages

/-- A message that starts with `x` is rejected at once. -/
theorem failsCleanly_iff_unknown :
    FailsCleanly 0 [] (cyclePublish
        (some (baseEventCallbacks (fun _ _ _ => some ()) none Libc.nat)) 512 [[0x78], [0x5D]] 2 []
        callerHeap) ∧
      ∀ depth, (Stack.init : Stack Nat).rejectDepth Libc.nat
        (delivered 512 [[0x78], [0x5D]] 2).flatten = some depth → depth = 0 := by
  have outside : ∀ depth, (Stack.init : Stack Nat).rejectDepth Libc.nat
      (delivered 512 [[0x78], [0x5D]] 2).flatten = some depth → depth = 0 := by
    intro depth deep
    exact (Option.some.inj deep).symm
  refine ⟨?_, outside⟩
  exact (failsCleanly_iff Libc.nat (r := eventReceiver (fun _ _ _ => some ()) none) []
    (x := jsonParseMachineInit) rfl (by decide) 512 [[0x78], [0x5D]] 2).mpr (.inr outside)

/-- In `[x]` the byte after the bracket is rejected, and the piece after that touches the
machine released then. -/
theorem bracket_dangling :
    cyclePublish (some (baseEventCallbacks (fun _ _ _ => some ()) none Libc.nat)) 512
        [[0x5B, 0x78], [0x5D]] 3 [] callerHeap = .error .released ∧
      ¬ FailsCleanly 0 [] (cyclePublish
        (some (baseEventCallbacks (fun _ _ _ => some ()) none Libc.nat)) 512
        [[0x5B, 0x78], [0x5D]] 3 [] callerHeap) := by
  have fault : cyclePublish (some (baseEventCallbacks (fun _ _ _ => some ()) none Libc.nat)) 512
      [[0x5B, 0x78], [0x5D]] 3 [] callerHeap = .error .released := rfl
  refine ⟨fault, ?_⟩
  rw [fault]
  exact not_failsCleanly_error []

end AcnSdk.Arrow
