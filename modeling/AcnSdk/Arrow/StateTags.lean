/-
The values of device states with the tags that they were declared with, `src/arrow/state.c`.

The value of a state is a union. Which variant was written last is kept beside the tag, and
reading another one is a violated assertion. Setters go by the tag of their caller; everything
else goes by the tag of the state.

The names are texts that no call changes here, also not `Call.post`. In the code the `json_delete`
of `_state_post_init` releases the names on the heap with its tree: see `Arrow.StateNames`.

* `perform_tagged_iff` — after which calls the variants are those that the tags name.
* `tagsKept_iff` — the same for all states of a run.
* `handler_refines` — then the handler does what it does to states whose value is their tag.
-/

import AcnSdk.Arrow.State
import AcnSdk.Lib.Avoids
import AcnSdk.Lib.Runs

namespace AcnSdk.Arrow.StateTags

open AcnSdk.Lib AcnSdk.Json AcnSdk.Time

variable {ν β γ : Type}

/-! ### Tags and variants -/

/-- A `JsonTag` as a number of 32 bits, which `typetag` is. -/
abbrev Tag := BitVec 32

/-- The functions of one entry of `state_adder`. -/
inductive Kind where
  | bool | string | number
deriving DecidableEq, Repr

/-- `is_valid_tag`: one of the bits of `JSON_BOOL`, `JSON_STRING` or `JSON_NUMBER`. -/
def isValidTag (t : Tag) : Bool := t &&& 1 ≠ 0 || t &&& 2 ≠ 0 || t &&& 3 ≠ 0

/-- `state_adder`. -/
def stateAdder : List (Option Kind) := [none, some .bool, some .string, some .number]

/-- `state_adder[t]`, where `is_valid_tag(t)`. -/
def handleOf (t : Tag) : Except Fault (Option Kind) :=
  if isValidTag t then
    match stateAdder[t.toNat]? with
    | none => .error .overflow
    | some kind => .ok kind
  else .ok none

/-- The tag that a setter passes. -/
def Kind.tag : Kind → Tag
  | .bool => 1
  | .string => 2
  | .number => 3

theorem handleOf_tag (k : Kind) : handleOf k.tag = .ok (some k) := by
  cases k <;> rfl

/-- The variant that was written last. -/
def kindOf : StateValue ν → Kind
  | .bool _ => .bool
  | .string _ => .string
  | .number _ => .number

/-- `arrow_state_list_t`. The variant of `value` is the one that was written last. -/
structure StateEntry (ν : Type) where
  name : Bytes
  tag : Tag
  value : StateValue ν
  ts : Timestamp

/-- The value union of a state holds the variant that its tag names. -/
def StateEntry.Holds (e : StateEntry ν) : Prop :=
  ∀ k, handleOf e.tag = .ok (some k) → kindOf e.value = k

/-! ### The functions -/

/-- What a setter is given: a property without a type is none. -/
inductive Given (ν : Type) where
  | bool (b : Bool)
  | string (s : Option Bytes)
  | number (n : ν)

def Given.kind : Given ν → Kind
  | .bool _ => .bool
  | .string _ => .string
  | .number _ => .number

/-- The `add` of `state_adder` for the tag of the caller. `property_move` does nothing for a
property without a type. -/
def Given.add (old : StateValue ν) : Given ν → StateValue ν
  | .bool b => .bool b
  | .string none => old
  | .string (some s) => .string (some s)
  | .number n => .number n

/-- The `add` for no data, which gives a default value. -/
def Kind.default (zero : ν) : Kind → StateValue ν
  | .bool => .bool false
  | .string => .string none
  | .number => .number zero

/-- `linked_list_find_node` with `stateeq`, and a change of what it finds. -/
def updateNamed (name : Bytes) (f : StateEntry ν → Except Fault (StateEntry ν)) :
    List (StateEntry ν) → Except Fault (List (StateEntry ν))
  | [] => return []
  | e :: rest =>
      if e.name = name then do
        let e ← f e
        return e :: rest
      else do
        let rest ← updateNamed name f rest
        return e :: rest

/-- `arrow_device_state_add`, at the time `now`. -/
def arrowDeviceStateAdd (name : Bytes) (given : Given ν) (now : Timestamp) :
    List (StateEntry ν) → Except Fault (List (StateEntry ν)) :=
  updateNamed name fun devState => do
    match ← handleOf given.kind.tag with
    | none => return devState
    | some _ => return { devState with value := given.add devState.value, ts := now }

/-- One state of `arrow_device_state_init`. -/
def declareOne (zero : ν) (name : Bytes) (typetag : Tag) : Except Fault (StateEntry ν) := do
  match ← handleOf typetag with
  | none => return ⟨name, typetag, .string none, .zero⟩
  | some kind => return ⟨name, typetag, kind.default zero, .zero⟩

/-- `arrow_device_state_init`, for an empty list. -/
def arrowDeviceStateInit (zero : ν) : List (Bytes × Tag) → Except Fault (List (StateEntry ν))
  | [] => return []
  | pair :: rest => do
      let state ← declareOne zero pair.1 pair.2
      let states ← arrowDeviceStateInit zero rest
      return state :: states

/-- `value._property` is read. -/
def readProperty : StateValue ν → Except Fault (Option Bytes)
  | .string s => .ok s
  | .bool _ | .number _ => .error .assertion

/-- The `parse` of `state_adder`. That of a string frees the old property first. -/
def Kind.parse (atof : Bytes → ν) (old : StateValue ν) (s : Bytes) :
    Kind → Except Fault (StateValue ν)
  | .bool => return stateValueBoolParse s
  | .string => do
      let _ ← readProperty old
      return stateValueStringParse s
  | .number => return stateValueNumberParse atof s

/-- The `json` of `state_adder`. -/
def Kind.json : Kind → StateValue ν → Except Fault (JsonNode ν)
  | .bool, .bool b => .ok (.scalar none (.bool b))
  | .number, .number n => .ok (.scalar none (.number n))
  | .string, .string (some s) => .ok (.scalar none (.string s))
  -- `json_mkstring` of NULL
  | .string, .string none => .error .nullPointer
  | _, _ => .error .assertion

/-- The `free` of `state_adder`, which only strings have. -/
def Kind.free : Kind → StateValue ν → Except Fault Unit
  | .string, value => do
      let _ ← readProperty value
      return ()
  | .bool, _ | .number, _ => return ()

section

variable (layout : Layout) (atof : Bytes → ν)

/-- The part of `arrow_device_state_handler` for a state that is named. -/
def updateEntry (tmp : JsonNode ν) (devState : StateEntry ν) : Except Fault (StateEntry ν) :=
  match tmp.jsonFindMember valueText with
  | none => return devState
  | some value => do
      let timestamp ← stringOf (tmp.jsonFindMember timestampText)
      let (ts, _) ← timestampParse .zero timestamp
      if timestampLess layout devState.ts ts ≠ 0 then do
        match ← handleOf devState.tag with
        | none => return { devState with ts := ts }
        | some kind => do
            let s ← stringOf (some value)
            let value ← kind.parse atof devState.value s
            return { devState with ts := ts, value := value }
      else return devState

/-- The part of `arrow_device_state_handler` for one member. -/
def handleEntry (tmp : JsonNode ν) : List (StateEntry ν) → Except Fault (List (StateEntry ν))
  | [] => return []
  | e :: rest =>
      match tmp.key with
      | none => throw .nullPointer
      | some name => updateNamed name (updateEntry layout atof tmp) (e :: rest)

/-- The loop of `arrow_device_state_handler`. -/
def handleEntries : List (JsonNode ν) → List (StateEntry ν) → Except Fault (List (StateEntry ν))
  | [], states => return states
  | tmp :: rest, states => do
      let states ← handleEntry layout atof tmp states
      handleEntries rest states

end

/-- The loop of `_state_post_init`, with the members of `_states`. -/
def postEntries : List (StateEntry ν) → Except Fault (List (Bytes × JsonNode ν))
  | [] => return []
  | tmp :: rest => do
      match ← handleOf tmp.tag with
      | none => postEntries rest
      | some kind => do
          let value ← kind.json tmp.value
          let members ← postEntries rest
          return (tmp.name, value) :: members

/-- `arrow_device_state_free`, with `arrow_device_state_list_free` for every state. -/
def freeEntries : List (StateEntry ν) → Except Fault (List (StateEntry ν))
  | [] => return []
  | tmp :: rest => do
      match ← handleOf tmp.tag with
      | none => freeEntries rest
      | some kind => do
          kind.free tmp.value
          freeEntries rest

/-! ### Runs -/

/-- A call of one of the setters, of the handler with the states of a message, or of one of the
functions that read all states. -/
inductive Call (ν : Type) where
  | set (name : Bytes) (given : Given ν) (now : Timestamp)
  | handle (main : JsonNode ν)
  | post
  | free

section

variable (layout : Layout) (atof : Bytes → ν)

def Call.perform : Call ν → List (StateEntry ν) → Except Fault (List (StateEntry ν))
  | .set name given now, states => arrowDeviceStateAdd name given now states
  | .handle main, states => handleEntries layout atof main.jsonFirstChild states
  | .post, states => do
      let _ ← postEntries states
      return states
  | .free, states => freeEntries states

def runCalls : List (Call ν) → List (StateEntry ν) → Except Fault (List (StateEntry ν))
  | [], states => return states
  | c :: rest, states => do
      let states ← c.perform layout atof states
      runCalls rest states

end

/-- Only variants that were last written are read, and the result meets `Q`. -/
def Tagged (Q : β → Prop) (x : Except Fault β) : Prop := Avoids .assertion x ∧ ∀ b, x = .ok b → Q b

/-- All states hold the variants that their tags name. -/
def AllHold (states : List (StateEntry ν)) : Prop := ∀ e ∈ states, e.Holds

/-- A setter is called for a state of its own tag, or for one of another tag without a kind, or
there is nothing that it stores. -/
def Call.Meets (states : List (StateEntry ν)) : Call ν → Prop
  | .set name given _ => ∀ e, states.find? (fun e => e.name = name) = some e →
      (∃ k, handleOf e.tag = .ok (some k) ∧ k ≠ given.kind) → given = .string none
  | _ => True

/-! ### What keeps the variants -/

namespace Tagged

variable {Q : β → Prop} {R : γ → Prop}

theorem ok {b : β} (q : Q b) : Tagged Q (.ok b) := by
  refine ⟨avoids_ok _ _, fun b' same => ?_⟩
  cases same
  exact q

theorem error {e : Fault} (other : e ≠ .assertion) : Tagged Q (.error e : Except Fault β) := by
  refine ⟨fun same => ?_, fun b same => ?_⟩
  · cases same
    exact other rfl
  · cases same

theorem bind {x : Except Fault β} {f : β → Except Fault γ} (first : Tagged Q x)
    (later : ∀ b, Q b → Tagged R (f b)) : Tagged R (x >>= f) := by
  cases x with
  | error e => exact error fun same => first.1 (by rw [same])
  | ok b => exact later b (first.2 b rfl)

end Tagged

theorem tagged_of_failsOnly {x : Except Fault β} {e : Fault} (only : FailsOnly e x)
    (other : Fault.assertion ≠ e) : Tagged (fun _ => True) x :=
  ⟨only.avoids other, fun _ _ => trivial⟩

theorem stringOf_tagged (node : Option (JsonNode ν)) : Tagged (fun _ => True) (stringOf node) := by
  apply tagged_of_failsOnly (e := .nullPointer) _ Fault.noConfusion
  rw [stringOf]
  split
  · exact failsOnly_error _
  · exact failsOnly_ok _ _

theorem handleOf_tagged (t : Tag) : Tagged (fun k => handleOf t = .ok k) (handleOf t) := by
  refine ⟨?_, fun k same => same⟩
  rw [handleOf]
  split
  · split
    · intro same
      cases same
    · exact avoids_ok _ _
  · exact avoids_ok _ _

theorem readProperty_tagged {value : StateValue ν} (kind : kindOf value = .string) :
    Tagged (fun _ => True) (readProperty value) := by
  cases value with
  | string s => exact .ok trivial
  | bool b => cases kind
  | number n => cases kind

theorem parse_tagged (atof : Bytes → ν) {old : StateValue ν} (s : Bytes) {k : Kind}
    (kind : kindOf old = k) : Tagged (fun value => kindOf value = k) (k.parse atof old s) := by
  cases k with
  | bool => exact .ok rfl
  | string => exact .bind (readProperty_tagged kind) fun _ _ => .ok rfl
  | number => exact .ok rfl

theorem json_tagged {value : StateValue ν} {k : Kind} (kind : kindOf value = k) :
    Tagged (fun _ => True) (k.json value) := by
  subst kind
  cases value with
  | bool b => exact .ok trivial
  | number n => exact .ok trivial
  | string s =>
      cases s with
      | none => exact .error fun same => Fault.noConfusion same
      | some s => exact .ok trivial

theorem free_tagged {value : StateValue ν} {k : Kind} (kind : kindOf value = k) :
    Tagged (fun _ => True) (k.free value) := by
  cases k with
  | bool => exact .ok trivial
  | string => exact .bind (readProperty_tagged kind) fun _ _ => .ok trivial
  | number => exact .ok trivial

section

variable (layout : Layout) (atof : Bytes → ν)

theorem updateEntry_tagged (tmp : JsonNode ν) {e : StateEntry ν} (holds : e.Holds) :
    Tagged StateEntry.Holds (updateEntry layout atof tmp e) := by
  rw [updateEntry]
  split
  · exact .ok holds
  · next value _ =>
      refine .bind (stringOf_tagged _) fun timestamp _ => ?_
      refine .bind (tagged_of_failsOnly (failsOnly_timestampParse _ _) Fault.noConfusion)
        fun r _ => ?_
      obtain ⟨ts, rc⟩ := r
      dsimp only
      split
      · refine .bind (handleOf_tagged e.tag) fun kind handle => ?_
        cases kind with
        | none => exact .ok holds
        | some k =>
            refine .bind (stringOf_tagged _) fun s _ => ?_
            refine .bind (parse_tagged atof s (holds k handle)) fun value kind => .ok ?_
            intro k' handle'
            rw [handle] at handle'
            cases handle'
            exact kind
      · exact .ok holds

theorem updateNamed_tagged {f : StateEntry ν → Except Fault (StateEntry ν)}
    (keeps : ∀ e, e.Holds → Tagged StateEntry.Holds (f e)) (name : Bytes)
    {states : List (StateEntry ν)} (holds : AllHold states) :
    Tagged AllHold (updateNamed name f states) := by
  induction states with
  | nil => exact .ok holds
  | cons e rest ih =>
      obtain ⟨first, later⟩ := List.forall_mem_cons.mp holds
      rw [updateNamed]
      split
      · exact .bind (keeps e first) fun e' holds' => .ok (List.forall_mem_cons.mpr ⟨holds', later⟩)
      · exact .bind (ih later) fun rest' holds' => .ok (List.forall_mem_cons.mpr ⟨first, holds'⟩)

theorem handleEntries_tagged (tmps : List (JsonNode ν)) {states : List (StateEntry ν)}
    (holds : AllHold states) : Tagged AllHold (handleEntries layout atof tmps states) := by
  induction tmps generalizing states with
  | nil => exact .ok holds
  | cons tmp tmps ih =>
      rw [handleEntries]
      refine .bind (Q := AllHold) ?_ fun states' holds' => ih holds'
      cases states with
      | nil => exact .ok holds
      | cons e rest =>
          rw [handleEntry]
          cases tmp.key with
          | none => exact .error fun same => Fault.noConfusion same
          | some name =>
              exact updateNamed_tagged (fun e holds => updateEntry_tagged layout atof tmp holds)
                name holds

theorem postEntries_tagged {states : List (StateEntry ν)} (holds : AllHold states) :
    Tagged (fun _ => True) (postEntries states) := by
  induction states with
  | nil => exact .ok trivial
  | cons e rest ih =>
      obtain ⟨first, later⟩ := List.forall_mem_cons.mp holds
      rw [postEntries]
      refine .bind (handleOf_tagged e.tag) fun kind handle => ?_
      cases kind with
      | none => exact ih later
      | some k =>
          refine .bind (json_tagged (first k handle)) fun value _ => ?_
          exact .bind (ih later) fun members _ => .ok trivial

theorem freeEntries_tagged {states : List (StateEntry ν)} (holds : AllHold states) :
    Tagged AllHold (freeEntries states) := by
  induction states with
  | nil => exact .ok holds
  | cons e rest ih =>
      obtain ⟨first, later⟩ := List.forall_mem_cons.mp holds
      rw [freeEntries]
      refine .bind (handleOf_tagged e.tag) fun kind handle => ?_
      cases kind with
      | none => exact ih later
      | some k => exact .bind (free_tagged (first k handle)) fun _ _ => ih later

end

/-! ### Setters -/

/-- `updateNamed` with a change that cannot fail. -/
def replaceNamed (name : Bytes) (g : StateEntry ν → StateEntry ν) :
    List (StateEntry ν) → List (StateEntry ν)
  | [] => []
  | e :: rest => if e.name = name then g e :: rest else e :: replaceNamed name g rest

theorem updateNamed_ok (name : Bytes) (g : StateEntry ν → StateEntry ν)
    (states : List (StateEntry ν)) :
    updateNamed name (fun e => .ok (g e)) states = .ok (replaceNamed name g states) := by
  induction states with
  | nil => rfl
  | cons e rest ih =>
      rw [updateNamed, replaceNamed]
      split
      · rfl
      · rw [ih]
        rfl

theorem allHold_replaceNamed (name : Bytes) (g : StateEntry ν → StateEntry ν)
    {states : List (StateEntry ν)} (holds : AllHold states) :
    AllHold (replaceNamed name g states) ↔
      ∀ e, states.find? (fun e => e.name = name) = some e → (g e).Holds := by
  induction states with
  | nil => exact iff_of_true holds fun e found => by cases found
  | cons e rest ih =>
      obtain ⟨first, later⟩ := List.forall_mem_cons.mp holds
      rw [replaceNamed]
      by_cases here : e.name = name
      · have found : (e :: rest).find? (fun e => e.name = name) = some e :=
          List.find?_cons_of_pos (decide_eq_true here)
        rw [if_pos here, found]
        constructor
        · intro all e' same
          cases same
          exact all _ List.mem_cons_self
        · intro all
          exact List.forall_mem_cons.mpr ⟨all e rfl, later⟩
      · have behind : (e :: rest).find? (fun e => e.name = name) =
            rest.find? fun e => e.name = name :=
          List.find?_cons_of_neg (mt of_decide_eq_true here)
        rw [if_neg here, behind, ← ih later]
        exact List.forall_mem_cons.trans (and_iff_right first)

theorem kindOf_add (given : Given ν) (old : StateValue ν) :
    kindOf (given.add old) = given.kind ∨ given = .string none ∧ given.add old = old := by
  cases given with
  | bool b => exact .inl rfl
  | number n => exact .inl rfl
  | string s =>
      cases s with
      | none => exact .inr ⟨rfl, rfl⟩
      | some s => exact .inl rfl

theorem add_holds_iff (given : Given ν) (now : Timestamp) {e : StateEntry ν} (holds : e.Holds) :
    StateEntry.Holds { e with value := given.add e.value, ts := now } ↔
      ((∃ k, handleOf e.tag = .ok (some k) ∧ k ≠ given.kind) → given = .string none) := by
  rcases kindOf_add given e.value with kind | ⟨nothing, same⟩
  · constructor
    · rintro holds' ⟨k, handle, other⟩
      have := holds' k handle
      exact absurd (this.symm.trans kind) other
    · intro meets k handle
      by_contra other
      have nothing := meets ⟨k, handle, fun same => other (kind.trans same.symm)⟩
      subst nothing
      exact other (holds k handle)
  · refine iff_of_true (fun k handle => ?_) fun _ => nothing
    dsimp only
    rw [same]
    exact holds k handle

theorem arrowDeviceStateAdd_eq (name : Bytes) (given : Given ν) (now : Timestamp)
    (states : List (StateEntry ν)) :
    arrowDeviceStateAdd name given now states =
      .ok
        (replaceNamed name (fun e => { e with value := given.add e.value, ts := now }) states) := by
  rw [← updateNamed_ok, arrowDeviceStateAdd]
  congr 1
  funext e
  rw [handleOf_tag]
  rfl

theorem perform_tagged_iff (layout : Layout) (atof : Bytes → ν) (c : Call ν)
    {states : List (StateEntry ν)} (holds : AllHold states) :
    Tagged AllHold (c.perform layout atof states) ↔ c.Meets states := by
  cases c with
  | set name given now =>
      rw [Call.perform, arrowDeviceStateAdd_eq]
      have all := allHold_replaceNamed name
        (fun e => { e with value := given.add e.value, ts := now }) holds
      constructor
      · intro tagged e found
        have mem := List.mem_of_find?_eq_some found
        exact (add_holds_iff given now (holds e mem)).mp (all.mp (tagged.2 _ rfl) e found)
      · intro meets
        refine .ok (all.mpr fun e found => ?_)
        have mem := List.mem_of_find?_eq_some found
        exact (add_holds_iff given now (holds e mem)).mpr (meets e found)
  | handle main => exact iff_of_true (handleEntries_tagged layout atof _ holds) trivial
  | post => exact iff_of_true (.bind (postEntries_tagged holds) fun _ _ => .ok holds) trivial
  | free => exact iff_of_true (freeEntries_tagged holds) trivial

/-! ### States by their values -/

/-- The tag names the variant that was written last. -/
def StateEntry.Named (e : StateEntry ν) : Prop := handleOf e.tag = .ok (some (kindOf e.value))

/-- The state without its tag. -/
def StateEntry.state (e : StateEntry ν) : DeviceState ν := ⟨e.name, e.value, e.ts⟩

theorem parse_eq (atof : Bytes → ν) (value : StateValue ν) (s : Bytes) :
    (kindOf value).parse atof value s = .ok (value.parse atof s) := by
  cases value <;> rfl

theorem kindOf_parse (atof : Bytes → ν) (value : StateValue ν) (s : Bytes) :
    kindOf (value.parse atof s) = kindOf value := by
  cases value <;> rfl

section

variable (layout : Layout) (atof : Bytes → ν)

/-- A state whose tag names its variant is updated as one that has the variant for a tag. -/
theorem updateEntry_refines (tmp : JsonNode ν) {e : StateEntry ν} (named : e.Named) :
    (updateEntry layout atof tmp e).map StateEntry.state = updateState layout atof tmp e.state ∧
      ∀ e', updateEntry layout atof tmp e = .ok e' → e'.Named := by
  have handle : handleOf e.tag = .ok (some (kindOf e.value)) := named
  rw [updateEntry, updateState]
  cases tmp.jsonFindMember valueText with
  | none =>
      refine ⟨rfl, fun e' same => ?_⟩
      cases same
      exact named
  | some value =>
      dsimp only
      cases stringOf (tmp.jsonFindMember timestampText) with
      | error f => exact ⟨rfl, fun e' same => by cases same⟩
      | ok timestamp =>
          rw [Prog.then_of_ok rfl, Prog.then_of_ok rfl]
          cases timestampParse .zero timestamp with
          | error f => exact ⟨rfl, fun e' same => by cases same⟩
          | ok r =>
              obtain ⟨ts, rc⟩ := r
              rw [Prog.then_of_ok rfl, Prog.then_of_ok rfl]
              dsimp only
              by_cases newer : timestampLess layout e.ts ts ≠ 0
              · have newer' : timestampLess layout e.state.ts ts ≠ 0 := newer
                rw [if_pos newer, if_pos newer', Prog.then_of_ok handle]
                dsimp only
                cases stringOf (some value) with
                | error f => exact ⟨rfl, fun e' same => by cases same⟩
                | ok s =>
                    rw [Prog.then_of_ok rfl, Prog.then_of_ok rfl,
                      Prog.then_of_ok (parse_eq atof e.value s)]
                    refine ⟨rfl, fun e' same => ?_⟩
                    cases same
                    rw [StateEntry.Named, kindOf_parse]
                    exact handle
              · have newer' : ¬ timestampLess layout e.state.ts ts ≠ 0 := newer
                rw [if_neg newer, if_neg newer']
                refine ⟨rfl, fun e' same => ?_⟩
                cases same
                exact named

theorem updateNamed_refines (tmp : JsonNode ν) (name : Bytes) (key : tmp.key = some name)
    {states : List (StateEntry ν)} (named : ∀ e ∈ states, e.Named) :
    (updateNamed name (updateEntry layout atof tmp) states).map (List.map StateEntry.state) =
        handleMember layout atof tmp (states.map StateEntry.state) ∧
      ∀ states', updateNamed name (updateEntry layout atof tmp) states = .ok states' →
        ∀ e ∈ states', e.Named := by
  induction states with
  | nil =>
      refine ⟨rfl, fun states' same => ?_⟩
      cases same
      exact named
  | cons e rest ih =>
      obtain ⟨first, later⟩ := List.forall_mem_cons.mp named
      rw [updateNamed, List.map_cons, handleMember, key]
      dsimp only
      by_cases here : e.name = name
      · have here' : e.state.name = name := here
        obtain ⟨same, stays⟩ := updateEntry_refines layout atof tmp first
        rw [if_pos here, if_pos here', ← same]
        cases run : updateEntry layout atof tmp e with
        | error f => exact ⟨rfl, fun states' same => by cases same⟩
        | ok e' =>
            refine ⟨rfl, fun states' same => ?_⟩
            cases same
            exact List.forall_mem_cons.mpr ⟨stays e' run, later⟩
      · have here' : ¬ e.state.name = name := here
        obtain ⟨same, stays⟩ := ih later
        rw [if_neg here, if_neg here', ← same]
        cases run : updateNamed name (updateEntry layout atof tmp) rest with
        | error f => exact ⟨rfl, fun states' same => by cases same⟩
        | ok rest' =>
            refine ⟨rfl, fun states' same => ?_⟩
            cases same
            exact List.forall_mem_cons.mpr ⟨first, stays rest' run⟩

theorem handleEntry_refines (tmp : JsonNode ν) {states : List (StateEntry ν)}
    (named : ∀ e ∈ states, e.Named) :
    (handleEntry layout atof tmp states).map (List.map StateEntry.state) =
        handleMember layout atof tmp (states.map StateEntry.state) ∧
      ∀ states', handleEntry layout atof tmp states = .ok states' → ∀ e ∈ states', e.Named := by
  cases states with
  | nil =>
      refine ⟨rfl, fun states' same => ?_⟩
      cases same
      exact named
  | cons e rest =>
      rw [handleEntry]
      cases key : tmp.key with
      | none =>
          rw [List.map_cons, handleMember, key]
          exact ⟨rfl, fun states' same => by cases same⟩
      | some name => exact updateNamed_refines layout atof tmp name key named

/-- The handler does to the states what it does to their values. -/
theorem handler_refines (tmps : List (JsonNode ν)) {states : List (StateEntry ν)}
    (named : ∀ e ∈ states, e.Named) :
    (handleEntries layout atof tmps states).map (List.map StateEntry.state) =
      handleMembers layout atof tmps (states.map StateEntry.state) := by
  induction tmps generalizing states with
  | nil => rfl
  | cons tmp tmps ih =>
      obtain ⟨same, stays⟩ := handleEntry_refines layout atof tmp named
      rw [handleEntries, handleMembers, ← same]
      cases run : handleEntry layout atof tmp states with
      | error f => rfl
      | ok states' => exact ih (stays states' run)

end

/-! ### Runs of calls -/

theorem handleOf_ok_iff (t : Tag) :
    (∃ kind, handleOf t = .ok kind) ↔ (isValidTag t = true → t.toNat < 4) := by
  rw [handleOf]
  by_cases valid : isValidTag t = true
  · rw [if_pos valid, imp_iff_right valid]
    constructor
    · rintro ⟨kind, found⟩
      by_contra large
      rw [List.getElem?_eq_none (Nat.not_lt.mp large)] at found
      cases found
    · intro small
      rw [List.getElem?_eq_getElem (show t.toNat < stateAdder.length from small)]
      exact ⟨_, rfl⟩
  · rw [if_neg valid]
    exact iff_of_true ⟨none, rfl⟩ fun is_valid => absurd is_valid valid

theorem declareOne_holds {zero : ν} {name : Bytes} {typetag : Tag} {e : StateEntry ν}
    (declared : declareOne zero name typetag = .ok e) : e.Holds := by
  rw [declareOne] at declared
  obtain ⟨kind, handle, made⟩ := Prog.ok_of_bind declared
  cases kind with
  | none =>
      cases made
      intro k handle'
      rw [handle] at handle'
      cases handle'
  | some kind =>
      cases made
      intro k handle'
      rw [handle] at handle'
      cases handle'
      cases kind <;> rfl

theorem init_holds {zero : ν} {pairs : List (Bytes × Tag)} {states : List (StateEntry ν)}
    (init : arrowDeviceStateInit zero pairs = .ok states) : AllHold states := by
  induction pairs generalizing states with
  | nil =>
      cases init
      exact List.forall_mem_nil _
  | cons pair rest ih =>
      rw [arrowDeviceStateInit] at init
      obtain ⟨e, declared, init⟩ := Prog.ok_of_bind init
      obtain ⟨es, later, made⟩ := Prog.ok_of_bind init
      cases made
      exact List.forall_mem_cons.mpr ⟨declareOne_holds declared, ih later⟩

theorem init_ok_iff (zero : ν) (pairs : List (Bytes × Tag)) :
    (∃ states, arrowDeviceStateInit zero pairs = .ok states) ↔
      ∀ pair ∈ pairs, isValidTag pair.2 = true → pair.2.toNat < 4 := by
  induction pairs with
  | nil => exact iff_of_true ⟨[], rfl⟩ (List.forall_mem_nil _)
  | cons pair rest ih =>
      rw [List.forall_mem_cons, ← handleOf_ok_iff, ← ih]
      constructor
      · rintro ⟨states, init⟩
        obtain ⟨e, declared, init⟩ := Prog.ok_of_bind init
        obtain ⟨es, later, -⟩ := Prog.ok_of_bind init
        obtain ⟨kind, handle, -⟩ := Prog.ok_of_bind declared
        exact ⟨⟨kind, handle⟩, es, later⟩
      · rintro ⟨⟨kind, handle⟩, es, later⟩
        obtain ⟨e, declared⟩ : ∃ e, declareOne zero pair.1 pair.2 = .ok e := by
          rw [declareOne, Prog.then_of_ok handle]
          cases kind with
          | none => exact ⟨_, rfl⟩
          | some kind => exact ⟨_, rfl⟩
        refine ⟨e :: es, ?_⟩
        rw [arrowDeviceStateInit, Prog.then_of_ok declared, Prog.then_of_ok later]
        rfl

section

variable (layout : Layout) (atof : Bytes → ν)

theorem runCalls_append (front : List (Call ν)) (c : Call ν) (states : List (StateEntry ν)) :
    runCalls layout atof (front ++ [c]) states =
      (runCalls layout atof front states).bind (c.perform layout atof) := by
  induction front generalizing states with
  | nil =>
      rw [List.nil_append, runCalls]
      exact bind_pure (c.perform layout atof states)
  | cons d front ih =>
      rw [List.cons_append, runCalls, runCalls]
      cases d.perform layout atof states with
      | error e => rfl
      | ok states' => exact ih states'

/-- One call more. -/
theorem runCalls_tagged_step (front : List (Call ν)) (c : Call ν) {states : List (StateEntry ν)}
    (good : Tagged AllHold (runCalls layout atof front states)) :
    Tagged AllHold (runCalls layout atof (front ++ [c]) states) ↔
      ∀ left, runCalls layout atof front states = .ok left → c.Meets left := by
  rw [runCalls_append]
  cases run : runCalls layout atof front states with
  | error e =>
      rw [run] at good
      refine iff_of_true ⟨good.1, fun b same => by cases same⟩ fun left same => by cases same
  | ok left =>
      refine (perform_tagged_iff layout atof c (good.2 left run)).trans ⟨fun meets => ?_, ?_⟩
      · intro left' same
        cases same
        exact meets
      · intro meets
        exact meets left rfl

/-- After every call of a run all states hold the variants that their tags name, and no other
variant was read. -/
def TagsKept (zero : ν) (pairs : List (Bytes × Tag)) (calls : List (Call ν)) : Prop :=
  ∃ states, arrowDeviceStateInit zero pairs = .ok states ∧
    ∀ front, front <+: calls → Tagged AllHold (runCalls layout atof front states)

/-- The tags are kept if and only if those that are declared have an entry in `state_adder`, if
they are valid, and every setter is called for a state of its own tag. -/
theorem tagsKept_iff (zero : ν) (pairs : List (Bytes × Tag)) (calls : List (Call ν)) :
    TagsKept layout atof zero pairs calls ↔
      (∀ pair ∈ pairs, isValidTag pair.2 = true → pair.2.toNat < 4) ∧
        ∀ states, arrowDeviceStateInit zero pairs = .ok states →
          ∀ front c, front ++ [c] <+: calls →
            ∀ left, runCalls layout atof front states = .ok left → c.Meets left := by
  have run {states : List (StateEntry ν)} (init : arrowDeviceStateInit zero pairs = .ok states) :
      (∀ front, front <+: calls → Tagged AllHold (runCalls layout atof front states)) ↔
        ∀ front c, front ++ [c] <+: calls →
          ∀ left, runCalls layout atof front states = .ok left → c.Meets left :=
    forall_prefix_iff (.ok (init_holds init))
      (fun front c good => runCalls_tagged_step layout atof front c good) calls
  rw [← init_ok_iff zero]
  constructor
  · rintro ⟨states, init, tagged⟩
    refine ⟨⟨states, init⟩, fun states' init' => ?_⟩
    rw [init] at init'
    cases init'
    exact (run init).mp tagged
  · rintro ⟨⟨states, init⟩, meets⟩
    exact ⟨states, init, (run init).mpr (meets states init)⟩

end

/-- A string is declared, and set to a truth value. -/
theorem not_tagsKept_bool :
    ¬ TagsKept .leMode (fun _ => (0 : Nat)) 0 [([0x61], 2)] [.set [0x61] (.bool true) .zero] := by
  rintro ⟨states, init, tagged⟩
  cases init
  have holds := (tagged _ List.prefix_rfl).2 _ rfl _ List.mem_cons_self .string rfl
  cases holds

end AcnSdk.Arrow.StateTags
