/-
The message handlers of `MQTTClient`.

`messageHandlers` is an array of slots, each with a topic filter and a handler, and a filter of NULL
for a free one. The filter is the caller's own text, which is taken to stay as it is.

* `Registration.refines` — a registration changes the table as the map from filters to handlers.
* `registrations_refine` — so does every run, from a new client on.
* `deliverMessage_calls` — a message goes to the handlers of the filters that match, to each once,
  and to the default handler if there are none.
-/

import AcnSdk.Lib.SlotTable
import AcnSdk.Mqtt.TopicFilter

namespace AcnSdk.Mqtt

open AcnSdk.Lib

variable {φ : Type}

/-! ### The source -/

/-- An element of `messageHandlers`. -/
structure MessageHandlers (φ : Type) where
  topicFilter : Option Bytes
  fp : Option φ
deriving DecidableEq, Repr

/-- `messageHandlers` of a new client. -/
def newHandlers (max : Nat) : List (MessageHandlers φ) := List.replicate max ⟨none, none⟩

/-- `MQTTSetMessageHandler`. -/
def mqttSetMessageHandler (handlers : List (MessageHandlers φ)) (topicFilter : Bytes)
    (messageHandler : Option φ) : Int × List (MessageHandlers φ) :=
  match findKey MessageHandlers.topicFilter topicFilter handlers with
  | some i =>
      match messageHandler with
      | none => (0, handlers.set i ⟨none, none⟩)
      | some fp => (0, handlers.set i ⟨some topicFilter, some fp⟩)
  | none =>
      match messageHandler with
      | none => (-1, handlers)
      | some fp =>
          match findFree MessageHandlers.topicFilter handlers with
          | some i => (0, handlers.set i ⟨some topicFilter, some fp⟩)
          | none => (-1, handlers)

/-- `MQTTCleanSession`. -/
def mqttCleanSession (handlers : List (MessageHandlers φ)) : List (MessageHandlers φ) :=
  handlers.map fun s => { s with topicFilter := none }

/-- The handler of a slot, if the slot is for the topic. -/
def slotHandler (topicName : Bytes) (s : MessageHandlers φ) : Option φ :=
  match s.topicFilter with
  | none => none
  | some f => if topicName = f ∨ isTopicMatched f topicName = true then s.fp else none

/-- `deliverMessage`: what it returns, and the handlers that it calls, in their order. -/
def deliverMessage (handlers : List (MessageHandlers φ)) (defaultMessageHandler : Option φ)
    (topicName : Bytes) : Int × List φ :=
  match handlers.filterMap (slotHandler topicName), defaultMessageHandler with
  | [], some fp => (0, [fp])
  | [], none => (-1, [])
  | calls, _ => (0, calls)

/-! ### Registrations -/

/-- What a client asks for. -/
inductive Registration (φ : Type) where
  | set (topicFilter : Bytes) (messageHandler : Option φ)
  | clean

/-- It is done. -/
def Registration.run (handlers : List (MessageHandlers φ)) :
    Registration φ → Int × List (MessageHandlers φ)
  | set topicFilter messageHandler => mqttSetMessageHandler handlers topicFilter messageHandler
  | clean => (0, mqttCleanSession handlers)

/-- Handlers by their filters, and how many there are. -/
structure Registry (φ : Type) where
  handler : Bytes → Option φ
  count : Nat

/-- What a client means by it, with room for `max` filters. -/
def Registration.meant (max : Nat) (r : Registry φ) : Registration φ → Int × Registry φ
  | set topicFilter none =>
      if (r.handler topicFilter).isSome then
        (0, ⟨fun f => if f = topicFilter then none else r.handler f, r.count - 1⟩)
      else (-1, r)
  | set topicFilter (some fp) =>
      if (r.handler topicFilter).isSome then
        (0, ⟨fun f => if f = topicFilter then some fp else r.handler f, r.count⟩)
      else if r.count < max then
        (0, ⟨fun f => if f = topicFilter then some fp else r.handler f, r.count + 1⟩)
      else (-1, r)
  | clean => (0, ⟨fun _ => none, 0⟩)

/-- The table is the registry. -/
structure Refines (max : Nat) (handlers : List (MessageHandlers φ)) (r : Registry φ) : Prop where
  size : handlers.length = max
  distinct : DistinctKeys MessageHandlers.topicFilter handlers
  served : ∀ s ∈ handlers, s.topicFilter.isSome → s.fp.isSome
  handler : Represents MessageHandlers.topicFilter MessageHandlers.fp handlers r.handler
  count : (slotKeys MessageHandlers.topicFilter handlers).length = r.count

/-- A handler is registered for a filter if and only if the filter is in the table. -/
theorem Refines.mem_iff {max : Nat} {handlers : List (MessageHandlers φ)} {r : Registry φ}
    (refines : Refines max handlers r) (f : Bytes) :
    (r.handler f).isSome ↔ f ∈ slotKeys MessageHandlers.topicFilter handlers := by
  rw [Option.isSome_iff_exists, slotKeys, List.mem_filterMap]
  constructor
  · rintro ⟨fp, registered⟩
    obtain ⟨s, there, filter, -⟩ := (refines.handler f fp).mp registered
    exact ⟨s, there, filter⟩
  · rintro ⟨s, there, filter⟩
    obtain ⟨fp, handler⟩ := Option.isSome_iff_exists.mp
      (refines.served s there (by rw [filter]; rfl))
    exact ⟨fp, (refines.handler f fp).mpr ⟨s, there, filter, handler⟩⟩

/-- A slot is written anew. -/
theorem Refines.replace {max : Nat} {pre post : List (MessageHandlers φ)} {s s' : MessageHandlers φ}
    {r : Registry φ} (refines : Refines max (pre ++ s :: post) r)
    (distinct' : DistinctKeys MessageHandlers.topicFilter (pre ++ s' :: post))
    (served : s'.topicFilter.isSome → s'.fp.isSome) {r' : Registry φ}
    (handler : ∀ f, r'.handler f =
      if s'.topicFilter = some f then s'.fp else if s.topicFilter = some f then none
        else r.handler f)
    (count : r'.count + s.topicFilter.toList.length = r.count + s'.topicFilter.toList.length) :
    Refines max (pre ++ s' :: post) r' := by
  constructor
  · have := refines.size
    simp only [List.length_append, List.length_cons] at this ⊢
    exact this
  · exact distinct'
  · intro u there
    rcases List.mem_append.mp there with before | there
    · exact refines.served u (List.mem_append_left _ before)
    · rcases List.mem_cons.mp there with rfl | behind
      · exact served
      · exact refines.served u (List.mem_append_right _ (List.mem_cons_of_mem _ behind))
  · have replaced := refines.handler.replace refines.distinct distinct'
    intro f fp
    rw [handler f]
    exact replaced f fp
  · have := refines.count
    rw [slotKeys_split, List.length_append, List.length_append] at this ⊢
    omega

theorem newHandlers_refines (max : Nat) :
    Refines (φ := φ) max (newHandlers max) ⟨fun _ => none, 0⟩ := by
  have free : slotKeys MessageHandlers.topicFilter (newHandlers (φ := φ) max) = [] := by
    refine List.filterMap_eq_nil_iff.mpr fun s there => ?_
    rw [List.eq_of_mem_replicate there]
  constructor
  · exact List.length_replicate
  · rw [DistinctKeys, free]
    exact List.nodup_nil
  · intro s there filter
    rw [List.eq_of_mem_replicate there] at filter
    cases filter
  · intro f fp
    refine iff_of_false (fun h => by cases h) ?_
    rintro ⟨s, there, filter, -⟩
    rw [List.eq_of_mem_replicate there] at filter
    cases filter
  · rw [free]
    rfl

/-- A registration changes the table as the map from filters to handlers. -/
theorem Registration.refines {max : Nat} {handlers : List (MessageHandlers φ)} {r : Registry φ}
    (refines : Refines max handlers r) (c : Registration φ) :
    (c.run handlers).1 = (c.meant max r).1 ∧ Refines max (c.run handlers).2 (c.meant max r).2 := by
  cases c with
  | clean =>
      have free : slotKeys MessageHandlers.topicFilter (mqttCleanSession handlers) = [] := by
        rw [slotKeys, mqttCleanSession, List.filterMap_map]
        exact List.filterMap_eq_nil_iff.mpr fun _ _ => rfl
      refine ⟨rfl, ?_, ?_, ?_, ?_, ?_⟩
      · rw [← refines.size]
        exact List.length_map _
      · change (slotKeys MessageHandlers.topicFilter (mqttCleanSession handlers)).Nodup
        rw [free]
        exact List.nodup_nil
      · intro s there filter
        obtain ⟨u, -, rfl⟩ := List.mem_map.mp there
        cases filter
      · intro f fp
        refine iff_of_false (fun h => by cases h) ?_
        rintro ⟨s, there, filter, -⟩
        obtain ⟨u, -, rfl⟩ := List.mem_map.mp there
        cases filter
      · change (slotKeys MessageHandlers.topicFilter (mqttCleanSession handlers)).length = 0
        rw [free]
        rfl
  | set filter messageHandler =>
      have registered := refines.mem_iff filter
      have other {f : Bytes} (ne : f ≠ filter) : some filter ≠ some f :=
        fun same => ne (Option.some.inj same).symm
      rw [run]
      unfold mqttSetMessageHandler
      cases found : findKey MessageHandlers.topicFilter filter handlers with
      | some i =>
          obtain ⟨pre, s, post, rfl, rfl, keyed⟩ := findKey_split found
          have there := registered.mpr
              (mem_slotKeys (List.mem_append_right _ List.mem_cons_self) keyed)
          cases messageHandler with
          | none =>
              have some_key : 0 < r.count := by
                rw [← refines.count]
                exact List.length_pos_of_mem (registered.mp there)
              rw [meant, if_pos there]
              refine ⟨rfl, ?_⟩
              dsimp only
              rw [set_split]
              refine refines.replace (refines.distinct.free rfl) (fun h => by cases h)
                (fun f => ?_) ?_
              · rw [keyed]
                dsimp only
                by_cases same : f = filter
                · rw [if_pos same, if_neg (Option.some_ne_none f).symm, if_pos (by rw [same])]
                · rw [if_neg same, if_neg (Option.some_ne_none f).symm, if_neg (other same)]
              · rw [keyed, Option.toList_some, Option.toList_none, List.length_singleton,
                  List.length_nil]
                dsimp only
                omega
          | some fp =>
              rw [meant, if_pos there]
              refine ⟨rfl, ?_⟩
              dsimp only
              rw [set_split]
              refine refines.replace (refines.distinct.keep keyed.symm) (fun _ => rfl)
                (fun f => ?_) ?_
              · rw [keyed]
                dsimp only
                by_cases same : f = filter
                · rw [if_pos same, if_pos (by rw [same])]
                · rw [if_neg same, if_neg (other same), if_neg (other same)]
              · rw [keyed]
      | none =>
          have absent : filter ∉ slotKeys MessageHandlers.topicFilter handlers :=
            findKey_eq_none_iff.mp found
          have not_there : ¬ (r.handler filter).isSome = true :=
            fun there => absent (registered.mp there)
          cases messageHandler with
          | none =>
              rw [meant, if_neg not_there]
              exact ⟨rfl, refines⟩
          | some fp =>
              rw [meant, if_neg not_there]
              cases free : findFree MessageHandlers.topicFilter handlers with
              | none =>
                  have full := findFree_eq_none_iff.mp free
                  rw [refines.count, refines.size] at full
                  rw [if_neg (by omega)]
                  exact ⟨rfl, refines⟩
              | some i =>
                  obtain ⟨pre, s, post, rfl, rfl, keyed⟩ := findFree_split free
                  have room : r.count < max := by
                    have fits : (slotKeys MessageHandlers.topicFilter (pre ++ s :: post)).length ≤
                        (pre ++ s :: post).length := length_slotKeys_le _
                    have not_full : findFree MessageHandlers.topicFilter (pre ++ s :: post) ≠
                        none := by
                      rw [free]
                      exact Option.some_ne_none _
                    rw [Ne, findFree_eq_none_iff] at not_full
                    rw [refines.count, refines.size] at fits not_full
                    omega
                  rw [if_pos room]
                  refine ⟨rfl, ?_⟩
                  dsimp only
                  rw [set_split]
                  refine refines.replace (refines.distinct.take keyed rfl absent) (fun _ => rfl)
                    (fun f => ?_) ?_
                  · rw [keyed]
                    dsimp only
                    by_cases same : f = filter
                    · rw [if_pos same, if_pos (by rw [same])]
                    · rw [if_neg same, if_neg (other same), if_neg (Option.some_ne_none f).symm]
                  · rw [keyed]
                    rfl

/-! ### Runs -/

/-- Registrations one after the other: what they return, and the table. -/
def registrations (handlers : List (MessageHandlers φ)) :
    List (Registration φ) → List Int × List (MessageHandlers φ)
  | [] => ([], handlers)
  | c :: cs =>
      let (rc, handlers) := c.run handlers
      let (rcs, handlers) := registrations handlers cs
      (rc :: rcs, handlers)

/-- What is meant by them. -/
def registrationsMeant (max : Nat) (r : Registry φ) : List (Registration φ) → List Int × Registry φ
  | [] => ([], r)
  | c :: cs =>
      let (rc, r) := c.meant max r
      let (rcs, r) := registrationsMeant max r cs
      (rc :: rcs, r)

/-- A run of registrations changes the table as the map from filters to handlers. -/
theorem registrations_refine {max : Nat} (cs : List (Registration φ))
    {handlers : List (MessageHandlers φ)} {r : Registry φ} (refines : Refines max handlers r) :
    (registrations handlers cs).1 = (registrationsMeant max r cs).1 ∧
      Refines max (registrations handlers cs).2 (registrationsMeant max r cs).2 := by
  induction cs generalizing handlers r with
  | nil => exact ⟨rfl, refines⟩
  | cons c cs ih =>
      obtain ⟨same, next⟩ := c.refines refines
      obtain ⟨rest, last⟩ := ih next
      exact ⟨congrArg₂ List.cons same rest, last⟩

/-! ### Messages -/

/-- A filter is for a topic. -/
def filterFor (topicName f : Bytes) : Bool := topicName = f || isTopicMatched f topicName

/-- The filters of a table that are for a topic. -/
def filtersFor (topicName : Bytes) (handlers : List (MessageHandlers φ)) : List Bytes :=
  (slotKeys MessageHandlers.topicFilter handlers).filter (filterFor topicName)

/-- The handlers that are called are those of the filters for the topic. -/
theorem Refines.calls {max : Nat} {handlers : List (MessageHandlers φ)} {r : Registry φ}
    (refines : Refines max handlers r) (topicName : Bytes) :
    (handlers.filterMap (slotHandler topicName)).map some =
      (filtersFor topicName handlers).map r.handler := by
  have each : ∀ s ∈ handlers, ∀ f, s.topicFilter = some f → r.handler f = s.fp ∧ s.fp.isSome := by
    intro s there f filter
    have served := refines.served s there (by rw [filter]; rfl)
    obtain ⟨fp, handler⟩ := Option.isSome_iff_exists.mp served
    refine ⟨?_, served⟩
    rw [handler]
    exact (refines.handler f fp).mpr ⟨s, there, filter, handler⟩
  clear refines
  induction handlers with
  | nil => rfl
  | cons s handlers ih =>
      have ih := ih fun u there => each u (List.mem_cons_of_mem s there)
      rw [filtersFor] at ih ⊢
      rw [slotKeys_cons, List.filterMap_cons, slotHandler]
      cases filter : s.topicFilter with
      | none => exact ih
      | some f =>
          obtain ⟨same, served⟩ := each s List.mem_cons_self f filter
          obtain ⟨fp, handler⟩ := Option.isSome_iff_exists.mp served
          rw [Option.toList_some, List.singleton_append]
          by_cases for_topic : filterFor topicName f = true
          · have matched : topicName = f ∨ isTopicMatched f topicName = true := by
              simpa [filterFor] using for_topic
            rw [List.filter_cons_of_pos for_topic, List.map_cons, same]
            dsimp only
            rw [if_pos matched, handler]
            exact congrArg (some fp :: ·) ih
          · have unmatched : ¬ (topicName = f ∨ isTopicMatched f topicName = true) := by
              simpa [filterFor] using for_topic
            rw [List.filter_cons_of_neg for_topic]
            dsimp only
            rw [if_neg unmatched]
            exact ih

/-- After any registrations of a new client, a message goes to the handlers that were last
registered for the filters that match its topic, once for each filter. The default handler gets it
if there are none, and the delivery fails if there is no default handler either. -/
theorem deliverMessage_calls (max : Nat) (cs : List (Registration φ)) (default : Option φ)
    (topicName : Bytes) :
    ∃ filters : List Bytes, filters.Nodup ∧
      (∀ f, f ∈ filters ↔
        (((registrationsMeant max ⟨fun _ => none, 0⟩ cs).2.handler f).isSome ∧
          (topicName = f ∨ isTopicMatched f topicName = true))) ∧
      ∃ rc calls, deliverMessage (registrations (newHandlers max) cs).2 default topicName =
        (rc, calls) ∧
        (filters = [] → calls = default.toList ∧ rc = if default.isSome then 0 else -1) ∧
        (filters ≠ [] → rc = 0 ∧
          calls.map some = filters.map
            (registrationsMeant max ⟨fun _ => none, 0⟩ cs).2.handler) := by
  obtain ⟨-, refines⟩ := registrations_refine cs (newHandlers_refines (φ := φ) max)
  have calls := refines.calls topicName
  have length := congrArg List.length calls
  rw [List.length_map, List.length_map] at length
  refine ⟨filtersFor topicName (registrations (newHandlers max) cs).2, ?_, fun f => ?_, _, _, rfl,
    fun none_for => ?_, fun some_for => ?_⟩
  · exact refines.distinct.filter _
  · rw [filtersFor, List.mem_filter, refines.mem_iff, filterFor]
    simp
  · rw [none_for, List.length_nil, List.length_eq_zero_iff] at length
    rw [length]
    cases default <;> exact ⟨rfl, rfl⟩
  · have more := List.length_pos_of_ne_nil some_for
    obtain ⟨fp, fps, cons⟩ := List.exists_cons_of_length_pos (length ▸ more)
    rw [cons]
    rw [cons] at calls
    exact ⟨rfl, calls⟩

end AcnSdk.Mqtt
