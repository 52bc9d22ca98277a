/-
The newest update of each state wins.

* `deviceStates_converge` — what `arrow_device_state_handler` leaves behind depends on which
  updates arrived, not on their order, on the messages that they came in or on how often.
* `chronological_iff` — when the newest update is the chronologically latest one.
-/

import Mathlib.Data.List.Forall2
import AcnSdk.Arrow.State
import AcnSdk.Lib.LastWriter

namespace AcnSdk.Arrow

open AcnSdk.Lib AcnSdk.Json AcnSdk.Time Prog

variable {ν : Type}

/-- An update of a state, with a timestamp that `timestamp_parse` accepts. -/
structure Update where
  name : Bytes
  value : Bytes
  timestamp : Bytes
  ts : Timestamp
  accepted : timestampParse .zero timestamp = .ok (ts, 0)

/-- The member of a message that is an update. -/
structure Update.Carries (u : Update) (tmp : JsonNode ν) : Prop where
  named : tmp.key = some u.name
  value_eq : (tmp.jsonFindMember valueText).bind JsonNode.stringValue = some u.value
  timestamp_eq : (tmp.jsonFindMember timestampText).bind JsonNode.stringValue = some u.timestamp

/-- The messages bring these updates, each at least once, and no others. -/
structure Delivers (us : List Update) (mains : List (JsonNode ν)) : Prop where
  only : ∀ tmp ∈ mains.flatMap JsonNode.jsonFirstChild, ∃ u ∈ us, u.Carries tmp
  all : ∀ u ∈ us, ∃ tmp ∈ mains.flatMap JsonNode.jsonFirstChild, u.Carries tmp

section

variable (layout : Layout) (atof : Bytes → ν)

/-- The state with the value and the time of an update. -/
def DeviceState.written (u : Update) (st : DeviceState ν) : DeviceState ν :=
  { st with ts := u.ts, value := st.value.parse atof u.value }

/-- What is left behind of a state: the update of this name with the greatest timestamp, if it
exceeds that of the state, and else the state as it was. -/
def Newest (us : List Update) (st st' : DeviceState ν) : Prop :=
  (∃ u ∈ us, u.name = st.name ∧ timestampLess layout st.ts u.ts = 1 ∧
    (∀ v ∈ us, v.name = st.name → v ≠ u → timestampLess layout v.ts u.ts = 1) ∧
      st' = st.written atof u) ∨
  (∀ v ∈ us, v.name = st.name → timestampLess layout st.ts v.ts ≠ 1) ∧ st' = st

/-! ### A state is a register -/

/-- Device states as registers. -/
def stateRegister : LastWriter (DeviceState ν) Update (ℕ ×ₗ ℕ) where
  stamp st := layout.key st.ts
  time u := layout.key u.ts
  write := DeviceState.written atof
  stamp_write _ _ := rfl
  write_write u v st := by
    obtain ⟨name, value, ts⟩ := st
    cases value <;> rfl

/-- The updates of a name, one after the other. -/
def DeviceState.after (us : List Update) (st : DeviceState ν) : DeviceState ν :=
  (us.filter fun u => u.name = st.name).foldl (stateRegister layout atof).update st

variable {layout atof}

theorem update_eq (st : DeviceState ν) (u : Update) :
    (stateRegister layout atof).update st u =
      if timestampLess layout st.ts u.ts = 1 then st.written atof u else st := by
  simp only [timestampLess_iff]
  rfl

theorem update_name (st : DeviceState ν) (u : Update) :
    ((stateRegister layout atof).update st u).name = st.name := by
  rw [update_eq]
  split_ifs <;> rfl

theorem after_cons (u : Update) (us : List Update) (st : DeviceState ν) :
    st.after layout atof (u :: us) =
      (if st.name = u.name then (stateRegister layout atof).update st u else st).after layout atof
        us := by
  by_cases here : st.name = u.name
  · rw [if_pos here, DeviceState.after, DeviceState.after, update_name,
      List.filter_cons, if_pos (decide_eq_true here.symm), List.foldl_cons]
  · have other : ¬ decide (u.name = st.name) = true := fun h => here (of_decide_eq_true h).symm
    rw [if_neg here, DeviceState.after, DeviceState.after, List.filter_cons, if_neg other]

/-! ### The handler -/

theorem stringOf_eq {node : Option (JsonNode ν)} {s : Bytes}
    (found : node.bind JsonNode.stringValue = some s) : stringOf node = .ok s := by
  rw [stringOf, found]

theorem updateState_eq {u : Update} {tmp : JsonNode ν} (carries : u.Carries tmp)
    (st : DeviceState ν) :
    updateState layout atof tmp st = .ok ((stateRegister layout atof).update st u) := by
  obtain ⟨value, found, string⟩ := Option.bind_eq_some_iff.mp carries.value_eq
  rw [updateState, found, update_eq]
  dsimp only
  rw [stringOf_eq carries.timestamp_eq]
  change (timestampParse .zero u.timestamp >>= _) = _
  rw [u.accepted]
  change (if timestampLess layout st.ts u.ts ≠ 0 then stringOf (some value) >>= _ else _) = _
  rw [stringOf_eq (show (some value).bind JsonNode.stringValue = _ from string)]
  by_cases newer : timestampLess layout st.ts u.ts = 1
  · rw [if_pos newer, if_pos ((timestampLess_ne_zero _ _ _).mpr newer)]
    rfl
  · rw [if_neg newer, if_neg (mt (timestampLess_ne_zero _ _ _).mp newer)]
    rfl

/-- One member of a message updates the state that it names. -/
theorem handleMember_eq {u : Update} {tmp : JsonNode ν} (carries : u.Carries tmp)
    {states : List (DeviceState ν)} (distinct : (states.map DeviceState.name).Nodup) :
    handleMember layout atof tmp states = .ok (states.map fun st =>
      if st.name = u.name then (stateRegister layout atof).update st u else st) := by
  induction states with
  | nil => rfl
  | cons st rest ih =>
      obtain ⟨fresh, distinct⟩ := List.nodup_cons.mp distinct
      rw [handleMember, carries.named, List.map_cons]
      dsimp only
      by_cases here : st.name = u.name
      · have others : rest.map (fun st => if st.name = u.name then
            (stateRegister layout atof).update st u else st) = rest.map id := by
          apply List.map_congr_left
          intro st' mem
          have other : st'.name ≠ u.name := by
            rintro same
            exact fresh (here.trans same.symm ▸ List.mem_map_of_mem mem)
          exact if_neg other
        rw [if_pos here, if_pos here, updateState_eq carries, others, List.map_id]
        rfl
      · rw [if_neg here, if_neg here, ih distinct]
        rfl

variable (layout atof) in
theorem handleMembers_eq {us : List Update} {tmps : List (JsonNode ν)}
    (carry : List.Forall₂ Update.Carries us tmps) {states : List (DeviceState ν)}
    (distinct : (states.map DeviceState.name).Nodup) :
    handleMembers layout atof tmps states =
      .ok (states.map (DeviceState.after layout atof us)) := by
  induction carry generalizing states with
  | nil => exact congrArg Except.ok (List.map_id states).symm
  | @cons u tmp us tmps carries _ ih =>
      have names : (states.map fun st => if st.name = u.name then
          (stateRegister layout atof).update st u else st).map DeviceState.name =
            states.map DeviceState.name := by
        rw [List.map_map]
        apply List.map_congr_left
        intro st _
        dsimp only [Function.comp]
        split_ifs
        · exact update_name st u
        · rfl
      rw [handleMembers, handleMember_eq carries distinct]
      refine (ih (names ▸ distinct)).trans ?_
      rw [List.map_map]
      exact congrArg Except.ok (List.map_congr_left fun st _ => (after_cons u us st).symm)

theorem handleMembers_append (tmps tmps' : List (JsonNode ν)) (states : List (DeviceState ν)) :
    handleMembers layout atof (tmps ++ tmps') states =
      (handleMembers layout atof tmps states).bind (handleMembers layout atof tmps') := by
  induction tmps generalizing states with
  | nil => rfl
  | cons tmp tmps ih =>
      rw [List.cons_append, handleMembers, handleMembers]
      cases handleMember layout atof tmp states with
      | error e => rfl
      | ok states' => exact ih states'

/-- Calls of the handler do what one call with all members does. -/
theorem calls_eq {mains : List (JsonNode ν)} {states states' : List (DeviceState ν)}
    (run : handleMembers layout atof (mains.flatMap JsonNode.jsonFirstChild) states = .ok states') :
    (mains.mapM (arrowDeviceStateHandler layout atof)) states =
      .ok (List.replicate mains.length 0, states') := by
  induction mains generalizing states with
  | nil =>
      cases run
      rfl
  | cons main mains ih =>
      rw [List.flatMap_cons, handleMembers_append] at run
      obtain ⟨between, first, run⟩ := ok_of_bind run
      have call : arrowDeviceStateHandler layout atof main states = .ok (0, between) := by
        rw [arrowDeviceStateHandler, bind_apply, get_apply, ok_bind, first]
        rfl
      rw [List.mapM_cons, bind_of_ok call, bind_of_ok (ih run)]
      rfl

/-! ### Convergence -/

theorem Update.Carries.unique {u v : Update} {tmp : JsonNode ν} (one : u.Carries tmp)
    (other : v.Carries tmp) : u = v := by
  obtain ⟨name, value, timestamp, ts, accepted⟩ := u
  obtain ⟨name', value', timestamp', ts', accepted'⟩ := v
  obtain rfl : name = name' := Option.some.inj (one.named.symm.trans other.named)
  obtain rfl : value = value' := Option.some.inj (one.value_eq.symm.trans other.value_eq)
  obtain rfl : timestamp = timestamp' :=
    Option.some.inj (one.timestamp_eq.symm.trans other.timestamp_eq)
  obtain rfl : ts = ts' := (Prod.mk.inj (Except.ok.inj (accepted.symm.trans accepted'))).1
  rfl

/-- The updates in the order in which they arrive. -/
theorem Delivers.arrivals {us : List Update} {mains : List (JsonNode ν)}
    (delivers : Delivers us mains) :
    ∃ vs, List.Forall₂ Update.Carries vs (mains.flatMap JsonNode.jsonFirstChild) ∧
      ∀ u, u ∈ vs ↔ u ∈ us := by
  obtain ⟨only, all⟩ := delivers
  have listed : ∀ tmps : List (JsonNode ν), (∀ tmp ∈ tmps, ∃ u ∈ us, u.Carries tmp) →
      ∃ vs, List.Forall₂ Update.Carries vs tmps ∧ ∀ v ∈ vs, v ∈ us := by
    intro tmps carried
    induction tmps with
    | nil => exact ⟨[], .nil, fun _ mem => absurd mem List.not_mem_nil⟩
    | cons tmp tmps ih =>
        obtain ⟨u, mem, carries⟩ := carried tmp List.mem_cons_self
        obtain ⟨vs, carry, sub⟩ := ih fun tmp' mem' => carried tmp' (List.mem_cons_of_mem _ mem')
        exact ⟨u :: vs, .cons carries carry, List.forall_mem_cons.mpr ⟨mem, sub⟩⟩
  obtain ⟨vs, carry, sub⟩ := listed _ only
  refine ⟨vs, carry, fun u => ⟨sub u, fun mem => ?_⟩⟩
  obtain ⟨tmp, mem_tmp, carries⟩ := all u mem
  obtain ⟨i, lt, rfl⟩ := List.getElem_of_mem mem_tmp
  have lt' : i < vs.length := carry.length_eq ▸ lt
  rw [carries.unique (carry.get lt' lt)]
  exact List.getElem_mem lt'

section

variable (layout atof) {us : List Update}
  (distinctTimes : ∀ u ∈ us, ∀ v ∈ us, u.name = v.name → u.ts = v.ts → u = v)

include distinctTimes

/-- Updates of one name that have the same key are the same. -/
theorem named_inj (name : Bytes) : ∀ u ∈ us.filter (fun u => u.name = name),
    ∀ v ∈ us.filter (fun u => u.name = name),
      (stateRegister (ν := ν) layout atof).time u = (stateRegister layout atof).time v → u = v := by
  intro u mem v mem' same
  rw [List.mem_filter, decide_eq_true_iff] at mem mem'
  exact distinctTimes u mem.1 v mem'.1 (mem.2.trans mem'.2.symm) (key_injective layout same)

theorem after_congr {vs : List Update} (same : ∀ u, u ∈ vs ↔ u ∈ us) (st : DeviceState ν) :
    st.after layout atof vs = st.after layout atof us := by
  refine LastWriter.Settled.unique (named_inj layout atof distinctTimes st.name) (fun u => ?_)
    (LastWriter.settled_foldl _ st) (LastWriter.settled_foldl _ st)
  rw [List.mem_filter, List.mem_filter, same]

theorem newest_after (st : DeviceState ν) : Newest layout atof us st (st.after layout atof us) := by
  have inj := named_inj (ν := ν) layout atof distinctTimes st.name
  have settled : (stateRegister layout atof).Settled (us.filter fun u => u.name = st.name) st _ :=
    LastWriter.settled_foldl _ st
  rcases settled with
    ⟨u, mem, later, latest, eq⟩ | ⟨none_later, eq⟩
  · obtain ⟨mem_us, named⟩ := List.mem_filter.mp mem
    refine .inl ⟨u, mem_us, of_decide_eq_true named, (timestampLess_iff _ _ _).mpr later, ?_, eq⟩
    intro v mem' named' ne
    have mem_v : v ∈ us.filter fun u => u.name = st.name :=
      List.mem_filter.mpr ⟨mem', decide_eq_true named'⟩
    apply (timestampLess_iff _ _ _).mpr
    exact lt_of_le_of_ne (latest v mem_v) fun same => ne (inj v mem_v u mem same)
  · refine .inr ⟨?_, eq⟩
    intro v mem' named' later
    have mem_v : v ∈ us.filter fun u => u.name = st.name :=
      List.mem_filter.mpr ⟨mem', decide_eq_true named'⟩
    exact absurd ((timestampLess_iff _ _ _).mp later) (not_lt.mpr (none_later v mem_v))

end

/-- Whatever the order of the updates is, whichever messages bring them and however often each
comes, the same states are left behind: of each name the newest update has won. -/
theorem deviceStates_converge (layout : Layout) (atof : Bytes → ν) {states : List (DeviceState ν)}
    (distinct : (states.map DeviceState.name).Nodup) {us : List Update}
    (distinctTimes : ∀ u ∈ us, ∀ v ∈ us, u.name = v.name → u.ts = v.ts → u = v) :
    ∃ states', List.Forall₂ (Newest layout atof us) states states' ∧
      ∀ mains, Delivers us mains → (mains.mapM (arrowDeviceStateHandler layout atof)) states =
        .ok (List.replicate mains.length 0, states') := by
  refine ⟨states.map (DeviceState.after layout atof us), ?_, ?_⟩
  · rw [List.forall₂_map_right_iff]
    exact List.forall₂_same.mpr fun st _ => newest_after layout atof distinctTimes st
  · intro mains delivers
    obtain ⟨vs, carry, same⟩ := delivers.arrivals
    have eq : states.map (DeviceState.after layout atof vs) =
        states.map (DeviceState.after layout atof us) :=
      List.map_congr_left fun st _ => after_congr layout atof distinctTimes same st
    exact calls_eq (eq ▸ handleMembers_eq layout atof carry distinct)

end

/-- An update as messages write it. -/
def Update.node (u : Update) : JsonNode ν :=
  .container (some u.name) .object
    [.scalar (some valueText) (.string u.value), .scalar (some timestampText) (.string u.timestamp)]

theorem Update.carries_node (u : Update) : u.Carries (u.node : JsonNode ν) :=
  ⟨rfl, rfl, rfl⟩

/-- The value 1 on the first of January of the year 1, `1-1-1T0:0:0.0Z`. -/
def earlierUpdate : Update where
  name := [0x64]
  value := [0x31]
  timestamp := [0x31, 0x2D, 0x31, 0x2D, 0x31, 0x54, 0x30, 0x3A, 0x30, 0x3A, 0x30, 0x2E, 0x30, 0x5A]
  ts := ⟨0, 0, 0, 0, 0, 1, 1, 1⟩
  accepted := by decide

/-- The value 2 on the second. -/
def laterUpdate : Update where
  name := [0x64]
  value := [0x32]
  timestamp := [0x31, 0x2D, 0x31, 0x2D, 0x32, 0x54, 0x30, 0x3A, 0x30, 0x3A, 0x30, 0x2E, 0x30, 0x5A]
  ts := ⟨0, 0, 0, 0, 0, 2, 1, 1⟩
  accepted := by decide

theorem deviceStates_converge_late :
    (∃ states', List.Forall₂ (Newest .plain (fun _ => ()) [earlierUpdate, laterUpdate])
        [⟨[0x64], .string none, .zero⟩] states' ∧
      ∀ mains, Delivers [earlierUpdate, laterUpdate] mains →
        (mains.mapM (arrowDeviceStateHandler .plain fun _ => ()))
          [⟨[0x64], .string none, .zero⟩] = .ok (List.replicate mains.length 0, states')) ∧
      Delivers (ν := Unit) [earlierUpdate, laterUpdate]
        [.container none .object [laterUpdate.node, earlierUpdate.node]] := by
  refine ⟨deviceStates_converge .plain (fun _ => ()) (by decide) ?_, ?_, ?_⟩
  · intro u mem v mem' _ same
    rcases List.mem_pair.mp mem with rfl | rfl <;> rcases List.mem_pair.mp mem' with rfl | rfl
    · rfl
    · exact absurd same (by decide)
    · exact absurd same (by decide)
    · rfl
  · intro tmp mem
    rcases List.mem_pair.mp mem with rfl | rfl
    · exact ⟨_, List.mem_of_mem_getLast? rfl, Update.carries_node _⟩
    · exact ⟨_, List.mem_cons_self, Update.carries_node _⟩
  · intro u mem
    rcases List.mem_pair.mp mem with rfl | rfl
    · exact ⟨_, List.mem_of_mem_getLast? rfl, Update.carries_node _⟩
    · exact ⟨_, List.mem_cons_self, Update.carries_node _⟩

/-! ### Chronological order -/

/-- `timestamp_less` says which of the two times is earlier, and an update of the time `b` is
taken by a state of the time `a` exactly if it is chronologically newer. -/
structure Chronological (layout : Layout) (atof : Bytes → ν) (a b : Timestamp) : Prop where
  less : timestampLess layout a b = 1 ↔ a.Earlier b
  keeps : ∀ (u : Update) (main : JsonNode ν) (states : List (DeviceState ν)), u.ts = b →
    Delivers [u] [main] → (states.map DeviceState.name).Nodup →
    (∀ st ∈ states, st.name = u.name → st.ts = a) →
    arrowDeviceStateHandler layout atof main states =
      .ok (0, states.map fun st =>
        if st.name = u.name ∧ a.Earlier b then st.written atof u else st)

theorem handler_single {layout : Layout} {atof : Bytes → ν} {u : Update} {main : JsonNode ν}
    {states : List (DeviceState ν)} (delivers : Delivers [u] [main])
    (distinct : (states.map DeviceState.name).Nodup) :
    arrowDeviceStateHandler layout atof main states = .ok (0, states.map fun st =>
      if st.name = u.name then (stateRegister layout atof).update st u else st) := by
  obtain ⟨vs, carry, same⟩ := delivers.arrivals
  have alone : ∀ v ∈ [u], ∀ w ∈ [u], v.name = w.name → v.ts = w.ts → v = w := by
    intro v mem w mem' _ _
    rw [List.mem_singleton.mp mem, List.mem_singleton.mp mem']
  have after : states.map (DeviceState.after layout atof vs) = states.map fun st =>
      if st.name = u.name then (stateRegister layout atof).update st u else st := by
    apply List.map_congr_left
    intro st _
    rw [after_congr layout atof alone same, after_cons]
    rfl
  have run := handleMembers_eq layout atof carry distinct
  rw [List.flatMap_singleton, after] at run
  rw [arrowDeviceStateHandler, bind_apply, get_apply, ok_bind, run]
  rfl

/-- The handler keeps the chronologically newest value where the two parts of the times are
compared in the order of the calendar, and elsewhere as far as they do not contradict each
other. -/
theorem chronological_iff (layout : Layout) (atof : Bytes → ν) {a b : Timestamp} (first : a.InRange)
    (second : b.InRange) : Chronological layout atof a b ↔ layout.Agrees a b := by
  have same : a.dummy = b.dummy := first.dummy.trans second.dummy.symm
  constructor
  · intro chronological
    exact (timestampLess_chronological_iff layout same).mp chronological.less
  · intro agrees
    have less := (timestampLess_chronological_iff layout same).mpr agrees
    refine ⟨less, ?_⟩
    rintro u main states rfl delivers distinct old
    rw [handler_single delivers distinct]
    refine congrArg (fun states => Except.ok ((0 : Int), states)) (List.map_congr_left ?_)
    intro st mem
    by_cases here : st.name = u.name
    · simp only [here, true_and, if_true, update_eq, old st mem here, less]
    · simp only [here, false_and, if_false]

/-- Ten o'clock on 21 May 2018. -/
def dayBefore : Timestamp := ⟨0, 0, 0, 0, 10, 21, 5, 2018⟩

/-- Nine o'clock on 22 May 2018. -/
def dayAfter : Timestamp := ⟨0, 0, 0, 0, 9, 22, 5, 2018⟩

theorem dayBefore_inRange : dayBefore.InRange := by
  constructor <;> decide

theorem dayAfter_inRange : dayAfter.InRange := by
  constructor <;> decide

theorem chronological_iff_days :
    Chronological .plain (fun _ => ()) dayBefore dayAfter ↔
      Layout.plain.Agrees dayBefore dayAfter :=
  chronological_iff .plain _ dayBefore_inRange dayAfter_inRange

/-- With the time of day first, nine o'clock is earlier than ten o'clock of the day before. -/
theorem not_chronological_days : dayBefore.InRange ∧ dayAfter.InRange ∧
    ¬ Chronological .leMode (fun _ => ()) dayBefore dayAfter := by
  refine ⟨dayBefore_inRange, dayAfter_inRange, fun chronological => ?_⟩
  have earlier : dayBefore.Earlier dayAfter := by decide
  exact absurd (chronological.less.mpr earlier) (by decide)

end AcnSdk.Arrow
