/-
Updates with a timestamp that cannot be parsed.

`arrow_device_state_handler` does not look at what `timestamp_parse` returns. Of a timestamp that
is rejected it compares the fields in front of the one that was not found.

* `parseFields_time` — which fields these are.
* `ignored_iff` — when such an update changes nothing.
-/

import AcnSdk.Arrow.StateNewest

namespace AcnSdk.Arrow

open AcnSdk.Lib AcnSdk.Json AcnSdk.Time Prog

variable {ν : Type}

/-! ### The fields in front -/

/-- A field of a timestamp: the mark behind its number, and where the number goes. -/
structure Field where
  mark : Byte
  put : Int → Timestamp → Timestamp

/-- The fields in the order of the text. -/
def timestampFields : List Field :=
  [⟨0x2D, fun n t => { t with year := .ofInt 23 n }⟩,
    ⟨0x2D, fun n t => { t with mon := .ofInt 4 n }⟩,
    ⟨0x54, fun n t => { t with day := .ofInt 5 n }⟩,
    ⟨0x3A, fun n t => { t with hour := .ofInt 5 n }⟩,
    ⟨0x3A, fun n t => { t with min := .ofInt 6 n }⟩,
    ⟨0x2E, fun n t => { t with sec := .ofInt 6 n }⟩,
    ⟨0x5A, fun n t => { t with msec := .ofInt 10 n }⟩]

/-- A time with the fields of a text, up to the first one that has no mark. -/
def fieldsRead : List Field → Bytes → Timestamp → Timestamp
  | [], _, t => t
  | field :: fields, s, t =>
      if field.mark ∈ s then
        fieldsRead fields (s.dropWhile (· != field.mark)).tail
          (field.put (atoi (s.takeWhile (· != field.mark))) t)
      else t

/-- The time that the front of a text names, zero where there is none. -/
def frontTime (s : Bytes) : Timestamp := fieldsRead timestampFields s .zero

/-- Parsing some fields. -/
def parseFields : List Field → Bytes → Timestamp → Except Fault (Timestamp × Int)
  | [], _, t => return (t, 0)
  | field :: fields, s, t =>
      parseField s [field.mark] t (fun n => field.put n t) (parseFields fields)

theorem timestampParse_eq (t : Timestamp) (s : Bytes) :
    timestampParse t s = parseFields timestampFields s t := rfl

/-- Whatever is returned, the fields in front are stored. -/
theorem parseFields_time {fields : List Field} {s : Bytes} {t ts : Timestamp} {ret : Int}
    (parsed : parseFields fields s t = .ok (ts, ret)) : ts = fieldsRead fields s t := by
  induction fields generalizing s t with
  | nil =>
      cases parsed
      rfl
  | cons field fields ih =>
      rw [parseFields, parseField, copyTillToInt, copyTill_mark] at parsed
      rw [fieldsRead]
      by_cases found : field.mark ∈ s
      · rw [if_pos found] at parsed
        rw [if_pos found]
        split at parsed
        · cases parsed
        · exact ih parsed
      · rw [if_neg found] at parsed
        rw [if_neg found]
        cases parsed
        rfl

/-! ### One update -/

/-- A member of a message that is an update with a timestamp that `timestamp_parse` rejects. -/
structure Unparsable (tmp : JsonNode ν) (name timestamp : Bytes) : Prop where
  named : tmp.key = some name
  timestamp_eq : (tmp.jsonFindMember timestampText).bind JsonNode.stringValue = some timestamp
  rejected : ∃ ts, timestampParse .zero timestamp = .ok (ts, -1)

/-- The state that the handler finds under a name. -/
def stateOf (name : Bytes) (states : List (DeviceState ν)) : Option (DeviceState ν) :=
  states.find? fun st => st.name = name

/-- The update stands behind `pre` in a message that finds `states`, which are `between` when it
comes to the update. Then they still are, and the message is handled as without the update. -/
structure Ignored (layout : Layout) (atof : Bytes → ν) (pre : List (JsonNode ν)) (tmp : JsonNode ν)
    (states between : List (DeviceState ν)) : Prop where
  unchanged : handleMembers layout atof (pre ++ [tmp]) states = .ok between
  skipped : ∀ key post,
    arrowDeviceStateHandler layout atof (.container key .object (pre ++ tmp :: post)) states =
      arrowDeviceStateHandler layout atof (.container key .object (pre ++ post)) states

section

variable {layout : Layout} {atof : Bytes → ν} {tmp : JsonNode ν} {name timestamp : Bytes}

theorem timestampLess_irrefl (t : Timestamp) : timestampLess layout t t = 0 := by
  by_contra less
  exact lt_irrefl _ ((timestampLess_iff layout t t).mp ((timestampLess_ne_zero layout t t).mp less))

/-- A state that is left as it is has no value to take, or its time is not before the front of the
timestamp. -/
theorem updateState_unchanged_iff (unparsable : Unparsable tmp name timestamp)
    (st : DeviceState ν) :
    updateState layout atof tmp st = .ok st ↔
      tmp.jsonFindMember valueText = none ∨
        timestampLess layout st.ts (frontTime timestamp) = 0 := by
  obtain ⟨ts, parsed⟩ := unparsable.rejected
  have front : ts = frontTime timestamp := parseFields_time parsed
  rw [updateState]
  cases value : tmp.jsonFindMember valueText with
  | none => exact iff_of_true rfl (.inl rfl)
  | some value =>
      dsimp only
      rw [then_of_ok (stringOf_eq unparsable.timestamp_eq), then_of_ok parsed, front]
      by_cases less : timestampLess layout st.ts (frontTime timestamp) = 0
      · rw [if_neg (not_not_intro less)]
        exact iff_of_true rfl (.inr less)
      · rw [if_pos less]
        refine iff_of_false (fun taken => ?_) (not_or.mpr ⟨by simp, less⟩)
        -- a state that takes the update has another time afterwards
        obtain ⟨s, -, taken⟩ := ok_of_bind taken
        have time := congrArg DeviceState.ts (Except.ok.inj taken)
        rw [show frontTime timestamp = st.ts from time] at less
        exact less (timestampLess_irrefl st.ts)

/-- Only the state under the name is looked at. -/
theorem handleMember_unchanged_iff (named : tmp.key = some name) (states : List (DeviceState ν)) :
    handleMember layout atof tmp states = .ok states ↔
      ∀ st, stateOf name states = some st → updateState layout atof tmp st = .ok st := by
  induction states with
  | nil => exact iff_of_true rfl fun st found => by cases found
  | cons st rest ih =>
      rw [handleMember, named, stateOf, List.find?_cons]
      dsimp only
      by_cases here : st.name = name
      · rw [if_pos here, decide_eq_true here]
        constructor
        · intro kept st' found
          cases found
          obtain ⟨st', updated, rebuilt⟩ := ok_of_bind kept
          rw [updated]
          exact congrArg Except.ok (List.cons.inj (Except.ok.inj rebuilt)).1
        · intro all
          rw [then_of_ok (all st rfl)]
          rfl
      · rw [if_neg here, decide_eq_false here]
        refine Iff.trans ?_ ih
        constructor
        · intro kept
          obtain ⟨rest', handled, rebuilt⟩ := ok_of_bind kept
          rw [handled]
          exact congrArg Except.ok (List.cons.inj (Except.ok.inj rebuilt)).2
        · intro kept
          rw [then_of_ok kept]
          rfl

theorem ignored_of_unchanged {pre : List (JsonNode ν)} {states between : List (DeviceState ν)}
    (front : handleMembers layout atof pre states = .ok between)
    (kept : handleMember layout atof tmp between = .ok between) :
    Ignored layout atof pre tmp states between := by
  have step : ∀ post, handleMembers layout atof (tmp :: post) between =
      handleMembers layout atof post between := by
    intro post
    rw [handleMembers, then_of_ok kept]
  constructor
  · rw [handleMembers_append, front, ok_bind, step]
    rfl
  · intro key post
    have same : handleMembers layout atof (pre ++ tmp :: post) states =
        handleMembers layout atof (pre ++ post) states := by
      rw [handleMembers_append, handleMembers_append, front, ok_bind, ok_bind, step]
    rw [arrowDeviceStateHandler, arrowDeviceStateHandler]
    simp only [JsonNode.jsonFirstChild, bind_apply, get_apply, ok_bind, same]

end

/-- An update with an unparsable timestamp is ignored exactly if it has no value, or the front of
the timestamp is no later than the state that it names. -/
theorem ignored_iff (layout : Layout) (atof : Bytes → ν) {pre : List (JsonNode ν)}
    {tmp : JsonNode ν} {name timestamp : Bytes} (unparsable : Unparsable tmp name timestamp)
    {states between : List (DeviceState ν)}
    (front : handleMembers layout atof pre states = .ok between) :
    Ignored layout atof pre tmp states between ↔ ∀ st, stateOf name between = some st →
      tmp.jsonFindMember valueText = none ∨
        timestampLess layout st.ts (frontTime timestamp) = 0 := by
  have each : handleMember layout atof tmp between = .ok between ↔ _ :=
    handleMember_unchanged_iff unparsable.named between
  simp only [updateState_unchanged_iff unparsable] at each
  rw [← each]
  constructor
  · intro ignored
    have kept := ignored.unchanged
    rw [handleMembers_append, front, ok_bind, handleMembers] at kept
    obtain ⟨after, handled, rest⟩ := ok_of_bind kept
    cases rest
    exact handled
  · exact ignored_of_unchanged front

/-- `2019-01-01T23:59:00Z`, without milliseconds. -/
def unreadableTime : Bytes :=
  [0x32, 0x30, 0x31, 0x39, 0x2D, 0x30, 0x31, 0x2D, 0x30, 0x31, 0x54, 0x32, 0x33, 0x3A, 0x35, 0x39,
    0x3A, 0x30, 0x30, 0x5A]

/-- The value 1 at that time. -/
def untimedUpdate : JsonNode Unit :=
  .container (some [0x64]) .object
    [.scalar (some valueText) (.string [0x31]),
      .scalar (some timestampText) (.string unreadableTime)]

theorem untimedUpdate_unparsable : Unparsable untimedUpdate [0x64] unreadableTime :=
  ⟨rfl, rfl, ⟨⟨0, 0, 0, 59, 23, 1, 1, 2019⟩, by decide⟩⟩

/-- Ten o'clock on 21 May of a year, without a value. -/
def stateIn (year : BitVec 23) : DeviceState Unit :=
  ⟨[0x64], .string none, ⟨0, 0, 0, 0, 10, 21, 5, year⟩⟩

theorem ignored_iff_untimed :
    Ignored .plain (fun _ => ()) [] untimedUpdate [stateIn 2020] [stateIn 2020] ↔
      ∀ st, stateOf [0x64] [stateIn 2020] = some st →
        untimedUpdate.jsonFindMember valueText = none ∨
          timestampLess .plain st.ts (frontTime unreadableTime) = 0 :=
  ignored_iff .plain _ untimedUpdate_unparsable rfl

/-- A state of 2018 takes the update, with either order of the fields in memory. -/
theorem not_ignored_untimed : Unparsable untimedUpdate [0x64] unreadableTime ∧
    ¬ Ignored .plain (fun _ => ()) [] untimedUpdate [stateIn 2018] [stateIn 2018] ∧
      ¬ Ignored .leMode (fun _ => ()) [] untimedUpdate [stateIn 2018] [stateIn 2018] :=
  ⟨untimedUpdate_unparsable, fun ignored => absurd ignored.unchanged (by decide),
    fun ignored => absurd ignored.unchanged (by decide)⟩

end AcnSdk.Arrow
