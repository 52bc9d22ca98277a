/-
States of a device, `src/arrow/state.c`, with `timestamp_parse` of
`src/arrow/api/json/parse.c`.

A state has a name, a value of one of three kinds and the time of its last change. A
message names states with new values and times, and a value is taken if its time is later.
-/

import AcnSdk.Arrow.CopyTill
import AcnSdk.Json.Lexical
import AcnSdk.Lib.Avoids
import AcnSdk.Time.Timestamp

namespace AcnSdk.Arrow

open AcnSdk.Lib AcnSdk.Json AcnSdk.Time Prog

/-! ### `timestamp_parse` -/

/-- A number of the text goes to a field. The rest of the text is given to what follows, if the
pattern was found. -/
def parseField (s endPattern : Bytes) (t : Timestamp) (store : Int → Timestamp)
    (next : Bytes → Timestamp → Except Fault (Timestamp × Int)) :
    Except Fault (Timestamp × Int) := do
  match ← copyTillToInt s endPattern with
  | none => return (t, -1)
  | some (tmp, p) => next p (store tmp)

/-- `timestamp_parse`. A field keeps the low bits of its number. -/
def timestampParse (t : Timestamp) (s : Bytes) : Except Fault (Timestamp × Int) :=
  parseField s [0x2D] t (fun tmp => { t with year := .ofInt 23 tmp }) fun p t =>
  parseField p [0x2D] t (fun tmp => { t with mon := .ofInt 4 tmp }) fun p t =>
  parseField p [0x54] t (fun tmp => { t with day := .ofInt 5 tmp }) fun p t =>
  parseField p [0x3A] t (fun tmp => { t with hour := .ofInt 5 tmp }) fun p t =>
  parseField p [0x3A] t (fun tmp => { t with min := .ofInt 6 tmp }) fun p t =>
  parseField p [0x2E] t (fun tmp => { t with sec := .ofInt 6 tmp }) fun p t =>
  parseField p [0x5A] t (fun tmp => { t with msec := .ofInt 10 tmp }) fun _ t => return (t, 0)

theorem failsOnly_parseField (s endPattern : Bytes) (t : Timestamp) (store : Int → Timestamp)
    {next : Bytes → Timestamp → Except Fault (Timestamp × Int)}
    (rest : ∀ p t, FailsOnly .overflow (next p t)) :
    FailsOnly .overflow (parseField s endPattern t store next) := by
  have copied : FailsOnly .overflow (copyTill s endPattern 8) := by
    rw [copyTill]
    split
    · exact failsOnly_ok _ _
    · dsimp only
      split_ifs
      · exact failsOnly_error _
      · exact failsOnly_ok _ _
  have number : FailsOnly .overflow (copyTillToInt s endPattern) := by
    apply copied.bind
    intro r
    cases r <;> exact failsOnly_ok _ _
  apply number.bind
  intro r
  cases r with
  | none => exact failsOnly_ok _ _
  | some r => exact rest _ _

theorem failsOnly_timestampParse (t : Timestamp) (s : Bytes) :
    FailsOnly .overflow (timestampParse t s) := by
  apply failsOnly_parseField
  intro p t
  apply failsOnly_parseField
  intro p t
  apply failsOnly_parseField
  intro p t
  apply failsOnly_parseField
  intro p t
  apply failsOnly_parseField
  intro p t
  apply failsOnly_parseField
  intro p t
  apply failsOnly_parseField
  intro p t
  exact failsOnly_ok _ _

/-! ### States -/

variable {ν : Type}

/-- The value of a state with its tag: `JSON_BOOL`, `JSON_STRING` or `JSON_NUMBER`. A string is
not set at first. -/
inductive StateValue (ν : Type) where
  | bool (b : Bool)
  | string (s : Option Bytes)
  | number (n : ν)
deriving DecidableEq, Repr

/-- `arrow_state_list_t`. -/
structure DeviceState (ν : Type) where
  name : Bytes
  value : StateValue ν
  ts : Timestamp
deriving DecidableEq

/-- `"true"` -/
abbrev trueText : Bytes := [0x74, 0x72, 0x75, 0x65]

/-- `"value"` -/
abbrev valueText : Bytes := [0x76, 0x61, 0x6C, 0x75, 0x65]

/-- `"timestamp"` -/
abbrev timestampText : Bytes := [0x74, 0x69, 0x6D, 0x65, 0x73, 0x74, 0x61, 0x6D, 0x70]

/-- `state_value_bool_parse`. -/
def stateValueBoolParse (s : Bytes) : StateValue ν := .bool (s == trueText)

/-- `state_value_string_parse`. -/
def stateValueStringParse (s : Bytes) : StateValue ν := .string (some s)

/-- `state_value_number_parse`. -/
def stateValueNumberParse (atof : Bytes → ν) (s : Bytes) : StateValue ν := .number (atof s)

/-- The `parse` of `state_adder` for the tag. -/
def StateValue.parse (atof : Bytes → ν) : StateValue ν → Bytes → StateValue ν
  | .bool _ => stateValueBoolParse
  | .string _ => stateValueStringParse
  | .number _ => stateValueNumberParse atof

/-- `string_` of a member that is there. -/
def stringOf (node : Option (JsonNode ν)) : Except Fault Bytes :=
  match node.bind JsonNode.stringValue with
  | none => .error .nullPointer
  | some s => .ok s

section

variable (layout : Layout) (atof : Bytes → ν)

/-- The part of `arrow_device_state_handler` for a state that is named. -/
def updateState (tmp : JsonNode ν) (devState : DeviceState ν) : Except Fault (DeviceState ν) :=
  match tmp.jsonFindMember valueText with
  | none => return devState
  | some value => do
      let timestamp ← stringOf (tmp.jsonFindMember timestampText)
      let (ts, _) ← timestampParse .zero timestamp
      if timestampLess layout devState.ts ts ≠ 0 then do
        let s ← stringOf (some value)
        return { devState with ts := ts, value := devState.value.parse atof s }
      else return devState

/-- The part of `arrow_device_state_handler` for one member: `linked_list_find_node` with
`stateeq`, and the update of what it finds. -/
def handleMember (tmp : JsonNode ν) : List (DeviceState ν) → Except Fault (List (DeviceState ν))
  | [] => return []
  | devState :: rest =>
      match tmp.key with
      | none => throw .nullPointer
      | some name =>
          if devState.name = name then do
            let devState ← updateState layout atof tmp devState
            return devState :: rest
          else do
            let rest ← handleMember tmp rest
            return devState :: rest

/-- The loop of `arrow_device_state_handler`. -/
def handleMembers : List (JsonNode ν) → List (DeviceState ν) → Except Fault (List (DeviceState ν))
  | [], states => return states
  | tmp :: rest, states => do
      let states ← handleMember layout atof tmp states
      handleMembers rest states

/-- `arrow_device_state_handler`. -/
def arrowDeviceStateHandler (main : JsonNode ν) : Prog (List (DeviceState ν)) Int := do
  let states ← lift (handleMembers layout atof main.jsonFirstChild (← get))
  set states
  return 0

end

end AcnSdk.Arrow
