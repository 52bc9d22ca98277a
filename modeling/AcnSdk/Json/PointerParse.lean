/-
`json_decode` and `json_validate` of `src/json/json.c` with the memory that they take.

The parser makes nodes and texts where its caller wants them and none where it gives NULL for
`out`. A container that cannot be finished is deleted by the function that made it. Texts always
find room, and running out of fuel counts as a failure; `jsonDecode_iff` shows that it does not
happen.

* `jsonValidate_eq` — `json_validate` accepts what `json_decode` accepts.
-/

import AcnSdk.Json.PointerDecode
import AcnSdk.Json.PointerScratch

namespace AcnSdk.Json.Pointers

open AcnSdk.Lib Prog Heap Data Ascii

variable {ν : Type}

/-! ### The source -/

/-- `json_delete`, also of NULL. -/
def deleteAny : Option Addr → JsonM ν Unit
  | none => return ()
  | some node => do jsonDelete (← onNodes bound) node

/-- The label `failure`. -/
def failure (ret : Option Addr) : JsonM ν (Option (Option Addr × Bytes)) := do
  deleteAny ret
  return none

/-- The label `failure_free_key`. -/
def failureFreeKey (key ret : Option Addr) : JsonM ν (Option (Option Addr × Bytes)) := do
  jsonDeleteString key
  failure ret

/-- What is made where the caller wants it. -/
def wanted (out : Bool) (make : JsonM ν (Option Addr)) : JsonM ν (Option Addr) :=
  if out then make else return none

/-- `parse_string`. -/
def readString (out : Bool) (s : Bytes) : JsonM ν (Option (Option Addr × Bytes)) :=
  match parseString s with
  | none => return none
  | some (text, s) => do
      return some (← wanted out (do return some (← makeText text)), s)

/-- `append_member` with `p_json`. -/
def appendKeyed (ret key value : Option Addr) : JsonM ν Unit := do
  let key ← present key
  appendMember (← present ret) (pJson key (← onTexts (strlen key))) (← present value)

section

variable [Zero ν] (libc : Libc ν) (out : Bool)

mutual

/-- `parse_value`. -/
def readValue : Nat → Bytes → JsonM ν (Option (Option Addr × Bytes))
  | 0, _ => return none
  | fuel + 1, s =>
      if peek s = lbrack then readArray fuel s
      else if peek s = lbrace then readObject fuel s
      else
        match parseScalar libc s with
        | none => return none
        | some (value, s) => do return some (← wanted out (makeScalar value), s)

/-- `parse_array`. -/
def readArray : Nat → Bytes → JsonM ν (Option (Option Addr × Bytes))
  | 0, _ => return none
  | fuel + 1, s => do
      let ret ← wanted out (jsonMkarray true)
      if peek s = lbrack then
        let s := skipSpace s.tail
        if peek s = rbrack then return some (ret, s.tail) else readElements fuel ret s
      else failure ret

/-- The loop of `parse_array`. -/
def readElements : Nat → Option Addr → Bytes → JsonM ν (Option (Option Addr × Bytes))
  | 0, ret, _ => failure ret
  | fuel + 1, ret, s => do
      match ← readValue fuel s with
      | none => failure ret
      | some (element, s) =>
          let s := skipSpace s
          if out then jsonAppendElement (← present ret) (← present element)
          if peek s = rbrack then return some (ret, s.tail)
          else if peek s = comma then readElements fuel ret (skipSpace s.tail)
          else failure ret

/-- `parse_object`. -/
def readObject : Nat → Bytes → JsonM ν (Option (Option Addr × Bytes))
  | 0, _ => return none
  | fuel + 1, s => do
      let ret ← wanted out (jsonMkobject true)
      if peek s = lbrace then
        let s := skipSpace s.tail
        if peek s = rbrace then return some (ret, s.tail) else readMembers fuel ret s
      else failure ret

/-- The loop of `parse_object`. -/
def readMembers : Nat → Option Addr → Bytes → JsonM ν (Option (Option Addr × Bytes))
  | 0, ret, _ => failure ret
  | fuel + 1, ret, s => do
      match ← readString out s with
      | none => failure ret
      | some (key, s) =>
          let s := skipSpace s
          if peek s = colon then
            match ← readValue fuel (skipSpace s.tail) with
            | none => failureFreeKey key ret
            | some (value, s) =>
                let s := skipSpace s
                if out then appendKeyed ret key value
                if peek s = rbrace then return some (ret, s.tail)
                else if peek s = comma then readMembers fuel ret (skipSpace s.tail)
                else failure ret
          else failureFreeKey key ret

end

/-- `json_decode`. -/
def jsonDecodeMemory (json : Bytes) : JsonM ν (Option Addr) := do
  match ← readValue libc true (3 * json.length + 1) (skipSpace json) with
  | none => return none
  | some (ret, s) =>
      if peek (skipSpace s) = 0 then return ret
      else
        deleteAny ret
        return none

/-- `json_validate`. -/
def jsonValidate (json : Bytes) : JsonM ν Bool := do
  match ← readValue libc false (3 * json.length + 1) (skipSpace json) with
  | none => return false
  | some (_, s) => return peek (skipSpace s) = 0

end

/-! ### Without memory -/

section

variable (libc : Libc ν) (m : Memory ν)

/-- What the parser returns where it makes nothing. -/
def bare (read : Option (JsonNode ν × Bytes)) : Option (Option Addr × Bytes) :=
  read.map fun r => (none, r.2)

theorem wanted_bare (make : JsonM ν (Option Addr)) : wanted false make m = .ok (none, m) := rfl

theorem readString_bare (s : Bytes) :
    readString false s m = .ok ((parseString s).map fun r => (none, r.2), m) := by
  rw [readString]
  cases parseString s <;> rfl

variable [Zero ν]

/-- All functions of the parser for one amount of fuel. -/
structure Bare (fuel : Nat) : Prop where
  value : ∀ s, readValue libc false fuel s m = .ok (bare (parseValue libc fuel s), m)
  array : ∀ s, readArray libc false fuel s m = .ok (bare (parseArray libc fuel s), m)
  elements : ∀ done s,
    readElements libc false fuel none s m = .ok (bare (parseElements libc fuel done s), m)
  object : ∀ s, readObject libc false fuel s m = .ok (bare (parseObject libc fuel s), m)
  members : ∀ done s,
    readMembers libc false fuel none s m = .ok (bare (parseMembers libc fuel done s), m)

theorem bare_all (fuel : Nat) : Bare libc m fuel := by
  induction fuel with
  | zero => exact ⟨fun _ => rfl, fun _ => rfl, fun _ _ => rfl, fun _ => rfl, fun _ _ => rfl⟩
  | succ fuel ih =>
      refine ⟨fun s => ?_, fun s => ?_, fun done s => ?_, fun s => ?_, fun done s => ?_⟩
      · rw [readValue, parseValue]
        split_ifs
        · exact ih.array s
        · exact ih.object s
        · cases parseScalar libc s <;> rfl
      · rw [readArray, parseArray, bind_of_ok (wanted_bare m _)]
        dsimp only
        split_ifs
        · rfl
        · exact ih.elements [] _
        · rfl
      · rw [readElements, parseElements, bind_of_ok (ih.value s)]
        cases parseValue libc fuel s with
        | none => rfl
        | some r =>
            dsimp only [bare, Option.map_some]
            rw [if_neg Bool.false_ne_true]
            split_ifs
            · rfl
            · exact ih.elements _ _
            · rfl
      · rw [readObject, parseObject, bind_of_ok (wanted_bare m _)]
        dsimp only
        split_ifs
        · rfl
        · exact ih.members [] _
        · rfl
      · rw [readMembers, parseMembers, bind_of_ok (readString_bare m s)]
        cases parseString s with
        | none => rfl
        | some r =>
            dsimp only [Option.map_some]
            by_cases separated : peek (skipSpace r.2) = colon
            · rw [if_pos separated, if_pos separated, bind_of_ok (ih.value _)]
              cases parseValue libc fuel (skipSpace (skipSpace r.2).tail) with
              | none => rfl
              | some r =>
                  dsimp only [bare, Option.map_some]
                  rw [if_neg Bool.false_ne_true]
                  split_ifs
                  · rfl
                  · exact ih.members _ _
                  · rfl
            · rw [if_neg separated, if_neg separated]
              rfl

/-- `json_validate` accepts what `json_decode` accepts, and takes no memory. -/
theorem jsonValidate_eq (json : Bytes) :
    jsonValidate libc json m = .ok ((jsonDecode libc json).isSome, m) := by
  rw [jsonValidate, jsonDecode, bind_of_ok ((bare_all libc m _).value _)]
  cases parseValue libc (3 * json.length + 1) (skipSpace json) with
  | none => rfl
  | some r =>
      obtain ⟨tree, s⟩ := r
      change Except.ok (decide (peek (skipSpace s) = 0), m) = _
      by_cases ended : peek (skipSpace s) = 0
      · rw [decide_eq_true ended]
        dsimp only
        rw [if_pos ended]
        rfl
      · rw [decide_eq_false ended]
        dsimp only
        rw [if_neg ended]
        rfl

end

end AcnSdk.Json.Pointers
