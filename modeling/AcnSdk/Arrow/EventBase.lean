/-
What both kinds of events have in common, `src/arrow/events.c`.

An event is taken out of the tree of its message, with the names that the kind has for the
members of its id and name. A message that says how it is signed has to carry the signature
that `arrow_event_sign` computes. How the parameters are brought into canonical form, and the
digest over it, are parameters here, and total: `Signer.forming` is the signer of a build, whose
`form_canonical_prm` is in `Arrow.Canonical`, and it has no result where that leaves its memory.
Reading a union under another tag is a fault.

* `getEvent_eq` — the event of a message whose members have the expected tags.
* `Signed` — what the check of the signature asks for.
-/

import AcnSdk.Arrow.State

namespace AcnSdk.Arrow

open AcnSdk.Lib AcnSdk.Json

variable {ν : Type}

/-- `mqtt_event_base_t`. -/
structure EventBase (ν : Type) where
  id : Bytes
  name : Bytes
  encrypted : Bool
  parameters : JsonNode ν

/-- `"encrypted"` -/
abbrev encryptedText : Bytes := [0x65, 0x6E, 0x63, 0x72, 0x79, 0x70, 0x74, 0x65, 0x64]

/-- `"parameters"` -/
abbrev parametersText : Bytes := [0x70, 0x61, 0x72, 0x61, 0x6D, 0x65, 0x74, 0x65, 0x72, 0x73]

/-- `"signature"` -/
abbrev signatureText : Bytes := [0x73, 0x69, 0x67, 0x6E, 0x61, 0x74, 0x75, 0x72, 0x65]

/-- `"signatureVersion"` -/
abbrev signatureVersionText : Bytes :=
  [0x73, 0x69, 0x67, 0x6E, 0x61, 0x74, 0x75, 0x72, 0x65, 0x56, 0x65, 0x72, 0x73, 0x69, 0x6F, 0x6E]

/-- `"1"` -/
abbrev versionOne : Bytes := [0x31]

/-! ### The signature -/

/-- What a signature is made with; where one of the functions fails there is no result. -/
structure Signer (ν : Type) where
  formCanonicalPrm : JsonNode ν → Option Bytes
  /-- Of the hid, the name, the encrypted flag, the canonical parameters and the version. -/
  gatewayPayloadSign : Bytes → Bytes → Bool → Bytes → Bytes → Option Bytes

section Signature

variable (signer : Signer ν)

/-- `arrow_event_sign`. -/
def Signer.arrowEventSign (ghid name : Bytes) (encrypted : Bool) (parameters : JsonNode ν) :
    Option Bytes := do
  let can ← signer.formCanonicalPrm parameters
  signer.gatewayPayloadSign ghid name encrypted can versionOne

/-- `check_sign_1`. -/
def checkSign1 (sign : Bytes) (ev : EventBase ν) : Bool :=
  signer.arrowEventSign ev.id ev.name ev.encrypted ev.parameters == some sign

/-- `check_signature` with the `checker_collection`. -/
def checkSignature (vers sign : Bytes) (ev : EventBase ν) : Bool :=
  if vers = versionOne then checkSign1 signer sign ev else false

/-- `mqtt_event_sign_checker`. -/
def mqttEventSignChecker (main : JsonNode ν) (base : EventBase ν) : Except Fault Bool :=
  match main.jsonFindMember signatureVersionText with
  | none => return true
  | some signVersion =>
      match main.jsonFindMember signatureText with
      | none => return false
      | some sign => do
          let vers ← stringOf (some signVersion)
          let sign ← stringOf (some sign)
          return checkSignature signer vers sign base

end Signature

/-! ### The members -/

/-- `bool_` of a node. -/
def boolOf : JsonNode ν → Except Fault Bool
  | .scalar _ (.bool b) => .ok b
  | _ => .error .nullPointer

/-- `fill_string_from_json`. -/
def fillStringFromJson (node : JsonNode ν) (name : Bytes) : Option Bytes :=
  (node.jsonFindMember name).bind JsonNode.stringValue

/-- `get_event_base`. That the parameters leave the tree is of no account, since the tree is
deleted. -/
def getEventBase (main : JsonNode ν) (id name : Bytes) : Except Fault (Option (EventBase ν)) :=
  match fillStringFromJson main id with
  | none => return none
  | some baseId =>
      match fillStringFromJson main name with
      | none => return none
      | some baseName =>
          match main.jsonFindMember encryptedText with
          | none => return none
          | some encrypted => do
              let baseEncrypted ← boolOf encrypted
              match main.jsonFindMember parametersText with
              | none => return none
              | some parameters => return some ⟨baseId, baseName, baseEncrypted, parameters⟩

/-- The event of a message, as `process_event_finish` and `process_http_finish` make it: its
members, if the signature is right. -/
def getEvent (signer : Signer ν) (id name : Bytes) (main : JsonNode ν) :
    Except Fault (Option (EventBase ν)) := do
  match ← getEventBase main id name with
  | none => return none
  | some base =>
      if ← mqttEventSignChecker signer main base then return some base
      else return none

/-! ### What an event has passed -/

/-- Each member that is there has the tag that the code reads it with. -/
structure ExpectedTags (id name : Bytes) (main : JsonNode ν) : Prop where
  id : ∀ node, main.jsonFindMember id = some node → node.tag = .string
  name : ∀ node, main.jsonFindMember name = some node → node.tag = .string
  encrypted : ∀ node, main.jsonFindMember encryptedText = some node → node.tag = .bool
  signatureVersion : ∀ node, main.jsonFindMember signatureVersionText = some node →
    node.tag = .string
  signature : ∀ node, main.jsonFindMember signatureText = some node → node.tag = .string

/-- The members of a message. -/
structure Members (id name : Bytes) (main : JsonNode ν) (base : EventBase ν) : Prop where
  id : fillStringFromJson main id = some base.id
  name : fillStringFromJson main name = some base.name
  encrypted : ∃ key, main.jsonFindMember encryptedText = some (.scalar key (.bool base.encrypted))
  parameters : main.jsonFindMember parametersText = some base.parameters

/-- A message that names a version of its signature names the first one, and carries the
signature of the event. -/
def Signed (signer : Signer ν) (main : JsonNode ν) (base : EventBase ν) : Prop :=
  (main.jsonFindMember signatureVersionText).isSome →
    fillStringFromJson main signatureVersionText = some versionOne ∧
      ∃ sign, fillStringFromJson main signatureText = some sign ∧
        signer.arrowEventSign base.id base.name base.encrypted base.parameters = some sign

theorem exists_string {node : JsonNode ν} (tag : node.tag = .string) :
    ∃ key s, node = .scalar key (.string s) := by
  cases node with
  | container key kind children => cases kind <;> cases tag
  | scalar key value =>
      cases value with
      | string s => exact ⟨key, s, rfl⟩
      | null | bool | number => cases tag

theorem exists_bool {node : JsonNode ν} (tag : node.tag = .bool) :
    ∃ key b, node = .scalar key (.bool b) := by
  cases node with
  | container key kind children => cases kind <;> cases tag
  | scalar key value =>
      cases value with
      | bool b => exact ⟨key, b, rfl⟩
      | null | string | number => cases tag

section

variable {signer : Signer ν} {id name : Bytes} {main : JsonNode ν}

variable (signer) in
/-- The check of the signature, where the tags are as expected. -/
theorem signChecker_eq (tags : ExpectedTags id name main) (base : EventBase ν) :
    ∃ valid, mqttEventSignChecker signer main base = .ok valid ∧
      (valid = true ↔ Signed signer main base) := by
  cases version : main.jsonFindMember signatureVersionText with
  | none =>
      refine ⟨true, by rw [mqttEventSignChecker, version]; rfl, iff_of_true rfl ?_⟩
      rw [Signed, version]
      exact fun some => absurd some Bool.false_ne_true
  | some signVersion =>
      obtain ⟨key, vers, rfl⟩ := exists_string (tags.signatureVersion _ version)
      have filled : fillStringFromJson main signatureVersionText = some vers := by
        rw [fillStringFromJson, version]
        rfl
      cases signature : main.jsonFindMember signatureText with
      | none =>
          refine ⟨false, by rw [mqttEventSignChecker, version, signature]; rfl,
            iff_of_false Bool.false_ne_true fun signed => ?_⟩
          obtain ⟨-, sign, present, -⟩ := signed (by rw [version]; rfl)
          rw [fillStringFromJson, signature] at present
          cases present
      | some node =>
          obtain ⟨key', sign, rfl⟩ := exists_string (tags.signature _ signature)
          have carried : fillStringFromJson main signatureText = some sign := by
            rw [fillStringFromJson, signature]
            rfl
          refine ⟨checkSignature signer vers sign base,
            by rw [mqttEventSignChecker, version, signature]; rfl, ?_⟩
          rw [Signed, version, filled, carried, checkSignature, checkSign1]
          constructor
          · intro valid _
            split_ifs at valid with first
            exact ⟨congrArg some first, sign, rfl, eq_of_beq valid⟩
          · intro signed
            obtain ⟨first, sign', same, computed⟩ := signed rfl
            cases first
            cases same
            rw [if_pos rfl, beq_iff_eq, computed]

/-- The members of a message, where the tags are as expected. -/
theorem getEventBase_eq (tags : ExpectedTags id name main) :
    ∃ base, getEventBase main id name = .ok base ∧
      ∀ b, base = some b ↔ Members id name main b := by
  rw [getEventBase]
  cases hasId : fillStringFromJson main id with
  | none =>
      refine ⟨none, rfl, fun b => iff_of_false (Option.some_ne_none b).symm fun members => ?_⟩
      rw [members.id] at hasId
      cases hasId
  | some baseId =>
      cases hasName : fillStringFromJson main name with
      | none =>
          refine ⟨none, rfl, fun b => iff_of_false (Option.some_ne_none b).symm fun members => ?_⟩
          rw [members.name] at hasName
          cases hasName
      | some baseName =>
          cases hasEncrypted : main.jsonFindMember encryptedText with
          | none =>
              refine ⟨none, rfl, fun b =>
                iff_of_false (Option.some_ne_none b).symm fun members => ?_⟩
              obtain ⟨key, found⟩ := members.encrypted
              rw [found] at hasEncrypted
              cases hasEncrypted
          | some node =>
              obtain ⟨key, flag, rfl⟩ := exists_bool (tags.encrypted _ hasEncrypted)
              cases hasParameters : main.jsonFindMember parametersText with
              | none =>
                  refine ⟨none, rfl, fun b =>
                    iff_of_false (Option.some_ne_none b).symm fun members => ?_⟩
                  rw [members.parameters] at hasParameters
                  cases hasParameters
              | some parameters =>
                  refine ⟨some ⟨baseId, baseName, flag, parameters⟩, rfl, fun b => ?_⟩
                  constructor
                  · intro same
                    cases same
                    exact ⟨hasId, hasName, ⟨key, hasEncrypted⟩, hasParameters⟩
                  · intro members
                    obtain ⟨key', found⟩ := members.encrypted
                    obtain ⟨id', name', encrypted', parameters'⟩ := b
                    have := members.id
                    have := members.name
                    have := members.parameters
                    simp_all

variable (signer) in
/-- A message makes the event of its members if it is signed as it should be, and otherwise
none. -/
theorem getEvent_eq (tags : ExpectedTags id name main) :
    ∃ base, getEvent signer id name main = .ok base ∧
      ∀ b, base = some b ↔ Members id name main b ∧ Signed signer main b := by
  obtain ⟨base, found, members⟩ := getEventBase_eq tags
  rw [getEvent, found]
  cases base with
  | none =>
      refine ⟨none, rfl, fun b => iff_of_false (Option.some_ne_none b).symm fun both => ?_⟩
      cases (members b).mpr both.1
  | some base =>
      obtain ⟨valid, checked, signed⟩ := signChecker_eq signer tags base
      refine ⟨if valid then some base else none, ?_, fun b => ?_⟩
      · cases valid <;> simp [bind, Except.bind, checked] <;> rfl
      · constructor
        · intro made
          split_ifs at made with right
          cases made
          exact ⟨(members base).mp rfl, signed.mp right⟩
        · intro both
          cases (members b).mpr both.1
          rw [if_pos (signed.mpr both.2)]

end

end AcnSdk.Arrow
