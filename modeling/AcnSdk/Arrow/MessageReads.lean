/-
What is read of an event's message, `src/arrow/events.c`, with the signature of
`src/arrow/gateway_payload_sign.c`.

The value of a node is a union, and the code reads it as a string, a boolean or a number. Here each
reading of it is a step of its own that only succeeds under the tag. A build may print some of the
strings too.

* `finish_typeSafe_iff` — when the end of a message reads only what is there.
* `apiEventProc_typeSafe_iff` — the same for the response that is taken from its queue.
-/

import AcnSdk.Arrow.ApiEvents
import AcnSdk.Arrow.CanonicalEntries
import AcnSdk.Arrow.EventQueue
import AcnSdk.Lib.Avoids

namespace AcnSdk.Arrow

open AcnSdk.Lib AcnSdk.Data AcnSdk.Json Prog

variable {ν : Type}

/-- A call reads nothing of its message that is missing or has another tag, and without what it
needs its result is negative. -/
structure TypeSafe (needs : Prop) (call : Except Fault Int) : Prop where
  reads : Avoids .nullPointer call
  rejects : ¬ needs → ∃ ret, call = .ok ret ∧ ret < 0

/-- What a build prints: nothing without `DEBUG`, and the version of a signature only with
`DEBUG_MQTT_PROCESS_EVENT`. -/
structure DebugOutput where
  debug : Bool
  processEvent : Bool

/-! ### The functions -/

/-- `number_` of a node. -/
def numberOf : JsonNode ν → Except Fault ν
  | .scalar _ (.number n) => .ok n
  | _ => .error .nullPointer

/-- `DBG` of `string_`. -/
def printed (on : Bool) (node : JsonNode ν) : Except Fault Unit :=
  if on then do
    let _ ← stringOf (some node)
    return ()
  else return ()

section Functions

-- what `printf` makes of a number
variable (signer : Signer ν) (printf : ν → Bytes) (out : DebugOutput)

/-- The text of a member in the canonical form. -/
def memberTextOf (child : JsonNode ν) : Except Fault Bytes :=
  match child.tag with
  | .string => stringOf (some child)
  | .bool => do
      let b ← boolOf child
      return if b then trueText else [0x66, 0x61, 0x6C, 0x73, 0x65]
  | _ => do
      let n ← numberOf child
      return printf n

/-- The loop of `form_canonical_prm` over the members, in both of its builds, as far as it reads
them. -/
def readEntries : List (JsonNode ν) → Except Fault (List (Bytes × Bytes))
  | [] => return []
  | child :: rest => do
      let key ← readKey child
      let text ← memberTextOf printf child
      let entries ← readEntries rest
      return (key, text) :: entries

/-- `check_signature`, with what is read of the parameters. -/
def checkSignatureRead (vers sign : Bytes) (ev : EventBase ν) : Except Fault Bool :=
  if vers = versionOne then do
    let _ ← readEntries printf ev.parameters.jsonFirstChild
    return checkSign1 signer sign ev
  else return false

/-- `mqtt_event_sign_checker`, with all that is read. -/
def signCheckerRead (main : JsonNode ν) (base : EventBase ν) : Except Fault Bool :=
  match main.jsonFindMember signatureVersionText with
  | none => return true
  | some signVersion => do
      let _ ← printed (out.debug && out.processEvent) signVersion
      match main.jsonFindMember signatureText with
      | none => return false
      | some sign => do
          let vers ← stringOf (some signVersion)
          let sign ← stringOf (some sign)
          checkSignatureRead signer printf vers sign base

/-- The event of a message, with all that is read. -/
def getEventRead (id name : Bytes) (main : JsonNode ν) : Except Fault (Option (EventBase ν)) := do
  match ← getEventBase main id name with
  | none => return none
  | some base =>
      if ← signCheckerRead signer printf out main base then return some base
      else return none

/-- What `arrow_mqtt_api_event_proc` prints of an event with another status than OK. -/
def printedBody (e : EventBase ν) : Except Fault Unit :=
  match e.parameters.jsonFindMember statusText with
  | none => return ()
  | some status => do
      if (← stringOf (some status)) = okText then return ()
      else
        match e.parameters.jsonFindMember payloadText with
        | none => return ()
        | some body => printed out.debug body

/-- `arrow_mqtt_api_event_proc`, with what it prints. -/
def apiEventProcRead (image : JsonNode ν → Bytes) (res : ApiResponse ν) :
    Prog (ApiState ν) (Int × ApiResponse ν) := do
  match (← get).apiEventQueue with
  | [] => return (-1, res)
  | tmp :: _ => do
      let _ ← lift (printedBody out tmp)
      arrowMqttApiEventProc image res

end Functions

section Finishing

-- how an event is made of a tree
variable (event : JsonNode ν → Except Fault (Option (EventBase ν)))

/-- `process_event_finish`. -/
def processEventFinishRead : Prog (EventState ν) Int := do
  match ← onJpm (jsonDecodeFinish 0) with
  | none => return -1
  | some main =>
      match ← lift (event main) with
      | none => return -1
      | some base => do
          let mqttE ← onEvents (Heap.alloc ⟨base, none⟩)
          let queue := (← get).eventQueue
          let queue ← onEvents (arrowLinkedListAdd (mqttEventLink ν) queue mqttE)
          modify fun s => { s with eventQueue := queue }
          return 0

/-- `process_http_finish`, with what `json_decode_finish` gives. -/
def processHttpFinishRead (main : Option (JsonNode ν)) : Prog (ApiState ν) Int :=
  match main with
  | none => return -1
  | some main => do
      match ← lift (event main) with
      | none => return -1
      | some apiE => do
          modify fun s => { s with apiEventQueue := s.apiEventQueue ++ [apiE] }
          return 0

end Finishing

/-! ### They are the functions of the queues -/

theorem processEventFinishRead_eq (signer : Signer ν) :
    processEventFinishRead (getEvent signer hidText nameText) = processEventFinish signer := rfl

theorem processHttpFinishRead_eq (event : JsonNode ν → Option (EventBase ν))
    (main : Option (JsonNode ν)) :
    processHttpFinishRead (fun main => .ok (event main)) main = processHttpFinish event main := by
  cases main with
  | none => rfl
  | some main =>
      funext s
      rw [processHttpFinish, Option.bind_some]
      cases made : event main <;> simp [processHttpFinishRead, made]

/-! ### Reading under a tag -/

theorem stringValue_isSome (node : JsonNode ν) :
    node.stringValue.isSome = true ↔ node.tag = .string := by
  constructor
  · intro some
    obtain ⟨s, string⟩ := Option.isSome_iff_exists.mp some
    cases node with
    | container key kind children => cases string
    | scalar key value =>
        cases value with
        | string s => rfl
        | null | bool | number => cases string
  · intro tag
    obtain ⟨key, s, rfl⟩ := exists_string tag
    rfl

theorem failsOnly_stringOf (node : Option (JsonNode ν)) :
    FailsOnly .nullPointer (stringOf node) := by
  rw [stringOf]
  cases node.bind JsonNode.stringValue with
  | none => exact failsOnly_error _
  | some s => exact failsOnly_ok _ s

theorem avoids_stringOf (node : Option (JsonNode ν)) :
    Avoids .nullPointer (stringOf node) ↔ (node.bind JsonNode.stringValue).isSome = true := by
  rw [stringOf]
  cases node.bind JsonNode.stringValue with
  | none => exact iff_of_false (not_avoids_error _) Bool.false_ne_true
  | some s => exact iff_of_true (avoids_ok _ s) rfl

theorem avoids_string (node : JsonNode ν) :
    Avoids .nullPointer (stringOf (some node)) ↔ node.tag = .string :=
  (avoids_stringOf (some node)).trans (stringValue_isSome node)

theorem avoids_stringOf_then {β : Type} (node : Option (JsonNode ν)) (f : Bytes → Except Fault β) :
    Avoids .nullPointer (stringOf node >>= f) ↔
      ∃ s, node.bind JsonNode.stringValue = some s ∧ Avoids .nullPointer (f s) := by
  rw [stringOf]
  cases node.bind JsonNode.stringValue with
  | none =>
      refine iff_of_false (not_avoids_error _) ?_
      rintro ⟨s, some, -⟩
      cases some
  | some s =>
      constructor
      · intro avoids
        exact ⟨s, rfl, avoids⟩
      · rintro ⟨s', some, avoids⟩
        cases some
        exact avoids

theorem failsOnly_boolOf (node : JsonNode ν) : FailsOnly .nullPointer (boolOf node) := by
  rw [boolOf.eq_def]
  split
  · exact failsOnly_ok _ _
  · exact failsOnly_error _

theorem avoids_boolOf (node : JsonNode ν) :
    Avoids .nullPointer (boolOf node) ↔ node.tag = .bool := by
  constructor
  · intro avoids
    cases node with
    | container key kind children => exact absurd rfl avoids
    | scalar key value =>
        cases value with
        | bool b => rfl
        | null | string | number => exact absurd rfl avoids
  · intro tag
    obtain ⟨key, b, rfl⟩ := exists_bool tag
    exact avoids_ok _ b

theorem avoids_numberOf (node : JsonNode ν) :
    Avoids .nullPointer (numberOf node) ↔ node.tag = .number := by
  cases node with
  | container key kind children =>
      refine iff_of_false (not_avoids_error _) ?_
      cases kind <;> exact JsonTag.noConfusion
  | scalar key value =>
      cases value with
      | number n => exact iff_of_true (avoids_ok _ n) rfl
      | null | string | bool => exact iff_of_false (not_avoids_error _) JsonTag.noConfusion

theorem avoids_printed (on : Bool) (node : JsonNode ν) :
    Avoids .nullPointer (printed on node) ↔ (on = true → node.tag = .string) := by
  rw [printed]
  split_ifs with prints
  · rw [avoids_then, avoids_string]
    constructor
    · rintro ⟨tag, -⟩ _
      exact tag
    · intro tag
      exact ⟨tag prints, fun s _ => avoids_ok _ _⟩
  · exact iff_of_true (avoids_ok _ _) fun on => absurd on prints

theorem failsOnly_printed (on : Bool) (node : JsonNode ν) :
    FailsOnly .nullPointer (printed on node) := by
  rw [printed]
  split_ifs
  · exact (failsOnly_stringOf _).bind fun s => failsOnly_ok _ _
  · exact failsOnly_ok _ _

/-! ### The parameters in canonical form -/

/-- What a member of the parameters has to be: a string, a boolean or a number under a key. -/
structure EntryReads (child : JsonNode ν) : Prop where
  keyed : child.key.isSome = true
  tag : child.tag = .string ∨ child.tag = .bool ∨ child.tag = .number

theorem avoids_readKey (child : JsonNode ν) :
    Avoids .nullPointer (readKey child) ↔ child.key.isSome = true := by
  rw [readKey]
  split_ifs with keyed
  · exact iff_of_true (avoids_ok _ _) keyed
  · exact iff_of_false (not_avoids_error _) keyed

theorem failsOnly_readKey (child : JsonNode ν) : FailsOnly .nullPointer (readKey child) := by
  rw [readKey]
  split_ifs
  · exact failsOnly_ok _ _
  · exact failsOnly_error _

section Canonical

variable (printf : ν → Bytes)

theorem avoids_memberTextOf (child : JsonNode ν) :
    Avoids .nullPointer (memberTextOf printf child) ↔
      child.tag = .string ∨ child.tag = .bool ∨ child.tag = .number := by
  rw [memberTextOf]
  cases tag : child.tag with
  | string => exact iff_of_true ((avoids_string child).mpr tag) (.inl rfl)
  | bool =>
      refine iff_of_true ?_ (.inr (.inl rfl))
      rw [avoids_then]
      exact ⟨(avoids_boolOf child).mpr tag, fun b _ => avoids_ok _ _⟩
  | number =>
      refine iff_of_true ?_ (.inr (.inr rfl))
      dsimp only
      rw [avoids_then]
      exact ⟨(avoids_numberOf child).mpr tag, fun n _ => avoids_ok _ _⟩
  | null | array | object =>
      refine iff_of_false ?_ (by simp)
      dsimp only
      rw [avoids_then, avoids_numberOf, tag]
      exact fun both => JsonTag.noConfusion both.1

theorem failsOnly_memberTextOf (child : JsonNode ν) :
    FailsOnly .nullPointer (memberTextOf printf child) := by
  have number : FailsOnly .nullPointer (numberOf child) := by
    rw [numberOf.eq_def]
    split
    · exact failsOnly_ok _ _
    · exact failsOnly_error _
  rw [memberTextOf]
  split
  · exact failsOnly_stringOf _
  · exact (failsOnly_boolOf child).bind fun b => failsOnly_ok _ _
  · exact number.bind fun n => failsOnly_ok _ _

theorem failsOnly_readEntries (children : List (JsonNode ν)) :
    FailsOnly .nullPointer (readEntries printf children) := by
  induction children with
  | nil => exact failsOnly_ok _ _
  | cons child rest ih =>
      apply (failsOnly_readKey child).bind
      intro key
      apply (failsOnly_memberTextOf printf child).bind
      intro text
      apply ih.bind
      intro entries
      exact failsOnly_ok _ _

theorem avoids_readEntries (children : List (JsonNode ν)) :
    Avoids .nullPointer (readEntries printf children) ↔ ∀ child ∈ children, EntryReads child := by
  induction children with
  | nil => exact iff_of_true (avoids_ok _ _) (List.forall_mem_nil _)
  | cons child rest ih =>
      have after : ∀ key, Avoids .nullPointer (memberTextOf printf child >>= fun text =>
          readEntries printf rest >>= fun entries => .ok ((key, text) :: entries)) ↔
            (child.tag = .string ∨ child.tag = .bool ∨ child.tag = .number) ∧
              ∀ child ∈ rest, EntryReads child := by
        intro key
        rw [← avoids_memberTextOf printf child, ← ih]
        apply (failsOnly_memberTextOf printf child).avoids_bind
        intro text
        exact avoids_last _ fun entries => avoids_ok _ _
      have whole := (failsOnly_readKey child).avoids_bind after
      rw [avoids_readKey] at whole
      rw [List.forall_mem_cons]
      constructor
      · intro avoids
        obtain ⟨keyed, tag, others⟩ := whole.mp avoids
        exact ⟨⟨keyed, tag⟩, others⟩
      · rintro ⟨⟨keyed, tag⟩, others⟩
        exact whole.mpr ⟨keyed, tag, others⟩

variable {printf} {printNumber : JsonNode ν → Bytes}

theorem memberTextOf_eq (numbers : ∀ key n, printNumber (.scalar key (.number n)) = printf n)
    {child : JsonNode ν} {text : Bytes} (read : memberTextOf printf child = .ok text) :
    memberText printNumber child = text := by
  cases child with
  | container key kind children => cases kind <;> cases read
  | scalar key value =>
      cases value with
      | null => cases read
      | string s =>
          cases read
          rfl
      | bool b => cases b <;> · cases read; rfl
      | number n =>
          cases read
          exact numbers key n

/-- Where only what is there is read, the entries are those that the lines of the canonical form are
made of. -/
theorem readEntries_eq (numbers : ∀ key n, printNumber (.scalar key (.number n)) = printf n)
    {children : List (JsonNode ν)} {entries : List (Bytes × Bytes)}
    (read : readEntries printf children = .ok entries) :
    entries = children.map fun child => (lowerKey child, memberText printNumber child) := by
  induction children generalizing entries with
  | nil =>
      cases read
      rfl
  | cons child rest ih =>
      obtain ⟨key, keyed, read⟩ := ok_of_bind read
      obtain ⟨text, made, read⟩ := ok_of_bind read
      obtain ⟨others, others_read, same⟩ := ok_of_bind read
      cases same
      rw [List.map_cons, memberTextOf_eq numbers made, ih others_read, (readKey_ok keyed).2]

end Canonical

/-! ### The end of a message -/

section Finish

variable {signer : Signer ν} {printf : ν → Bytes} {out : DebugOutput} {id name : Bytes}
  {main : JsonNode ν} {base : EventBase ν}

/-- What a message with these parameters has to be for its signature to be read: the two members
that say how it is signed are strings, if both are there, and under the first version the parameters
have a canonical form. -/
def SignatureReads (out : DebugOutput) (main parameters : JsonNode ν) : Prop :=
  ∀ version, main.jsonFindMember signatureVersionText = some version →
    ((out.debug && out.processEvent) = true → version.tag = .string) ∧
    ∀ sign, main.jsonFindMember signatureText = some sign →
      ∃ vers, version.stringValue = some vers ∧ sign.tag = .string ∧
        (vers = versionOne → ∀ child ∈ parameters.jsonFirstChild, EntryReads child)

/-- What a message has to be for its members to be read. The encrypted flag only counts if there are
an id and a name, and the signature if all members of the event are there. -/
structure EventReads (out : DebugOutput) (id name : Bytes) (main : JsonNode ν) : Prop where
  encrypted : (fillStringFromJson main id).isSome = true →
    (fillStringFromJson main name).isSome = true →
      ∀ node, main.jsonFindMember encryptedText = some node → node.tag = .bool
  signature : ∀ base, Members id name main base → SignatureReads out main base.parameters

/-- A message with all that an event needs. -/
structure Complete (id name : Bytes) (main : JsonNode ν) : Prop where
  members : ∃ base, Members id name main base
  signature : ∀ version, main.jsonFindMember signatureVersionText = some version →
    version.tag = .string ∧ ∃ sign, main.jsonFindMember signatureText = some sign ∧
      sign.tag = .string

theorem failsOnly_checkSignatureRead (vers sign : Bytes) (ev : EventBase ν) :
    FailsOnly .nullPointer (checkSignatureRead signer printf vers sign ev) := by
  rw [checkSignatureRead]
  split_ifs
  · exact (failsOnly_readEntries printf _).bind fun entries => failsOnly_ok _ _
  · exact failsOnly_ok _ _

theorem avoids_checkSignatureRead (vers sign : Bytes) (ev : EventBase ν) :
    Avoids .nullPointer (checkSignatureRead signer printf vers sign ev) ↔
      (vers = versionOne → ∀ child ∈ ev.parameters.jsonFirstChild, EntryReads child) := by
  rw [checkSignatureRead]
  split_ifs with first
  · rw [imp_iff_right first, ← avoids_readEntries printf]
    exact avoids_last _ fun entries => avoids_ok _ _
  · exact iff_of_true (avoids_ok _ _) fun same => absurd same first

theorem failsOnly_signCheckerRead (main : JsonNode ν) (base : EventBase ν) :
    FailsOnly .nullPointer (signCheckerRead signer printf out main base) := by
  rw [signCheckerRead]
  split
  · exact failsOnly_ok _ _
  · apply (failsOnly_printed _ _).bind
    intro _
    split
    · exact failsOnly_ok _ _
    · apply (failsOnly_stringOf _).bind
      intro vers
      apply (failsOnly_stringOf _).bind
      intro sign
      exact failsOnly_checkSignatureRead vers sign base

variable (signer printf) in
theorem avoids_signCheckerRead (main : JsonNode ν) (base : EventBase ν) :
    Avoids .nullPointer (signCheckerRead signer printf out main base) ↔
      SignatureReads out main base.parameters := by
  rw [signCheckerRead, SignatureReads]
  cases version : main.jsonFindMember signatureVersionText with
  | none => exact iff_of_true (avoids_ok _ _) fun _ some => absurd some.symm (Option.some_ne_none _)
  | some signVersion =>
      have after : ∀ _ : Unit, Avoids .nullPointer
          (match main.jsonFindMember signatureText with
            | none => .ok false
            | some sign => do
                let vers ← stringOf (some signVersion)
                let sign ← stringOf (some sign)
                checkSignatureRead signer printf vers sign base) ↔
          ∀ sign, main.jsonFindMember signatureText = some sign →
            ∃ vers, signVersion.stringValue = some vers ∧ sign.tag = .string ∧
              (vers = versionOne → ∀ child ∈ base.parameters.jsonFirstChild, EntryReads child) := by
        intro _
        cases main.jsonFindMember signatureText with
        | none =>
            exact iff_of_true (avoids_ok _ _) fun _ some => absurd some.symm (Option.some_ne_none _)
        | some sign =>
            dsimp only
            simp only [Option.some.injEq, forall_eq', avoids_stringOf_then, Option.bind_some,
              avoids_checkSignatureRead]
            apply exists_congr
            intro vers
            apply and_congr_right
            intro _
            rw [exists_and_right, ← Option.isSome_iff_exists, stringValue_isSome]
      have whole :=
        (failsOnly_printed (out.debug && out.processEvent) signVersion).avoids_bind after
      rw [avoids_printed] at whole
      refine whole.trans ?_
      simp only [Option.some.injEq, forall_eq']

theorem failsOnly_getEventBase (main : JsonNode ν) (id name : Bytes) :
    FailsOnly .nullPointer (getEventBase main id name) := by
  rw [getEventBase]
  split
  · exact failsOnly_ok _ _
  · split
    · exact failsOnly_ok _ _
    · split
      · exact failsOnly_ok _ _
      · apply (failsOnly_boolOf _).bind
        intro flag
        split
        · exact failsOnly_ok _ _
        · exact failsOnly_ok _ _

theorem avoids_getEventBase (main : JsonNode ν) (id name : Bytes) :
    Avoids .nullPointer (getEventBase main id name) ↔
      ((fillStringFromJson main id).isSome = true → (fillStringFromJson main name).isSome = true →
        ∀ node, main.jsonFindMember encryptedText = some node → node.tag = .bool) := by
  rw [getEventBase]
  cases fillStringFromJson main id with
  | none => exact iff_of_true (avoids_ok _ _) fun some => absurd some Bool.false_ne_true
  | some baseId =>
      cases fillStringFromJson main name with
      | none => exact iff_of_true (avoids_ok _ _) fun _ some => absurd some Bool.false_ne_true
      | some baseName =>
          cases main.jsonFindMember encryptedText with
          | none =>
              exact iff_of_true (avoids_ok _ _) fun _ _ _ some =>
                absurd some.symm (Option.some_ne_none _)
          | some encrypted =>
              simp only [Option.isSome_some, Option.some.injEq, forall_eq', true_imp_iff]
              rw [← avoids_boolOf]
              apply avoids_last
              intro flag
              cases main.jsonFindMember parametersText <;> exact avoids_ok _ _

theorem getEventBase_iff (main : JsonNode ν) (id name : Bytes) (base : EventBase ν) :
    getEventBase main id name = .ok (some base) ↔ Members id name main base := by
  constructor
  · intro run
    rw [getEventBase] at run
    cases hasId : fillStringFromJson main id with
    | none =>
        rw [hasId] at run
        cases run
    | some baseId =>
        cases hasName : fillStringFromJson main name with
        | none =>
            rw [hasId, hasName] at run
            cases run
        | some baseName =>
            cases hasEncrypted : main.jsonFindMember encryptedText with
            | none =>
                rw [hasId, hasName, hasEncrypted] at run
                cases run
            | some node =>
                rw [hasId, hasName, hasEncrypted] at run
                obtain ⟨flag, read, run⟩ := ok_of_bind run
                have avoids : Avoids .nullPointer (boolOf node) := read ▸ avoids_ok _ flag
                obtain ⟨key, b, rfl⟩ := exists_bool ((avoids_boolOf node).mp avoids)
                cases read
                cases hasParameters : main.jsonFindMember parametersText with
                | none =>
                    rw [hasParameters] at run
                    cases run
                | some parameters =>
                    rw [hasParameters] at run
                    cases run
                    exact ⟨hasId, hasName, ⟨key, hasEncrypted⟩, hasParameters⟩
  · rintro ⟨hasId, hasName, ⟨key, hasEncrypted⟩, hasParameters⟩
    rw [getEventBase, hasId, hasName, hasEncrypted, hasParameters]
    rfl

variable (signer printf out) in
theorem failsOnly_getEventRead (id name : Bytes) (main : JsonNode ν) :
    FailsOnly .nullPointer (getEventRead signer printf out id name main) := by
  apply (failsOnly_getEventBase main id name).bind
  intro made
  cases made with
  | none => exact failsOnly_ok _ _
  | some base =>
      apply (failsOnly_signCheckerRead main base).bind
      intro valid
      cases valid <;> exact failsOnly_ok _ _

variable (signer printf out) in
/-- What the end of a message reads is there. -/
theorem avoids_getEventRead (id name : Bytes) (main : JsonNode ν) :
    Avoids .nullPointer (getEventRead signer printf out id name main) ↔
      EventReads out id name main := by
  have after : ∀ base, Avoids .nullPointer
      (signCheckerRead signer printf out main base >>= fun valid =>
        if valid then .ok (some base) else .ok none : Except Fault (Option (EventBase ν))) ↔
          SignatureReads out main base.parameters := by
    intro base
    rw [← avoids_signCheckerRead signer printf main base]
    apply avoids_last
    intro valid
    cases valid <;> exact avoids_ok _ _
  rw [getEventRead, avoids_then, avoids_getEventBase]
  constructor
  · rintro ⟨encrypted, signature⟩
    refine ⟨encrypted, fun base members => (after base).mp ?_⟩
    exact signature (some base) ((getEventBase_iff main id name base).mpr members)
  · rintro ⟨encrypted, signature⟩
    refine ⟨encrypted, fun made run => ?_⟩
    cases made with
    | none => exact avoids_ok _ _
    | some base =>
        exact (after base).mpr (signature base ((getEventBase_iff main id name base).mp run))

/-- The signature of an event is only found right if all that it takes is there. -/
theorem complete_of_signCheckerRead (right : signCheckerRead signer printf out main base = .ok true)
    {version : JsonNode ν} (member : main.jsonFindMember signatureVersionText = some version) :
    version.tag = .string ∧ ∃ sign, main.jsonFindMember signatureText = some sign ∧
      sign.tag = .string := by
  rw [signCheckerRead, member] at right
  obtain ⟨_, -, right⟩ := ok_of_bind right
  cases signature : main.jsonFindMember signatureText with
  | none =>
      rw [signature] at right
      cases right
  | some sign =>
      rw [signature] at right
      obtain ⟨vers, read, right⟩ := ok_of_bind right
      obtain ⟨text, read', -⟩ := ok_of_bind right
      refine ⟨(avoids_string version).mp ?_, sign, rfl, (avoids_string sign).mp ?_⟩
      · exact read ▸ avoids_ok _ vers
      · exact read' ▸ avoids_ok _ text

theorem complete_of_getEventRead
    (made : getEventRead signer printf out id name main = .ok (some base)) :
    Complete id name main := by
  obtain ⟨made', found, made⟩ := ok_of_bind made
  cases made' with
  | none => cases made
  | some base' =>
      obtain ⟨valid, right, made⟩ := ok_of_bind made
      cases valid with
      | false => cases made
      | true =>
          refine ⟨⟨base', (getEventBase_iff _ _ _ _).mp found⟩, fun version member => ?_⟩
          exact complete_of_signCheckerRead right member

/-- What the end of a message returns for its tree, if there is one. -/
def finishResult (event : JsonNode ν → Except Fault (Option (EventBase ν))) :
    Option (JsonNode ν) → Except Fault Int
  | none => .ok (-1)
  | some main => (event main).bind fun made => .ok (if made.isSome then 0 else -1)

variable (event : JsonNode ν → Except Fault (Option (EventBase ν)))

theorem processEventFinishRead_result {s : EventState ν} {items : List (Addr × EventBase ν)}
    (holds : Holds s items) {st : Stack ν} (rep : Represents 0 s.machines st) :
    (processEventFinishRead event s).map Prod.fst = finishResult event st.root := by
  obtain ⟨machines, finished, -, -⟩ := rep.finish_caller
  cases root : st.root with
  | none =>
      rw [root] at finished
      simp [processEventFinishRead, finished, finishResult, Except.map]
  | some main =>
      rw [root] at finished
      cases made : event main with
      | error e => simp [processEventFinishRead, finished, finishResult, made, Except.map]
      | ok made' =>
          cases made' with
          | none => simp [processEventFinishRead, finished, finishResult, made, Except.map]
          | some base =>
              obtain ⟨p', h', added, -⟩ := addLast_eq holds base
              simp [processEventFinishRead, finished, finishResult, made, Heap.alloc, added,
                Except.map]

theorem processHttpFinishRead_result (main : Option (JsonNode ν)) (s : ApiState ν) :
    (processHttpFinishRead event main s).map Prod.fst = finishResult event main := by
  cases main with
  | none => rfl
  | some main =>
      cases made : event main with
      | error e => simp [processHttpFinishRead, finishResult, made, Except.map]
      | ok made' => cases made' <;> simp [processHttpFinishRead, finishResult, made, Except.map]

variable (signer printf out) in
/-- The end of a message reads only what is there if its members have their tags, and then a message
that lacks something is refused. -/
theorem finish_typeSafe_iff (id name : Bytes) (root : Option (JsonNode ν)) :
    TypeSafe (∃ main, root = some main ∧ Complete id name main)
        (finishResult (getEventRead signer printf out id name) root) ↔
      ∀ main, root = some main → EventReads out id name main := by
  have refused : (-1 : Int) < 0 := by decide
  cases root with
  | none =>
      refine iff_of_true ⟨avoids_ok _ _, fun _ => ⟨-1, rfl, refused⟩⟩ ?_
      exact fun main same => absurd same.symm (Option.some_ne_none main)
  | some main =>
      have reads : Avoids .nullPointer
          (finishResult (getEventRead signer printf out id name) (some main)) ↔
          EventReads out id name main := by
        rw [← avoids_getEventRead signer printf out id name main]
        exact avoids_last _ fun made => avoids_ok _ _
      constructor
      · intro safe main' same
        cases same
        exact reads.mp safe.reads
      · intro all
        have event := all main rfl
        refine ⟨reads.mpr event, fun lacks => ?_⟩
        obtain ⟨made, run⟩ := (failsOnly_getEventRead signer printf out id name main).exists_ok
          ((avoids_getEventRead signer printf out id name main).mpr event)
        cases made with
        | none =>
            refine ⟨-1, ?_, refused⟩
            rw [finishResult, run]
            rfl
        | some base => exact absurd ⟨main, rfl, complete_of_getEventRead run⟩ lacks

theorem signChecker_of_read {valid : Bool}
    (read : signCheckerRead signer printf out main base = .ok valid) :
    mqttEventSignChecker signer main base = .ok valid := by
  rw [signCheckerRead] at read
  rw [mqttEventSignChecker]
  cases version : main.jsonFindMember signatureVersionText with
  | none =>
      rw [version] at read
      exact read
  | some signVersion =>
      rw [version] at read
      obtain ⟨_, -, read⟩ := ok_of_bind read
      cases signature : main.jsonFindMember signatureText with
      | none =>
          rw [signature] at read
          exact read
      | some node =>
          rw [signature] at read
          obtain ⟨vers, first, read⟩ := ok_of_bind read
          obtain ⟨sign, second, read⟩ := ok_of_bind read
          dsimp only
          rw [then_of_ok first, then_of_ok second, checkSignature]
          rw [checkSignatureRead] at read
          split_ifs at read ⊢
          · obtain ⟨entries, -, read⟩ := ok_of_bind read
            exact read
          · exact read

/-- Where only what is there is read, the event is that of the queues. -/
theorem getEvent_of_read {made : Option (EventBase ν)}
    (read : getEventRead signer printf out id name main = .ok made) :
    getEvent signer id name main = .ok made := by
  obtain ⟨base, found, read⟩ := ok_of_bind read
  rw [getEvent, then_of_ok found]
  cases base with
  | none => exact read
  | some base =>
      obtain ⟨valid, checked, read⟩ := ok_of_bind read
      dsimp only
      rw [then_of_ok (signChecker_of_read checked)]
      exact read

end Finish

/-! ### Responses -/

section Responses

variable {out : DebugOutput} {e : EventBase ν} {rest : List (EventBase ν)}

/-- What the event of a response has to be, before others in its queue: its status is a string, and
only in the last event it may be missing. A payload that is printed is a string. -/
structure ResponseReads (out : DebugOutput) (e : EventBase ν)
    (rest : List (EventBase ν)) : Prop where
  status : Readable e
  last : e.parameters.jsonFindMember statusText = none → rest = []
  body : out.debug = true → (e.parameters.jsonFindMember statusText).isSome = true → ¬ Fills e →
    ∀ body, e.parameters.jsonFindMember payloadText = some body → body.tag = .string

theorem fillString_isSome (readable : Readable e) :
    (fillStringFromJson e.parameters statusText).isSome = true ↔
      (e.parameters.jsonFindMember statusText).isSome = true := by
  rw [fillStringFromJson]
  cases member : e.parameters.jsonFindMember statusText with
  | none => exact Iff.rfl
  | some status => exact iff_of_true (readable status member) rfl

theorem avoids_fillResponse (image : JsonNode ν → Bytes) {res : ApiResponse ν}
    (set : res.pAddHandler.isSome = true) :
    Avoids .nullPointer (fillResponse image e res) ↔ Readable e := by
  constructor
  · intro avoids status member
    rw [fillResponse, member] at avoids
    exact ((avoids_stringOf _).mp ((avoids_then _ _ _).mp avoids).1 :)
  · intro readable
    by_cases fills : Fills e
    · obtain ⟨res', run, -⟩ := fillResponse_fills image fills (.inl set)
      exact run ▸ avoids_ok _ _
    · exact fillResponse_idle image readable fills ▸ avoids_ok _ _

theorem failsOnly_printedBody (out : DebugOutput) (e : EventBase ν) :
    FailsOnly .nullPointer (printedBody out e) := by
  rw [printedBody]
  split
  · exact failsOnly_ok _ _
  · apply (failsOnly_stringOf _).bind
    intro text
    split_ifs
    · exact failsOnly_ok _ _
    · split
      · exact failsOnly_ok _ _
      · exact failsOnly_printed _ _

theorem avoids_printedBody (readable : Readable e) :
    Avoids .nullPointer (printedBody out e) ↔
      (out.debug = true → (e.parameters.jsonFindMember statusText).isSome = true → ¬ Fills e →
        ∀ body, e.parameters.jsonFindMember payloadText = some body → body.tag = .string) := by
  rw [printedBody, Fills, fillStringFromJson]
  cases member : e.parameters.jsonFindMember statusText with
  | none => exact iff_of_true (avoids_ok _ _) fun _ some => absurd some Bool.false_ne_true
  | some status =>
      obtain ⟨text, string⟩ := Option.isSome_iff_exists.mp (readable status member)
      dsimp only
      have read : stringOf (some status) = .ok text := stringOf_eq string
      rw [then_of_ok read, Option.bind_some, string, Option.some.injEq]
      split_ifs with ok
      · exact iff_of_true (avoids_ok _ _) fun _ _ other => absurd ok other
      · cases e.parameters.jsonFindMember payloadText with
        | none =>
            refine iff_of_true (avoids_ok _ _) fun _ _ _ _ some => ?_
            cases some
        | some body =>
            refine (avoids_printed out.debug body).trans ?_
            simp only [ok, not_false_eq_true, Option.isSome_some, Option.some.injEq, forall_eq',
              true_imp_iff]

theorem apiEventProcRead_eq (image : JsonNode ν → Bytes) (res : ApiResponse ν) {capacity : Int}
    (read : printedBody out e = .ok ()) : apiEventProcRead out image res ⟨e :: rest, capacity⟩ =
      arrowMqttApiEventProc image res ⟨e :: rest, capacity⟩ := by
  simp only [apiEventProcRead, bind_apply, get_apply, ok_bind, lift, read]

/-- A call with a response that has been initialised reads only what is there, and without a status
its result is negative, if the event at the head of the queue is as it should be. -/
theorem apiEventProc_typeSafe_iff (out : DebugOutput) (image : JsonNode ν → Bytes)
    {res : ApiResponse ν} (set : res.pAddHandler.isSome = true) (s : ApiState ν) :
    TypeSafe (∃ e rest, s.apiEventQueue = e :: rest ∧
        (fillStringFromJson e.parameters statusText).isSome = true)
        ((apiEventProcRead out image res s).map fun r => r.1.1) ↔
      ∀ e rest, s.apiEventQueue = e :: rest → ResponseReads out e rest := by
  have refused : (-1 : Int) < 0 := by decide
  obtain ⟨queue, capacity⟩ := s
  cases queue with
  | nil =>
      refine iff_of_true ⟨avoids_ok _ _, fun _ => ⟨-1, rfl, refused⟩⟩ ?_
      intro e rest same
      cases same
  | cons e rest =>
      have run : (apiEventProcRead out image res ⟨e :: rest, capacity⟩).map (fun r => r.1.1) =
          (printedBody out e).bind fun _ => (fillResponse image e res).bind fun filled =>
            .ok (if rest.isEmpty then filled.1 else 1) := by
        simp only [apiEventProcRead, bind_apply, get_apply, ok_bind, lift]
        cases printedBody out e with
        | error e' => rfl
        | ok _ =>
            simp only [ok_bind, eventProc_eq]
            cases fillResponse image e res <;> rfl
      have reads : Avoids .nullPointer ((apiEventProcRead out image res ⟨e :: rest, capacity⟩).map
          fun r => r.1.1) ↔ Avoids .nullPointer (printedBody out e) ∧ Readable e := by
        rw [run, ← avoids_fillResponse image set]
        apply (failsOnly_printedBody out e).avoids_bind
        intro _
        exact avoids_last _ fun filled => avoids_ok _ _
      have without : e.parameters.jsonFindMember statusText = none →
          (apiEventProcRead out image res ⟨e :: rest, capacity⟩).map (fun r => r.1.1) =
            .ok (if rest.isEmpty then -1 else 1) := by
        intro missing
        rw [run, printedBody, fillResponse, missing]
        rfl
      constructor
      · rintro ⟨avoids, rejects⟩ e' rest' same
        cases same
        obtain ⟨printed, readable⟩ := reads.mp avoids
        refine ⟨readable, fun missing => ?_, (avoids_printedBody readable).mp printed⟩
        have lacks : ¬ ∃ e' rest', e :: rest = e' :: rest' ∧
            (fillStringFromJson e'.parameters statusText).isSome = true := by
          rintro ⟨e', rest', same, status⟩
          cases same
          rw [fillStringFromJson, missing] at status
          cases status
        obtain ⟨ret, returned, negative⟩ := rejects lacks
        rw [without missing] at returned
        cases returned
        cases rest with
        | nil => rfl
        | cons e' rest =>
            have positive : ¬ (1 : Int) < 0 := by decide
            exact absurd negative positive
      · intro all
        obtain ⟨readable, last, body⟩ := all e rest rfl
        refine ⟨reads.mpr ⟨(avoids_printedBody readable).mpr body, readable⟩, fun lacks => ?_⟩
        have missing : e.parameters.jsonFindMember statusText = none := by
          rw [← Option.not_isSome_iff_eq_none, ← fillString_isSome readable]
          intro status
          exact lacks ⟨e, rest, rfl, status⟩
        rw [without missing, last missing]
        exact ⟨-1, rfl, refused⟩

end Responses

end AcnSdk.Arrow
