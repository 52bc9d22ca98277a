/-
The lists that the cloud responds with: `parse_size_data` and `who_when_parse` of
`src/arrow/api/json/parse.c`, and the lists of devices, gateways and log entries over them.

`parse_size_data` looks at the tag of a member only if there is none, and otherwise reads the
number without looking. Reading through `NULL` and reading a value under another tag are the
faults of this module.

* `parseSizeData_total_iff` — when the numbers of a page are read soundly.
* `parseList_total_iff` — when a list is.
-/

import AcnSdk.Arrow.DeviceCommand
import AcnSdk.Arrow.MessageReads
import AcnSdk.Json.Parse

namespace AcnSdk.Arrow

open AcnSdk.Lib AcnSdk.Json Prog

variable {ν τ α : Type}

/-! ### Names of members -/

abbrev sizeText : Bytes := [0x73, 0x69, 0x7A, 0x65]
abbrev pageText : Bytes := [0x70, 0x61, 0x67, 0x65]
abbrev totalSizeText : Bytes := [0x74, 0x6F, 0x74, 0x61, 0x6C, 0x53, 0x69, 0x7A, 0x65]
abbrev totalPagesText : Bytes := [0x74, 0x6F, 0x74, 0x61, 0x6C, 0x50, 0x61, 0x67, 0x65, 0x73]
abbrev dataText : Bytes := [0x64, 0x61, 0x74, 0x61]
abbrev createdDateText : Bytes :=
  [0x63, 0x72, 0x65, 0x61, 0x74, 0x65, 0x64, 0x44, 0x61, 0x74, 0x65]
abbrev createdByText : Bytes := [0x63, 0x72, 0x65, 0x61, 0x74, 0x65, 0x64, 0x42, 0x79]
abbrev lastModifiedDateText : Bytes :=
  [0x6C, 0x61, 0x73, 0x74, 0x4D, 0x6F, 0x64, 0x69, 0x66, 0x69, 0x65, 0x64, 0x44, 0x61, 0x74, 0x65]
abbrev lastModifiedByText : Bytes :=
  [0x6C, 0x61, 0x73, 0x74, 0x4D, 0x6F, 0x64, 0x69, 0x66, 0x69, 0x65, 0x64, 0x42, 0x79]
abbrev uidText : Bytes := [0x75, 0x69, 0x64]
abbrev typeText : Bytes := [0x74, 0x79, 0x70, 0x65]
abbrev gatewayHidText : Bytes := [0x67, 0x61, 0x74, 0x65, 0x77, 0x61, 0x79, 0x48, 0x69, 0x64]
abbrev enabledText : Bytes := [0x65, 0x6E, 0x61, 0x62, 0x6C, 0x65, 0x64]
abbrev infoText : Bytes := [0x69, 0x6E, 0x66, 0x6F]
abbrev propertiesText : Bytes := [0x70, 0x72, 0x6F, 0x70, 0x65, 0x72, 0x74, 0x69, 0x65, 0x73]
abbrev applicationHidText : Bytes :=
  [0x61, 0x70, 0x70, 0x6C, 0x69, 0x63, 0x61, 0x74, 0x69, 0x6F, 0x6E, 0x48, 0x69, 0x64]
abbrev userHidText : Bytes := [0x75, 0x73, 0x65, 0x72, 0x48, 0x69, 0x64]
abbrev priText : Bytes := [0x70, 0x72, 0x69]
abbrev deviceTypeText : Bytes := [0x64, 0x65, 0x76, 0x69, 0x63, 0x65, 0x54, 0x79, 0x70, 0x65]
abbrev osNameText : Bytes := [0x6F, 0x73, 0x4E, 0x61, 0x6D, 0x65]
abbrev sdkVersionText : Bytes := [0x73, 0x64, 0x6B, 0x56, 0x65, 0x72, 0x73, 0x69, 0x6F, 0x6E]
abbrev softwareNameText : Bytes :=
  [0x73, 0x6F, 0x66, 0x74, 0x77, 0x61, 0x72, 0x65, 0x4E, 0x61, 0x6D, 0x65]
abbrev softwareVersionText : Bytes :=
  [0x73, 0x6F, 0x66, 0x74, 0x77, 0x61, 0x72, 0x65, 0x56, 0x65, 0x72, 0x73, 0x69, 0x6F, 0x6E]
abbrev productNameText : Bytes :=
  [0x70, 0x72, 0x6F, 0x64, 0x75, 0x63, 0x74, 0x4E, 0x61, 0x6D, 0x65]
abbrev objectHidText : Bytes := [0x6F, 0x62, 0x6A, 0x65, 0x63, 0x74, 0x48, 0x69, 0x64]

/-! ### The numbers of a page -/

/-- What C makes of numbers, and its library of dates in `struct tm`. -/
structure Conversions (ν τ : Type) where
  toInt : ν → Int
  toTime : ν → Int
  zeroTime : τ
  strptime : Bytes → τ → τ

/-- `page_size_t`. -/
structure PageSize where
  size : Int
  page : Int
  totalSize : Int
  totalPages : Int
deriving DecidableEq, Repr

/-- `memset(ps, 0x0, sizeof(page_size_t))`. -/
def PageSize.zero : PageSize := ⟨0, 0, 0, 0⟩

section

variable (conv : Conversions ν τ)

/-- A number of a page: `if ( !_size && _size->tag != JSON_NUMBER ) return NULL;`, which never
returns, and the number as an `int`. -/
def pageNumber (main : JsonNode ν) (name : Bytes) : Except Fault Int :=
  match main.jsonFindMember name with
  | none => throw .nullPointer
  | some node => do return conv.toInt (← numberOf node)

/-- What `parse_size_data` fills in, where `ps` is not `NULL`. -/
def pageSize (main : JsonNode ν) (size : Int) (ps : Bool) : Except Fault PageSize :=
  if ps then do
    let page ← pageNumber conv main pageText
    let totalSize ← pageNumber conv main totalSizeText
    let totalPages ← pageNumber conv main totalPagesText
    return ⟨size, page, totalSize, totalPages⟩
  else return .zero

/-- `parse_size_data`. -/
def parseSizeData (main : JsonNode ν) (ps : Bool) :
    Except Fault (Option (JsonNode ν) × PageSize) := do
  let size ← pageNumber conv main sizeText
  if size ≠ 0 then
    let page ← pageSize conv main size ps
    return (main.jsonFindMember dataText, page)
  else return (none, .zero)

/-! ### Members of elements -/

/-- `who_when_t`. The person is `by`. -/
structure WhoWhen (τ : Type) where
  date : τ
  person : Option Bytes
deriving DecidableEq, Repr

/-- `json_fill_property`: a string, and nothing otherwise. -/
def jsonFillProperty (tmp : JsonNode ν) (name : Bytes) : Option Bytes :=
  (tmp.jsonFindMember name).bind JsonNode.stringValue

/-- `who_when_parse`. -/
def whoWhenParse (tmp : JsonNode ν) (date person : Bytes) : WhoWhen τ where
  date :=
    match jsonFillProperty tmp date with
    | some s => conv.strptime s conv.zeroTime
    | none => conv.zeroTime
  person := jsonFillProperty tmp person

/-- `json_remove_from_parent`, which takes the key off. -/
def removeFromParent : Option (JsonNode ν) → Except Fault (JsonNode ν)
  | none => throw .nullPointer
  | some node => return node.withKey none

/-- `device_info_t`. -/
structure DeviceInfo (ν τ : Type) where
  created : WhoWhen τ
  lastModified : WhoWhen τ
  hid : Option Bytes
  uid : Option Bytes
  name : Option Bytes
  type : Option Bytes
  gatewayHid : Option Bytes
  enabled : Bool
  info : JsonNode ν
  properties : JsonNode ν

/-- `_device_info_parse`. The second member has another name than the first, so it is found as
if that were still there. -/
def parseDeviceInfo (tmp : JsonNode ν) : Except Fault (DeviceInfo ν τ) := do
  let info ← removeFromParent (tmp.jsonFindMember infoText)
  let properties ← removeFromParent (tmp.jsonFindMember propertiesText)
  return {
    created := whoWhenParse conv tmp createdDateText createdByText
    lastModified := whoWhenParse conv tmp lastModifiedDateText lastModifiedByText
    hid := jsonFillProperty tmp hidText
    uid := jsonFillProperty tmp uidText
    name := jsonFillProperty tmp nameText
    type := jsonFillProperty tmp typeText
    gatewayHid := jsonFillProperty tmp gatewayHidText
    enabled :=
      match tmp.jsonFindMember enabledText with
      | some (.scalar _ (.bool b)) => b
      | _ => false
    info := info
    properties := properties }

/-- `gateway_info_t`. -/
structure GatewayInfo (τ : Type) where
  created : WhoWhen τ
  lastModified : WhoWhen τ
  hid : Option Bytes
  applicationHid : Option Bytes
  userHid : Option Bytes
  pri : Option Bytes
  uid : Option Bytes
  name : Option Bytes
  type : Option Bytes
  deviceType : Option Bytes
  osName : Option Bytes
  sdkVersion : Option Bytes
  softwareName : Option Bytes
  softwareVersion : Option Bytes
deriving DecidableEq, Repr

/-- The body of the loop of `gateway_info_parse`. -/
def parseGatewayInfo (tmp : JsonNode ν) : Except Fault (GatewayInfo τ) :=
  return {
    created := whoWhenParse conv tmp createdDateText createdByText
    lastModified := whoWhenParse conv tmp lastModifiedDateText lastModifiedByText
    hid := jsonFillProperty tmp hidText
    applicationHid := jsonFillProperty tmp applicationHidText
    userHid := jsonFillProperty tmp userHidText
    pri := jsonFillProperty tmp priText
    uid := jsonFillProperty tmp uidText
    name := jsonFillProperty tmp nameText
    type := jsonFillProperty tmp typeText
    deviceType := jsonFillProperty tmp deviceTypeText
    osName := jsonFillProperty tmp osNameText
    sdkVersion := jsonFillProperty tmp sdkVersionText
    softwareName := jsonFillProperty tmp softwareNameText
    softwareVersion := jsonFillProperty tmp softwareVersionText }

/-- `log_t`. -/
structure Log (ν τ : Type) where
  created : WhoWhen τ
  productName : Option Bytes
  type : Option Bytes
  objectHid : Option Bytes
  parameters : JsonNode ν

/-- The body of the loop of `log_parse`. -/
def parseLog (tmp : JsonNode ν) : Except Fault (Log ν τ) := do
  let parameters ← removeFromParent (tmp.jsonFindMember parametersText)
  return {
    created := whoWhenParse conv tmp createdDateText createdByText
    productName := jsonFillProperty tmp productNameText
    type := jsonFillProperty tmp typeText
    objectHid := jsonFillProperty tmp objectHidText
    parameters := parameters }

/-! ### Lists -/

/-- The loop over the elements, each added behind the last. -/
def parseElements (parse : JsonNode ν → Except Fault α) (list : List α) :
    List (JsonNode ν) → Except Fault (List α)
  | [] => return list
  | tmp :: rest => do parseElements parse (list ++ [← parse tmp]) rest

/-- A list of elements with the numbers of its page, from the text of a response. -/
def parseList (libc : Libc ν) (parse : JsonNode ν → Except Fault α) (list : List α) (s : Bytes) :
    Except Fault (Int × List α) :=
  match jsonDecode libc s with
  | none => return (-1, list)
  | some main => do
      match ← parseSizeData conv main false with
      | (none, _) => return (0, list)
      | (some data, _) => return (0, ← parseElements parse list data.jsonFirstChild)

/-- `device_info_parse`. -/
def deviceInfoParse (libc : Libc ν) :
    List (DeviceInfo ν τ) → Bytes → Except Fault (Int × List (DeviceInfo ν τ)) :=
  parseList conv libc (parseDeviceInfo conv)

/-- `gateway_info_parse`. -/
def gatewayInfoParse (libc : Libc ν) :
    List (GatewayInfo τ) → Bytes → Except Fault (Int × List (GatewayInfo τ)) :=
  parseList conv libc (parseGatewayInfo conv)

/-- `log_parse`. -/
def logParse (libc : Libc ν) :
    List (Log ν τ) → Bytes → Except Fault (Int × List (Log ν τ)) :=
  parseList conv libc (parseLog conv)

/-! ### What has to be there -/

/-- A member that is a number. -/
def numberIn (main : JsonNode ν) (name : Bytes) : Option ν :=
  match main.jsonFindMember name with
  | some (.scalar _ (.number n)) => some n
  | _ => none

/-- The numbers of a page besides its size. -/
structure Paged (main : JsonNode ν) : Prop where
  page : (numberIn main pageText).isSome = true
  totalSize : (numberIn main totalSizeText).isSome = true
  totalPages : (numberIn main totalPagesText).isSome = true

/-- A page has its numbers, and an array of elements if it has any. -/
def PageComplete (ps : Bool) (element : JsonNode ν → Prop) (main : JsonNode ν) : Prop :=
  ∃ size, numberIn main sizeText = some size ∧ (conv.toInt size ≠ 0 →
    (ps = true → Paged main) ∧
      ∃ key elements, main.jsonFindMember dataText = some (.container key .array elements) ∧
        ∀ e ∈ elements, element e)

/-- A call gives a result without a fault, and refuses what is not complete. -/
def Total (complete : Prop) (refused : α → Prop) (call : Except Fault α) : Prop :=
  ∃ a, call = .ok a ∧ (¬ complete → refused a)

end

/-! ### When it is read soundly -/

section

variable {conv : Conversions ν τ}

theorem pageNumber_eq (main : JsonNode ν) (name : Bytes) : pageNumber conv main name =
    match numberIn main name with
    | some n => .ok (conv.toInt n)
    | none => .error .nullPointer := by
  rw [pageNumber, numberIn]
  cases main.jsonFindMember name with
  | none => rfl
  | some node =>
      rcases node with ⟨key, _ | _ | _ | _⟩ | _ <;> rfl

theorem pageNumber_ok {main : JsonNode ν} {name : Bytes} {i : Int}
    (read : pageNumber conv main name = .ok i) :
    ∃ n, numberIn main name = some n ∧ conv.toInt n = i := by
  rw [pageNumber_eq] at read
  cases number : numberIn main name with
  | none =>
      rw [number] at read
      cases read
  | some n =>
      rw [number] at read
      exact ⟨n, rfl, Except.ok.inj read⟩

theorem pageNumber_of_isSome {main : JsonNode ν} {name : Bytes}
    (there : (numberIn main name).isSome = true) : ∃ i, pageNumber conv main name = .ok i := by
  obtain ⟨n, number⟩ := Option.isSome_iff_exists.mp there
  exact ⟨_, by rw [pageNumber_eq, number]⟩

theorem isSome_of_pageNumber {main : JsonNode ν} {name : Bytes} {i : Int}
    (read : pageNumber conv main name = .ok i) : (numberIn main name).isSome = true := by
  obtain ⟨n, number, -⟩ := pageNumber_ok read
  rw [number]
  rfl

theorem pageSize_ok_iff (main : JsonNode ν) (size : Int) (ps : Bool) :
    (∃ page, pageSize conv main size ps = .ok page) ↔ (ps = true → Paged main) := by
  rw [pageSize]
  by_cases is_paged : ps = true
  case neg =>
    rw [if_neg is_paged]
    exact iff_of_true ⟨_, rfl⟩ fun given => absurd given is_paged
  rw [if_pos is_paged, forall_prop_of_true is_paged]
  constructor
  · rintro ⟨page, run⟩
    obtain ⟨i, first, run⟩ := ok_of_bind run
    obtain ⟨j, second, run⟩ := ok_of_bind run
    obtain ⟨k, third, run⟩ := ok_of_bind run
    exact ⟨isSome_of_pageNumber first, isSome_of_pageNumber second, isSome_of_pageNumber third⟩
  · rintro ⟨page, totalSize, totalPages⟩
    obtain ⟨i, first⟩ := pageNumber_of_isSome page
    obtain ⟨j, second⟩ := pageNumber_of_isSome totalSize
    obtain ⟨k, third⟩ := pageNumber_of_isSome totalPages
    exact ⟨_, by rw [then_of_ok first, then_of_ok second, then_of_ok third]; rfl⟩

/-- The data that `parse_size_data` returns. -/
theorem parseSizeData_ok_iff (main : JsonNode ν) (ps : Bool) (data : Option (JsonNode ν)) :
    (∃ page, parseSizeData conv main ps = .ok (data, page)) ↔
      ∃ size, numberIn main sizeText = some size ∧
        if conv.toInt size ≠ 0 then (ps = true → Paged main) ∧ main.jsonFindMember dataText = data
        else data = none := by
  constructor
  · rintro ⟨page, run⟩
    obtain ⟨i, read, run⟩ := ok_of_bind run
    obtain ⟨size, number, rfl⟩ := pageNumber_ok read
    refine ⟨size, number, ?_⟩
    split at run
    · next many =>
      rw [if_pos many]
      obtain ⟨page', filled, run⟩ := ok_of_bind run
      obtain ⟨found, -⟩ := Prod.mk.inj (Except.ok.inj run)
      exact ⟨(pageSize_ok_iff main _ ps).mp ⟨page', filled⟩, found⟩
    · next none =>
      rw [if_neg none]
      cases run
      rfl
  · rintro ⟨size, number, rest⟩
    have read : pageNumber conv main sizeText = .ok (conv.toInt size) := by
      rw [pageNumber_eq, number]
    split at rest
    · next many =>
      obtain ⟨paged, found⟩ := rest
      obtain ⟨page, filled⟩ := (pageSize_ok_iff main (conv.toInt size) ps).mpr paged
      exact ⟨page,
        by rw [parseSizeData, then_of_ok read, if_pos many, then_of_ok filled, found]; rfl⟩
    · next none =>
      exact ⟨.zero, by rw [parseSizeData, then_of_ok read, if_neg none, rest]; rfl⟩

/-- `parse_size_data` is sound where its numbers are there; without the data it returns `NULL`. -/
theorem parseSizeData_total_iff (main : JsonNode ν) (ps : Bool) :
    Total (PageComplete conv ps (fun _ => True) main) (fun r => r.1 = none)
      (parseSizeData conv main ps) ↔
      ∃ size, numberIn main sizeText = some size ∧ (conv.toInt size ≠ 0 →
        (ps = true → Paged main) ∧
          ∀ data, main.jsonFindMember dataText = some data → data.tag = .array) := by
  constructor
  · rintro ⟨⟨data, page⟩, run, refuses⟩
    obtain ⟨size, number, rest⟩ := (parseSizeData_ok_iff main ps data).mp ⟨page, run⟩
    refine ⟨size, number, fun many => ?_⟩
    rw [if_pos many] at rest
    obtain ⟨paged, found⟩ := rest
    refine ⟨paged, fun node there => ?_⟩
    by_contra other
    obtain rfl : data = some node := found.symm.trans there
    have incomplete : ¬ PageComplete conv ps (fun _ => True) main := by
      rintro ⟨size', number', rest⟩
      obtain rfl : size = size' := Option.some.inj (number.symm.trans number')
      obtain ⟨-, key, elements, array, -⟩ := rest many
      obtain rfl : node = .container key .array elements := Option.some.inj (there.symm.trans array)
      exact other rfl
    exact absurd (refuses incomplete) (by simp)
  · rintro ⟨size, number, rest⟩
    by_cases many : conv.toInt size ≠ 0
    · obtain ⟨paged, arrays⟩ := rest many
      obtain ⟨page, run⟩ := (parseSizeData_ok_iff main ps (main.jsonFindMember dataText)).mpr
        ⟨size, number, by rw [if_pos many]; exact ⟨paged, rfl⟩⟩
      refine ⟨_, run, fun incomplete => ?_⟩
      by_contra there
      obtain ⟨node, found⟩ := Option.ne_none_iff_exists'.mp there
      have array := arrays node found
      refine incomplete ⟨size, number, fun _ => ⟨paged, ?_⟩⟩
      match node, array with
      | .container key .array elements, _ => exact ⟨key, elements, found, fun _ _ => trivial⟩
    · obtain ⟨page, run⟩ := (parseSizeData_ok_iff main ps none).mpr
        ⟨size, number, by rw [if_neg many]⟩
      exact ⟨_, run, fun _ => rfl⟩

theorem parseElements_ok_iff {parse : JsonNode ν → Except Fault α} {element : JsonNode ν → Prop}
    (parse_ok_iff : ∀ e, (∃ a, parse e = .ok a) ↔ element e) (list : List α)
    (elements : List (JsonNode ν)) :
    (∃ list', parseElements parse list elements = .ok list') ↔ ∀ e ∈ elements, element e := by
  induction elements generalizing list with
  | nil => exact iff_of_true ⟨list, rfl⟩ (by simp)
  | cons e rest ih =>
      rw [List.forall_mem_cons, ← parse_ok_iff e]
      constructor
      · rintro ⟨list', run⟩
        obtain ⟨a, parsed, run⟩ := ok_of_bind run
        exact ⟨⟨a, parsed⟩, (ih _).mp ⟨list', run⟩⟩
      · rintro ⟨⟨a, parsed⟩, all⟩
        rw [parseElements, then_of_ok parsed]
        exact (ih _).mpr all

/-- A list is read soundly where there is no document, or everything is there: what is missing
ends in a fault or goes unnoticed. -/
theorem parseList_total_iff (libc : Libc ν) {parse : JsonNode ν → Except Fault α}
    {element : JsonNode ν → Prop} (parse_ok_iff : ∀ e, (∃ a, parse e = .ok a) ↔ element e)
    (list : List α) (s : Bytes) :
    Total (∃ main, jsonDecode libc s = some main ∧ PageComplete conv false element main)
        (fun r => r.1 < 0) (parseList conv libc parse list s) ↔
      ∀ main, jsonDecode libc s = some main → PageComplete conv false element main := by
  rw [parseList]
  cases decoded : jsonDecode libc s with
  | none =>
      exact iff_of_true ⟨(-1, list), rfl, fun _ => show (-1 : Int) < 0 by decide⟩ (by simp)
  | some main =>
      simp only [Option.some.injEq, exists_eq_left', forall_eq']
      constructor
      · rintro ⟨r, run, refuses⟩
        by_contra incomplete
        have negative := refuses incomplete
        obtain ⟨⟨data, page⟩, -, run⟩ := ok_of_bind run
        cases data with
        | none =>
            cases run
            exact Int.lt_irrefl 0 negative
        | some data =>
            obtain ⟨list', -, run⟩ := ok_of_bind run
            cases run
            exact Int.lt_irrefl 0 negative
      · intro complete
        obtain ⟨size, number, rest⟩ := id complete
        by_cases many : conv.toInt size ≠ 0
        · obtain ⟨-, key, elements, array, all⟩ := rest many
          obtain ⟨page, run⟩ := (parseSizeData_ok_iff main false (main.jsonFindMember dataText)).mpr
            ⟨size, number, by rw [if_pos many]; simp⟩
          obtain ⟨list', parsed⟩ := (parseElements_ok_iff parse_ok_iff list elements).mpr all
          refine ⟨(0, list'), ?_, fun incomplete => absurd complete incomplete⟩
          rw [then_of_ok run, array]
          exact then_of_ok parsed
        · obtain ⟨page, run⟩ := (parseSizeData_ok_iff main false none).mpr
            ⟨size, number, by rw [if_neg many]⟩
          refine ⟨(0, list), ?_, fun incomplete => absurd complete incomplete⟩
          rw [then_of_ok run]
          rfl

/-! ### The three lists -/

theorem removeFromParent_ok_iff (node : Option (JsonNode ν)) :
    (∃ node', removeFromParent node = .ok node') ↔ node.isSome = true := by
  cases node with
  | none => exact iff_of_false (fun ⟨_, same⟩ => by cases same) (by simp)
  | some node => exact iff_of_true ⟨_, rfl⟩ rfl

/-- What a device has to have. -/
structure HasInfo (e : JsonNode ν) : Prop where
  info : (e.jsonFindMember infoText).isSome = true
  properties : (e.jsonFindMember propertiesText).isSome = true

/-- What a log entry has to have. -/
def HasParameters (e : JsonNode ν) : Prop := (e.jsonFindMember parametersText).isSome = true

theorem parseDeviceInfo_ok_iff (e : JsonNode ν) :
    (∃ gd, parseDeviceInfo conv e = .ok gd) ↔ HasInfo e := by
  constructor
  · rintro ⟨gd, run⟩
    obtain ⟨info, first, run⟩ := ok_of_bind run
    obtain ⟨properties, second, run⟩ := ok_of_bind run
    exact ⟨(removeFromParent_ok_iff _).mp ⟨info, first⟩,
      (removeFromParent_ok_iff _).mp ⟨properties, second⟩⟩
  · rintro ⟨there, there'⟩
    obtain ⟨info, first⟩ := (removeFromParent_ok_iff _).mpr there
    obtain ⟨properties, second⟩ := (removeFromParent_ok_iff _).mpr there'
    exact ⟨_, by rw [parseDeviceInfo, then_of_ok first, then_of_ok second]; rfl⟩

theorem parseGatewayInfo_ok_iff (e : JsonNode ν) :
    (∃ gi, parseGatewayInfo conv e = .ok gi) ↔ True :=
  iff_of_true ⟨_, rfl⟩ trivial

theorem parseLog_ok_iff (e : JsonNode ν) : (∃ gl, parseLog conv e = .ok gl) ↔ HasParameters e := by
  constructor
  · rintro ⟨gl, run⟩
    obtain ⟨parameters, first, run⟩ := ok_of_bind run
    exact (removeFromParent_ok_iff _).mp ⟨parameters, first⟩
  · intro there
    obtain ⟨parameters, first⟩ := (removeFromParent_ok_iff _).mpr there
    exact ⟨_, by rw [parseLog, then_of_ok first]; rfl⟩

section

variable (libc : Libc ν) (s : Bytes)

theorem deviceInfoParse_total_iff (list : List (DeviceInfo ν τ)) :
    Total (∃ main, jsonDecode libc s = some main ∧ PageComplete conv false HasInfo main)
        (fun r => r.1 < 0) (deviceInfoParse conv libc list s) ↔
      ∀ main, jsonDecode libc s = some main → PageComplete conv false HasInfo main :=
  parseList_total_iff libc parseDeviceInfo_ok_iff list s

theorem gatewayInfoParse_total_iff (list : List (GatewayInfo τ)) :
    Total (∃ main, jsonDecode libc s = some main ∧ PageComplete conv false (fun _ => True) main)
        (fun r => r.1 < 0) (gatewayInfoParse conv libc list s) ↔
      ∀ main, jsonDecode libc s = some main → PageComplete conv false (fun _ => True) main :=
  parseList_total_iff libc parseGatewayInfo_ok_iff list s

theorem logParse_total_iff (list : List (Log ν τ)) :
    Total (∃ main, jsonDecode libc s = some main ∧ PageComplete conv false HasParameters main)
        (fun r => r.1 < 0) (logParse conv libc list s) ↔
      ∀ main, jsonDecode libc s = some main → PageComplete conv false HasParameters main :=
  parseList_total_iff libc parseLog_ok_iff list s

end

end

end AcnSdk.Arrow
