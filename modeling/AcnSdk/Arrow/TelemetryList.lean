/-
The list of telemetry that the cloud responds with, `_telemetry_find_by_device_hid_proc` of
`src/arrow/telemetry_api.c`, and when all parsers of lists are sound.

Here the members are asked for, but not what they are.

* `total_iff` — a parser reads a document soundly and refuses it if something is missing.
-/

import AcnSdk.Arrow.ResponseLists

namespace AcnSdk.Arrow

open AcnSdk.Lib AcnSdk.Json Prog

variable {ν τ : Type}

/-! ### The parser -/

abbrev floatValueText : Bytes := [0x66, 0x6C, 0x6F, 0x61, 0x74, 0x56, 0x61, 0x6C, 0x75, 0x65]

/-- `telemetry_data_info_t`. -/
structure TelemetryDataInfo where
  deviceHid : Bytes
  name : Bytes
  type : Bytes
  timestamp : Int
  floatValue : Int
deriving DecidableEq, Repr

/-- `telemetry_response_data_list_t`. -/
structure TelemetryResponseDataList where
  size : Int
  page : Int
  totalSize : Int
  totalPages : Int
  data : List TelemetryDataInfo
deriving DecidableEq, Repr

/-- `json_find_element`. -/
def jsonFindElement (array : JsonNode ν) (index : Nat) : Option (JsonNode ν) :=
  match array with
  | .container _ .array children => children[index]?
  | _ => none

/-- The members of an element that are asked for. -/
structure TelemetryMembers (ν : Type) where
  deviceHid : JsonNode ν
  name : JsonNode ν
  type : JsonNode ν
  timestamp : JsonNode ν
  floatValue : JsonNode ν

/-- They are there, or it is a `parse_error`. -/
def telemetryMembers (info : JsonNode ν) : Option (TelemetryMembers ν) := do
  let deviceHid ← info.jsonFindMember deviceHidText
  let name ← info.jsonFindMember nameText
  let type ← info.jsonFindMember typeText
  let timestamp ← info.jsonFindMember timestampText
  let floatValue ← info.jsonFindMember floatValueText
  return ⟨deviceHid, name, type, timestamp, floatValue⟩

section

variable (conv : Conversions ν τ)

/-- `add_telemetry_data_info`, with the values that it is called with. -/
def telemetryDataInfo (members : TelemetryMembers ν) : Except Fault TelemetryDataInfo := do
  let deviceHid ← stringOf (some members.deviceHid)
  let name ← stringOf (some members.name)
  let type ← stringOf (some members.type)
  let timestamp ← numberOf members.timestamp
  let floatValue ← numberOf members.floatValue
  return ⟨deviceHid, name, type, conv.toTime timestamp, conv.toInt floatValue⟩

/-- The loop over the elements from `i` on, of which there should be `n` more. -/
def telemetryLoop (data : JsonNode ν) : Nat → Nat → List TelemetryDataInfo →
    Except Fault (Option (List TelemetryDataInfo))
  | 0, _, infos => return some infos
  | n + 1, i, infos =>
      match (jsonFindElement data i).bind telemetryMembers with
      | none => return none
      | some members => do
          let info ← telemetryDataInfo conv members
          telemetryLoop data n (i + 1) (infos ++ [info])

/-- `telemetry_response_data_list_init`. -/
def telemetryResponseDataListInit (size page totalSize totalPages : Int) :
    TelemetryResponseDataList :=
  ⟨size, page, totalSize, totalPages, []⟩

/-- The members of a page, all of which are asked for first. -/
structure PageMembers (ν : Type) where
  size : JsonNode ν
  page : JsonNode ν
  totalSize : JsonNode ν
  totalPages : JsonNode ν

/-- They are there, or it is an error. -/
def pageMembers (main : JsonNode ν) : Option (PageMembers ν) := do
  let size ← main.jsonFindMember sizeText
  let page ← main.jsonFindMember pageText
  let totalSize ← main.jsonFindMember totalSizeText
  let totalPages ← main.jsonFindMember totalPagesText
  return ⟨size, page, totalSize, totalPages⟩

/-- The call of `telemetry_response_data_list_init`. -/
def telemetryPage (members : PageMembers ν) : Except Fault TelemetryResponseDataList := do
  let size ← numberOf members.size
  let page ← numberOf members.page
  let totalSize ← numberOf members.totalSize
  let totalPages ← numberOf members.totalPages
  return telemetryResponseDataListInit (conv.toInt size) (conv.toInt page) (conv.toInt totalSize)
    (conv.toInt totalPages)

/-- What follows the page. A list that is released again does not count. -/
def telemetryData (main : JsonNode ν) (t : TelemetryResponseDataList) :
    Except Fault (Int × Option TelemetryResponseDataList) :=
  match main.jsonFindMember dataText with
  | none => return (0, some t)
  | some data => do
      match ← telemetryLoop conv data t.size.toNat 0 [] with
      | none => return (-1, none)
      | some infos => return (0, some { t with data := infos })

/-- `_telemetry_find_by_device_hid_proc`. A document that is not decoded has no members. -/
def telemetryFindByDeviceHidProc (libc : Libc ν) (httpResponseCode : Nat) (payload : Bytes) :
    Except Fault (Int × Option TelemetryResponseDataList) :=
  if httpResponseCode ≠ 200 then return (-1, none)
  else
    match jsonDecode libc payload with
    | none => return (-1, none)
    | some main =>
        match pageMembers main with
        | none => return (-1, none)
        | some members => do telemetryData conv main (← telemetryPage conv members)

end

/-! ### What is read of an element -/

/-- The members have the tags that they are read under. -/
structure TelemetryMembers.Tagged (members : TelemetryMembers ν) : Prop where
  deviceHid : members.deviceHid.tag = .string
  name : members.name.tag = .string
  type : members.type.tag = .string
  timestamp : members.timestamp.tag = .number
  floatValue : members.floatValue.tag = .number

/-- An element with all its members. -/
def HasTelemetry (data : JsonNode ν) (i : Nat) : Prop :=
  ∃ members, (jsonFindElement data i).bind telemetryMembers = some members ∧ members.Tagged

/-- An element with members under other tags. -/
def Mistyped (data : JsonNode ν) (i : Nat) : Prop :=
  ∃ members, (jsonFindElement data i).bind telemetryMembers = some members ∧ ¬ members.Tagged

section

variable {conv : Conversions ν τ}

theorem stringOf_ok_iff (node : JsonNode ν) :
    (∃ s, stringOf (some node) = .ok s) ↔ node.tag = .string := by
  rcases node with ⟨key, _ | _ | s | _⟩ | ⟨key, _ | _, _⟩
  all_goals simp [stringOf, JsonNode.stringValue, JsonNode.tag]

theorem numberOf_ok_iff (node : JsonNode ν) :
    (∃ n, numberOf node = .ok n) ↔ node.tag = .number := by
  rcases node with ⟨key, _ | _ | s | _⟩ | ⟨key, _ | _, _⟩
  all_goals simp [numberOf, JsonNode.tag]

theorem telemetryDataInfo_ok_iff (members : TelemetryMembers ν) :
    (∃ info, telemetryDataInfo conv members = .ok info) ↔ members.Tagged := by
  constructor
  · rintro ⟨info, run⟩
    obtain ⟨deviceHid, first, run⟩ := ok_of_bind run
    obtain ⟨name, second, run⟩ := ok_of_bind run
    obtain ⟨type, third, run⟩ := ok_of_bind run
    obtain ⟨timestamp, fourth, run⟩ := ok_of_bind run
    obtain ⟨floatValue, fifth, run⟩ := ok_of_bind run
    exact ⟨(stringOf_ok_iff _).mp ⟨_, first⟩, (stringOf_ok_iff _).mp ⟨_, second⟩,
      (stringOf_ok_iff _).mp ⟨_, third⟩, (numberOf_ok_iff _).mp ⟨_, fourth⟩,
      (numberOf_ok_iff _).mp ⟨_, fifth⟩⟩
  · rintro ⟨deviceHid, name, type, timestamp, floatValue⟩
    obtain ⟨_, first⟩ := (stringOf_ok_iff _).mpr deviceHid
    obtain ⟨_, second⟩ := (stringOf_ok_iff _).mpr name
    obtain ⟨_, third⟩ := (stringOf_ok_iff _).mpr type
    obtain ⟨_, fourth⟩ := (numberOf_ok_iff _).mpr timestamp
    obtain ⟨_, fifth⟩ := (numberOf_ok_iff _).mpr floatValue
    exact ⟨_, by
      rw [telemetryDataInfo, then_of_ok first, then_of_ok second, then_of_ok third,
        then_of_ok fourth, then_of_ok fifth]
      rfl⟩

/-- The loop ends with the list if all elements are there, and with an error if one of them is not
and none before it has another tag. -/
theorem telemetryLoop_cases (data : JsonNode ν) (n i : Nat) (infos : List TelemetryDataInfo) :
    (∃ infos', telemetryLoop conv data n i infos = .ok (some infos') ∧
        ∀ k < n, HasTelemetry data (i + k)) ∨
      (∃ k < n, (∀ j < k, HasTelemetry data (i + j)) ∧
        (((jsonFindElement data (i + k)).bind telemetryMembers = none ∧
            telemetryLoop conv data n i infos = .ok none) ∨
          (Mistyped data (i + k) ∧ ∀ r, telemetryLoop conv data n i infos ≠ .ok r))) := by
  induction n generalizing i infos with
  | zero => exact .inl ⟨infos, rfl, fun k less => absurd less (Nat.not_lt_zero k)⟩
  | succ n ih =>
      rw [telemetryLoop]
      cases there : (jsonFindElement data i).bind telemetryMembers with
      | none =>
          exact .inr ⟨0, Nat.succ_pos n, fun j less => absurd less (Nat.not_lt_zero j),
            .inl ⟨there, rfl⟩⟩
      | some members =>
          dsimp only
          by_cases tagged : members.Tagged
          · obtain ⟨info, read⟩ := (telemetryDataInfo_ok_iff members).mpr tagged
            rw [then_of_ok read]
            have first : HasTelemetry data i := ⟨members, there, tagged⟩
            have front : ∀ {k : Nat}, (∀ j < k, HasTelemetry data (i + 1 + j)) →
                ∀ j < k + 1, HasTelemetry data (i + j) := by
              intro k all j less
              cases j with
              | zero => exact first
              | succ j =>
                  rw [Nat.add_comm j 1, ← Nat.add_assoc]
                  exact all j (Nat.lt_of_succ_lt_succ less)
            rcases ih (i + 1) (infos ++ [info]) with ⟨infos', run, all⟩ | ⟨k, less, all, ends⟩
            · exact .inl ⟨infos', run, front all⟩
            · rw [Nat.add_assoc, Nat.add_comm 1 k] at ends
              exact .inr ⟨k + 1, Nat.succ_lt_succ less, front all, ends⟩
          · refine .inr ⟨0, Nat.succ_pos n, fun j less => absurd less (Nat.not_lt_zero j),
              .inr ⟨⟨members, there, tagged⟩, ?_⟩⟩
            intro r run
            obtain ⟨info, read, -⟩ := ok_of_bind run
            exact tagged ((telemetryDataInfo_ok_iff members).mp ⟨info, read⟩)

/-- A page has its numbers, and all elements that it counts. -/
def TelemetryComplete (conv : Conversions ν τ) (main : JsonNode ν) : Prop :=
  ∃ size, numberIn main sizeText = some size ∧ Paged main ∧ (0 < conv.toInt size →
    ∃ data, main.jsonFindMember dataText = some data ∧
      ∀ k < (conv.toInt size).toNat, HasTelemetry data k)

/-- A page has its numbers, and up to the first element that is missing none has other tags. -/
def TelemetrySound (conv : Conversions ν τ) (main : JsonNode ν) : Prop :=
  ∃ size, numberIn main sizeText = some size ∧ Paged main ∧ (0 < conv.toInt size →
    ∃ data, main.jsonFindMember dataText = some data ∧
      ∀ k < (conv.toInt size).toNat, (∀ j < k, HasTelemetry data j) → ¬ Mistyped data k)

theorem numberIn_eq_some_iff (main : JsonNode ν) (name : Bytes) (n : ν) :
    numberIn main name = some n ↔
      ∃ node, main.jsonFindMember name = some node ∧ numberOf node = .ok n := by
  rw [numberIn]
  cases main.jsonFindMember name with
  | none => simp
  | some node =>
      rcases node with ⟨key, _ | _ | _ | _⟩ | ⟨key, _ | _, _⟩
      all_goals simp [numberOf]

theorem pageMembers_eq_some_iff (main : JsonNode ν) (members : PageMembers ν) :
    pageMembers main = some members ↔ main.jsonFindMember sizeText = some members.size ∧
      main.jsonFindMember pageText = some members.page ∧
      main.jsonFindMember totalSizeText = some members.totalSize ∧
      main.jsonFindMember totalPagesText = some members.totalPages := by
  obtain ⟨size, page, totalSize, totalPages⟩ := members
  simp [pageMembers, Option.bind_eq_some_iff]

/-- A page whose members are numbers. -/
theorem telemetryPage_ok_iff {main : JsonNode ν} {members : PageMembers ν}
    (there : pageMembers main = some members) (n : Int) :
    (∃ t, telemetryPage conv members = .ok t ∧ t.size = n) ↔
      ∃ size, numberIn main sizeText = some size ∧ Paged main ∧ conv.toInt size = n := by
  obtain ⟨size_found, page_found, totalSize_found, totalPages_found⟩ :=
    (pageMembers_eq_some_iff main members).mp there
  have number : ∀ {name : Bytes} {node : JsonNode ν}, main.jsonFindMember name = some node →
      ∀ i, numberIn main name = some i ↔ numberOf node = .ok i := by
    intro name node found i
    rw [numberIn_eq_some_iff, found]
    simp
  constructor
  · rintro ⟨t, run, rfl⟩
    obtain ⟨size, first, run⟩ := ok_of_bind run
    obtain ⟨page, second, run⟩ := ok_of_bind run
    obtain ⟨totalSize, third, run⟩ := ok_of_bind run
    obtain ⟨totalPages, fourth, run⟩ := ok_of_bind run
    cases run
    exact ⟨size, (number size_found _).mpr first,
      ⟨Option.isSome_iff_exists.mpr ⟨_, (number page_found _).mpr second⟩,
        Option.isSome_iff_exists.mpr ⟨_, (number totalSize_found _).mpr third⟩,
        Option.isSome_iff_exists.mpr ⟨_, (number totalPages_found _).mpr fourth⟩⟩, rfl⟩
  · rintro ⟨size, first, ⟨second, third, fourth⟩, rfl⟩
    obtain ⟨page, second⟩ := Option.isSome_iff_exists.mp second
    obtain ⟨totalSize, third⟩ := Option.isSome_iff_exists.mp third
    obtain ⟨totalPages, fourth⟩ := Option.isSome_iff_exists.mp fourth
    refine ⟨telemetryResponseDataListInit (conv.toInt size) (conv.toInt page)
      (conv.toInt totalSize) (conv.toInt totalPages), ?_, rfl⟩
    rw [telemetryPage, then_of_ok ((number size_found _).mp first),
      then_of_ok ((number page_found _).mp second),
      then_of_ok ((number totalSize_found _).mp third),
      then_of_ok ((number totalPages_found _).mp fourth)]
    rfl

/-- The elements behind a page of a given size. -/
theorem telemetryData_total_iff (main : JsonNode ν) (t : TelemetryResponseDataList) :
    Total (0 < t.size → ∃ data, main.jsonFindMember dataText = some data ∧
        ∀ k < t.size.toNat, HasTelemetry data k) (fun r => r.1 < 0) (telemetryData conv main t) ↔
      (0 < t.size → ∃ data, main.jsonFindMember dataText = some data ∧
        ∀ k < t.size.toNat, (∀ j < k, HasTelemetry data j) → ¬ Mistyped data k) := by
  rw [telemetryData]
  cases found : main.jsonFindMember dataText with
  | none =>
      have no_data : ∀ P : JsonNode ν → Prop, ¬ ∃ data, none = some data ∧ P data := by simp
      simp only [no_data, imp_false]
      constructor
      · rintro ⟨r, run, refuses⟩ many
        cases run
        exact Int.lt_irrefl 0 (refuses (not_not_intro many))
      · intro none
        exact ⟨_, rfl, fun incomplete => absurd none incomplete⟩
  | some data =>
      simp only [Option.some.injEq, exists_eq_left']
      rcases telemetryLoop_cases data t.size.toNat 0 [] with
        ⟨infos, run, all⟩ | ⟨k, less, all, ends⟩
      · simp only [Nat.zero_add] at all
        rw [then_of_ok run]
        refine iff_of_true ⟨_, rfl, fun incomplete => absurd (fun _ => all) incomplete⟩ ?_
        rintro - k less - ⟨members, there, other⟩
        obtain ⟨members', there', tagged⟩ := all k less
        obtain rfl : members = members' := Option.some.inj (there.symm.trans there')
        exact other tagged
      · simp only [Nat.zero_add] at all ends
        rcases ends with ⟨missing, run⟩ | ⟨mistyped, fails⟩
        · rw [then_of_ok run]
          refine iff_of_true ⟨_, rfl, fun _ => show (-1 : Int) < 0 by decide⟩ ?_
          rintro - k' less' all' ⟨members, there, other⟩
          rcases Nat.lt_trichotomy k' k with before | same | behind
          · obtain ⟨members', there', tagged⟩ := all k' before
            obtain rfl : members = members' := Option.some.inj (there.symm.trans there')
            exact other tagged
          · rw [same, missing] at there
            cases there
          · obtain ⟨members', there', -⟩ := all' k behind
            rw [missing] at there'
            cases there'
        · refine iff_of_false ?_ ?_
          · rintro ⟨r, run, -⟩
            obtain ⟨infos, looped, -⟩ := ok_of_bind run
            exact fails infos looped
          · intro sound
            exact sound (by omega) k less all mistyped

/-- The telemetry list is read soundly where nothing is expected of the document, or its numbers
are there and its elements are until one is missing. -/
theorem telemetry_total_iff (libc : Libc ν) (code : Nat) (payload : Bytes) :
    Total (∃ main, jsonDecode libc payload = some main ∧ TelemetryComplete conv main)
        (fun r => r.1 < 0) (telemetryFindByDeviceHidProc conv libc code payload) ↔
      (code = 200 → ∀ main, jsonDecode libc payload = some main →
        (pageMembers main).isSome = true → TelemetrySound conv main) := by
  have refused : ∀ complete : Prop, Total complete (fun r => r.1 < 0)
      (.ok (-1, none) : Except Fault (Int × Option TelemetryResponseDataList)) := fun _ =>
    ⟨_, rfl, fun _ => show (-1 : Int) < 0 by decide⟩
  rw [telemetryFindByDeviceHidProc]
  by_cases ok : code = 200
  case neg =>
    rw [if_pos ok]
    exact iff_of_true (refused _) fun other => absurd other ok
  rw [if_neg (not_not_intro ok), forall_prop_of_true ok]
  cases decoded : jsonDecode libc payload with
  | none => exact iff_of_true (refused _) (by simp)
  | some main =>
      simp only [Option.some.injEq, exists_eq_left', forall_eq']
      cases there : pageMembers main with
      | none => exact iff_of_true (refused _) (by simp)
      | some members =>
          simp only [Option.isSome_some, forall_const]
          constructor
          · rintro ⟨r, run, refuses⟩
            obtain ⟨t, read, run⟩ := ok_of_bind run
            obtain ⟨size, number, paged, size_eq⟩ :=
              (telemetryPage_ok_iff there t.size).mp ⟨t, read, rfl⟩
            refine ⟨size, number, paged, ?_⟩
            rw [size_eq]
            refine (telemetryData_total_iff main t).mp ⟨r, run, fun incomplete => refuses ?_⟩
            rintro ⟨size', number', -, complete⟩
            obtain rfl : size = size' := Option.some.inj (number.symm.trans number')
            rw [size_eq] at complete
            exact incomplete complete
          · rintro ⟨size, number, paged, sound⟩
            obtain ⟨t, read, size_eq⟩ :=
              (telemetryPage_ok_iff there (conv.toInt size)).mpr ⟨size, number, paged, rfl⟩
            rw [← size_eq] at sound
            obtain ⟨r, run, refuses⟩ := (telemetryData_total_iff main t).mpr sound
            refine ⟨r, by rw [then_of_ok read]; exact run, fun incomplete => refuses ?_⟩
            intro complete
            rw [size_eq] at complete
            exact incomplete ⟨size, number, paged, complete⟩

end

/-! ### All parsers -/

/-- The parsers of lists: `parse_size_data` with or without the numbers of the page, the three
lists over it, and the list of telemetry with the code of its response. -/
inductive ListParser where
  | sizeData (ps : Bool)
  | deviceInfo
  | gatewayInfo
  | log
  | telemetry (code : Nat)

namespace ListParser

variable (libc : Libc ν) (conv : Conversions ν τ)

/-- The parser never reads a member that is missing or has another tag, and refuses a document
where a member is missing that it needs. -/
def IsTotal (s : Bytes) : ListParser → Prop
  | sizeData ps => ∀ main, jsonDecode libc s = some main →
      Total (PageComplete conv ps (fun _ => True) main) (fun r => r.1 = none)
        (parseSizeData conv main ps)
  | deviceInfo => ∀ list,
      Total (∃ main, jsonDecode libc s = some main ∧ PageComplete conv false HasInfo main)
        (fun r => r.1 < 0) (deviceInfoParse conv libc list s)
  | gatewayInfo => ∀ list,
      Total (∃ main, jsonDecode libc s = some main ∧ PageComplete conv false (fun _ => True) main)
        (fun r => r.1 < 0) (gatewayInfoParse conv libc list s)
  | log => ∀ list,
      Total (∃ main, jsonDecode libc s = some main ∧ PageComplete conv false HasParameters main)
        (fun r => r.1 < 0) (logParse conv libc list s)
  | telemetry code =>
      Total (∃ main, jsonDecode libc s = some main ∧ TelemetryComplete conv main)
        (fun r => r.1 < 0) (telemetryFindByDeviceHidProc conv libc code s)

/-- What the parser takes for granted of a document. -/
def Presumes (main : JsonNode ν) : ListParser → Prop
  | sizeData ps => ∃ size, numberIn main sizeText = some size ∧ (conv.toInt size ≠ 0 →
      (ps = true → Paged main) ∧
        ∀ data, main.jsonFindMember dataText = some data → data.tag = .array)
  | deviceInfo => PageComplete conv false HasInfo main
  | gatewayInfo => PageComplete conv false (fun _ => True) main
  | log => PageComplete conv false HasParameters main
  | telemetry code => code = 200 → (pageMembers main).isSome = true → TelemetrySound conv main

end ListParser

/-- A parser is total on a text exactly if it is no document, or one with what the parser takes
for granted. -/
theorem total_iff (libc : Libc ν) (conv : Conversions ν τ) (parser : ListParser) (s : Bytes) :
    parser.IsTotal libc conv s ↔
      ∀ main, jsonDecode libc s = some main → parser.Presumes conv main := by
  cases parser with
  | sizeData ps =>
      exact forall₂_congr fun main _ => parseSizeData_total_iff main ps
  | deviceInfo =>
      exact ⟨fun total => (deviceInfoParse_total_iff libc s []).mp (total []),
        fun presumed list => (deviceInfoParse_total_iff libc s list).mpr presumed⟩
  | gatewayInfo =>
      exact ⟨fun total => (gatewayInfoParse_total_iff libc s []).mp (total []),
        fun presumed list => (gatewayInfoParse_total_iff libc s list).mpr presumed⟩
  | log =>
      exact ⟨fun total => (logParse_total_iff libc s []).mp (total []),
        fun presumed list => (logParse_total_iff libc s list).mpr presumed⟩
  | telemetry code =>
      rw [ListParser.IsTotal, telemetry_total_iff]
      exact ⟨fun sound main decoded ok there => sound ok main decoded there,
        fun sound ok main decoded there => sound main decoded ok there⟩

/-- `{}` -/
def emptyObject : Bytes := [0x7B, 0x7D]

/-- Numbers and dates that are what they are. -/
def Conversions.nat : Conversions Nat Unit := ⟨fun n => n, fun n => n, (), fun _ _ => ()⟩

/-- Without a size, its tag is read through `NULL`. -/
theorem not_isTotal_emptyObject :
    ¬ ListParser.deviceInfo.IsTotal Libc.nat Conversions.nat emptyObject := by
  rw [total_iff]
  intro presumed
  obtain ⟨size, number, -⟩ := presumed (.container none .object []) rfl
  cases number

end AcnSdk.Arrow
