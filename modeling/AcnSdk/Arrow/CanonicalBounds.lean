/-
How the canonical form of the parameters of any event stays within its memory.

* `canonical_iff` — for which parameters of a decoded message each build returns the canonical
  string, without a write outside its memory.
* `arrowEventSign_dynamic`, `arrowEventSign_static` — for these parameters an event is signed over
  the canonical string.
-/

import AcnSdk.Arrow.CanonicalBlocks
import AcnSdk.Arrow.CanonicalBuffer
import AcnSdk.Arrow.EventBase
import AcnSdk.Json.DecodeExact

namespace AcnSdk.Arrow

open AcnSdk.Lib AcnSdk.Json Ascii

variable {ν : Type}

theorem jsonFindMember_strings {object node : JsonNode ν} {name : Bytes} (strings : object.Strings)
    (found : object.jsonFindMember name = some node) : node.Strings := by
  unfold JsonNode.jsonFindMember at found
  split at found
  · exact strings.children node (List.mem_of_find?_eq_some found)
  · cases found

/-- The members of a tree of C strings. -/
theorem Plain.of_strings {printNumber : JsonNode ν → Bytes} (numbers : ∀ node, 0 ∉ printNumber node)
    {child : JsonNode ν} (strings : child.Strings) : Plain printNumber child := by
  refine ⟨?_, ?_⟩
  · intro mem
    cases has_key : child.key with
    | none =>
        rw [has_key] at mem
        cases mem
    | some key =>
        rw [has_key] at mem
        exact strings.key key has_key mem
  · cases strings with
    | @scalar _ value _ text =>
        cases value with
        | string s => exact text s rfl
        | bool b =>
            cases b with
            | true => exact (by decide : (0 : Byte) ∉ [0x74, 0x72, 0x75, 0x65])
            | false => exact (by decide : (0 : Byte) ∉ [0x66, 0x61, 0x6C, 0x73, 0x65])
        | null => exact numbers _
        | number n => exact numbers _
    | container _ _ => exact numbers _

/-- Which parameters of a decoded message each build turns into the canonical string: members that
all have keys, from one to twenty of them, with numbers of up to 15 or 49 characters, and with
static memory lines of less than 3000 bytes altogether. -/
theorem canonical_iff (libc : Libc ν) {printNumber : JsonNode ν → Bytes}
    (numbers : ∀ node, 0 ∉ printNumber node) (signed : Bool) (fresh : Nat → Byte)
    {qsort : (Bytes → Bytes → Int) → List Bytes → List Bytes} (sorts : SortsStrings qsort)
    {sm : Addr} {h h' : Heap (Jpm ν)} {x : Jpm ν} (cell : h.cells sm = some x) (live : sm < h.brk)
    {parts : List Bytes} {main param : JsonNode ν}
    (decoded : jsonDecodeStream libc sm parts h = .ok (some (some main), h'))
    (member : main.jsonFindMember parametersText = some param) {buffer : Bytes}
    (length : buffer.length = canonicalSize) :
    (StaticRight printNumber signed param buffer ↔
      Fits printNumber 15 param ∧ linesLength printNumber param.jsonFirstChild < canonicalSize) ∧
    (DynamicRight printNumber fresh qsort param ↔ Fits printNumber 49 param) := by
  have strings := jsonFindMember_strings (decodeStream_strings libc cell live decoded) member
  have plain : ∀ child ∈ param.jsonFirstChild, Plain printNumber child :=
    fun child mem => .of_strings numbers (strings.children child mem)
  exact ⟨formCanonicalPrmStatic_iff signed length plain, formCanonicalPrm_iff fresh sorts plain⟩

/-- `%f` of a number without a fraction. -/
def printNat : JsonNode Nat → Bytes
  | .scalar _ (.number n) => decimal n ++ [dot, 0x30, 0x30, 0x30, 0x30, 0x30, 0x30]
  | _ => [0x30, dot, 0x30, 0x30, 0x30, 0x30, 0x30, 0x30]

theorem printNat_plain (node : JsonNode Nat) : 0 ∉ printNat node := by
  unfold printNat
  split
  · rw [List.mem_append]
    rintro (digit | fraction)
    · exact absurd ((decimal_spec _).1 0 digit) (by decide)
    · exact absurd fraction (by decide)
  · decide

/-- `{"parameters":{"b":true,"n":12}}` -/
def smallMessage : Bytes :=
  [0x7B, 0x22, 0x70, 0x61, 0x72, 0x61, 0x6D, 0x65, 0x74, 0x65, 0x72, 0x73, 0x22, 0x3A, 0x7B, 0x22,
    0x62, 0x22, 0x3A, 0x74, 0x72, 0x75, 0x65, 0x2C, 0x22, 0x6E, 0x22, 0x3A, 0x31, 0x32, 0x7D, 0x7D]

def smallParameters : JsonNode Nat :=
  .container (some parametersText) .object
    [.scalar (some [0x62]) (.bool true), .scalar (some [0x6E]) (.number 12)]

theorem canonical_iff_small :
    (StaticRight printNat true smallParameters (List.replicate canonicalSize 0) ↔
      Fits printNat 15 smallParameters ∧
        linesLength printNat smallParameters.jsonFirstChild < canonicalSize) ∧
    (DynamicRight printNat (fun _ => 0) (fun cmp list => list.insertionSort fun s t => cmp s t ≤ 0)
      smallParameters ↔ Fits printNat 49 smallParameters) := by
  have caller : (callerHeap : Heap (Jpm Nat)).cells 0 = some jsonParseMachineInit := rfl
  obtain ⟨h', decoded⟩ := decodeStream_eq Libc.nat caller (by decide) [smallMessage]
  have tree : jsonDecodeStream Libc.nat 0 [smallMessage] callerHeap =
      .ok (some (some (.container none .object [smallParameters])), h') := decoded
  exact canonical_iff Libc.nat printNat_plain true _ insertionSort_sortsStrings caller
    (by decide) tree
    rfl (List.length_replicate ..)

/-- `{"parameters":{"a":true,…,"a":true}}` with 21 members. -/
def manyMessage : Bytes :=
  [0x7B, 0x22, 0x70, 0x61, 0x72, 0x61, 0x6D, 0x65, 0x74, 0x65, 0x72, 0x73, 0x22, 0x3A, 0x7B, 0x22,
    0x61, 0x22, 0x3A, 0x74, 0x72, 0x75, 0x65] ++
    (List.replicate 20 [0x2C, 0x22, 0x61, 0x22, 0x3A, 0x74, 0x72, 0x75, 0x65]).flatten ++
      [0x7D, 0x7D]

def manyParameters : JsonNode Nat :=
  .container (some parametersText) .object (List.replicate 21 (.scalar (some [0x61]) (.bool true)))

/-- Neither build has an entry in its list for the last member. -/
theorem not_canonical_many :
    (∃ h', jsonDecodeStream Libc.nat 0 [manyMessage] callerHeap =
        .ok (some (some (.container none .object [manyParameters])), h')) ∧
      ¬ StaticRight printNat true manyParameters (List.replicate canonicalSize 0) ∧
      ¬ DynamicRight printNat (fun _ => 0)
        (fun cmp list => list.insertionSort fun s t => cmp s t ≤ 0) manyParameters := by
  have caller : (callerHeap : Heap (Jpm Nat)).cells 0 = some jsonParseMachineInit := rfl
  have plain : ∀ child ∈ manyParameters.jsonFirstChild, Plain printNat child := by
    intro child mem
    rw [List.eq_of_mem_replicate mem]
    exact ⟨by decide, by decide⟩
  have many : ∀ width, ¬ Fits printNat width manyParameters := by
    intro width fits
    exact absurd fits.le (by decide)
  refine ⟨?_, ?_, ?_⟩
  · obtain ⟨h', decoded⟩ := decodeStream_eq Libc.nat caller (by decide) [manyMessage]
    exact ⟨h', decoded⟩
  · intro right
    exact many 15 ((formCanonicalPrmStatic_iff true (List.length_replicate ..) plain).mp right).1
  · intro right
    exact many 49 ((formCanonicalPrm_iff _ insertionSort_sortsStrings plain).mp right)

/-! ### The signature of an event -/

/-- The signer of a build. Where `form_canonical_prm` leaves its memory no signature is made here;
the code goes on. -/
def Signer.forming (form : JsonNode ν → Except Fault Bytes)
    (sign : Bytes → Bytes → Bool → Bytes → Bytes → Option Bytes) : Signer ν where
  formCanonicalPrm param := (form param).toOption
  gatewayPayloadSign := sign

section

variable {sign : Bytes → Bytes → Bool → Bytes → Bytes → Option Bytes}

theorem Signer.arrowEventSign_forming {form : JsonNode ν → Except Fault Bytes} {param : JsonNode ν}
    {text : Bytes} (formed : form param = .ok text) (ghid name : Bytes) (encrypted : Bool) :
    (Signer.forming form sign).arrowEventSign ghid name encrypted param =
      sign ghid name encrypted text versionOne := by
  have result : (Signer.forming form sign).formCanonicalPrm param = some text :=
    congrArg Except.toOption formed
  rw [arrowEventSign, result]
  rfl

variable {printNumber : JsonNode ν → Bytes} {param : JsonNode ν}
  (plain : ∀ child ∈ param.jsonFirstChild, Plain printNumber child)

include plain

/-- With dynamic memory an event is signed over the canonical string of parameters that fit. -/
theorem arrowEventSign_dynamic (fresh : Nat → Byte)
    {qsort : (Bytes → Bytes → Int) → List Bytes → List Bytes} (sorts : SortsStrings qsort)
    (fits : Fits printNumber 49 param) :
    ∃ text, IsCanonical printNumber (fun s t => strcmp s t ≤ 0) param text ∧
      ∀ ghid name encrypted,
        (Signer.forming (formCanonicalPrm printNumber fresh qsort) sign).arrowEventSign ghid name
            encrypted param =
          sign ghid name encrypted text versionOne := by
  obtain ⟨text, formed, canonical⟩ := (formCanonicalPrm_iff fresh sorts plain).mpr fits
  exact ⟨text, canonical, Signer.arrowEventSign_forming formed⟩

/-- With static memory the lines have to fit in the buffer as well. -/
theorem arrowEventSign_static (signed : Bool) {buffer : Bytes}
    (length : buffer.length = canonicalSize) (fits : Fits printNumber 15 param)
    (small : linesLength printNumber param.jsonFirstChild < canonicalSize) :
    ∃ text, IsCanonical printNumber (fun s t => InOrder signed (line s) (line t)) param text ∧
      ∀ ghid name encrypted,
        (Signer.forming (fun param => (formCanonicalPrmStatic printNumber signed param buffer).map
            Prod.fst) sign).arrowEventSign ghid name encrypted param =
          sign ghid name encrypted text versionOne := by
  obtain ⟨text, rest, formed, canonical⟩ :=
    (formCanonicalPrmStatic_iff signed length plain).mpr ⟨fits, small⟩
  exact ⟨text, canonical, Signer.arrowEventSign_forming (by rw [formed]; rfl)⟩

end

end AcnSdk.Arrow
