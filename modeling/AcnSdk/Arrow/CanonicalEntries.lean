/-
The entries of the canonical form, and the parameters that both builds can handle.

Neither build compares what it writes with the room that there is: not the number of the members
with the length of the list, not the lines with the buffer. A number is cut off at a fixed width,
but goes on to count with its whole length. `Fits` says of which parameters none of this is true.

* `IsCanonical` — what the canonical string is.
* `IsCanonical.length_eq` — how long it is.
-/

import AcnSdk.Arrow.CanonicalStatic
import AcnSdk.Json.DecodeStrings

namespace AcnSdk.Arrow

open AcnSdk.Lib AcnSdk.Json Ascii Prog

variable {ν : Type}

/-! ### Parameters -/

section Parameters

variable (printNumber : JsonNode ν → Bytes)

/-- `lower(key)=text`. -/
def entry (child : JsonNode ν) : Bytes := lowerKey child ++ equals :: memberText printNumber child

/-- The member is printed with `%f`. -/
def Printed (child : JsonNode ν) : Prop := child.tag ≠ .string ∧ child.tag ≠ .bool

/-- What is printed has no more than so many characters. -/
def Whole (width : Nat) (child : JsonNode ν) : Prop :=
  Printed child → (memberText printNumber child).length ≤ width

/-- The key and the text of the member are C strings. -/
structure Plain (child : JsonNode ν) : Prop where
  key : 0 ∉ child.key.getD []
  text : 0 ∉ memberText printNumber child

/-- Parameters that the builds can handle, with numbers of some width. -/
structure Fits (width : Nat) (param : JsonNode ν) : Prop where
  some : param.jsonFirstChild ≠ []
  le : param.jsonFirstChild.length ≤ maxParamLine
  keyed : ∀ child ∈ param.jsonFirstChild, child.key.isSome
  whole : ∀ child ∈ param.jsonFirstChild, Whole printNumber width child

/-- The length of all lines. -/
def linesLength (children : List (JsonNode ν)) : Nat :=
  (children.map fun child => (entry printNumber child).length + 1).sum

/-- The complete entries, neighbours in order, with newlines between them. -/
def IsCanonical (order : Bytes → Bytes → Prop) (param : JsonNode ν) (text : Bytes) : Prop :=
  ∃ list : List Bytes, list.Perm (param.jsonFirstChild.map (entry printNumber)) ∧
    list.IsChain order ∧ text = [lf].intercalate list

end Parameters

section Entries

variable {printNumber : JsonNode ν → Bytes}

theorem tolower_ne {c d : Byte} (ne : c ≠ d) (not_lower : d.toNat < 0x61) :
    tolower c ≠ d := by
  unfold tolower
  split
  · next upper =>
      rintro rfl
      rw [UInt8.le_iff_toNat_le, UInt8.le_iff_toNat_le] at upper
      have low : (0x41 : UInt8).toNat = 0x41 := rfl
      have high : (0x5A : UInt8).toNat = 0x5A := rfl
      have step : (c + 0x20).toNat = c.toNat + 0x20 := by
        rw [UInt8.toNat_add]
        have : (0x20 : UInt8).toNat = 0x20 := rfl
        omega
      omega
  · exact ne

theorem Plain.lower {child : JsonNode ν} (plain : Plain printNumber child) :
    0 ∉ lowerKey child := by
  intro mem
  obtain ⟨c, in_key, eq⟩ := List.mem_map.mp mem
  refine tolower_ne ?_ (by decide) eq
  rintro rfl
  exact plain.key in_key

theorem Plain.entry {child : JsonNode ν} (plain : Plain printNumber child) :
    0 ∉ entry printNumber child := by
  rw [Arrow.entry, List.mem_append, List.mem_cons]
  rintro (mem | zero | mem)
  · exact plain.lower mem
  · exact absurd zero (by decide)
  · exact plain.text mem

theorem length_entry (child : JsonNode ν) : (entry printNumber child).length =
    (lowerKey child).length + 1 + (memberText printNumber child).length := by
  rw [entry, List.length_append, List.length_cons]
  omega

theorem linesLength_cons (child : JsonNode ν) (children : List (JsonNode ν)) :
    linesLength printNumber (child :: children) =
      (entry printNumber child).length + 1 + linesLength printNumber children := by
  rw [linesLength, List.map_cons, List.sum_cons, linesLength]

theorem readKey_eq {child : JsonNode ν} (keyed : child.key.isSome) :
    readKey child = .ok (lowerKey child) := if_pos keyed

theorem readKey_ok {child : JsonNode ν} {key : Bytes} (read : readKey child = .ok key) :
    child.key.isSome ∧ key = lowerKey child := by
  unfold readKey at read
  split_ifs at read with keyed
  cases read
  exact ⟨keyed, rfl⟩

theorem flat_eq {list : List Bytes} (some : list ≠ []) :
    flat list = [lf].intercalate list ++ [lf] := by
  induction list with
  | nil => exact absurd rfl some
  | cons s list ih =>
      cases list with
      | nil => simp [flat, line]
      | cons t list =>
          rw [flat_cons, ih (List.cons_ne_nil t list), List.intercalate_cons_cons, line]
          simp only [List.append_assoc]

theorem zero_not_mem_intercalate {list : List Bytes} (plain : ∀ s ∈ list, 0 ∉ s) :
    0 ∉ [lf].intercalate list := by
  induction list with
  | nil => simp
  | cons s list ih =>
      have rest := ih fun t mem => plain t (List.mem_cons_of_mem _ mem)
      have first := plain s List.mem_cons_self
      cases list with
      | nil => simpa using first
      | cons t list =>
          rw [List.intercalate_cons_cons, List.mem_append, List.mem_append]
          rintro ((mem | mem) | mem)
          · exact first mem
          · exact absurd mem (by decide)
          · exact rest mem

theorem length_flat (list : List Bytes) :
    (flat list).length = (list.map fun s => s.length + 1).sum := by
  rw [flat, List.length_flatten, List.map_map]
  simp [Function.comp_def, line]

/-- How long the canonical string is. -/
theorem IsCanonical.length_eq {order : Bytes → Bytes → Prop} {param : JsonNode ν} {text : Bytes}
    (canonical : IsCanonical printNumber order param text) (some : param.jsonFirstChild ≠ []) :
    text.length + 1 = linesLength printNumber param.jsonFirstChild := by
  obtain ⟨list, perm, -, rfl⟩ := canonical
  have some' : list ≠ [] := by
    rintro rfl
    exact some (List.map_eq_nil_iff.mp perm.symm.eq_nil)
  have length := congrArg List.length (flat_eq some')
  rw [List.length_append, List.length_singleton] at length
  rw [← length, length_flat, (perm.map _).sum_nat, List.map_map]
  rfl

end Entries

end AcnSdk.Arrow
