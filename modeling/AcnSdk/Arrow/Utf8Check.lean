/-
The validator of `src/arrow/utf8.c` beside the one of `src/json/json.c`.

`utf8_validate_cz` keeps its pointer on the lead byte of a character where the other one moves
on, and so it looks for the first continuation byte in the lead byte.

* `utf8ValidateCz_ne_zero` — only printable ASCII passes.
* `validatorsAgree_iff` — when the two validators agree.
-/

import AcnSdk.Json.Utf8

namespace AcnSdk.Arrow

open AcnSdk.Lib AcnSdk.Json

/-- `utf8_validate_cz`. The lead byte is also the first byte that `*s++` reads. -/
def utf8ValidateCz (s : Bytes) : Nat :=
  let c := peek s
  let c1 := peek (s.drop 1)
  let c2 := peek (s.drop 2)
  if c > 0x1F ∧ c ≤ 0x7F then 1
  else if c ≤ 0xC1 then 0
  else if c ≤ 0xDF then
    if !isContinuation c then 0 else 2
  else if c ≤ 0xEF then
    if c == 0xE0 && c < 0xA0 then 0
    else if c == 0xED && c > 0x9F then 0
    else if !isContinuation c then 0
    else if !isContinuation c1 then 0
    else 3
  else if c ≤ 0xF4 then
    if c == 0xF0 && c < 0x90 then 0
    else if c == 0xF4 && c > 0x8F then 0
    else if !isContinuation c then 0
    else if !isContinuation c1 then 0
    else if !isContinuation c2 then 0
    else 4
  else 0

/-- The loop of `utf8check`; every round moves at least one byte on. -/
def utf8checkFrom : Nat → Bytes → Int
  | 0, _ => 0
  | fuel + 1, s =>
      if peek s = 0 then 1
      else if utf8ValidateCz s = 0 then 0
      else utf8checkFrom fuel (s.drop (utf8ValidateCz s))

/-- `utf8check`. -/
def utf8check (s : Bytes) : Int := utf8checkFrom (s.length + 1) s

/-- Printable ASCII. -/
def Printable (c : Byte) : Prop := c > 0x1F ∧ c ≤ 0x7F

theorem utf8ValidateCz_printable {s : Bytes} (printable : Printable (peek s)) :
    utf8ValidateCz s = 1 :=
  if_pos printable

/-- A lead byte is no continuation byte. -/
theorem not_isContinuation_lead {c : Byte} (lead : ¬ c ≤ 0xC1) : isContinuation c = false := by
  rw [isContinuation, Bool.and_eq_false_iff]
  right
  apply decide_eq_false
  intro low
  exact lead (UInt8.le_trans low (by decide))

/-- Nothing else passes. -/
theorem utf8ValidateCz_ne_zero {s : Bytes} (valid : utf8ValidateCz s ≠ 0) : Printable (peek s) := by
  by_contra other
  apply valid
  rw [Printable] at other
  rw [utf8ValidateCz, if_neg other]
  by_cases low : peek s ≤ 0xC1
  · rw [if_pos low]
  · simp [low, not_isContinuation_lead low]

theorem utf8checkFrom_iff {s : Bytes} (plain : 0 ∉ s) {fuel : Nat} (enough : s.length < fuel) :
    utf8checkFrom fuel s = 1 ↔ ∀ c ∈ s, Printable c := by
  induction s generalizing fuel with
  | nil =>
      obtain ⟨fuel, rfl⟩ := Nat.exists_eq_add_one.mpr enough
      simp [utf8checkFrom]
  | cons c s ih =>
      obtain ⟨fuel, rfl⟩ := Nat.exists_eq_add_one.mpr (Nat.zero_lt_of_lt enough)
      have not_end : peek (c :: s) ≠ 0 := peek_ne_zero plain (List.cons_ne_nil c s)
      rw [utf8checkFrom, if_neg not_end, List.forall_mem_cons]
      by_cases printable : Printable c
      · have one : utf8ValidateCz (c :: s) = 1 := utf8ValidateCz_printable printable
        rw [one, if_neg Nat.one_ne_zero, List.drop_one, List.tail_cons, and_iff_right printable]
        exact ih (fun mem => plain (List.mem_cons_of_mem c mem)) (Nat.lt_of_succ_lt_succ enough)
      · have none : utf8ValidateCz (c :: s) = 0 := by
          by_contra valid
          exact printable (utf8ValidateCz_ne_zero valid)
        rw [if_pos none]
        exact iff_of_false (by decide) fun all => printable all.1

theorem utf8check_iff {s : Bytes} (plain : 0 ∉ s) : utf8check s = 1 ↔ ∀ c ∈ s, Printable c :=
  utf8checkFrom_iff plain (Nat.lt_succ_self _)

/-- ASCII is a text. -/
theorem utf8_of_ascii {s : Bytes} (ascii : ∀ c ∈ s, c ≤ 0x7F) : Utf8 s := by
  induction s with
  | nil => exact ⟨[], rfl⟩
  | cons c s ih =>
      obtain ⟨small, ascii⟩ := List.forall_mem_cons.mp ascii
      obtain ⟨d, code⟩ := encode_of_one (UInt8.le_iff_toNat_le.mp small)
      obtain ⟨ds, rfl⟩ := ih ascii
      exact ⟨d :: ds, by rw [utf8Text_cons, code, List.singleton_append]⟩

/-- Both validators accept a string if it is well-formed UTF-8, and only then. -/
structure ValidatorsAgree (s : Bytes) : Prop where
  same : utf8check s = 1 ↔ utf8Validate s = true
  wellFormed : utf8Validate s = true ↔ Utf8 s

/-- The validators agree on the strings of ASCII characters and on those that are not well-formed
UTF-8. -/
theorem validatorsAgree_iff {s : Bytes} (visible : ∀ c ∈ s, 0x20 ≤ c) :
    ValidatorsAgree s ↔ (∀ c ∈ s, c ≤ 0x7F) ∨ ¬ Utf8 s := by
  have plain : 0 ∉ s := fun mem => absurd (visible 0 mem) (by decide)
  have checked : utf8check s = 1 ↔ ∀ c ∈ s, c ≤ 0x7F := by
    rw [utf8check_iff plain]
    refine forall₂_congr fun c mem => and_iff_right ?_
    exact UInt8.lt_of_lt_of_le (by decide) (visible c mem)
  have validated := utf8Validate_iff plain
  constructor
  · intro agree
    by_cases text : Utf8 s
    · exact .inl (checked.mp (agree.same.mpr (validated.mpr text)))
    · exact .inr text
  · intro condition
    refine ⟨?_, validated⟩
    rw [checked, validated]
    exact ⟨utf8_of_ascii, fun text => condition.resolve_right (not_not_intro text)⟩

/-- `€`, of three bytes. -/
theorem validatorsAgree_euro :
    ValidatorsAgree [0xE2, 0x82, 0xAC] ↔
      (∀ c ∈ ([0xE2, 0x82, 0xAC] : Bytes), c ≤ 0x7F) ∨ ¬ Utf8 [0xE2, 0x82, 0xAC] :=
  validatorsAgree_iff
    (List.forall_mem_cons.mpr ⟨by decide,
      List.forall_mem_cons.mpr ⟨by decide, List.forall_mem_singleton.mpr (by decide)⟩⟩)

/-- `é`, which `json.c` accepts and `utf8.c` does not. -/
theorem not_validatorsAgree_accent : (∀ c ∈ ([0xC3, 0xA9] : Bytes), 0x20 ≤ c) ∧
    utf8Validate [0xC3, 0xA9] = true ∧ utf8check [0xC3, 0xA9] = 0 ∧
      ¬ ValidatorsAgree [0xC3, 0xA9] := by
  have visible : ∀ c ∈ ([0xC3, 0xA9] : Bytes), 0x20 ≤ c :=
    List.forall_mem_cons.mpr ⟨by decide, List.forall_mem_singleton.mpr (by decide)⟩
  refine ⟨visible, by decide, by decide, fun agree => ?_⟩
  exact absurd (agree.same.mpr (by decide)) (by decide)

end AcnSdk.Arrow
