/-
Comparing properties by their contents, `property_cmp` in `src/data/property.c`.

A property has its content with or without a terminator. `property_cmp` looks at the first one
only: where that is raw the sizes have to agree, whatever the second one is, and otherwise both are
read as strings. So a raw first property asks the second one for a size that is its length, and a
raw second one is read on beyond its content.

* `propertyCmp_contents_iff` — when `property_cmp` tells whether two contents are the same.
* `same_symm`, `same_trans` — there it is an equivalence.
-/

import AcnSdk.Data.Property

namespace AcnSdk.Data

open AcnSdk.Lib Prog Heap

/-- The content of a property. A raw one is as long as its size says, and any other one ends with a
NUL, whatever its size says. -/
structure Contains (h : Heap Bytes) (p : Property) (s : Bytes) : Prop where
  plain : 0 ∉ s
  block : ∃ a rest, p.value = some a ∧ h.cells a = some (s ++ rest) ∧
    if p.isRaw then p.size = s.length else rest.head? = some 0

/-- The second content is decided on as it should be. Behind a raw one there is a terminator, and if
it does not follow at once, the first content is neither of what can be read there. -/
def Decided (h : Heap Bytes) (src dst : Property) (s t : Bytes) : Prop :=
  match src.isRaw, dst.isRaw with
  | true, false => s <+: t → (dst.size = src.size ↔ t.length = src.size)
  | false, true => ∃ a behind rest, dst.value = some a ∧
      h.cells a = some (t ++ behind ++ 0 :: rest) ∧ 0 ∉ behind ∧
      (behind = [] ∨ s ≠ t ∧ s ≠ t ++ behind)
  | true, true | false, false => True

section

variable {h : Heap Bytes} {src dst : Property} {s t block rest : Bytes} {a : Addr}

/-! ### Reading -/

theorem stringIn_front (plain : 0 ∉ t) (n : Nat) :
    stringIn (t ++ 0 :: rest) n = .ok (t.take n) := by
  by_cases le : n ≤ t.length
  · have front : cstr ((t ++ 0 :: rest).take n) = t.take n := by
      rw [List.take_append_of_le_length le]
      exact cstr_eq_self fun mem => plain (List.mem_of_mem_take mem)
    rw [stringIn, front]
    refine if_neg fun short => ?_
    rw [List.length_take, List.length_append, List.length_cons] at short
    omega
  · rw [stringIn_terminated plain (Nat.lt_of_not_le le),
      List.take_of_length_le (Nat.le_of_not_le le)]

/-- A string without a terminator in its block. -/
theorem stringAt_unterminated (cell : h.cells a = some block) (plain : 0 ∉ block) :
    stringAt a h = .error .overflow := by
  have beyond : stringIn block (block.length + 1) = .error .overflow := by
    rw [stringIn, List.take_of_length_le (Nat.le_succ block.length), cstr_eq_self plain]
    exact if_pos ⟨Nat.lt_succ_self _, rfl⟩
  simp only [stringAt, bind_apply, read_eq cell, ok_bind, beyond, lift_error]

theorem Contains.raw (contains : Contains h src s) (raw : src.isRaw = true) :
    ∃ a rest, src.value = some a ∧ h.cells a = some (s ++ rest) ∧ src.size = s.length := by
  obtain ⟨-, a, rest, value, cell, size⟩ := contains
  rw [if_pos raw] at size
  exact ⟨a, rest, value, cell, size⟩

theorem Contains.terminated (contains : Contains h src s) (text : src.isRaw = false) :
    ∃ a rest, src.value = some a ∧ h.cells a = some (s ++ 0 :: rest) := by
  obtain ⟨-, a, rest, value, cell, ends⟩ := contains
  rw [text, if_neg Bool.false_ne_true] at ends
  cases rest with
  | nil => cases ends
  | cons c rest =>
      cases ends
      exact ⟨a, rest, value, cell⟩

theorem stringIn_content (plain : 0 ∉ s) : stringIn (s ++ rest) s.length = .ok s := by
  rw [stringIn, List.take_left, cstr_eq_self plain]
  exact if_neg fun short => Nat.lt_irrefl _ short.1

/-! ### Comparing -/

/-- Two raw properties. -/
theorem propertyCmp_raw (src_is : Contains h src s) (dst_is : Contains h dst t)
    (raw : src.isRaw = true) (raw' : dst.isRaw = true) :
    propertyCmp src dst h = .ok (if s = t then 0 else -1, h) := by
  obtain ⟨a, rest, value, cell, size⟩ := src_is.raw raw
  obtain ⟨b, rest', value', cell', size'⟩ := dst_is.raw raw'
  rw [propertyCmp, if_pos raw]
  by_cases same : src.size = dst.size
  · have length : s.length = t.length := size.symm.trans (same.trans size')
    have decides : strncmp s t s.length = 0 ↔ s = t := by
      rw [strncmp, strcmp_eq_zero_iff, List.take_length, length, List.take_length]
    have second : stringIn (t ++ rest') s.length = .ok t := by
      rw [length, stringIn_content dst_is.plain]
    rw [if_pos same]
    simp only [value, value', bind_apply, deref_some, ok_bind, read_eq cell, read_eq cell', size,
      stringIn_content src_is.plain, second, lift_ok, pure_apply, decides]
  · have differ : s ≠ t := fun eq => same (by rw [size, size', eq])
    rw [if_neg same, if_neg differ]
    rfl

/-- A raw property and a string: the string is compared as far as the raw one goes. -/
theorem propertyCmp_raw_text (src_is : Contains h src s) (dst_is : Contains h dst t)
    (raw : src.isRaw = true) (text : dst.isRaw = false) :
    propertyCmp src dst h = .ok (if src.size = dst.size ∧ s <+: t then 0 else -1, h) := by
  obtain ⟨a, rest, value, cell, size⟩ := src_is.raw raw
  obtain ⟨b, rest', value', cell'⟩ := dst_is.terminated text
  rw [propertyCmp, if_pos raw]
  by_cases same : src.size = dst.size
  · have decides : strncmp s (t.take s.length) s.length = 0 ↔ s <+: t := by
      rw [strncmp_eq_zero_iff rfl, List.prefix_take_iff, and_iff_left (Nat.le_refl _)]
    have result : (if src.size = dst.size ∧ s <+: t then 0 else -1 : Int) =
        if s <+: t then 0 else -1 := by
      simp only [same, true_and]
    rw [if_pos same, result]
    simp only [value, value', bind_apply, deref_some, ok_bind, read_eq cell, read_eq cell', size,
      stringIn_content src_is.plain, stringIn_front dst_is.plain, lift_ok, pure_apply, decides]
  · rw [if_neg same, if_neg fun both => same both.1]
    rfl

/-- Two strings. -/
theorem propertyCmp_text {b : Addr} {u rest' : Bytes} (plain : 0 ∉ s) (plain' : 0 ∉ u)
    (text : src.isRaw = false) (value : src.value = some a)
    (cell : h.cells a = some (s ++ 0 :: rest)) (value' : dst.value = some b)
    (cell' : h.cells b = some (u ++ 0 :: rest')) :
    propertyCmp src dst h = .ok (if s = u then 0 else -1, h) := by
  simp only [propertyCmp, text, Bool.false_eq_true, if_false, value, value', bind_apply, deref_some,
    ok_bind, stringAt_eq cell plain, stringAt_eq cell' plain', pure_apply, strcmp_eq_zero_iff]

/-- The code tells equal contents from others. -/
def Tells (h : Heap Bytes) (src dst : Property) (s t : Bytes) : Prop :=
  ∃ r, propertyCmp src dst h = .ok (r, h) ∧ (r = 0 ↔ s = t)

theorem tells_of_run {p : Prop} [Decidable p]
    (run : propertyCmp src dst h = .ok (if p then 0 else -1, h)) :
    Tells h src dst s t ↔ (p ↔ s = t) := by
  have zero : (if p then 0 else -1 : Int) = 0 ↔ p := by
    by_cases holds : p
    · rw [if_pos holds]
      exact iff_of_true rfl holds
    · rw [if_neg holds]
      exact iff_of_false (by decide) holds
  rw [Tells, run]
  constructor
  · rintro ⟨r, eq, decides⟩
    cases eq
    exact zero.symm.trans decides
  · exact fun decides => ⟨_, rfl, zero.trans decides⟩

/-- A string and a raw property, which is read up to a terminator. -/
theorem tells_text_raw (src_is : Contains h src s) (dst_is : Contains h dst t)
    (text : src.isRaw = false) (raw : dst.isRaw = true) :
    Tells h src dst s t ↔ ∃ a behind rest, dst.value = some a ∧
      h.cells a = some (t ++ behind ++ 0 :: rest) ∧ 0 ∉ behind ∧
      (behind = [] ∨ s ≠ t ∧ s ≠ t ++ behind) := by
  obtain ⟨a, rest, value, cell⟩ := src_is.terminated text
  have tells_iff {b : Addr} {behind last : Bytes} (value' : dst.value = some b)
      (cell' : h.cells b = some (t ++ behind ++ 0 :: last)) (plain : 0 ∉ behind) :
      Tells h src dst s t ↔ (s = t ++ behind ↔ s = t) := by
    have plain' : 0 ∉ t ++ behind := by
      rw [List.mem_append, not_or]
      exact ⟨dst_is.plain, plain⟩
    exact tells_of_run (propertyCmp_text src_is.plain plain' text value cell value' cell')
  constructor
  · intro tells
    obtain ⟨b, rest', value', cell', -⟩ := dst_is.raw raw
    by_cases terminated : (0 : Byte) ∈ rest'
    · obtain ⟨behind, last, rfl, plain⟩ := List.eq_append_cons_of_mem terminated
      rw [← List.append_assoc] at cell'
      refine ⟨b, behind, last, value', cell', plain, ?_⟩
      have decides := (tells_iff value' cell' plain).mp tells
      by_cases at_once : behind = []
      · exact .inl at_once
      · have differ : s ≠ t := fun same =>
          at_once (List.append_right_eq_self.mp ((decides.mpr same).symm.trans same))
        exact .inr ⟨differ, fun longer => differ (decides.mp longer)⟩
    · have whole : 0 ∉ t ++ rest' := by
        rw [List.mem_append, not_or]
        exact ⟨dst_is.plain, terminated⟩
      obtain ⟨r, run, -⟩ := tells
      simp only [propertyCmp, text, Bool.false_eq_true, if_false, value, value', bind_apply,
        deref_some, ok_bind, stringAt_eq cell src_is.plain, stringAt_unterminated cell' whole,
        error_bind] at run
      cases run
  · rintro ⟨b, behind, last, value', cell', plain, apart⟩
    refine (tells_iff value' cell' plain).mpr ?_
    rcases apart with rfl | ⟨differ, differ'⟩
    · rw [List.append_nil]
    · exact iff_of_false differ' differ

/-- `property_cmp` tells whether two contents are the same, exactly where it is decided so. -/
theorem propertyCmp_contents_iff (src_is : Contains h src s) (dst_is : Contains h dst t) :
    (∃ r, propertyCmp src dst h = .ok (r, h) ∧ (r = 0 ↔ s = t)) ↔ Decided h src dst s t := by
  change Tells h src dst s t ↔ _
  cases raw : src.isRaw <;> cases raw' : dst.isRaw
  · obtain ⟨a, rest, value, cell⟩ := src_is.terminated raw
    obtain ⟨b, rest', value', cell'⟩ := dst_is.terminated raw'
    rw [Decided, raw, raw',
      tells_of_run (propertyCmp_text src_is.plain dst_is.plain raw value cell value' cell')]
    exact iff_of_true Iff.rfl trivial
  · rw [Decided, raw, raw']
    exact tells_text_raw src_is dst_is raw raw'
  · obtain ⟨a, rest, value, cell, size⟩ := src_is.raw raw
    rw [Decided, raw, raw', tells_of_run (propertyCmp_raw_text src_is dst_is raw raw')]
    dsimp only
    rw [size]
    constructor
    · rintro decides front
      have same_iff : s = t ↔ t.length = s.length :=
        ⟨fun same => same ▸ rfl, fun length => front.eq_of_length length.symm⟩
      rw [← same_iff, ← decides, and_iff_left front, eq_comm]
    · intro sizes
      constructor
      · rintro ⟨same, front⟩
        exact front.eq_of_length ((sizes front).mp same.symm).symm
      · rintro rfl
        exact ⟨((sizes List.prefix_rfl).mpr rfl).symm, List.prefix_rfl⟩
  · rw [Decided, raw, raw', tells_of_run (propertyCmp_raw src_is dst_is raw raw')]
    exact iff_of_true Iff.rfl trivial

/-! ### Look-ups -/

/-- `property_cmp` takes two properties for the same. -/
def Same (h : Heap Bytes) (src dst : Property) : Prop := propertyCmp src dst h = .ok (0, h)

theorem same_iff (src_is : Contains h src s) (dst_is : Contains h dst t)
    (decided : Decided h src dst s t) : Same h src dst ↔ s = t := by
  obtain ⟨r, run, decides⟩ := (propertyCmp_contents_iff src_is dst_is).mpr decided
  rw [Same, run, ← decides]
  constructor
  · rintro eq
    cases eq
    rfl
  · rintro rfl
    rfl

theorem same_symm (src_is : Contains h src s) (dst_is : Contains h dst t)
    (decided : Decided h src dst s t) (decided' : Decided h dst src t s) (same : Same h src dst) :
    Same h dst src :=
  (same_iff dst_is src_is decided').mpr ((same_iff src_is dst_is decided).mp same).symm

theorem same_trans {mid : Property} {u : Bytes} (src_is : Contains h src s)
    (mid_is : Contains h mid u) (dst_is : Contains h dst t) (decided₁ : Decided h src mid s u)
    (decided₂ : Decided h mid dst u t) (decided : Decided h src dst s t)
    (same₁ : Same h src mid) (same₂ : Same h mid dst) : Same h src dst :=
  (same_iff src_is dst_is decided).mpr
    (((same_iff src_is mid_is decided₁).mp same₁).trans
      ((same_iff mid_is dst_is decided₂).mp same₂))

/-- A look-up does not depend on how its key was built. -/
theorem same_key {key key' : Property} (src_is : Contains h src s) (key_is : Contains h key t)
    (key_is' : Contains h key' t) (decided : Decided h src key s t)
    (decided' : Decided h src key' s t) : Same h src key ↔ Same h src key' :=
  (same_iff src_is key_is decided).trans (same_iff src_is key_is' decided').symm

end

/-- The text `hid`, the same in front of something else, one character, and very many of it. -/
def keyTexts : Heap Bytes where
  cells a :=
    if a = 0 then some ([0x68, 0x69, 0x64] ++ [0])
    else if a = 1 then some ([0x68, 0x69, 0x64] ++ [0x3A, 0x31, 0])
    else if a = 2 then some ([0x61] ++ [])
    else if a = 3 then some (List.replicate 65537 0x61 ++ [0])
    else none
  brk := 4

theorem hid_const : Contains keyTexts (.const 0 3) [0x68, 0x69, 0x64] :=
  ⟨by decide, 0, [0], rfl, rfl, rfl⟩

theorem hid_raw : Contains keyTexts (.stackRaw 1 3) [0x68, 0x69, 0x64] :=
  ⟨by decide, 1, [0x3A, 0x31, 0], rfl, rfl, rfl⟩

/-- A raw property against a string. -/
theorem propertyCmp_contents_hid : ∃ r, propertyCmp (.stackRaw 1 3) (.const 0 3) keyTexts =
    .ok (r, keyTexts) ∧ (r = 0 ↔ ([0x68, 0x69, 0x64] : Bytes) = [0x68, 0x69, 0x64]) :=
  (propertyCmp_contents_iff hid_raw hid_const).mpr fun _ => Iff.rfl

/-- The other way round the raw one is read too far. And a size of 16 bits does not tell one
character from 65537 of them. -/
theorem not_propertyCmp_contents :
    (¬ ∃ r, propertyCmp (.const 0 3) (.stackRaw 1 3) keyTexts = .ok (r, keyTexts) ∧
      (r = 0 ↔ ([0x68, 0x69, 0x64] : Bytes) = [0x68, 0x69, 0x64])) ∧
    ¬ ∃ r, propertyCmp (.stackRaw 2 1) (.const 3 65537) keyTexts = .ok (r, keyTexts) ∧
      (r = 0 ↔ ([0x61] : Bytes) = List.replicate 65537 0x61) := by
  constructor
  · rintro ⟨r, run, decides⟩
    have zero := decides.mpr rfl
    cases run
    revert zero
    decide
  · have one : Contains keyTexts (.stackRaw 2 1) [0x61] := ⟨by decide, 2, [], rfl, rfl, rfl⟩
    have many : Contains keyTexts (.const 3 65537) (List.replicate 65537 0x61) := by
      refine ⟨fun mem => ?_, 3, [0], rfl, rfl, rfl⟩
      exact absurd (List.eq_of_mem_replicate mem) (by decide)
    have same := propertyCmp_raw_text one many rfl rfl
    rintro ⟨r, run, decides⟩
    have front : [0x61] <+: List.replicate 65537 (0x61 : Byte) :=
      ⟨List.replicate 65536 0x61, rfl⟩
    rw [if_pos ⟨rfl, front⟩] at same
    cases same.symm.trans run
    have length := congrArg List.length (decides.mp rfl)
    rw [List.length_replicate] at length
    cases length

end AcnSdk.Data
