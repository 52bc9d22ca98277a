/-
The dynamic build of the canonical form and its blocks of memory.

* `formLines_eq`, `of_formLines` — lines are made as long as there are entries of the list and keys
  for them.
* `formCanonicalPrm_run` — what the build then returns.
* `formCanonicalPrm_iff` — for which parameters this is the canonical string.
-/

import AcnSdk.Arrow.CanonicalEntries
import Mathlib.Data.List.Sort

namespace AcnSdk.Arrow

open AcnSdk.Lib AcnSdk.Json Ascii Prog

variable {ν : Type} {printNumber : JsonNode ν → Bytes} {fresh : Nat → Byte}

/-- `qsort` sorts strings by `strcmp`. -/
def SortsStrings (qsort : (Bytes → Bytes → Int) → List Bytes → List Bytes) : Prop :=
  ∀ list, (qsort strcmp list).Perm list ∧ (qsort strcmp list).Pairwise fun s t => strcmp s t ≤ 0

/-- Insertion sort may stand for `qsort`. -/
theorem insertionSort_sortsStrings :
    SortsStrings fun cmp list => list.insertionSort fun s t => cmp s t ≤ 0 := by
  intro list
  have same : (fun s t => strcmp s t ≤ 0) = fun s t : Bytes => s ≤ t :=
    funext fun s => funext fun t => propext (strcmp_le_iff s t)
  refine ⟨List.perm_insertionSort _ _, ?_⟩
  have : Std.Total fun s t => strcmp s t ≤ 0 := same ▸ inferInstance
  have : IsTrans Bytes fun s t => strcmp s t ≤ 0 := same ▸ inferInstance
  exact List.pairwise_insertionSort _ _

theorem of_copyTo {l l' s : Bytes} {i : Nat} (run : copyTo l i s = .ok l') :
    i + s.length ≤ l.length ∧ l' = store l i s := by
  unfold copyTo at run
  split_ifs at run with fits
  cases run
  exact ⟨fits, rfl⟩

@[simp] theorem length_mallocBlock (n : Nat) : (mallocBlock fresh n).length = n := by
  simp [mallocBlock]

/-- What is put behind the equals sign, and the size of the block, go by what is printed. -/
theorem member_cases (printNumber : JsonNode ν → Bytes) (child : JsonNode ν) :
    (Printed child ∧ allocLen child = 50 + (lowerKey child).length + 10 ∧
      ∀ block i, putMember printNumber block i child =
        (copyTo block i ((memberText printNumber child).take 49 ++ [0])).bind fun block =>
          copyTo block (i + (memberText printNumber child).length) [0]) ∨
    (¬ Printed child ∧
      (memberText printNumber child).length + (lowerKey child).length + 10 ≤ allocLen child ∧
      ∀ block i, putMember printNumber block i child =
        copyTo block i (memberText printNumber child ++ [0])) := by
  rcases child with ⟨key, _ | b | s | n⟩ | ⟨key, _ | _, children⟩
  case scalar.string => exact .inr ⟨fun printed => printed.1 rfl, Nat.le_refl _, fun _ _ => rfl⟩
  case scalar.bool =>
    refine .inr ⟨fun printed => printed.2 rfl, ?_, fun _ _ => rfl⟩
    cases b
    all_goals exact Nat.add_le_add_right (Nat.add_le_add_right (Nat.le_of_ble_eq_true rfl) _) _
  all_goals
    exact .inl
      ⟨⟨fun eq => JsonTag.noConfusion eq, fun eq => JsonTag.noConfusion eq⟩, rfl, fun _ _ => rfl⟩

/-- What a line's block holds for a member: its entry, unless its number has been cut off. -/
structure Made (printNumber : JsonNode ν → Bytes) (child : JsonNode ν) (s : Bytes) : Prop where
  plain : 0 ∉ s
  room : s.length + 1 ≤ allocLen child
  whole : Whole printNumber 49 child → s = entry printNumber child
  cut : ¬ Whole printNumber 49 child → s.length < (entry printNumber child).length

theorem Made.length_le {child : JsonNode ν} {s : Bytes} (made : Made printNumber child s) :
    s.length ≤ (entry printNumber child).length := by
  by_cases whole : Whole printNumber 49 child
  · rw [made.whole whole]
  · exact Nat.le_of_lt (made.cut whole)

/-- A text that is not cut off is put behind the equals sign, with a terminator. -/
theorem putMember_eq {child : JsonNode ν} (pre post : Bytes) (whole : Whole printNumber 49 child)
    (room : (memberText printNumber child).length + 1 ≤ post.length) :
    ∃ rest, putMember printNumber (pre ++ post) pre.length child =
      .ok (pre ++ memberText printNumber child ++ 0 :: rest) := by
  generalize text_eq : memberText printNumber child = text at room
  have wrote : copyTo (pre ++ post) pre.length (text ++ [0]) =
      .ok (pre ++ text ++ 0 :: post.drop (text.length + 1)) := by
    rw [copyTo_append rfl (by rw [List.length_append, List.length_singleton]; exact room),
      List.length_append, List.length_singleton]
    simp only [List.append_assoc, List.singleton_append]
  rcases member_cases printNumber child with ⟨printed, -, put⟩ | ⟨-, -, put⟩
  · have all : text.take 49 = text := by
      rw [← text_eq]
      exact List.take_of_length_le (whole printed)
    -- The second terminator goes over the first.
    refine ⟨post.drop (text.length + 1), ?_⟩
    rw [put, text_eq, all, wrote, ok_bind,
      copyTo_append (by rw [List.length_append])
        (by rw [List.length_singleton]; exact Nat.succ_pos _)]
    simp only [List.length_singleton, List.drop_succ_cons, List.drop_zero, List.append_assoc,
      List.singleton_append]
  · refine ⟨post.drop (text.length + 1), ?_⟩
    rw [put, text_eq, wrote]

variable (fresh) in
/-- A line of a member with a key, whose number is not cut off. -/
theorem formLine_eq {child : JsonNode ν} (plain : Plain printNumber child)
    (keyed : child.key.isSome) (whole : Whole printNumber 49 child) :
    formLine printNumber fresh child = .ok (entry printNumber child) ∧
      (entry printNumber child).length + 1 ≤ allocLen child := by
  have text_le : (memberText printNumber child).length + (lowerKey child).length + 10 ≤
      allocLen child := by
    rcases member_cases printNumber child with ⟨printed, alloc, -⟩ | ⟨-, alloc, -⟩
    · have := whole printed
      omega
    · exact alloc
  refine ⟨?_, by rw [length_entry]; omega⟩
  have block_length : (mallocBlock fresh (allocLen child)).length = allocLen child := by simp
  rw [formLine, then_of_ok (readKey_eq keyed)]
  generalize mallocBlock fresh (allocLen child) = block at block_length
  have wrote_key : copyTo ([] ++ block) 0 (lowerKey child) = _ := copyTo_append rfl (by omega)
  rw [List.nil_append, List.nil_append] at wrote_key
  have wrote_sign : copyTo (lowerKey child ++ block.drop (lowerKey child).length)
      (lowerKey child).length [equals] =
      .ok (lowerKey child ++ [equals] ++ (block.drop (lowerKey child).length).drop 1) :=
    copyTo_append rfl (by rw [List.length_drop, List.length_singleton]; omega)
  obtain ⟨rest, wrote_text⟩ := putMember_eq (lowerKey child ++ [equals])
    ((block.drop (lowerKey child).length).drop 1) whole (by simp only [List.length_drop]; omega)
  have whole_line : lowerKey child ++ [equals] ++ memberText printNumber child =
      entry printNumber child := by
    rw [entry, List.append_assoc, List.singleton_append]
  rw [List.length_append, List.length_singleton, whole_line] at wrote_text
  rw [then_of_ok wrote_key, then_of_ok wrote_sign, then_of_ok wrote_text]
  exact congrArg Except.ok (cstr_terminated plain.entry rest)

theorem of_formLine {child : JsonNode ν} {s : Bytes} (plain : Plain printNumber child)
    (run : formLine printNumber fresh child = .ok s) :
    child.key.isSome ∧ Made printNumber child s := by
  obtain ⟨key, read, run'⟩ := ok_of_bind run
  obtain ⟨keyed, rfl⟩ := readKey_ok read
  obtain ⟨block₁, wrote₁, run'⟩ := ok_of_bind run'
  obtain ⟨block₂, wrote₂, run'⟩ := ok_of_bind run'
  obtain ⟨block₃, wrote₃, run'⟩ := ok_of_bind run'
  cases run'
  by_cases whole : Whole printNumber 49 child
  · obtain ⟨line_eq, room⟩ := formLine_eq fresh plain keyed whole
    rw [run] at line_eq
    rw [Except.ok.inj line_eq]
    exact ⟨keyed, plain.entry, room, fun _ => rfl, fun cut => absurd whole cut⟩
  · obtain ⟨printed, alloc, put⟩ | ⟨not_printed, -, -⟩ := member_cases printNumber child
    · have long : 49 < (memberText printNumber child).length :=
        Nat.lt_of_not_le fun le => whole fun _ => le
      rw [put] at wrote₃
      obtain ⟨block, wrote, wrote'⟩ := ok_of_bind wrote₃
      obtain ⟨fits, rfl⟩ := of_copyTo wrote
      obtain ⟨fits', rfl⟩ := of_copyTo wrote'
      have printed_length : ((memberText printNumber child).take 49).length = 49 :=
        List.length_take_of_le (Nat.le_of_lt long)
      have zero : (store (store block₂ ((lowerKey child).length + 1)
          ((memberText printNumber child).take 49 ++ [0]))
          ((lowerKey child).length + 1 + (memberText printNumber child).length) [0])[
          (lowerKey child).length + 1 + 49]? = some 0 := by
        rw [getElem?_store_of_lt fits' (by omega), getElem?_store_add fits
          (by rw [List.length_append, printed_length]; exact Nat.lt_succ_self 49),
          List.getElem?_append_right (by omega), printed_length]
        rfl
      have s_le := cstr_length_le zero
      refine ⟨keyed, not_mem_cstr _, by omega, fun all => absurd all whole, fun _ => ?_⟩
      rw [length_entry]
      omega
    · exact absurd (fun printed => absurd printed not_printed) whole

/-- Lines that are made have found an entry of the list and a key for each. -/
theorem of_formLines {children : List (JsonNode ν)} {count : Nat} {list : List Bytes}
    (plain : ∀ child ∈ children, Plain printNumber child) (le : count ≤ maxParamLine)
    (run : formLines printNumber fresh children count = .ok list) :
    count + children.length ≤ maxParamLine ∧ (∀ child ∈ children, child.key.isSome) ∧
      List.Forall₂ (Made printNumber) children list := by
  induction children generalizing count list with
  | nil =>
      cases run
      exact ⟨le, List.forall_mem_nil _, .nil⟩
  | cons child children ih =>
      obtain ⟨first, others⟩ := List.forall_mem_cons.mp plain
      rw [formLines] at run
      split_ifs at run with more
      · obtain ⟨s, made, run⟩ := ok_of_bind run
        obtain ⟨rest, all_made, run⟩ := ok_of_bind run
        cases run
        obtain ⟨keyed, is_made⟩ := of_formLine first made
        obtain ⟨le', keyed', are_made⟩ := ih others more all_made
        rw [List.length_cons]
        exact ⟨by omega, List.forall_mem_cons.mpr ⟨keyed, keyed'⟩, .cons is_made are_made⟩

variable (fresh) in
theorem formLines_eq {children : List (JsonNode ν)} (count : Nat)
    (plain : ∀ child ∈ children, Plain printNumber child)
    (le : count + children.length ≤ maxParamLine)
    (keyed : ∀ child ∈ children, child.key.isSome)
    (whole : ∀ child ∈ children, Whole printNumber 49 child) :
    formLines printNumber fresh children count = .ok (children.map (entry printNumber)) := by
  induction children generalizing count with
  | nil => rfl
  | cons child children ih =>
      rw [List.length_cons] at le
      obtain ⟨first_plain, plain⟩ := List.forall_mem_cons.mp plain
      obtain ⟨first_keyed, keyed⟩ := List.forall_mem_cons.mp keyed
      obtain ⟨first_whole, whole⟩ := List.forall_mem_cons.mp whole
      have first := (formLine_eq fresh first_plain first_keyed first_whole).1
      have rest := ih (count + 1) plain (by omega) keyed whole
      rw [formLines, if_pos (by omega), then_of_ok first, then_of_ok rest]
      rfl

section Lengths

variable {children : List (JsonNode ν)} {list : List Bytes}

theorem made_plain (are_made : List.Forall₂ (Made printNumber) children list) :
    ∀ s ∈ list, 0 ∉ s := by
  induction are_made with
  | nil => exact List.forall_mem_nil _
  | cons is_made _ ih => exact List.forall_mem_cons.mpr ⟨is_made.plain, ih⟩

/-- The lines have room in a block as long as all of theirs. -/
theorem made_room (are_made : List.Forall₂ (Made printNumber) children list) :
    (flat list).length ≤ (children.map allocLen).sum := by
  rw [length_flat]
  induction are_made with
  | nil => exact Nat.le_refl _
  | cons is_made _ ih =>
      rw [List.map_cons, List.map_cons, List.sum_cons, List.sum_cons]
      exact Nat.add_le_add is_made.room ih

theorem made_length (are_made : List.Forall₂ (Made printNumber) children list) :
    (flat list).length ≤ linesLength printNumber children := by
  rw [length_flat]
  induction are_made with
  | nil => exact Nat.le_refl _
  | @cons child s _ _ is_made _ ih =>
      have le := is_made.length_le
      rw [List.map_cons, List.sum_cons, linesLength_cons]
      omega

/-- A number that is cut off is missed in the length. -/
theorem made_cut (are_made : List.Forall₂ (Made printNumber) children list) {child : JsonNode ν}
    (mem : child ∈ children) (cut : ¬ Whole printNumber 49 child) :
    (flat list).length < linesLength printNumber children := by
  induction are_made with
  | nil => cases mem
  | @cons first s _ _ is_made are_made ih =>
      have rest := made_length are_made
      rw [flat_cons, List.length_append, line, List.length_append, List.length_singleton,
        linesLength_cons]
      rcases List.mem_cons.mp mem with rfl | mem
      · have := is_made.cut cut
        omega
      · have := ih mem
        have := is_made.length_le
        omega

end Lengths

theorem joinLines_eq {list : List Bytes} (some : list ≠ []) (acc rest : Bytes) (plain : 0 ∉ acc)
    (all_plain : ∀ s ∈ list, 0 ∉ s) (room : ([lf].intercalate list).length ≤ rest.length) :
    ∃ rest', joinLines list (acc ++ 0 :: rest) =
      .ok (acc ++ [lf].intercalate list ++ 0 :: rest') := by
  induction list generalizing acc rest with
  | nil => exact absurd rfl some
  | cons s list ih =>
      have s_plain := all_plain s List.mem_cons_self
      cases list with
      | nil =>
          rw [List.intercalate_singleton] at room ⊢
          obtain ⟨rest', eq, -⟩ := strcat_eq acc rest s plain room
          exact ⟨rest', eq⟩
      | cons t list =>
          rw [List.intercalate_cons_cons, List.length_append, List.length_append,
            List.length_singleton] at room
          obtain ⟨rest₁, eq₁, length₁⟩ := strcat_eq acc rest s plain (by omega)
          obtain ⟨rest₂, eq₂, length₂⟩ := strcat_eq (acc ++ s) rest₁ [lf]
            (by simp [plain, s_plain]) (by rw [List.length_singleton]; omega)
          rw [List.length_singleton] at length₂
          obtain ⟨rest₃, eq₃⟩ := ih (List.cons_ne_nil t list) (acc ++ s ++ [lf]) rest₂
            (by simp [plain, s_plain, show (0 : Byte) ≠ lf by decide])
            (fun u mem => all_plain u (List.mem_cons_of_mem _ mem)) (by omega)
          refine ⟨rest₃, ?_⟩
          rw [joinLines, then_of_ok eq₁, then_of_ok eq₂, eq₃, List.intercalate_cons_cons]
          · simp only [List.append_assoc]
          · exact List.cons_ne_nil t list

theorem sorted_length {children : List (JsonNode ν)} {list sorted : List Bytes}
    (are_made : List.Forall₂ (Made printNumber) children list) (some : children ≠ [])
    (perm : sorted.Perm list) :
    sorted ≠ [] ∧ ([lf].intercalate sorted).length + 1 = (flat list).length := by
  have some_sorted : sorted ≠ [] := by
    rintro rfl
    rw [perm.symm.eq_nil] at are_made
    exact some (List.forall₂_nil_right_iff.mp are_made)
  refine ⟨some_sorted, ?_⟩
  calc ([lf].intercalate sorted).length + 1
    _ = (flat sorted).length := by
        rw [flat_eq some_sorted, List.length_append, List.length_singleton]
    _ = (flat list).length := (perm.map line).flatten.length_eq

/-- What the dynamic build makes of its lines. -/
theorem formCanonicalPrm_run {qsort : (Bytes → Bytes → Int) → List Bytes → List Bytes}
    (sorts : SortsStrings qsort) {param : JsonNode ν} {list : List Bytes}
    (some : param.jsonFirstChild ≠ [])
    (made : formLines printNumber fresh param.jsonFirstChild 0 = .ok list)
    (are_made : List.Forall₂ (Made printNumber) param.jsonFirstChild list) :
    formCanonicalPrm printNumber fresh qsort param =
      .ok ([lf].intercalate (qsort strcmp list)) := by
  obtain ⟨perm, -⟩ := sorts list
  obtain ⟨some_list, length⟩ := sorted_length are_made some perm
  have plain : ∀ s ∈ qsort strcmp list, 0 ∉ s :=
    fun s mem => made_plain are_made s (perm.mem_iff.mp mem)
  have enough := made_room are_made
  rw [← length] at enough
  rw [formCanonicalPrm, then_of_ok made]
  generalize (param.jsonFirstChild.map allocLen).sum = total at enough ⊢
  have block_length : (mallocBlock fresh total).length = total := length_mallocBlock total
  generalize mallocBlock fresh total = block at block_length ⊢
  have emptied : copyTo ([] ++ block) 0 [0] = _ :=
    copyTo_append rfl (by rw [List.length_singleton]; omega)
  rw [List.nil_append, List.nil_append, List.singleton_append] at emptied
  obtain ⟨rest, joined⟩ :=
    joinLines_eq some_list [] (block.drop [(0 : Byte)].length) (by simp) plain
    (by rw [List.length_drop, List.length_singleton]; omega)
  rw [List.nil_append, List.nil_append] at joined
  rw [then_of_ok emptied, then_of_ok joined]
  exact congrArg Except.ok (cstr_terminated (zero_not_mem_intercalate plain) rest)

/-- The dynamic build returns the canonical string. -/
def DynamicRight (printNumber : JsonNode ν → Bytes) (fresh : Nat → Byte)
    (qsort : (Bytes → Bytes → Int) → List Bytes → List Bytes) (param : JsonNode ν) : Prop :=
  ∃ text, formCanonicalPrm printNumber fresh qsort param = .ok text ∧
    IsCanonical printNumber (fun s t => strcmp s t ≤ 0) param text

variable (fresh) in
/-- The dynamic build is right for the parameters that fit, with numbers of up to 49 characters. -/
theorem formCanonicalPrm_iff {qsort : (Bytes → Bytes → Int) → List Bytes → List Bytes}
    (sorts : SortsStrings qsort) {param : JsonNode ν}
    (plain : ∀ child ∈ param.jsonFirstChild, Plain printNumber child) :
    DynamicRight printNumber fresh qsort param ↔ Fits printNumber 49 param := by
  constructor
  · rintro ⟨text, run, canonical⟩
    obtain ⟨list, made, rest⟩ := ok_of_bind run
    obtain ⟨le, keyed, are_made⟩ := of_formLines plain (Nat.zero_le _) made
    rw [Nat.zero_add] at le
    have some : param.jsonFirstChild ≠ [] := by
      intro none
      rw [none] at rest
      cases rest
    refine ⟨some, le, keyed, ?_⟩
    intro child mem
    by_contra cut
    have short := made_cut are_made mem cut
    rw [formCanonicalPrm_run sorts some made are_made] at run
    have text_length := canonical.length_eq some
    rw [← Except.ok.inj run, (sorted_length are_made some (sorts list).1).2] at text_length
    exact absurd text_length (Nat.ne_of_lt short)
  · intro fits
    have made := formLines_eq fresh 0 plain (by rw [Nat.zero_add]; exact fits.le) fits.keyed
      fits.whole
    obtain ⟨-, -, are_made⟩ := of_formLines plain (Nat.zero_le _) made
    obtain ⟨perm, ordered⟩ := sorts (param.jsonFirstChild.map (entry printNumber))
    exact ⟨_, formCanonicalPrm_run sorts fits.some made are_made, _, perm, ordered.isChain, rfl⟩

end AcnSdk.Arrow
