/-
The static build of the canonical form and its buffer of 3000 bytes.

* `addLines_eq`, `of_addLines` — lines are added as long as there are entries of the list, keys and
  room for them.
* `formCanonicalPrmStatic_run` — what the build then returns.
* `formCanonicalPrmStatic_iff` — for which parameters this is the canonical string.
-/

import AcnSdk.Arrow.CanonicalEntries

namespace AcnSdk.Arrow

open AcnSdk.Lib AcnSdk.Json Ascii Prog

variable {ν : Type} {printNumber : JsonNode ν → Bytes}

theorem of_putText {i : Nat} {s buf : Bytes} {r : Unit × Bytes} (run : putText i s buf = .ok r) :
    i + s.length ≤ buf.length ∧ r.2.length = buf.length := by
  simp only [putText, bind_apply, get_apply, ok_bind, copyTo] at run
  split_ifs at run with fits
  · cases run
    exact ⟨fits, length_store fits⟩
  · simp only [lift_error, error_bind] at run
    cases run

/-- A line that is added has found a key, and room. -/
theorem of_addLine {total : Nat} {child : JsonNode ν} {buf : Bytes} {r : Str × Bytes}
    (run : addLine printNumber total child buf = .ok r) :
    child.key.isSome ∧ total + ((entry printNumber child).length + 1) ≤ buf.length := by
  obtain ⟨key, s₀, read, run⟩ := run_of_bind run
  obtain ⟨key', read', same⟩ := ok_of_bind read
  cases same
  obtain ⟨keyed, rfl⟩ := readKey_ok read'
  obtain ⟨_, s₁, put₁, run⟩ := run_of_bind run
  obtain ⟨_, s₂, put₂, run⟩ := run_of_bind run
  obtain ⟨r', s₃, printed, run⟩ := run_of_bind run
  obtain ⟨_, s₄, put₄, -⟩ := run_of_bind run
  have length₁ := (of_putText put₁).2
  have length₂ := (of_putText put₂).2
  obtain ⟨rfl, length₃⟩ : r' = (memberText printNumber child).length ∧ s₃.length = s₂.length := by
    unfold snprintf at printed
    split_ifs at printed
    · obtain ⟨_, s, put, rest⟩ := run_of_bind printed
      cases rest
      exact ⟨rfl, (of_putText put).2⟩
    · cases printed
      exact ⟨rfl, rfl⟩
  have room := (of_putText put₄).1
  rw [List.length_singleton] at room
  rw [length_entry]
  exact ⟨keyed, by dsimp only at length₁ length₂; omega⟩

/-- What stands in the buffer for a member: its line, unless its number has been cut off. -/
structure Block (printNumber : JsonNode ν → Bytes) (child : JsonNode ν) (block : Bytes) :
    Prop where
  length : block.length = (entry printNumber child).length + 1
  whole : Whole printNumber 15 child → block = line (entry printNumber child)
  cut : ¬ Whole printNumber 15 child → ∃ j, block[j]? = some 0 ∧ j + 1 < block.length

variable (printNumber) in
/-- The size that is told is enough for a text that is not cut off. -/
theorem printSize_spec {total : Nat} {child : JsonNode ν}
    (room : (memberText printNumber child).length < canonicalSize - total) :
    printSize total child ≠ 0 ∧
      (Whole printNumber 15 child →
        (memberText printNumber child).length ≤ printSize total child - 1) ∧
      (¬ Whole printNumber 15 child →
        printSize total child = 16 ∧ 15 < (memberText printNumber child).length) := by
  by_cases printed : Printed child
  · have size : printSize total child = 16 := by
      unfold printSize
      split
      · next string => exact absurd string printed.1
      · next bool => exact absurd bool printed.2
      · rfl
    rw [size]
    refine ⟨by decide, fun whole => whole printed, fun cut => ⟨rfl, ?_⟩⟩
    apply Nat.lt_of_not_le
    exact fun le => cut fun _ => le
  · have size : printSize total child = canonicalSize - total := by
      unfold printSize
      split
      · rfl
      · rfl
      · next other string bool => exact absurd ⟨string, bool⟩ printed
    rw [size]
    refine ⟨by omega, fun _ => by omega, fun cut => ?_⟩
    exact absurd (fun yes => absurd yes printed) cut

variable (printNumber) in
/-- With a key, and room, a line is added. -/
theorem addLine_eq {child : JsonNode ν} {pre post : Bytes}
    (length : (pre ++ post).length = canonicalSize) (keyed : child.key.isSome)
    (room : (entry printNumber child).length + 1 ≤ post.length) :
    ∃ block, addLine printNumber pre.length child (pre ++ post) =
        .ok (⟨pre.length, block.length⟩, pre ++ block ++ post.drop block.length) ∧
      Block printNumber child block := by
  rw [length_entry] at room
  rw [List.length_append] at length
  generalize key_eq : lowerKey child = key at room
  generalize text_eq : memberText printNumber child = text at room
  have fits : (memberText printNumber child).length < canonicalSize - pre.length := by
    rw [text_eq]
    omega
  obtain ⟨size_ne, whole_le, cut_size⟩ := printSize_spec printNumber fits
  rw [text_eq] at whole_le cut_size
  generalize size_eq : printSize pre.length child = size at size_ne whole_le cut_size
  -- What is behind the equals sign after the text has been printed.
  have printed_le : (text.take (size - 1)).length ≤ text.length := List.length_take_le' _ _
  generalize printed_eq : text.take (size - 1) = printed at printed_le
  have mid_length : text.length < (printed ++ [0] ++
      post.drop (key.length + 1 + (printed.length + 1))).length := by
    simp only [List.length_append, List.length_drop, List.length_singleton]
    omega
  have mid_drop : (printed ++ [0] ++
      post.drop (key.length + 1 + (printed.length + 1))).drop (text.length + 1) =
      post.drop (key.length + 1 + text.length + 1) := by
    rw [List.drop_append, List.drop_eq_nil_of_le (by simpa using printed_le), List.nil_append,
      List.length_append, List.length_singleton, List.drop_drop]
    congr 1
    omega
  have mid_whole : printed = text → (printed ++ [0] ++
      post.drop (key.length + 1 + (printed.length + 1))).take text.length = text := by
    rintro rfl
    rw [List.append_assoc, List.take_left]
  have mid_cut : (printed ++ [0] ++
      post.drop (key.length + 1 + (printed.length + 1)))[printed.length]? = some 0 := by
    rw [List.append_assoc, List.getElem?_append_right (Nat.le_refl _), Nat.sub_self]
    rfl
  generalize mid_eq : printed ++ [0] ++ post.drop (key.length + 1 + (printed.length + 1)) = mid
    at mid_length mid_drop mid_whole mid_cut
  have taken : (mid.take text.length).length = text.length :=
    List.length_take_of_le (Nat.le_of_lt mid_length)
  have block_length : (key ++ [equals] ++ mid.take text.length ++ [lf]).length =
      key.length + 1 + text.length + 1 := by
    simp only [List.length_append, List.length_singleton, taken]
  refine ⟨key ++ [equals] ++ mid.take text.length ++ [lf], ?_, ?_, ?_, ?_⟩
  · have wrote : snprintf (pre.length + (key.length + 1)) size text
        (pre ++ key ++ [equals] ++ (post.drop key.length).drop [equals].length) =
        .ok (text.length, pre ++ key ++ [equals] ++ mid) := by
      rw [snprintf, if_pos size_ne, bind_apply, printed_eq,
        putText_append (by simp only [List.length_append, List.length_singleton]; omega)
          (by simp only [List.length_append, List.length_drop, List.length_singleton]; omega),
        ok_bind, ← mid_eq]
      simp only [pure_apply]
      simp only [List.drop_drop, List.length_append, List.length_singleton, List.append_assoc,
        Nat.add_assoc]
    have ended : putText (pre.length + (key.length + 1 + text.length)) [lf]
        (pre ++ key ++ [equals] ++ mid) =
        .ok ((), pre ++ key ++ [equals] ++ mid.take text.length ++ [lf] ++
          mid.drop (text.length + 1)) := by
      have split : pre ++ key ++ [equals] ++ mid =
          pre ++ key ++ [equals] ++ mid.take text.length ++ mid.drop text.length := by
        rw [List.append_assoc _ (mid.take _), List.take_append_drop]
      rw [split, putText_append
        (by simp only [List.length_append, List.length_singleton, taken]; omega)
        (by rw [List.length_singleton, List.length_drop]; omega), List.drop_drop,
        List.length_singleton]
    rw [addLine, bind_apply, readKey_eq keyed, lift_ok, ok_bind, key_eq, text_eq, size_eq]
    dsimp only
    rw [bind_apply, putText_append rfl (by omega), ok_bind, bind_apply,
      putText_append (by rw [List.length_append])
        (by rw [List.length_drop, List.length_singleton]; omega), ok_bind, bind_apply,
        wrote, ok_bind,
      bind_apply, ended, ok_bind, pure_apply, block_length, mid_drop]
    simp only [List.append_assoc]
  · rw [block_length, length_entry, key_eq, text_eq]
  · intro whole
    have all : printed = text := by rw [← printed_eq, List.take_of_length_le (whole_le whole)]
    rw [mid_whole all, line, entry, key_eq, text_eq]
    simp only [List.append_assoc, List.singleton_append]
  · intro cut
    obtain ⟨rfl, long⟩ := cut_size cut
    have short : printed.length = 15 := by
      rw [← printed_eq, List.length_take]
      omega
    refine ⟨key.length + 1 + printed.length, ?_, by rw [block_length]; omega⟩
    rw [List.append_assoc, List.getElem?_append_right
      (by simp only [List.length_append, List.length_singleton]; omega),
      List.length_append, List.length_singleton, Nat.add_sub_cancel_left,
      List.getElem?_append_left (by rw [taken]; omega),
      List.getElem?_take_of_lt (by omega), mid_cut]

theorem addLines_eq {children : List (JsonNode ν)} (pre post : Bytes) (count : Nat)
    (le : count + children.length ≤ maxParamLine) (length : (pre ++ post).length = canonicalSize)
    (keyed : ∀ child ∈ children, child.key.isSome)
    (room : linesLength printNumber children ≤ post.length) :
    ∃ blocks, addLines printNumber children pre.length count (pre ++ post) =
        .ok (places pre.length blocks, pre ++ blocks.flatten ++ post.drop blocks.flatten.length) ∧
      List.Forall₂ (Block printNumber) children blocks := by
  induction children generalizing pre post count with
  | nil =>
      refine ⟨[], ?_, .nil⟩
      rw [addLines, pure_apply, List.flatten_nil, List.append_nil, List.length_nil, List.drop_zero]
      rfl
  | cons child children ih =>
      rw [List.length_cons] at le
      rw [linesLength_cons] at room
      obtain ⟨block, added, is_block⟩ :=
        addLine_eq printNumber length (keyed child List.mem_cons_self) (by omega)
      have block_length := is_block.length
      obtain ⟨blocks, rest, are_blocks⟩ := ih (pre ++ block) (post.drop block.length) (count + 1)
        (by omega)
        (by simp only [List.length_append, List.length_drop] at length ⊢; omega)
        (fun c mem => keyed c (List.mem_cons_of_mem _ mem)) (by rw [List.length_drop]; omega)
      refine ⟨block :: blocks, ?_, .cons is_block are_blocks⟩
      rw [List.length_append] at rest
      rw [addLines, if_pos (by omega), bind_apply, added, ok_bind, bind_apply]
      dsimp only
      rw [rest, ok_bind, pure_apply, places, List.flatten_cons, List.length_append, List.drop_drop]
      simp only [List.append_assoc]

/-- Lines that are added have found an entry of the list, a key and room for each. -/
theorem of_addLines {children : List (JsonNode ν)} {pre post : Bytes} {count : Nat}
    {r : List Str × Bytes} (length : (pre ++ post).length = canonicalSize)
    (le : count ≤ maxParamLine)
    (run : addLines printNumber children pre.length count (pre ++ post) = .ok r) :
    count + children.length ≤ maxParamLine ∧ (∀ child ∈ children, child.key.isSome) ∧
      linesLength printNumber children ≤ post.length := by
  induction children generalizing pre post count r with
  | nil => exact ⟨le, List.forall_mem_nil _, Nat.zero_le _⟩
  | cons child children ih =>
      rw [addLines] at run
      split_ifs at run with more
      · obtain ⟨s, buf, added, run⟩ := run_of_bind run
        obtain ⟨list, buf', rest, -⟩ := run_of_bind run
        obtain ⟨keyed, room⟩ := of_addLine added
        rw [List.length_append] at room
        obtain ⟨block, added', is_block⟩ := addLine_eq printNumber length keyed (by omega)
        have block_length := is_block.length
        rw [added] at added'
        cases added'
        dsimp only at rest
        rw [← List.length_append] at rest
        obtain ⟨le', keyed', room'⟩ := ih
          (by simp only [List.length_append, List.length_drop] at length ⊢; omega) more rest
        rw [List.length_drop] at room'
        rw [List.length_cons, linesLength_cons]
        exact ⟨by omega, List.forall_mem_cons.mpr ⟨keyed, keyed'⟩, by omega⟩
      · cases run

theorem length_blocks {children : List (JsonNode ν)} {blocks : List Bytes}
    (are_blocks : List.Forall₂ (Block printNumber) children blocks) :
    blocks.flatten.length = linesLength printNumber children := by
  induction are_blocks with
  | nil => rfl
  | cons is_block _ ih =>
      rw [List.flatten_cons, List.length_append, ih, is_block.length, linesLength_cons]

/-- Where no number is cut off, the lines stand in the buffer. -/
theorem blocks_whole {children : List (JsonNode ν)} {blocks : List Bytes}
    (are_blocks : List.Forall₂ (Block printNumber) children blocks)
    (whole : ∀ child ∈ children, Whole printNumber 15 child) :
    blocks = (children.map (entry printNumber)).map line := by
  induction are_blocks with
  | nil => rfl
  | cons is_block _ ih =>
      obtain ⟨first, rest⟩ := List.forall_mem_cons.mp whole
      rw [List.map_cons, List.map_cons, is_block.whole first, ← ih rest]

/-- Where one is, the string ends early. -/
theorem blocks_cut {children : List (JsonNode ν)} {blocks : List Bytes}
    (are_blocks : List.Forall₂ (Block printNumber) children blocks) {child : JsonNode ν}
    (mem : child ∈ children) (cut : ¬ Whole printNumber 15 child) :
    ∃ block ∈ blocks, ∃ j, block[j]? = some 0 ∧ j + 1 < block.length := by
  induction are_blocks with
  | nil => cases mem
  | cons is_block _ ih =>
      rcases List.mem_cons.mp mem with rfl | mem
      · exact ⟨_, List.mem_cons_self, is_block.cut cut⟩
      · obtain ⟨block, in_blocks, early⟩ := ih mem
        exact ⟨block, List.mem_cons_of_mem _ in_blocks, early⟩

theorem blocks_filled {children : List (JsonNode ν)} {blocks : List Bytes}
    (are_blocks : List.Forall₂ (Block printNumber) children blocks) : ∀ s ∈ blocks, s ≠ [] := by
  induction are_blocks with
  | nil => exact List.forall_mem_nil _
  | cons is_block _ ih =>
      refine List.forall_mem_cons.mpr ⟨?_, ih⟩
      rintro rfl
      exact absurd is_block.length (Nat.succ_ne_zero _).symm

/-- What the static build does with members that have keys, and room for their lines. -/
theorem formCanonicalPrmStatic_run (signed : Bool) {param : JsonNode ν} {buffer : Bytes}
    (length : buffer.length = canonicalSize) (some : param.jsonFirstChild ≠ [])
    (le : param.jsonFirstChild.length ≤ maxParamLine)
    (keyed : ∀ child ∈ param.jsonFirstChild, child.key.isSome)
    (short : linesLength printNumber param.jsonFirstChild < canonicalSize) :
    ∃ (blocks sorted : List Bytes) (rest : Bytes),
      List.Forall₂ (Block printNumber) param.jsonFirstChild blocks ∧
      sorted.Perm blocks ∧ sorted.IsChain (InOrder signed) ∧
      formCanonicalPrmStatic printNumber signed param buffer =
        .ok
          (cstr (sorted.flatten.dropLast ++ 0 :: rest), sorted.flatten.dropLast ++ 0 :: rest) := by
  obtain ⟨blocks, added, are_blocks⟩ := addLines_eq [] buffer 0
    (by rw [Nat.zero_add]; exact le) length keyed (by rw [length]; exact Nat.le_of_lt short)
  have total := length_blocks are_blocks
  have some_blocks : blocks ≠ [] := by
    rintro rfl
    exact some (List.forall₂_nil_right_iff.mp are_blocks)
  generalize rest_eq : buffer.drop blocks.flatten.length = rest at added
  have room : 1 ≤ rest.length := by
    rw [← rest_eq, List.length_drop, length, total]
    omega
  obtain ⟨sorted, sorts, perm, ordered⟩ :=
    bubble_eq signed [] ([0] ++ rest.drop 1) blocks
  have some_sorted : sorted ≠ [] := by
    rintro rfl
    exact some_blocks perm.symm.eq_nil
  have filled : sorted.flatten ≠ [] := by
    obtain ⟨s, mem⟩ := List.exists_mem_of_ne_nil sorted some_sorted
    intro none
    exact blocks_filled are_blocks s (perm.mem_iff.mp mem) (List.flatten_eq_nil_iff.mp none s mem)
  obtain ⟨s, last, ends⟩ := places_getLast? 0 some_blocks
  obtain ⟨s', last', ends'⟩ := places_getLast? 0 some_sorted
  refine ⟨blocks, sorted, [0] ++ rest.drop 1, are_blocks, perm, ordered, ?_⟩
  rw [List.length_nil, List.nil_append, List.nil_append] at added sorts
  rw [Nat.zero_add] at ends ends'
  rw [formCanonicalPrmStatic, bind_apply, added, ok_bind, bind_apply, terminate, last]
  dsimp only
  rw [Nat.sub_zero, ends, putText_append rfl (by rw [List.length_singleton]; exact room), ok_bind,
    bind_apply, List.append_assoc, List.length_singleton, sorts, ok_bind, bind_apply,
    terminate, last']
  dsimp only
  -- The last newline becomes the terminator.
  have split : sorted.flatten ++ ([0] ++ rest.drop 1) =
      sorted.flatten.dropLast ++ ([sorted.flatten.getLast filled] ++ ([0] ++ rest.drop 1)) := by
    conv_lhs => rw [← List.dropLast_append_getLast filled]
    exact List.append_assoc _ _ _
  rw [ends', split, putText_append (by rw [List.length_dropLast])
    (by simp only [List.length_append, List.length_singleton]; omega), ok_bind,
    bind_apply, get_apply, ok_bind, pure_apply, List.append_assoc]
  rfl

/-- When the static build comes to an end. -/
theorem of_formCanonicalPrmStatic {signed : Bool} {param : JsonNode ν} {buffer : Bytes}
    {r : Bytes × Bytes} (length : buffer.length = canonicalSize)
    (run : formCanonicalPrmStatic printNumber signed param buffer = .ok r) :
    param.jsonFirstChild ≠ [] ∧ param.jsonFirstChild.length ≤ maxParamLine ∧
      (∀ child ∈ param.jsonFirstChild, child.key.isSome) ∧
      linesLength printNumber param.jsonFirstChild < canonicalSize := by
  obtain ⟨list, buf, added, run⟩ := run_of_bind run
  obtain ⟨_, buf', terminated, -⟩ := run_of_bind run
  have whole : ([] ++ buffer).length = canonicalSize := length
  obtain ⟨le, keyed, room⟩ := of_addLines whole (Nat.zero_le _) added
  obtain ⟨blocks, added', are_blocks⟩ := addLines_eq [] buffer 0 le length keyed room
  have total := length_blocks are_blocks
  rw [List.length_nil, List.nil_append] at added'
  rw [added'] at added
  cases added
  have some_blocks : blocks ≠ [] := by
    rintro rfl
    cases terminated
  obtain ⟨s, last, ends⟩ := places_getLast? 0 some_blocks
  rw [terminate, last] at terminated
  have fits := (of_putText terminated).1
  rw [Nat.sub_zero, ends, total, List.length_singleton, List.nil_append, List.length_append,
    List.length_drop, total] at fits
  refine ⟨?_, by rwa [Nat.zero_add] at le, keyed, by omega⟩
  intro none
  rw [none] at are_blocks
  exact some_blocks (List.forall₂_nil_left_iff.mp are_blocks)

/-- A zero within one of the texts stands before the last character of all. -/
theorem zero_of_block {blocks : List Bytes} {block : Bytes} {j : Nat} (mem : block ∈ blocks)
    (zero : block[j]? = some 0) (early : j + 1 < block.length) :
    ∃ p, blocks.flatten.dropLast[p]? = some 0 ∧ p < blocks.flatten.dropLast.length := by
  obtain ⟨before, after, rfl⟩ := List.append_of_mem mem
  have lt : before.flatten.length + j < (before ++ block :: after).flatten.dropLast.length := by
    rw [List.length_dropLast, List.flatten_append, List.flatten_cons, List.length_append,
      List.length_append]
    omega
  refine ⟨before.flatten.length + j, ?_, lt⟩
  rw [List.getElem?_dropLast, if_pos (by rwa [List.length_dropLast] at lt), List.flatten_append,
    List.flatten_cons, List.getElem?_append_right (Nat.le_add_right _ _), Nat.add_sub_cancel_left,
    List.getElem?_append_left (by omega), zero]

/-- Lines in another order are the lines of the texts in another order. -/
theorem lines_of_perm {sorted list : List Bytes} (perm : sorted.Perm (list.map line)) :
    ∃ list' : List Bytes, list'.Perm list ∧ sorted = list'.map line := by
  have dropped : ∀ s : Bytes, (line s).dropLast = s := fun s => List.dropLast_concat
  refine ⟨sorted.map List.dropLast, ?_, ?_⟩
  · have perm' := perm.map List.dropLast
    rw [List.map_map] at perm'
    simpa [Function.comp_def, dropped] using perm'
  · rw [List.map_map]
    have kept : ∀ s ∈ sorted, s = line s.dropLast := by
      intro s mem
      obtain ⟨t, -, rfl⟩ := List.mem_map.mp (perm.mem_iff.mp mem)
      rw [dropped]
    exact (List.map_id sorted).symm.trans (List.map_congr_left kept)

/-- The static build returns the canonical string, which stands in its buffer with a terminator. -/
def StaticRight (printNumber : JsonNode ν → Bytes) (signed : Bool) (param : JsonNode ν)
    (buffer : Bytes) : Prop :=
  ∃ text rest, formCanonicalPrmStatic printNumber signed param buffer =
      .ok (text, text ++ 0 :: rest) ∧
    IsCanonical printNumber (fun s t => InOrder signed (line s) (line t)) param text

/-- The static build is right for the parameters that fit, with numbers of up to 15 characters and
lines of less than 3000 bytes. -/
theorem formCanonicalPrmStatic_iff (signed : Bool) {param : JsonNode ν} {buffer : Bytes}
    (length : buffer.length = canonicalSize)
    (plain : ∀ child ∈ param.jsonFirstChild, Plain printNumber child) :
    StaticRight printNumber signed param buffer ↔
      Fits printNumber 15 param ∧ linesLength printNumber param.jsonFirstChild < canonicalSize := by
  constructor
  · rintro ⟨text, rest, run, canonical⟩
    obtain ⟨some, le, keyed, short⟩ := of_formCanonicalPrmStatic length run
    refine ⟨⟨some, le, keyed, ?_⟩, short⟩
    intro child mem
    by_contra cut
    obtain ⟨blocks, sorted, rest', are_blocks, perm, -, run'⟩ :=
      formCanonicalPrmStatic_run signed length some le keyed short
    obtain ⟨block, in_blocks, j, zero, early⟩ := blocks_cut are_blocks mem cut
    obtain ⟨p, zero, lt⟩ := zero_of_block (perm.mem_iff.mpr in_blocks) zero early
    rw [run] at run'
    have text_eq := congrArg Prod.fst (Except.ok.inj run')
    dsimp only at text_eq
    have text_le : (cstr (sorted.flatten.dropLast ++ 0 :: rest')).length ≤ p :=
      cstr_length_le (by rw [List.getElem?_append_left lt, zero])
    rw [← text_eq] at text_le
    rw [List.length_dropLast, perm.flatten.length_eq, length_blocks are_blocks] at lt
    have text_length := canonical.length_eq some
    omega
  · rintro ⟨⟨some, le, keyed, whole⟩, short⟩
    obtain ⟨blocks, sorted, rest, are_blocks, perm, ordered, run⟩ :=
      formCanonicalPrmStatic_run signed length some le keyed short
    rw [blocks_whole are_blocks whole] at perm
    obtain ⟨list, perm', rfl⟩ := lines_of_perm perm
    have some' : list ≠ [] := by
      rintro rfl
      exact some (List.map_eq_nil_iff.mp perm'.symm.eq_nil)
    have text_eq : (list.map line).flatten.dropLast = [lf].intercalate list := by
      rw [← flat, flat_eq some', List.dropLast_concat]
    have text_plain : 0 ∉ [lf].intercalate list := by
      apply zero_not_mem_intercalate
      intro s mem
      obtain ⟨child, in_children, rfl⟩ := List.mem_map.mp (perm'.mem_iff.mp mem)
      exact (plain child in_children).entry
    rw [text_eq, cstr_terminated text_plain] at run
    exact ⟨_, rest, run, list, perm', (List.isChain_map line).mp ordered, rfl⟩

end AcnSdk.Arrow
