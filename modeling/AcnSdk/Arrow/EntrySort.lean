/-
Exchanging and sorting entries of a buffer in place, `swap` and `bubble` of
`src/arrow/gateway_payload_sign.c`.

An entry is a part of the buffer, and entries are contiguous where each begins at the end of the
one before it. Whatever their lengths are, exchanging two of them and sorting all of them leaves the
same part of the buffer in contiguous entries with the same texts.

* `swap_adjacent` — two neighbours change places.
* `bubble_contiguous` — the entries are sorted as far as `less` tells them apart.
-/

import AcnSdk.Arrow.CanonicalStatic

namespace AcnSdk.Arrow

open AcnSdk.Lib Prog

/-! ### Entries -/

/-- The bytes of an entry. -/
def Str.text (buf : Bytes) (s : Str) : Bytes := (buf.drop s.start).take s.len

/-- The entries fill the buffer from `i` to `j`, one after the other. -/
inductive Contiguous : Nat → List Str → Nat → Prop where
  | nil (i : Nat) : Contiguous i [] i
  | cons {i len j : Nat} {list : List Str} (rest : Contiguous (i + len) list j) :
      Contiguous i (⟨i, len⟩ :: list) j

/-- Nothing is changed but from `i` to `j`. -/
structure Confined (i j : Nat) (buf buf' : Bytes) : Prop where
  length_eq : buf'.length = buf.length
  outside : ∀ k, k < i ∨ j ≤ k → buf'[k]? = buf[k]?

/-- No text begins with another one. -/
def PrefixFree (texts : List Bytes) : Prop := texts.Pairwise fun s t => ¬ s <+: t ∧ ¬ t <+: s

/-- The order of texts by their characters. -/
def textLt (signed : Bool) (s t : Bytes) : Prop :=
  s.map (charValue signed) < t.map (charValue signed)

variable {buf : Bytes} {i j : Nat} {list : List Str}

theorem Contiguous.le (contiguous : Contiguous i list j) : i ≤ j := by
  induction contiguous with
  | nil i => exact Nat.le_refl i
  | cons _ ih => exact Nat.le_trans (Nat.le_add_right _ _) ih

/-- Contiguous entries stand where their texts put them. -/
theorem Contiguous.places_eq (contiguous : Contiguous i list j) (inside : j ≤ buf.length) :
    list = places i (list.map (Str.text buf)) := by
  induction contiguous with
  | nil i => rfl
  | @cons i len j list rest ih =>
      have fits := rest.le
      have length : (Str.text buf ⟨i, len⟩).length = len := by
        rw [Str.text, List.length_take, List.length_drop]
        exact Nat.min_eq_left (by dsimp only; omega)
      rw [List.map_cons, places, length, ← ih inside]

/-- Their texts are what the buffer has there. -/
theorem Contiguous.flatten_eq (contiguous : Contiguous i list j) (inside : j ≤ buf.length) :
    (list.map (Str.text buf)).flatten = (buf.drop i).take (j - i) := by
  induction contiguous with
  | nil i => rw [Nat.sub_self, List.take_zero, List.map_nil, List.flatten_nil]
  | @cons i len j list rest ih =>
      have fits := rest.le
      rw [List.map_cons, List.flatten_cons, ih inside, Str.text, ← List.drop_drop,
        show j - i = len + (j - (i + len)) by omega, List.take_add]

theorem Contiguous.buffer_eq (contiguous : Contiguous i list j) (inside : j ≤ buf.length) :
    buf = buf.take i ++ (list.map (Str.text buf)).flatten ++ buf.drop j := by
  have le := contiguous.le
  have rest : (buf.drop i).drop (j - i) = buf.drop j := by
    rw [List.drop_drop, Nat.add_sub_cancel' le]
  rw [contiguous.flatten_eq inside, List.append_assoc, ← rest, List.take_append_drop,
    List.take_append_drop]

/-- Texts that are put one after the other are contiguous entries. -/
theorem contiguous_places (i : Nat) (texts : List Bytes) :
    Contiguous i (places i texts) (i + texts.flatten.length) := by
  induction texts generalizing i with
  | nil => exact .nil i
  | cons s texts ih =>
      rw [List.flatten_cons, List.length_append, ← Nat.add_assoc]
      exact .cons (ih (i + s.length))

theorem texts_places (pre post : Bytes) (texts : List Bytes) :
    (places pre.length texts).map (Str.text (pre ++ texts.flatten ++ post)) = texts := by
  induction texts generalizing pre with
  | nil => rfl
  | cons s texts ih =>
      have rest := ih (pre ++ s)
      rw [List.length_append] at rest
      have first : Str.text (pre ++ (s :: texts).flatten ++ post) ⟨pre.length, s.length⟩ = s := by
        rw [Str.text, List.flatten_cons, List.append_assoc, List.append_assoc, List.drop_left,
          List.take_left]
      rw [places, List.map_cons, first, List.flatten_cons, ← List.append_assoc pre, rest]

/-- Contiguous entries, with the buffer cut at their ends. -/
theorem Contiguous.split (contiguous : Contiguous i list j) (inside : j ≤ buf.length) :
    ∃ pre post texts, pre.length = i ∧ i + texts.flatten.length = j ∧
      list = places pre.length texts ∧ buf = pre ++ texts.flatten ++ post := by
  have le := contiguous.le
  have front : (buf.take i).length = i := by
    rw [List.length_take]
    omega
  refine ⟨buf.take i, buf.drop j, list.map (Str.text buf), front, ?_, ?_,
    contiguous.buffer_eq inside⟩
  · rw [contiguous.flatten_eq inside, List.length_take, List.length_drop]
    omega
  · rw [front]
    exact contiguous.places_eq inside

theorem confined_region (pre post : Bytes) {M M' : Bytes} (length : M'.length = M.length) :
    Confined pre.length (pre.length + M.length) (pre ++ M ++ post) (pre ++ M' ++ post) := by
  constructor
  · simp only [List.length_append, length]
  · rintro k (before | behind)
    · rw [List.append_assoc, List.append_assoc, List.getElem?_append_left before,
        List.getElem?_append_left before]
    · rw [List.getElem?_append_right (by rw [List.length_append]; omega),
        List.getElem?_append_right (by rw [List.length_append]; omega), List.length_append,
        List.length_append, length]

/-! ### Exchange -/

/-- Two neighbours have changed places: each descriptor denotes what the other one denoted. -/
structure Exchanged (buf : Bytes) (s1 s2 : Str) (buf' : Bytes) (s1' s2' : Str) : Prop where
  start : s1'.start = s1.start
  adjacent : s2'.start = s1'.start + s1'.len
  first : s1'.text buf' = s2.text buf
  second : s2'.text buf' = s1.text buf
  lengths : s1'.len = s2.len ∧ s2'.len = s1.len
  confined : Confined s1.start (s2.start + s2.len) buf buf'

/-- `swap` exchanges two neighbours of any lengths. -/
theorem swap_adjacent {s1 s2 : Str} (adjacent : s2.start = s1.start + s1.len)
    (inside : s2.start + s2.len ≤ buf.length) :
    ∃ s1' s2' buf', swap s1 s2 buf = .ok ((s1', s2'), buf') ∧
      Exchanged buf s1 s2 buf' s1' s2' := by
  have entries : Contiguous s1.start [s1, s2] (s2.start + s2.len) := by
    have rest : Contiguous (s1.start + s1.len) [s2] (s2.start + s2.len) := by
      rw [← adjacent]
      exact .cons (.nil _)
    exact .cons rest
  obtain ⟨pre, post, texts, start, length, placed, rfl⟩ := entries.split inside
  obtain ⟨s, t, rfl⟩ : ∃ s t, texts = [s, t] := by
    have two := congrArg List.length placed
    rw [length_places] at two
    exact List.length_eq_two.mp two.symm
  obtain ⟨rfl, rfl⟩ : s1 = ⟨pre.length, s.length⟩ ∧ s2 = ⟨pre.length + s.length, t.length⟩ := by
    simpa [places] using placed
  have before := texts_places pre post [s, t]
  have behind := texts_places pre post [t, s]
  simp only [places, List.map_cons, List.map_nil, List.flatten_cons, List.flatten_nil,
    List.append_nil, List.cons.injEq, and_true] at before behind ⊢
  refine ⟨_, _, _, swap_eq pre post _ s t, ?_⟩
  constructor
  · rfl
  · rfl
  · rw [before.2, behind.1]
  · rw [before.1, behind.2]
  · exact ⟨rfl, rfl⟩
  · have length : (t ++ s).length = (s ++ t).length := by
      rw [List.length_append, List.length_append, Nat.add_comm]
    have region := confined_region pre post length
    rwa [List.length_append, ← Nat.add_assoc] at region

/-- Blocks of four and of two bytes, which change places in two cycles. -/
theorem swap_adjacent_cycles : ∃ s1' s2' buf',
    swap ⟨1, 4⟩ ⟨5, 2⟩ [0, 1, 2, 3, 4, 5, 6, 7] = .ok ((s1', s2'), buf') ∧
      Exchanged [0, 1, 2, 3, 4, 5, 6, 7] ⟨1, 4⟩ ⟨5, 2⟩ buf' s1' s2' :=
  swap_adjacent rfl (by decide)

/-! ### Sorting -/

/-- Two texts of which neither begins with the other, and which `bubble` does not exchange. -/
theorem textLt_of_inOrder {signed : Bool} {s t : Bytes} (ordered : InOrder signed s t)
    (apart : ¬ s <+: t ∧ ¬ t <+: s) : textLt signed s t := by
  induction s generalizing t with
  | nil => exact absurd List.nil_prefix apart.1
  | cons c s ih =>
      cases t with
      | nil => exact absurd List.nil_prefix apart.2
      | cons d t =>
          rw [textLt, List.map_cons, List.map_cons, List.cons_lt_cons_iff]
          rw [InOrder, lessText] at ordered
          split_ifs at ordered with same less
          · subst same
            rw [List.prefix_cons_inj, List.prefix_cons_inj] at apart
            exact .inr ⟨rfl, ih ordered apart⟩
          · exact .inl less
          · exact absurd rfl ordered

instance (signed : Bool) : Trans (textLt signed) (textLt signed) (textLt signed) :=
  ⟨fun first second => List.lt_trans first second⟩

/-- Neighbours in order make a sequence in order, where no text begins with another one. -/
theorem pairwise_textLt {signed : Bool} {texts : List Bytes}
    (ordered : texts.IsChain (InOrder signed)) (free : PrefixFree texts) :
    texts.Pairwise (textLt signed) := by
  rw [← List.isChain_iff_pairwise, List.isChain_iff_forall_rel_of_append_cons_cons]
  rintro s t front rest rfl
  have two := (List.pairwise_append.mp free).2.1
  exact textLt_of_inOrder
    (List.isChain_iff_forall_rel_of_append_cons_cons.mp ordered rfl)
    ((List.pairwise_cons.mp two).1 t List.mem_cons_self)

/-- The condition does not depend on the order of the texts. -/
theorem PrefixFree.perm {texts texts' : List Bytes} (free : PrefixFree texts)
    (perm : texts'.Perm texts) : PrefixFree texts' :=
  (perm.pairwise_iff And.symm).mpr free

/-- Neighbours in order are in order for `less` where they stand. -/
theorem less_isChain {signed : Bool} (pre post : Bytes) {texts : List Bytes}
    (ordered : texts.IsChain (InOrder signed)) :
    (places pre.length texts).IsChain fun s t => ∃ order,
      less signed s t (pre ++ texts.flatten ++ post) = .ok (order, pre ++ texts.flatten ++ post) ∧
        order ≠ -1 := by
  induction texts generalizing pre with
  | nil => exact .nil
  | cons s texts ih =>
      cases texts with
      | nil => exact .singleton _
      | cons t texts =>
          rw [List.isChain_cons_cons] at ordered
          have rest := ih (pre ++ s) ordered.2
          rw [List.length_append] at rest
          have same : pre ++ s ++ (t :: texts).flatten ++ post =
              pre ++ (s :: t :: texts).flatten ++ post := by
            rw [List.flatten_cons (l := s), List.append_assoc pre]
          rw [same] at rest
          exact .cons_cons ⟨_, less_places signed pre post s t texts, ordered.1⟩ rest

/-- What `bubble` leaves. -/
structure Sorted (signed : Bool) (i j : Nat) (buf : Bytes) (list : List Str) (buf' : Bytes)
    (list' : List Str) : Prop where
  contiguous : Contiguous i list' j
  confined : Confined i j buf buf'
  perm : (list'.map (Str.text buf')).Perm (list.map (Str.text buf))
  ordered : list'.IsChain fun s t => ∃ order, less signed s t buf' = .ok (order, buf') ∧ order ≠ -1
  increasing : PrefixFree (list.map (Str.text buf)) →
    (list'.map (Str.text buf')).Pairwise (textLt signed)

/-- `bubble` sorts contiguous entries in place. -/
theorem bubble_contiguous (signed : Bool) (contiguous : Contiguous i list j)
    (inside : j ≤ buf.length) :
    ∃ list' buf', bubble signed list buf = .ok (list', buf') ∧
      Sorted signed i j buf list buf' list' := by
  obtain ⟨pre, post, texts, rfl, rfl, rfl, rfl⟩ := contiguous.split inside
  obtain ⟨sorted, run, perm, ordered⟩ := bubble_eq signed pre post texts
  have length := perm.flatten.length_eq
  refine ⟨_, _, run, ?_⟩
  constructor
  · rw [← length]
    exact contiguous_places pre.length sorted
  · exact confined_region pre post length
  · rw [texts_places, texts_places]
    exact perm
  · exact less_isChain pre post ordered
  · intro free
    rw [texts_places] at free ⊢
    exact pairwise_textLt ordered (free.perm perm)

/-- Three entries, of which one begins with another one. -/
theorem bubble_contiguous_prefix : ∃ list' buf',
    bubble true [⟨0, 2⟩, ⟨2, 1⟩, ⟨3, 2⟩] [0x62, 0x61, 0x62, 0x61, 0x80, 0] = .ok (list', buf') ∧
      Sorted true 0 5 [0x62, 0x61, 0x62, 0x61, 0x80, 0] [⟨0, 2⟩, ⟨2, 1⟩, ⟨3, 2⟩] buf' list' :=
  bubble_contiguous true (.cons (.cons (.cons (.nil 5)))) (by decide)

end AcnSdk.Arrow
