/-
The static build of the canonical form sorts the lines in its buffer.

`places` says where the lines stand. One exchange of `swap`, one pass and all passes of
`bubble` do to the lines in the buffer what bubble sort does to a list. `less` does not tell a
line from a longer one that begins with it, so the order of the sorted lines is one of
neighbours only.

* `swap_eq` — two neighbouring texts change places.
* `bubble_eq` — the lines are exchanged until all neighbours are in order.
-/

import AcnSdk.Arrow.Canonical
import AcnSdk.Lib.BubbleSort
import AcnSdk.Lib.Rotation

namespace AcnSdk.Arrow

open AcnSdk.Lib Ascii Prog

/-! ### The buffer -/

theorem charAt_eq {buf : Bytes} {i : Nat} {c : Byte} (at_i : buf[i]? = some c) :
    charAt i buf = .ok (c, buf) := by
  rw [charAt, bind_apply, get_apply, ok_bind, at_i]
  rfl

/-- Writing behind what is there. -/
theorem putText_append {pre post s : Bytes} {i : Nat} (here : i = pre.length)
    (fits : s.length ≤ post.length) :
    putText i s (pre ++ post) = .ok ((), pre ++ s ++ post.drop s.length) := by
  rw [putText, bind_apply, get_apply, ok_bind, copyTo_append here fits]
  rfl

section Region

variable {pre M post : Bytes} {x : Nat} {c : Byte}

theorem getElem?_region (lt : x < M.length) : (pre ++ M ++ post)[pre.length + x]? = M[x]? := by
  rw [List.append_assoc, List.getElem?_append_right (by omega), Nat.add_sub_cancel_left,
    List.getElem?_append_left lt]

theorem charAt_region (at_x : M[x]? = some c) :
    charAt (pre.length + x) (pre ++ M ++ post) = .ok (c, pre ++ M ++ post) :=
  charAt_eq (by rw [getElem?_region (List.getElem?_eq_some_iff.mp at_x).1, at_x])

theorem putText_region (lt : x < M.length) :
    putText (pre.length + x) [c] (pre ++ M ++ post) = .ok ((), pre ++ M.set x c ++ post) := by
  have split : M.set x c = M.take x ++ [c] ++ M.drop (x + 1) := by
    rw [List.set_eq_take_append_cons_drop, if_pos lt]
    simp
  have parts : pre ++ M ++ post = (pre ++ M.take x) ++ (M.drop x ++ post) := by
    conv_lhs => rw [← List.take_append_drop x M]
    simp only [List.append_assoc]
  have drop_eq : (M.drop x ++ post).drop [c].length = M.drop (x + 1) ++ post := by
    rw [List.length_singleton, List.drop_append_of_le_length (by rw [List.length_drop]; omega),
      List.drop_drop]
  rw [parts, putText_append (by rw [List.length_append, List.length_take]; omega)
    (by rw [List.length_append, List.length_drop, List.length_singleton]; omega), drop_eq, split]
  simp only [List.append_assoc]

end Region

/-! ### Exchange -/

section Swap

variable (pre post : Bytes) (s2Start : Nat) {M M' : Bytes} {a b p : Nat}

/-- One cycle. -/
theorem swapCycle_eq (pos : 0 < a + b) (length : M.length = a + b) (lt : p < a + b) {fuel j i : Nat}
    {c : Byte}
    (hopped : Hopped a b p j M M') (more : j < period a b) (enough : period a b ≤ j + fuel)
    (item : M[placeAfter a b p j]? = some c) :
    ∃ M'', swapCycle ⟨pre.length, a⟩ ⟨s2Start, b⟩ p fuel (placeAfter a b p j) c i
      (pre ++ M' ++ post) =
        .ok (i + (period a b - j), pre ++ M'' ++ post) ∧ Hopped a b p (period a b) M M'' := by
  induction fuel generalizing j i c M' with
  | zero => omega
  | succ fuel ih =>
      have place_lt : placeAfter a b p (j + 1) < a + b := placeAfter_lt (by omega)
      have length' : M'.length = a + b := by rw [hopped.length_eq, length]
      obtain ⟨t, next_item⟩ : ∃ t, M[placeAfter a b p (j + 1)]? = some t :=
        ⟨_, List.getElem?_eq_getElem (by omega)⟩
      have found : M'[placeAfter a b p (j + 1)]? = some t := by rw [hopped.next pos more, next_item]
      have stepped := hopped.step pos length more item
      rw [swapCycle,
        show (if placeAfter a b p j < a then b + placeAfter a b p j else placeAfter a b p j - a) =
          placeAfter a b p (j + 1) from nextPos_placeAfter (by omega)]
      simp only [bind_apply, charAt_region found, ok_bind,
        putText_region (by omega : placeAfter a b p (j + 1) < M'.length)]
      by_cases last : j + 1 = period a b
      · have home : placeAfter a b p (j + 1) = p := by rw [last, placeAfter_period lt]
        rw [← last, if_neg (by rw [home, not_not]), pure_apply, show j + 1 - j = 1 by omega]
        exact ⟨_, rfl, stepped⟩
      · have back : p ≠ placeAfter a b p (j + 1) := by
          have := placeAfter_ne (a := a) (s := p) pos (show 0 < j + 1 by omega) (by omega)
          rwa [placeAfter_zero lt] at this
        obtain ⟨M'', eq, whole⟩ := ih (i := i + 1) stepped (by omega) (by omega) next_item
        rw [if_pos back, eq]
        exact ⟨M'',
          by rw [show i + 1 + (period a b - (j + 1)) = i + (period a b - j) by omega], whole⟩

/-- The cycles that are left. -/
theorem swapLoop_eq (pos : 0 < a + b) (length : M.length = a + b) {fuel : Nat}
    (turned : Turned a b p M M')
    (le : p ≤ (a + b).gcd b) (enough : (a + b).gcd b < p + fuel) :
    swapLoop ⟨pre.length, a⟩ ⟨s2Start, b⟩ fuel p (p * period a b) (pre ++ M' ++ post) =
      .ok ((), pre ++ (M.drop a ++ M.take a) ++ post) := by
  have cycles := gcd_mul_period (a := a) (b := b)
  have period_pos := period_pos (a := a) pos
  have length' : M'.length = a + b := by rw [turned.length_eq, length]
  induction fuel generalizing p M' with
  | zero => omega
  | succ fuel ih =>
      rw [swapLoop]
      dsimp only
      by_cases more : p < (a + b).gcd b
      · have p_lt : p < a + b := Nat.lt_of_lt_of_le more (Nat.gcd_le_left _ (by omega))
        have count : p * period a b < a + b := by
          rw [← cycles]
          exact Nat.mul_lt_mul_of_pos_right more period_pos
        have enough_steps : period a b ≤ 0 + (a + b) := by
          rw [Nat.zero_add]
          exact Nat.div_le_self _ _
        obtain ⟨c, item⟩ : ∃ c, M'[placeAfter a b p 0]? = some c :=
          ⟨_, List.getElem?_eq_getElem (by rw [placeAfter_zero p_lt]; omega)⟩
        obtain ⟨M'', eq, hopped⟩ :=
          swapCycle_eq pre post s2Start (i := p * period a b) pos length' p_lt
          (.start a b p M') period_pos enough_steps item
        rw [placeAfter_zero p_lt] at eq item
        simp only [if_pos count, bind_apply, charAt_region item, ok_bind, eq, Nat.sub_zero]
        rw [← Nat.succ_mul]
        exact ih (turned.cycle pos more hopped) more (by omega) (by rw [hopped.length_eq, length'])
      · have whole : p = (a + b).gcd b := by omega
        subst whole
        rw [cycles, if_neg (Nat.lt_irrefl _), turned.eq_swap pos length]
        rfl

/-- Two neighbouring texts change places. -/
theorem swap_eq (s t : Bytes) :
    swap ⟨pre.length, s.length⟩ ⟨s2Start, t.length⟩ (pre ++ (s ++ t) ++ post) =
      .ok
        ((⟨pre.length, t.length⟩, ⟨pre.length + t.length, s.length⟩), pre ++ (t ++ s) ++ post) := by
  have length : (s ++ t).length = s.length + t.length := List.length_append
  have looped : swapLoop ⟨pre.length, s.length⟩ ⟨s2Start, t.length⟩ (s.length + t.length + 1) 0 0
      (pre ++ (s ++ t) ++ post) = .ok ((), pre ++ (t ++ s) ++ post) := by
    rcases Nat.eq_zero_or_pos (s.length + t.length) with none | pos
    · obtain ⟨rfl, rfl⟩ : s = [] ∧ t = [] :=
        ⟨List.length_eq_zero_iff.mp (by omega), List.length_eq_zero_iff.mp (by omega)⟩
      rfl
    · have enough : (s.length + t.length).gcd t.length < 0 + (s.length + t.length + 1) := by
        have := Nat.gcd_le_left (m := s.length + t.length) t.length pos
        omega
      have cycles := swapLoop_eq pre post s2Start pos length (.start _ _ _) (Nat.zero_le _) enough
      rwa [Nat.zero_mul, List.drop_left, List.take_left] at cycles
  rw [swap, bind_apply]
  dsimp only
  rw [looped]
  rfl

end Swap

/-! ### Comparison -/

/-- What `less` finds in two texts: the first difference within the length of both. -/
def lessText (signed : Bool) : Bytes → Bytes → Int
  | [], _ => 0
  | _ :: _, [] => 0
  | c :: s, d :: t =>
      if c = d then lessText signed s t
      else if charValue signed c < charValue signed d then 1
      else -1

/-- Two lines that `bubble` does not exchange. -/
def InOrder (signed : Bool) (s t : Bytes) : Prop := lessText signed s t ≠ -1

instance (signed : Bool) (s t : Bytes) : Decidable (InOrder signed s t) :=
  inferInstanceAs (Decidable (_ ≠ _))

/-- The order of the texts by their characters, which `less` follows as far as it looks. -/
def textLe (signed : Bool) : Bytes → Bytes → Bool
  | [], _ => true
  | _ :: _, [] => false
  | c :: s, d :: t => if c = d then textLe signed s t else charValue signed c < charValue signed d

theorem charValue_inj {signed : Bool} {c d : Byte} (eq : charValue signed c = charValue signed d) :
    c = d := by
  have c_lt := c.toNat_lt
  have d_lt := d.toNat_lt
  apply UInt8.toNat_inj.mp
  unfold charValue at eq
  split_ifs at eq <;> omega

theorem textLe_total (signed : Bool) (s t : Bytes) :
    textLe signed s t = true ∨ textLe signed t s = true := by
  induction s generalizing t with
  | nil => exact .inl rfl
  | cons c s ih =>
      cases t with
      | nil => exact .inr rfl
      | cons d t =>
          rw [textLe, textLe]
          by_cases same : c = d
          · rw [if_pos same, if_pos same.symm]
            exact ih t
          · rw [if_neg same, if_neg (Ne.symm same), decide_eq_true_iff, decide_eq_true_iff]
            exact Int.lt_or_gt_of_ne fun eq => same (charValue_inj eq)

instance (signed : Bool) : Std.Total fun s t => textLe signed s t = true := ⟨textLe_total signed⟩

/-- Lines that are exchanged are in the wrong order. -/
theorem inOrder_of_textLe {signed : Bool} {s t : Bytes} (le : textLe signed s t = true) :
    InOrder signed s t := by
  have zero : (0 : Int) ≠ -1 := by decide
  induction s generalizing t with
  | nil => exact zero
  | cons c s ih =>
      cases t with
      | nil => exact zero
      | cons d t =>
          unfold InOrder
          rw [lessText]
          rw [textLe] at le
          by_cases same : c = d
          · rw [if_pos same] at le ⊢
            exact ih le
          · rw [if_neg same, decide_eq_true_iff] at le
            rw [if_neg same, if_pos le]
            decide

/-- Two texts that differ first in ASCII characters. -/
def Differ (s t : Bytes) : Prop :=
  ∃ p c d s' t', s = p ++ c :: s' ∧ t = p ++ d :: t' ∧ c ≠ d ∧ c.toNat < 128 ∧ d.toNat < 128

theorem Differ.symm {s t : Bytes} (differ : Differ s t) : Differ t s := by
  obtain ⟨p, c, d, s', t', s_eq, t_eq, ne, c_lt, d_lt⟩ := differ
  exact ⟨p, d, c, t', s', t_eq, s_eq, ne.symm, d_lt, c_lt⟩

instance : Std.Symm Differ := ⟨fun _ _ => Differ.symm⟩

/-- Where ASCII characters make the difference, the order is that of the bytes. -/
theorem inOrder_iff {signed : Bool} {s t : Bytes} (differ : Differ s t) (u v : Bytes) :
    InOrder signed (s ++ u) (t ++ v) ↔ s ≤ t := by
  obtain ⟨p, c, d, s', t', rfl, rfl, ne, c_lt, d_lt⟩ := differ
  have value : ∀ e : Byte, e.toNat < 128 → charValue signed e = e.toNat := by
    intro e lt
    exact if_neg fun h => by omega
  simp only [append_le_append_iff p ne]
  have compared : lessText signed (p ++ c :: s' ++ u) (p ++ d :: t' ++ v) =
      if c < d then 1 else -1 := by
    induction p with
    | nil =>
        simp only [List.nil_append, List.cons_append, lessText, if_neg ne, value c c_lt,
          value d d_lt, Int.ofNat_lt, UInt8.lt_iff_toNat_lt]
    | cons e p ih => simp only [List.cons_append, lessText, if_true, ih]
  rw [InOrder, compared]
  split_ifs with less
  · exact iff_of_true (by decide) less
  · exact iff_of_false (by decide) less

/-- The text stands in the buffer. -/
def StandsAt (buf : Bytes) (i : Nat) (s : Bytes) : Prop := ∀ j < s.length, buf[i + j]? = s[j]?

section Less

variable {signed : Bool} {buf s t : Bytes} {s1 s2 : Str}

theorem lessLoop_eq (first : StandsAt buf s1.start s) (second : StandsAt buf s2.start t)
    (left i : Nat) (enough : i + left = min s.length t.length) :
    lessLoop signed s1 s2 left i buf = .ok (lessText signed (s.drop i) (t.drop i), buf) := by
  induction left generalizing i with
  | zero =>
      rw [lessLoop, pure_apply]
      rcases Nat.le_total s.length t.length with short | short
      · rw [List.drop_eq_nil_of_le (by omega : s.length ≤ i)]
        rfl
      · rw [List.drop_eq_nil_of_le (by omega : t.length ≤ i)]
        cases s.drop i <;> rfl
  | succ left ih =>
      have s_lt : i < s.length := by omega
      have t_lt : i < t.length := by omega
      have one := first i s_lt
      have two := second i t_lt
      rw [List.getElem?_eq_getElem s_lt] at one
      rw [List.getElem?_eq_getElem t_lt] at two
      rw [lessLoop, bind_apply, charAt_eq one, ok_bind, bind_apply, charAt_eq two, ok_bind,
        List.drop_eq_getElem_cons s_lt, List.drop_eq_getElem_cons t_lt, lessText]
      dsimp only
      split_ifs
      · exact ih (i + 1) (by omega)
      · rfl
      · rfl

/-- `less` compares the texts. -/
theorem less_eq (first : StandsAt buf s1.start s) (second : StandsAt buf s2.start t)
    (len1 : s1.len = s.length) (len2 : s2.len = t.length) :
    less signed s1 s2 buf = .ok (lessText signed s t, buf) := by
  rw [less, len1, len2]
  exact lessLoop_eq first second _ 0 (Nat.zero_add _)

end Less

/-! ### Lines -/

/-- A line of the buffer. -/
def line (s : Bytes) : Bytes := s ++ [lf]

/-- The lines one after the other. -/
def flat (list : List Bytes) : Bytes := (list.map line).flatten

/-- Where texts stand one after the other. -/
def places : Nat → List Bytes → List Str
  | _, [] => []
  | i, s :: list => ⟨i, s.length⟩ :: places (i + s.length) list

@[simp] theorem flat_cons (s : Bytes) (list : List Bytes) :
    flat (s :: list) = line s ++ flat list := rfl

@[simp] theorem length_places (i : Nat) (list : List Bytes) :
    (places i list).length = list.length := by
  induction list generalizing i with
  | nil => rfl
  | cons s list ih => simp [places, ih]

theorem places_getLast? (i : Nat) {list : List Bytes} (some : list ≠ []) :
    ∃ s, (places i list).getLast? = Option.some s ∧ s.start + s.len = i + list.flatten.length := by
  induction list generalizing i with
  | nil => exact absurd rfl some
  | cons t list ih =>
      cases list with
      | nil => exact ⟨⟨i, t.length⟩, rfl, by simp⟩
      | cons u list =>
          obtain ⟨s, last, ends⟩ := ih (i + t.length) (List.cons_ne_nil u list)
          have whole : (t :: u :: list).flatten.length = t.length + (u :: list).flatten.length :=
            List.length_append
          refine ⟨s, ?_, by rw [ends, whole, Nat.add_assoc]⟩
          rw [places, places, List.getLast?_cons_cons]
          exact last

section Bubble

variable (signed : Bool) (pre post : Bytes)

/-- The two texts in front. -/
theorem less_places (x y : Bytes) (rest : List Bytes) :
    less signed ⟨pre.length, x.length⟩ ⟨pre.length + x.length, y.length⟩
      (pre ++ (x :: y :: rest).flatten ++ post) =
        .ok (lessText signed x y, pre ++ (x :: y :: rest).flatten ++ post) := by
  refine less_eq ?_ ?_ rfl rfl
  · intro j lt
    rw [List.flatten_cons, ← List.append_assoc pre, List.append_assoc (pre ++ _)]
    exact getElem?_region lt
  · intro j lt
    rw [List.flatten_cons, List.flatten_cons, show pre ++ (x ++ (y ++ rest.flatten)) ++ post =
      (pre ++ x) ++ y ++ (rest.flatten ++ post) by simp only [List.append_assoc],
      ← List.length_append]
    exact getElem?_region lt

/-- One pass in the buffer is one pass over the texts. -/
theorem bubblePass_eq (x : Bytes) (rest : List Bytes) :
    bubblePass signed ⟨pre.length, x.length⟩ (places (pre.length + x.length) rest)
      (pre ++ (x :: rest).flatten ++ post) =
        .ok ((places pre.length (Lib.bubblePass (InOrder signed) x rest).1,
            (Lib.bubblePass (InOrder signed) x rest).2),
          pre ++ (Lib.bubblePass (InOrder signed) x rest).1.flatten ++ post) := by
  induction rest generalizing pre x with
  | nil => rfl
  | cons y rest ih =>
      rw [places, bubblePass, bind_apply, less_places, ok_bind, Lib.bubblePass]
      dsimp only
      by_cases ordered : InOrder signed x y
      · have next := ih (pre ++ x) y
        rw [List.length_append] at next
        rw [if_pos ordered, if_neg ordered, bind_apply,
          show pre ++ (x :: y :: rest).flatten ++ post = pre ++ x ++ (y :: rest).flatten ++ post by
            rw [List.flatten_cons]; simp only [List.append_assoc], next, ok_bind, pure_apply,
          List.flatten_cons, places]
        simp only [List.append_assoc]
      · have next := ih (pre ++ y) x
        rw [List.length_append] at next
        have swapped := swap_eq pre (rest.flatten ++ post) (pre.length + x.length) x y
        rw [if_neg ordered, if_pos (not_not.mp ordered), bind_apply,
          show pre ++ (x :: y :: rest).flatten ++ post =
            pre ++ (x ++ y) ++ (rest.flatten ++ post) by
            rw [List.flatten_cons, List.flatten_cons]; simp only [List.append_assoc],
              swapped, ok_bind,
          bind_apply]
        dsimp only
        rw [show pre ++ (y ++ x) ++ (rest.flatten ++ post) =
          pre ++ y ++ (x :: rest).flatten ++ post by
            rw [List.flatten_cons]; simp only [List.append_assoc],
          Nat.add_right_comm pre.length x.length, next, ok_bind, pure_apply,
          List.flatten_cons, places]
        simp only [List.append_assoc]

theorem bubbleLoop_eq {fuel : Nat} {list sorted : List Bytes}
    (sorts : Lib.bubbleSort (InOrder signed) fuel list = some sorted) :
    bubbleLoop signed fuel (places pre.length list) (pre ++ list.flatten ++ post) =
      .ok (places pre.length sorted, pre ++ sorted.flatten ++ post) := by
  induction fuel generalizing list with
  | zero => cases sorts
  | succ fuel ih =>
      cases list with
      | nil =>
          cases sorts
          rfl
      | cons x rest =>
          rw [Lib.bubbleSort] at sorts
          rw [places, bubbleLoop, bind_apply, bubblePass_eq, ok_bind]
          dsimp only
          cases changed : (Lib.bubblePass (InOrder signed) x rest).2 with
          | true =>
              rw [changed, if_pos rfl] at sorts
              rw [if_pos rfl]
              exact ih sorts
          | false =>
              rw [changed, if_neg (by decide)] at sorts
              cases sorts
              rfl

/-- `bubble` exchanges the texts until all neighbours are in order. -/
theorem bubble_eq (list : List Bytes) :
    ∃ sorted : List Bytes, bubble signed (places pre.length list) (pre ++ list.flatten ++ post) =
        .ok (places pre.length sorted, pre ++ sorted.flatten ++ post) ∧
      sorted.Perm list ∧ sorted.IsChain (InOrder signed) := by
  obtain ⟨sorted, sorts, perm, ordered⟩ :=
    Lib.bubbleSort_ends (fun _ _ => mt inOrder_of_textLe)
      (Nat.lt_succ_of_le (Lib.inversions_le (fun s t => textLe signed s t = true) list))
  refine ⟨sorted, ?_, perm, ordered⟩
  rw [bubble, length_places]
  exact bubbleLoop_eq signed pre post sorts

end Bubble

end AcnSdk.Arrow
