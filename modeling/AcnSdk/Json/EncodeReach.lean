/-
What the encoder meets on its walk over a document.

The encoder walks the document in order. `reach` says what it meets first:

* nothing in its way;
* a null node, or a string whose literal is too long for the 16-bit `start`;
* an empty container.

Places in a document are given by the number of bytes from there to its end.
`beyond` is the place behind the opening bracket of the empty container that is
met first. `rewound` says by how much a call is set back that leaves off inside
the literal of a key: of the offset in the literal `start` keeps 16 bits.
-/

import AcnSdk.Json.EncodeText

namespace AcnSdk.Json

open AcnSdk.Lib Ascii

variable {ν : Type}

/-! ### Trees the encoder accepts -/

/-- The 16-bit `start` of a machine can count the literal of `s`. -/
def fits (s : Bytes) : Bool := encodedStrlen s ≤ 0xFFFF

/-- The same for a key, whose last byte is not counted in `start` any more. -/
def keyFits (key : Bytes) : Bool := encodedStrlen key ≤ 0x10000

/-- A node the machine can emit: not null, not an empty container, and with a key
and a string that fit. -/
def encodable (node : JsonNode ν) : Bool :=
  node.notNull && node.notEmpty && node.stringHas fits && node.keyHas keyFits

theorem encodable_key {node : JsonNode ν} {k : Bytes} (h : encodable node = true)
    (hk : node.key = some k) : (quoted k).length ≤ 0x10000 := by
  simp only [encodable, Bool.and_eq_true, JsonNode.keyHas, hk, Option.all_some, keyFits,
    decide_eq_true_eq, encodedStrlen_eq] at h
  exact h.2

theorem encodable_children {k : Option Bytes} {kind : Container} {cs : List (JsonNode ν)}
    (h : encodable (.container k kind cs : JsonNode ν) = true) : cs ≠ [] := by
  rintro rfl
  simp [encodable, JsonNode.notEmpty] at h

/-! ### What the encoder meets first -/

/-- What a walk over a part of the document meets first. -/
inductive Reach where
  /-- Nothing in the way. -/
  | passes
  /-- A null node, or a string that is too long. -/
  | stops
  /-- An empty container. -/
  | blocked
deriving DecidableEq, Repr

/-- One part of the document and then another. -/
def Reach.andThen : Reach → Reach → Reach
  | .passes, r => r
  | .stops, _ => .stops
  | .blocked, _ => .blocked

mutual

/-- What the encoder meets first in the document of a node. -/
def reach : JsonNode ν → Reach
  | .scalar _ .null => .stops
  | .scalar _ (.bool _) => .passes
  | .scalar _ (.string s) => if fits s then .passes else .stops
  | .scalar _ (.number _) => .passes
  | .container _ _ children => if children.isEmpty then .blocked else reachChildren children

def reachChildren : List (JsonNode ν) → Reach
  | [] => .passes
  | c :: cs => (reach c).andThen (reachChildren cs)

end

theorem Reach.andThen_eq_passes {a b : Reach} :
    a.andThen b = .passes ↔ a = .passes ∧ b = .passes := by
  cases a <;> simp [andThen]

theorem Reach.andThen_eq_stops {a b : Reach} :
    a.andThen b = .stops ↔ a = .stops ∨ (a = .passes ∧ b = .stops) := by
  cases a <;> simp [andThen]

theorem Reach.andThen_eq_blocked {a b : Reach} :
    a.andThen b = .blocked ↔ a = .blocked ∨ (a = .passes ∧ b = .blocked) := by
  cases a <;> simp [andThen]

theorem reachChildren_cons (c : JsonNode ν) (cs : List (JsonNode ν)) :
    reachChildren (c :: cs) = (reach c).andThen (reachChildren cs) := by
  simp only [reachChildren]

theorem reach_container {k : Option Bytes} {kind : Container} {cs : List (JsonNode ν)}
    (some_child : cs ≠ []) : reach (.container k kind cs) = reachChildren cs := by
  cases cs with
  | nil => exact absurd rfl some_child
  | cons c cs => simp [reach]

theorem reach_empty (k : Option Bytes) (kind : Container) :
    reach (.container k kind [] : JsonNode ν) = .blocked := by
  simp [reach]

theorem reach_scalar_ne_blocked (k : Option Bytes) (value : Scalar ν) :
    reach (.scalar k value) ≠ .blocked := by
  cases value with
  | string s =>
      rw [reach]
      split <;> simp
  | _ => simp [reach]

/-- The string of a node that passes fits. -/
theorem reach_string {k : Option Bytes} {s : Bytes}
    (passes : reach (.scalar k (.string s) : JsonNode ν) = .passes) :
    (quoted s).length ≤ 0xFFFF := by
  by_contra long
  simp [reach, fits, encodedStrlen_eq, long] at passes

/-- Nothing is in the way in a tree that can be encoded. -/
theorem reach_of_encodable {tree : JsonNode ν} (ok : tree.all encodable = true) :
    reach tree = .passes := by
  induction tree using JsonNode.tree_induction with
  | scalar key value =>
      have here := JsonNode.all_root ok
      cases value <;>
        simp_all [reach, encodable, JsonNode.notNull, JsonNode.notEmpty, JsonNode.stringHas]
  | container key kind children ih =>
      rw [reach_container (encodable_children (JsonNode.all_root ok))]
      have passes : ∀ c ∈ children, reach c = .passes :=
        fun c hc => ih c hc (JsonNode.all_child ok hc)
      clear ih ok
      induction children with
      | nil => rw [reachChildren]
      | cons c cs ih =>
          rw [reachChildren_cons, Reach.andThen_eq_passes]
          exact ⟨passes c List.mem_cons_self, ih fun d hd => passes d (List.mem_cons_of_mem _ hd)⟩

/-! ### The place of the empty container -/

section Places

variable (libc : Libc ν)

mutual

/-- What is left of the document of a node that is blocked behind the opening
bracket of the empty container. -/
def beyond : JsonNode ν → Nat
  | .scalar _ _ => 0
  | .container _ _ children => beyondChildren children + 1

def beyondChildren : List (JsonNode ν) → Nat
  | [] => 0
  | c :: cs =>
      if reach c = .passes then beyondChildren cs
      else beyond c + (followText libc cs).length

end

/-! ### Where a call resumes -/

/-- By how much a call is set back that leaves off in a key, with `left` bytes to go
of the key, its colon and the value of `value` bytes. -/
def rewoundKey (key : Option Bytes) (value left : Nat) : Nat :=
  match key with
  | none => 0
  | some k =>
      if value + 1 < left then
        let offset := (quoted k).length + 1 + value - left
        offset - u16 offset
      else 0

mutual

/-- The same for a call that leaves off in a value. -/
def rewoundValue : JsonNode ν → Nat → Nat
  | .scalar _ _, _ => 0
  | .container _ _ children, left => rewoundChildren children (left - 1)

def rewoundChildren : List (JsonNode ν) → Nat → Nat
  | [], _ => 0
  | c :: cs, left =>
      let here := left - (followText libc cs).length
      if 0 < here then
        rewoundKey c.key (valueText libc c).length here + rewoundValue c here
      else rewoundChildren cs left

end

/-- By how much a call is set back that leaves off with `left` bytes to go of the
document of a node. -/
def rewound (node : JsonNode ν) (left : Nat) : Nat :=
  rewoundKey node.key (valueText libc node).length left + rewoundValue libc node left

variable {libc}

theorem rewoundChildren_cons (c : JsonNode ν) (cs : List (JsonNode ν)) (left : Nat) :
    rewoundChildren libc (c :: cs) left =
      if 0 < left - (followText libc cs).length then
        rewound libc c (left - (followText libc cs).length)
      else rewoundChildren libc cs left := by
  simp only [rewoundChildren, rewound]

theorem rewoundKey_of_le {key : Option Bytes} {value left : Nat} (h : left ≤ value + 1) :
    rewoundKey key value left = 0 := by
  cases key with
  | none => rfl
  | some k => simp only [rewoundKey, if_neg (show ¬ value + 1 < left by omega)]

theorem rewoundKey_of_ge {key : Option Bytes} {value left : Nat}
    (h : (keyText key).length + value ≤ left) : rewoundKey key value left = 0 := by
  cases key with
  | none => rfl
  | some k =>
      rw [keyText, List.length_append, List.length_singleton] at h
      have start : (quoted k).length + 1 + value - left = 0 := by omega
      simp [rewoundKey, start]

/-- At a value or behind it only the value counts. -/
theorem rewound_value {node : JsonNode ν} {left : Nat} (h : left ≤ (valueText libc node).length) :
    rewound libc node left = rewoundValue libc node left := by
  rw [rewound, rewoundKey_of_le (by omega), Nat.zero_add]

theorem rewoundChildren_zero (cs : List (JsonNode ν)) : rewoundChildren libc cs 0 = 0 := by
  induction cs with
  | nil => rw [rewoundChildren]
  | cons c cs ih => rw [rewoundChildren_cons, if_neg (by omega), ih]

theorem rewoundValue_zero (node : JsonNode ν) : rewoundValue libc node 0 = 0 := by
  cases node with
  | scalar key value => rw [rewoundValue]
  | container key kind cs => rw [rewoundValue, rewoundChildren_zero]

theorem rewound_zero (node : JsonNode ν) : rewound libc node 0 = 0 := by
  rw [rewound_value (Nat.zero_le _), rewoundValue_zero]

/-- No call that leaves off in front of a node, or of all children, is set back in it. -/
theorem rewound_fronts :
    (∀ (node : JsonNode ν) (left : Nat), (nodeText libc node).length ≤ left →
        rewound libc node left = 0) ∧
      ∀ (cs : List (JsonNode ν)) (left : Nat), (childrenText libc cs).length ≤ left →
        rewoundChildren libc cs left = 0 := by
  apply JsonNode.tree_children_induction
  case scalar =>
    intro key value left front
    rw [nodeText, List.length_append] at front
    rw [rewound, rewoundKey_of_ge front, rewoundValue]
  case container =>
    intro key kind children ih left front
    rw [nodeText, List.length_append] at front
    rw [rewound, rewoundKey_of_ge front, rewoundValue, Nat.zero_add]
    refine ih _ ?_
    rw [valueText, List.length_append, List.length_cons, List.length_singleton] at front
    omega
  case nil =>
    intro left _
    rw [rewoundChildren]
  case cons =>
    intro c cs here later left front
    rw [childrenText_cons, List.length_append] at front
    rw [rewoundChildren_cons]
    split
    · exact here _ (by omega)
    · refine later _ ?_
      cases cs with
      | nil => exact Nat.zero_le _
      | cons d ds =>
          rw [followText_cons, List.length_cons] at *
          rw [childrenText_cons]
          omega

theorem rewound_front {node : JsonNode ν} {left : Nat}
    (front : (nodeText libc node).length ≤ left) :
    rewound libc node left = 0 :=
  rewound_fronts.1 node left front

theorem rewoundChildren_front {cs : List (JsonNode ν)} {left : Nat}
    (front : (childrenText libc cs).length ≤ left) : rewoundChildren libc cs left = 0 :=
  rewound_fronts.2 cs left front

theorem rewoundValue_front {node : JsonNode ν} {left : Nat}
    (front : (valueText libc node).length ≤ left) : rewoundValue libc node left = 0 := by
  cases node with
  | scalar key value => rw [rewoundValue]
  | container key kind children =>
      rw [rewoundValue]
      refine rewoundChildren_front ?_
      rw [valueText, List.length_append, List.length_cons, List.length_singleton] at front
      omega

variable (libc) in
/-- A comma comes before the children that follow another. -/
theorem followText_length {cs : List (JsonNode ν)} (some_child : cs ≠ []) :
    (followText libc cs).length = (childrenText libc cs).length + 1 := by
  cases cs with
  | nil => exact absurd rfl some_child
  | cons c cs => rw [followText_cons, childrenText_cons, List.length_cons]

variable (libc) in
theorem followText_length_suffix {follow cs : List (JsonNode ν)} (suffix : follow <:+ cs) :
    (followText libc follow).length ≤ (followText libc cs).length := by
  obtain ⟨before, rfl⟩ := suffix
  rw [followText_eq, followText_eq, List.flatMap_append, List.length_append]
  exact Nat.le_add_left _ _

variable (libc) in
/-- A child and those that follow it are no longer than all children. -/
theorem child_length_le {c : JsonNode ν} {follow cs : List (JsonNode ν)}
    (suffix : c :: follow <:+ cs) :
    (nodeText libc c).length + (followText libc follow).length ≤ (childrenText libc cs).length := by
  have some_child : cs ≠ [] := fun none => by simp [none] at suffix
  have := followText_length_suffix libc suffix
  rw [followText_length libc some_child, followText_cons, List.length_cons,
    List.length_append] at this
  omega

theorem rewoundChildren_suffix {follow cs : List (JsonNode ν)} (suffix : follow <:+ cs)
    {left : Nat} (behind : left ≤ (followText libc follow).length) :
    rewoundChildren libc cs left = rewoundChildren libc follow left := by
  induction cs with
  | nil => rw [List.suffix_nil.mp suffix]
  | cons c cs ih =>
      rcases List.suffix_cons_iff.mp suffix with rfl | later
      · rfl
      · have := followText_length_suffix libc later
        rw [rewoundChildren_cons, if_neg (by omega), ih later]

/-- No call that leaves off in front of a comma is set back. -/
theorem rewoundChildren_comma {follow cs : List (JsonNode ν)} (suffix : follow <:+ cs) :
    rewoundChildren libc cs (followText libc follow).length = 0 := by
  rw [rewoundChildren_suffix suffix le_rfl]
  refine rewoundChildren_front ?_
  cases follow with
  | nil => exact Nat.zero_le _
  | cons c follow => rw [followText_length libc (by simp)]; omega

/-- A call that leaves off in a child is set back as in the child. -/
theorem rewoundChildren_child {c : JsonNode ν} {follow cs : List (JsonNode ν)}
    (suffix : c :: follow <:+ cs) {left : Nat} (inside : left ≤ (nodeText libc c).length) :
    rewoundChildren libc cs (left + (followText libc follow).length) = rewound libc c left := by
  rcases Nat.eq_zero_or_pos left with rfl | room
  · rw [Nat.zero_add, rewoundChildren_comma ((List.suffix_cons c follow).trans suffix),
      rewound_zero]
  · have behind : left + (followText libc follow).length ≤
        (followText libc (c :: follow)).length := by
      rw [followText_cons, List.length_cons, List.length_append]
      omega
    rw [rewoundChildren_suffix suffix behind, rewoundChildren_cons, Nat.add_sub_cancel,
      if_pos room]

/-! ### By how much a call is set back -/

theorem rewoundKey_jumps (key : Option Bytes) (value left : Nat) :
    rewoundKey key value left = 0 ∨ 0x10000 ≤ rewoundKey key value left := by
  cases key with
  | none => exact .inl rfl
  | some k =>
      simp only [rewoundKey, u16]
      split <;> omega

theorem rewound_jumps_all :
    (∀ (node : JsonNode ν) (left : Nat),
        rewound libc node left = 0 ∨ 0x10000 ≤ rewound libc node left) ∧
      ∀ (cs : List (JsonNode ν)) (left : Nat),
        rewoundChildren libc cs left = 0 ∨ 0x10000 ≤ rewoundChildren libc cs left := by
  apply JsonNode.tree_children_induction
  case scalar =>
    intro key value left
    rw [rewound, rewoundValue]
    exact rewoundKey_jumps ..
  case container =>
    intro key kind children ih left
    have key_jumps := rewoundKey_jumps key
      (valueText libc (.container key kind children)).length left
    have children_jumps := ih (left - 1)
    rw [rewound, rewoundValue, JsonNode.key]
    omega
  case nil =>
    intro left
    exact .inl (by rw [rewoundChildren])
  case cons =>
    intro c cs here later left
    rw [rewoundChildren_cons]
    split
    · exact here _
    · exact later _

variable (libc) in
/-- A call is set back by 65536 bytes or more, if at all. -/
theorem rewound_jumps (node : JsonNode ν) (left : Nat) :
    rewound libc node left = 0 ∨ 0x10000 ≤ rewound libc node left :=
  rewound_jumps_all.1 node left

theorem rewoundKey_of_keyFits {node : JsonNode ν} (fit : node.keyHas keyFits = true)
    (value left : Nat) : rewoundKey node.key value left = 0 := by
  cases hk : node.key with
  | none => rfl
  | some k =>
      simp only [JsonNode.keyHas, hk, Option.all_some, keyFits, decide_eq_true_eq,
        encodedStrlen_eq] at fit
      simp only [rewoundKey, u16]
      split
      · rw [Nat.mod_eq_of_lt (by omega), Nat.sub_self]
      · rfl

/-- In a tree whose keys fit no call is set back. -/
theorem rewound_of_keyFits {node : JsonNode ν} (fit : node.all (JsonNode.keyHas keyFits) = true)
    (left : Nat) : rewound libc node left = 0 := by
  induction node using JsonNode.tree_induction generalizing left with
  | scalar key value =>
      rw [rewound, rewoundValue, rewoundKey_of_keyFits (JsonNode.all_root fit)]
  | container key kind children ih =>
      have each : ∀ c ∈ children, ∀ left, rewound libc c left = 0 :=
        fun c hc left => ih c hc (JsonNode.all_child fit hc) left
      have none : ∀ left, rewoundChildren libc children left = 0 := by
        clear ih fit
        intro left
        induction children with
        | nil => rw [rewoundChildren]
        | cons c cs ih =>
            rw [rewoundChildren_cons]
            split
            · exact each c List.mem_cons_self _
            · exact ih fun d hd => each d (List.mem_cons_of_mem _ hd)
      rw [rewound, rewoundValue, rewoundKey_of_keyFits (JsonNode.all_root fit), none]

/-! ### Short of the empty container -/

theorem beyond_bounds_all :
    (∀ node : JsonNode ν, reach node = .blocked →
        0 < beyond libc node ∧ beyond libc node < (valueText libc node).length) ∧
      ∀ cs : List (JsonNode ν), reachChildren cs = .blocked →
        0 < beyondChildren libc cs ∧ beyondChildren libc cs < (childrenText libc cs).length := by
  apply JsonNode.tree_children_induction
  case scalar => exact fun key value blocked => absurd blocked (reach_scalar_ne_blocked key value)
  case container =>
    intro key kind children ih blocked
    rw [beyond, valueText, List.length_append, List.length_cons, List.length_singleton]
    cases children with
    | nil => simp [beyondChildren, childrenText]
    | cons c cs =>
        rw [reach_container (by simp)] at blocked
        have := ih blocked
        omega
  case nil =>
    intro blocked
    simp [reachChildren] at blocked
  case cons =>
    intro c cs here later blocked
    rw [childrenText_cons, List.length_append, beyondChildren]
    rw [reachChildren_cons, Reach.andThen_eq_blocked] at blocked
    rcases blocked with blocked | ⟨passes, blocked⟩
    · obtain ⟨pos, lt⟩ := here blocked
      rw [if_neg (by simp [blocked]), nodeText, List.length_append]
      omega
    · obtain ⟨pos, lt⟩ := later blocked
      have some_child : cs ≠ [] := by rintro rfl; simp [reachChildren] at blocked
      rw [if_pos passes, followText_length libc some_child]
      omega

variable (libc) in
/-- The empty container comes in the value of a node that is blocked, and its closing
bracket behind it. -/
theorem beyond_bounds {node : JsonNode ν} (blocked : reach node = .blocked) :
    0 < beyond libc node ∧ beyond libc node < (valueText libc node).length :=
  beyond_bounds_all.1 node blocked

variable (libc) in
theorem beyondChildren_bounds {cs : List (JsonNode ν)} (blocked : reachChildren cs = .blocked) :
    0 < beyondChildren libc cs ∧ beyondChildren libc cs < (childrenText libc cs).length :=
  beyond_bounds_all.2 cs blocked

variable (libc) in
/-- A call with room for `len` bytes, with `left` bytes to go of a node, does not come
to a null node or a string that is too long, and it ends in front of the empty
container if there is one. -/
def Short (node : JsonNode ν) (len left : Nat) : Prop :=
  reach node = .passes ∨ (reach node = .blocked ∧ len + beyond libc node ≤ left)

variable (libc) in
/-- The same for a list of children. -/
def ShortChildren (cs : List (JsonNode ν)) (len left : Nat) : Prop :=
  reachChildren cs = .passes ∨ (reachChildren cs = .blocked ∧ len + beyondChildren libc cs ≤ left)

theorem Short.scalar {k : Option Bytes} {value : Scalar ν} {len left : Nat}
    (short : Short libc (.scalar k value) len left) :
    reach (.scalar k value : JsonNode ν) = .passes :=
  short.resolve_right fun blocked => reach_scalar_ne_blocked k value blocked.1

theorem Short.children {k : Option Bytes} {kind : Container} {cs : List (JsonNode ν)}
    (some_child : cs ≠ []) {len left : Nat}
    (short : Short libc (.container k kind cs) len left) :
    ShortChildren libc cs len (left - 1) := by
  rw [Short, reach_container some_child, beyond] at short
  exact short.imp_right fun blocked => ⟨blocked.1, by omega⟩

/-- A call that goes on after storing some bytes. -/
theorem Short.sub {node : JsonNode ν} {len left : Nat} (short : Short libc node len left)
    {stored : Nat} (fit : stored ≤ len) : Short libc node (len - stored) (left - stored) :=
  short.imp_right fun blocked => ⟨blocked.1, by omega⟩

theorem ShortChildren.sub {cs : List (JsonNode ν)} {len left : Nat}
    (short : ShortChildren libc cs len left) {stored : Nat} (fit : stored ≤ len) :
    ShortChildren libc cs (len - stored) (left - stored) :=
  short.imp_right fun blocked => ⟨blocked.1, by omega⟩

variable (libc) in
/-- From a place behind earlier children on, only the later ones matter. -/
theorem beyondChildren_suffix {follow cs : List (JsonNode ν)} (suffix : follow <:+ cs) :
    (reachChildren cs = .passes → reachChildren follow = .passes) ∧
      (reachChildren cs = .blocked → beyondChildren libc cs ≤ (followText libc follow).length →
        reachChildren follow = .blocked ∧ beyondChildren libc follow = beyondChildren libc cs) := by
  induction cs with
  | nil =>
      rw [List.suffix_nil.mp suffix]
      exact ⟨id, fun blocked _ => ⟨blocked, rfl⟩⟩
  | cons c cs ih =>
      rcases List.suffix_cons_iff.mp suffix with rfl | later
      · exact ⟨id, fun blocked _ => ⟨blocked, rfl⟩⟩
      · obtain ⟨passes, blocked⟩ := ih later
        rw [reachChildren_cons, Reach.andThen_eq_passes, Reach.andThen_eq_blocked, beyondChildren]
        refine ⟨fun both => passes both.2, ?_⟩
        rintro (here | ⟨here, after⟩) behind
        · have := followText_length_suffix libc later
          have := (beyond_bounds libc here).1
          rw [if_neg (by simp [here])] at behind
          omega
        · rw [if_pos here] at behind ⊢
          exact blocked after behind

theorem ShortChildren.suffix {follow cs : List (JsonNode ν)} {len left : Nat}
    (short : ShortChildren libc cs len left) (suffix : follow <:+ cs)
    (behind : left ≤ (followText libc follow).length) : ShortChildren libc follow len left := by
  obtain ⟨passes, blocked⟩ := beyondChildren_suffix libc suffix
  rcases short with all | ⟨some, place⟩
  · exact .inl (passes all)
  · obtain ⟨here, same⟩ := blocked some (by omega)
    exact .inr ⟨here, by rwa [same]⟩

/-- A call that is short in a child and those that follow it is short in the child. -/
theorem ShortChildren.child {c : JsonNode ν} {follow : List (JsonNode ν)} {len left : Nat}
    (short : ShortChildren libc (c :: follow) len (left + (followText libc follow).length)) :
    Short libc c len left := by
  rw [ShortChildren, reachChildren_cons, Reach.andThen_eq_passes, Reach.andThen_eq_blocked,
    beyondChildren] at short
  rcases short with both | ⟨here | ⟨passes, -⟩, place⟩
  · exact .inl both.1
  · rw [if_neg (by simp [here])] at place
    exact .inr ⟨here, by omega⟩
  · exact .inl passes

/-- If the child fits into the room, nothing is in the way in it and the call is short
in those that follow it. -/
theorem ShortChildren.follow {c : JsonNode ν} {follow : List (JsonNode ν)} {len left : Nat}
    (short : ShortChildren libc (c :: follow) len (left + (followText libc follow).length))
    (fit : left ≤ len) :
    reach c = .passes ∧
      ShortChildren libc follow (len - left) (followText libc follow).length := by
  rw [ShortChildren, reachChildren_cons, Reach.andThen_eq_passes, Reach.andThen_eq_blocked,
    beyondChildren] at short
  rcases short with both | ⟨here | ⟨passes, later⟩, place⟩
  · exact ⟨both.1, .inl both.2⟩
  · have := (beyond_bounds libc here).1
    rw [if_neg (by simp [here])] at place
    omega
  · rw [if_pos passes] at place
    exact ⟨passes, .inr ⟨later, by omega⟩⟩

end Places

end AcnSdk.Json
