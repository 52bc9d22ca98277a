/-
`json_check` of `src/json/json.c`, and what it decides.

The rules of a tree are the same for every reading of the rule for the keys of members: the
links are lists of children, tags are valid, strings are there, texts are in valid UTF-8 and
elements have no keys. The checker wants members to have no keys.

* `checkChildren_eq` — the loop passes the lists whose nodes all pass.
* `jsonCheck_eq` — on a finite structure the checker ends, and finds no problem in exactly the
  trees whose members have no keys.
* `formed_iff` — the rule for members is a rule of its own.
* `verdict_iff` — when its answer is the one for trees whose members have keys.
-/

import AcnSdk.Json.PointerKeys
import AcnSdk.Json.PointerLinks
import AcnSdk.Json.Utf8

namespace AcnSdk.Json.Pointers

open AcnSdk.Lib Prog Heap Data

variable {ν : Type}

/-! ### The checker -/

/-- What `json_check` reports. -/
inductive Problem where
  | key | badTag (tag : Nat) | bool | stringNull | string | tailNull | headNull | headPrev
  | ownChild | nextSelf | nextHead | parent | back | elementKey | memberKey | tail
deriving DecidableEq, Repr

/-- What it writes to `errmsg`. -/
def Problem.message : Problem → String
  | .key => "key contains invalid UTF-8"
  | .badTag tag => "tag is invalid (" ++ toString tag ++ ")"
  | .bool => "bool_ is neither false (0) nor true (1)"
  | .stringNull => "string_ is NULL"
  | .string => "string_ contains invalid UTF-8"
  | .tailNull => "tail is NULL, but head is not"
  | .headNull => "head is NULL, but tail is not"
  | .headPrev => "First child's prev pointer is not NULL"
  | .ownChild => "node is its own child"
  | .nextSelf => "child->next == child (cycle)"
  | .nextHead => "child->next == head (cycle)"
  | .parent => "child does not point back to parent"
  | .back => "child->next does not point back to child"
  | .elementKey => "Array element's key is not NULL"
  | .memberKey => "Object member's key is NULL"
  | .tail => "tail does not match pointer found by starting at head and following next links"

/-- `tag_is_valid`. -/
def tagIsValid (tag : Nat) : Bool := tag ≤ code .object

/-- `p != NULL && !utf8_validate(p)`. -/
def invalidText (p : Option Addr) : JsonM ν Bool :=
  match p with
  | some a => do return !utf8Validate (← onTexts (stringAt a))
  | none => return false

/-- `next != NULL && next->prev != child`. -/
def pointsElsewhere (next : Option Addr) (child : Addr) : JsonM ν Bool :=
  match next with
  | some b => do return (← onNodes (read b)).prev ≠ some child
  | none => return false

/-- The loop of `json_check` over the children of `node`, at `child` with `last` before it. -/
def checkChildren (check : Addr → JsonM ν (Option Problem)) (node : Addr) (tag : Nat)
    (head tail : Addr) : Nat → Option Addr → Option Addr → JsonM ν (Option Problem)
  | 0, _, _ => throw .endless
  | _ + 1, last, none => return if last ≠ some tail then some .tail else none
  | fuel + 1, _, some child => do
      let x ← onNodes (read child)
      if child = node then return some .ownChild
      else if x.next = some child then return some .nextSelf
      else if x.next = some head then return some .nextHead
      else if x.parent ≠ some node then return some .parent
      else if (← pointsElsewhere x.next child) then return some .back
      else if tag = code .array ∧ x.key.value ≠ none then return some .elementKey
      else if tag = code .object ∧ x.key.value ≠ none then return some .memberKey
      else
        match (← check child) with
        | some problem => return some problem
        | none => checkChildren check node tag head tail fuel (some child) x.next

/-- `json_check`, with what it reports. -/
def jsonCheck : Nat → Addr → JsonM ν (Option Problem)
  | 0, _ => throw .endless
  | fuel + 1, node => do
      let x ← onNodes (read node)
      if (← invalidText x.key.value) then return some .key
      else if !tagIsValid x.tag then return some (.badTag x.tag)
      else if x.tag = code .bool then
        return if x.bool_ ≠ false ∧ x.bool_ ≠ true then some .bool else none
      else if x.tag = code .string then
        if x.string_ = none then return some .stringNull
        else if (← invalidText x.string_) then return some .string
        else return none
      else if x.tag = code .array ∨ x.tag = code .object then
        match x.head, x.tail with
        | none, none => return none
        | some _, none => return some .tailNull
        | none, some _ => return some .headNull
        | some head, some tail =>
            if (← onNodes (read head)).prev ≠ none then return some .headPrev
            else checkChildren (jsonCheck fuel) node x.tag head tail (fuel + 1) none (some head)
      else return none

/-- With enough fuel the checker returns `true` or `false`. -/
def Returns (m : Memory ν) (a : Addr) (passed : Bool) : Prop :=
  ∃ enough, ∀ fuel, enough ≤ fuel →
    ∃ problem, jsonCheck fuel a m = .ok (problem, m) ∧ problem.isNone = passed

/-! ### Trees -/

/-- The node is an array or an object. -/
def IsContainer (x : Node ν) : Prop := x.tag = code .array ∨ x.tag = code .object

/-- A text in valid UTF-8. -/
def ValidText (texts : Heap Bytes) (a : Addr) : Prop := ∃ s, Text texts a s ∧ Utf8 s

/-- The rules for a node on its own. -/
structure NodeFormed (texts : Heap Bytes) (x : Node ν) : Prop where
  key : ∀ a, x.key.value = some a → ValidText texts a
  tag : x.tag ≤ code .object
  string : x.tag = code .string → ∃ a, x.string_ = some a ∧ ValidText texts a

/-- The rules for the children of a node, where members follow their own one. -/
structure ListFormed (rule : Property → Prop) (h : Heap (Node ν)) (a : Addr) (x : Node ν)
    (cs : List Addr) : Prop where
  list : Enumerates (links h) x.head x.tail cs
  parent : ∀ c ∈ cs, pointer h Node.parent c = some a
  element : x.tag = code .array → ∀ c ∈ cs, ∀ y, h.cells c = some y → y.key.value = none
  member : x.tag = code .object → ∀ c ∈ cs, ∀ y, h.cells c = some y → rule y.key

/-- A tree that follows the rules. -/
inductive Formed (rule : Property → Prop) (m : Memory ν) : Addr → Prop where
  | leaf {a : Addr} {x : Node ν} (cell : m.nodes.cells a = some x) (node : NodeFormed m.texts x)
      (leaf : ¬ IsContainer x) : Formed rule m a
  | container {a : Addr} {x : Node ν} {cs : List Addr} (cell : m.nodes.cells a = some x)
      (node : NodeFormed m.texts x) (kind : IsContainer x) (list : ListFormed rule m.nodes a x cs)
      (below : ∀ c ∈ cs, Formed rule m c) : Formed rule m a

/-- A key that is there. -/
def Keyed (key : Property) : Prop := key.value ≠ none

/-- A key that is not. -/
def Unkeyed (key : Property) : Prop := key.value = none

/-- The well formed trees: members have keys. -/
abbrev WellFormed (m : Memory ν) : Addr → Prop := Formed Keyed m

/-- The texts of a node can be read. -/
structure NodeReadable (texts : Heap Bytes) (x : Node ν) : Prop where
  key : ∀ a, x.key.value = some a → ∃ s, Text texts a s
  string : x.tag = code .string → ∀ a, x.string_ = some a → ∃ s, Text texts a s

/-- A finite structure of nodes: every list of children ends, whatever its other links are. -/
inductive Finite (m : Memory ν) : Addr → Prop where
  | leaf {a : Addr} {x : Node ν} (cell : m.nodes.cells a = some x)
      (readable : NodeReadable m.texts x) (leaf : ¬ IsContainer x) : Finite m a
  | container {a : Addr} {x : Node ν} {cs : List Addr} (cell : m.nodes.cells a = some x)
      (readable : NodeReadable m.texts x) (kind : IsContainer x)
      (walk : Walk (links m.nodes).next x.head cs) (live : ∀ c ∈ cs, ∃ y, m.nodes.cells c = some y)
      (below : ∀ c ∈ cs, c ≠ a → Finite m c) : Finite m a

section

variable {m : Memory ν} {rule : Property → Prop}

theorem Text.unique {texts : Heap Bytes} {a : Addr} {s t : Bytes} (text : Text texts a s)
    (text' : Text texts a t) : s = t := by
  obtain ⟨plain, rest, cell⟩ := text
  obtain ⟨plain', rest', cell'⟩ := text'
  have same : s ++ 0 :: rest = t ++ 0 :: rest' := Option.some.inj (cell.symm.trans cell')
  rw [← cstr_terminated plain rest, same, cstr_terminated plain' rest']

/-- No tree is its own child. -/
theorem Formed.not_own {a : Addr} (formed : Formed rule m a) : ∀ {x : Node ν} {cs : List Addr},
    m.nodes.cells a = some x → IsContainer x → Walk (links m.nodes).next x.head cs → a ∉ cs := by
  induction formed with
  | leaf cell _ leaf =>
      intro x cs cell' kind _ _
      cases cell.symm.trans cell'
      exact leaf kind
  | container cell _ _ list _ ih =>
      intro x cs cell' kind walk own
      cases cell.symm.trans cell'
      rw [walk.unique list.list.forth] at own
      exact ih _ own cell kind list.list.forth own

/-! ### What the checker finds -/

theorem invalidText_eq {p : Option Addr} (readable : ∀ a, p = some a → ∃ s, Text m.texts a s) :
    ∃ b, invalidText p m = .ok (b, m) ∧ (b = false ↔ ∀ a, p = some a → ValidText m.texts a) := by
  cases p with
  | none => exact ⟨false, rfl, iff_of_true rfl nofun⟩
  | some a =>
      obtain ⟨s, plain, rest, cell⟩ := readable a rfl
      have text : Text m.texts a s := ⟨plain, rest, cell⟩
      have valid : (∀ b, some a = some b → ValidText m.texts b) ↔ Utf8 s := by
        constructor
        · intro all
          obtain ⟨t, text', utf8⟩ := all a rfl
          rwa [text.unique text']
        · rintro utf8 b ⟨⟩
          exact ⟨s, text, utf8⟩
      refine ⟨!utf8Validate s, ?_, ?_⟩
      · rw [invalidText, bind_of_ok (onTexts_ok (stringAt_eq cell plain))]
        rfl
      · rw [valid, ← utf8Validate_iff plain, Bool.not_eq_false']

theorem pointsElsewhere_eq {next : Option Addr} (points : Points m.nodes next) (child : Addr) :
    ∃ b, pointsElsewhere next child m = .ok (b, m) ∧
      (b = false ↔ ∀ d, next = some d → (links m.nodes).prev d = some child) := by
  cases next with
  | none => exact ⟨false, rfl, iff_of_true rfl nofun⟩
  | some d =>
      obtain ⟨y, cell⟩ := points d rfl
      refine ⟨decide (y.prev ≠ some child), ?_, ?_⟩
      · rw [pointsElsewhere, bind_of_ok (onNodes_ok (read_eq cell))]
        rfl
      · have prev : (links m.nodes).prev d = y.prev := pointer_eq cell Node.prev
        rw [decide_eq_false_iff_not, not_not]
        constructor
        · rintro eq _ ⟨⟩
          rw [prev, eq]
        · intro all
          rw [← prev]
          exact all d rfl

/-- What the loop asks of a child before it goes into it. -/
structure ChildPasses (h : Heap (Node ν)) (node : Addr) (tag : Nat) (head c : Addr) (y : Node ν) :
    Prop where
  other : c ≠ node
  next_self : y.next ≠ some c
  next_head : y.next ≠ some head
  parent : y.parent = some node
  back : ∀ d, y.next = some d → (links h).prev d = some c
  element : tag = code .array → y.key.value = none
  member : tag = code .object → y.key.value = none

/-- The loop over children passes where each child does and the last one is the tail. -/
theorem checkChildren_eq {check : Addr → JsonM ν (Option Problem)} {node : Addr}
    {Passes : Addr → Prop} {cs : List Addr} (tag : Nat) (head tail : Addr) :
    ∀ {child : Option Addr} {fuel : Nat} (last : Option Addr), Walk (links m.nodes).next child cs →
      (∀ c ∈ cs, ∃ y, m.nodes.cells c = some y) →
      (∀ c ∈ cs, c ≠ node → ∃ problem, check c m = .ok (problem, m) ∧
        (problem = none ↔ Passes c)) → cs.length < fuel →
      ∃ problem, checkChildren check node tag head tail fuel last child m = .ok (problem, m) ∧
        (problem = none ↔ (∀ c ∈ cs, ∃ y, m.nodes.cells c = some y ∧
          ChildPasses m.nodes node tag head c y ∧ Passes c) ∧ cs.getLast?.or last = some tail) := by
  induction cs with
  | nil =>
      rintro child fuel last rfl _ _ enough
      obtain ⟨fuel, rfl⟩ := Nat.exists_eq_succ_of_ne_zero (Nat.ne_zero_of_lt enough)
      refine ⟨if last ≠ some tail then some .tail else none, rfl, ?_⟩
      by_cases same : last = some tail <;> simp [same]
  | cons c cs ih =>
      rintro child fuel last ⟨rfl, walk⟩ live results enough
      obtain ⟨fuel, rfl⟩ := Nat.exists_eq_succ_of_ne_zero (Nat.ne_zero_of_lt enough)
      obtain ⟨y, cell⟩ := live c List.mem_cons_self
      have next : (links m.nodes).next c = y.next := pointer_eq cell Node.next
      rw [next] at walk
      have points : Points m.nodes y.next := fun d eq =>
        live d (List.mem_cons_of_mem c (List.mem_of_head? (walk.start_eq.symm.trans eq)))
      -- a test that fails ends the loop, and the child does not pass
      have fails : ∀ problem : Problem, ¬ (ChildPasses m.nodes node tag head c y ∧ Passes c) →
          (some problem = none ↔ (∀ d ∈ c :: cs, ∃ z, m.nodes.cells d = some z ∧
            ChildPasses m.nodes node tag head d z ∧ Passes d) ∧
            (c :: cs).getLast?.or last = some tail) := by
        intro problem no
        refine iff_of_false (Option.some_ne_none problem) fun all => ?_
        obtain ⟨z, cell', passes⟩ := all.1 c List.mem_cons_self
        cases cell.symm.trans cell'
        exact no passes
      rw [checkChildren, bind_of_ok (onNodes_ok (read_eq cell))]
      by_cases other : c = node
      · rw [if_pos other]
        exact ⟨_, rfl, fails _ fun passes => passes.1.other other⟩
      rw [if_neg other]
      by_cases next_self : y.next = some c
      · rw [if_pos next_self]
        exact ⟨_, rfl, fails _ fun passes => passes.1.next_self next_self⟩
      rw [if_neg next_self]
      by_cases next_head : y.next = some head
      · rw [if_pos next_head]
        exact ⟨_, rfl, fails _ fun passes => passes.1.next_head next_head⟩
      rw [if_neg next_head]
      by_cases parent : y.parent = some node
      swap
      · rw [if_pos parent]
        exact ⟨_, rfl, fails _ fun passes => parent passes.1.parent⟩
      rw [if_neg (not_not.mpr parent)]
      obtain ⟨stray, looked, back⟩ := pointsElsewhere_eq points c
      rw [bind_of_ok looked]
      cases stray with
      | true =>
          exact ⟨_, rfl, fails _ fun passes => nomatch back.mpr passes.1.back⟩
      | false =>
          by_cases element : tag = code .array ∧ y.key.value ≠ none
          · rw [if_neg Bool.false_ne_true, if_pos element]
            exact ⟨_, rfl, fails _ fun passes => element.2 (passes.1.element element.1)⟩
          by_cases member : tag = code .object ∧ y.key.value ≠ none
          · rw [if_neg Bool.false_ne_true, if_neg element, if_pos member]
            exact ⟨_, rfl, fails _ fun passes => member.2 (passes.1.member member.1)⟩
          rw [if_neg Bool.false_ne_true, if_neg element, if_neg member]
          have local_ok : ChildPasses m.nodes node tag head c y :=
            ⟨other, next_self, next_head, parent, back.mp rfl,
              fun array => not_not.mp fun keyed => element ⟨array, keyed⟩,
              fun object => not_not.mp fun keyed => member ⟨object, keyed⟩⟩
          obtain ⟨inner, ran, iff_inner⟩ := results c List.mem_cons_self other
          rw [bind_of_ok ran]
          cases inner with
          | some problem =>
              exact ⟨_, rfl, fails _ fun passes => nomatch iff_inner.mpr passes.2⟩
          | none =>
              obtain ⟨rest, ran_rest, iff_rest⟩ := ih (some c) walk
                (fun d mem => live d (List.mem_cons_of_mem c mem))
                (fun d mem => results d (List.mem_cons_of_mem c mem))
                  (Nat.lt_of_succ_lt_succ enough)
              refine ⟨rest, ran_rest, ?_⟩
              have here : ∃ z, m.nodes.cells c = some z ∧
                  ChildPasses m.nodes node tag head c z ∧ Passes c :=
                ⟨y, cell, local_ok, iff_inner.mp rfl⟩
              have last_eq : (c :: cs).getLast?.or last = cs.getLast?.or (some c) := by
                rw [List.getLast?_cons]
                cases cs.getLast? <;> rfl
              rw [iff_rest, List.forall_mem_cons, and_iff_right here, last_eq]

/-- The tests of the loop, and that of the first child, are the rules for a list of children. -/
theorem listPasses_iff {a head tail : Addr} {x : Node ν} {cs : List Addr} {Passes : Addr → Prop}
    (first : x.head = some head) (last : x.tail = some tail)
    (walk : Walk (links m.nodes).next x.head cs) (live : ∀ c ∈ cs, ∃ y, m.nodes.cells c = some y)
    (not_own : (∀ c ∈ cs, Passes c) → a ∉ cs) :
    ((links m.nodes).prev head = none ∧ (∀ c ∈ cs, ∃ y, m.nodes.cells c = some y ∧
        ChildPasses m.nodes a x.tag head c y ∧ Passes c) ∧ cs.getLast? = some tail) ↔
      ListFormed Unkeyed m.nodes a x cs ∧ ∀ c ∈ cs, Passes c := by
  have start : some head = cs.head? := first.symm.trans walk.start_eq
  constructor
  · rintro ⟨alone, all, end_eq⟩
    refine ⟨⟨?_, ?_, ?_, ?_⟩, fun c mem => ?_⟩
    · refine .of_neighbours walk.start_eq (last.trans end_eq.symm) ?_ ?_
      · rintro l c r rfl
        exact walk.step_eq
      · rintro l c r rfl
        obtain rfl | ⟨l, b, rfl⟩ := List.eq_nil_or_concat l
        · cases start
          exact alone
        · rw [List.concat_eq_append, List.append_assoc, List.singleton_append] at walk all
          obtain ⟨y, cell, passes, -⟩ := all b (List.mem_append_right l List.mem_cons_self)
          have next : y.next = some c := (pointer_eq cell Node.next).symm.trans walk.step_eq
          rw [passes.back c next, List.concat_eq_append, List.getLast?_concat]
    · intro c mem
      obtain ⟨y, cell, passes, -⟩ := all c mem
      exact (pointer_eq cell Node.parent).trans passes.parent
    · intro array c mem z cell'
      obtain ⟨y, cell, passes, -⟩ := all c mem
      cases cell.symm.trans cell'
      exact passes.element array
    · intro object c mem z cell'
      obtain ⟨y, cell, passes, -⟩ := all c mem
      cases cell.symm.trans cell'
      exact passes.member object
    · obtain ⟨-, -, -, passes⟩ := all c mem
      exact passes
  · rintro ⟨formed, passes⟩
    have en := formed.list
    have nodup := en.nodup
    refine ⟨?_, fun c mem => ?_, en.tail_eq.symm.trans last⟩
    · cases cs with
      | nil => cases start
      | cons b cs =>
          cases start
          exact en.prev_eq (l := [])
    · obtain ⟨y, cell⟩ := live c mem
      obtain ⟨l, r, rfl⟩ := List.append_of_mem mem
      have next : y.next = r.head? := (pointer_eq cell Node.next).symm.trans en.next_eq
      refine ⟨y, cell, ⟨?_, ?_, ?_, ?_, ?_, ?_, ?_⟩, passes c mem⟩
      · rintro rfl
        exact not_own passes mem
      · intro eq
        exact Enumerates.not_mem_rest nodup (List.mem_of_head? (next.symm.trans eq))
      · intro eq
        have later : head ∈ r := List.mem_of_head? (next.symm.trans eq)
        cases l with
        | nil =>
            cases start
            exact Enumerates.not_mem_rest nodup later
        | cons b l =>
            cases start
            exact (List.nodup_cons.mp nodup).1 (by simp [later])
      · exact (pointer_eq cell Node.parent).symm.trans (formed.parent c mem)
      · intro d eq
        obtain ⟨r, rfl⟩ : ∃ r', r = d :: r' := by
          cases r with
          | nil => cases next.symm.trans eq
          | cons e r =>
              cases next.symm.trans eq
              exact ⟨r, rfl⟩
        rw [← List.singleton_append, ← List.append_assoc] at en
        rw [en.prev_eq, List.getLast?_concat]
      · exact fun array => formed.element array c mem y cell
      · exact fun object => formed.member object c mem y cell

/-- One amount of fuel for all nodes of a list. -/
theorem exists_enough {cs : List Addr} {P : Nat → Addr → Prop}
    (each : ∀ c ∈ cs, ∃ enough, ∀ fuel, enough ≤ fuel → P fuel c) :
    ∃ enough, ∀ fuel, enough ≤ fuel → ∀ c ∈ cs, P fuel c := by
  induction cs with
  | nil => exact ⟨0, fun _ _ _ mem => nomatch mem⟩
  | cons c cs ih =>
      obtain ⟨n, first⟩ := each c List.mem_cons_self
      obtain ⟨k, rest⟩ := ih fun d mem => each d (List.mem_cons_of_mem c mem)
      refine ⟨max n k, fun fuel enough => List.forall_mem_cons.mpr ⟨?_, ?_⟩⟩
      · exact first fuel (Nat.le_trans (Nat.le_max_left n k) enough)
      · exact rest fuel (Nat.le_trans (Nat.le_max_right n k) enough)

/-- A node whose key or tag is wrong does not pass. -/
theorem jsonCheck_bad {a : Addr} {x : Node ν} (cell : m.nodes.cells a = some x)
    (readable : NodeReadable m.texts x)
    (bad : (∀ b, x.key.value = some b → ValidText m.texts b) → ¬ x.tag ≤ code .object)
    (fuel : Nat) : ∃ problem, jsonCheck (fuel + 1) a m = .ok (some problem, m) := by
  obtain ⟨invalid, looked, key⟩ := invalidText_eq readable.key
  rw [jsonCheck, bind_of_ok (onNodes_ok (read_eq cell)), bind_of_ok looked]
  cases invalid with
  | true => exact ⟨_, rfl⟩
  | false =>
      have tag : tagIsValid x.tag = false := decide_eq_false (bad (key.mp rfl))
      rw [if_neg Bool.false_ne_true, tag]
      exact ⟨_, rfl⟩

/-- Past these tests a node is checked by its tag. -/
theorem jsonCheck_good {a : Addr} {x : Node ν} (cell : m.nodes.cells a = some x)
    (key : ∀ b, x.key.value = some b → ValidText m.texts b) (tag : x.tag ≤ code .object)
    (fuel : Nat) : jsonCheck (fuel + 1) a m =
      (if x.tag = code .bool then
        return if x.bool_ ≠ false ∧ x.bool_ ≠ true then some .bool else none
      else if x.tag = code .string then
        if x.string_ = none then return some .stringNull
        else do
          if (← invalidText x.string_) then return some .string
          else return none
      else if x.tag = code .array ∨ x.tag = code .object then
        match x.head, x.tail with
        | none, none => return none
        | some _, none => return some .tailNull
        | none, some _ => return some .headNull
        | some head, some tail => do
            if (← onNodes (read head)).prev ≠ none then return some .headPrev
            else checkChildren (jsonCheck fuel) a x.tag head tail (fuel + 1) none (some head)
      else return none : JsonM ν (Option Problem)) m := by
  have readable : ∀ b, x.key.value = some b → ∃ s, Text m.texts b s := fun b eq =>
    (key b eq).imp fun _ both => both.1
  obtain ⟨invalid, looked, valid⟩ := invalidText_eq readable
  cases valid.mpr key
  rw [jsonCheck, bind_of_ok (onNodes_ok (read_eq cell)), bind_of_ok looked]
  have tag_ok : tagIsValid x.tag = true := decide_eq_true tag
  rw [if_neg Bool.false_ne_true, tag_ok]
  rfl

/-- A node without children passes where it follows the rules for a node. -/
theorem jsonCheck_leaf {a : Addr} {x : Node ν} (cell : m.nodes.cells a = some x)
    (readable : NodeReadable m.texts x) (leaf : ¬ IsContainer x) (fuel : Nat) :
    ∃ problem, jsonCheck (fuel + 1) a m = .ok (problem, m) ∧
      (problem = none ↔ NodeFormed m.texts x) := by
  by_cases good : (∀ b, x.key.value = some b → ValidText m.texts b) ∧ x.tag ≤ code .object
  swap
  · obtain ⟨problem, run⟩ := jsonCheck_bad cell readable (fun key tag => good ⟨key, tag⟩) fuel
    exact ⟨_, run, iff_of_false (Option.some_ne_none problem) fun ok => good ⟨ok.key, ok.tag⟩⟩
  obtain ⟨key, tag⟩ := good
  rw [jsonCheck_good cell key tag]
  by_cases bool : x.tag = code .bool
  · have not_string : x.tag ≠ code .string := by rw [bool]; decide
    rw [if_pos bool]
    refine ⟨none, ?_, iff_of_true rfl ⟨key, tag, fun string => absurd string not_string⟩⟩
    cases x.bool_ <;> rfl
  rw [if_neg bool]
  by_cases string : x.tag = code .string
  · rw [if_pos string]
    cases value : x.string_ with
    | none =>
        refine ⟨some .stringNull, rfl, iff_of_false (Option.some_ne_none _) fun ok => ?_⟩
        obtain ⟨b, eq, -⟩ := ok.string string
        cases value.symm.trans eq
    | some b =>
        have readable_b := readable.string string
        rw [value] at readable_b
        obtain ⟨invalid, looked, valid⟩ := invalidText_eq readable_b
        rw [if_neg (Option.some_ne_none b), bind_of_ok looked]
        cases invalid with
        | true =>
            refine ⟨some .string, rfl, iff_of_false (Option.some_ne_none _) fun ok => ?_⟩
            obtain ⟨c, eq, text⟩ := ok.string string
            cases value.symm.trans eq
            exact nomatch valid.mpr fun d same => Option.some.inj same ▸ text
        | false =>
            exact ⟨none, rfl, iff_of_true rfl ⟨key, tag, fun _ => ⟨b, value, valid.mp rfl b rfl⟩⟩⟩
  have neither : ¬ (x.tag = code .array ∨ x.tag = code .object) := leaf
  rw [if_neg string, if_neg neither]
  exact ⟨none, rfl, iff_of_true rfl ⟨key, tag, fun eq => absurd eq string⟩⟩

/-- What a tree with children is made of. -/
theorem formed_container {a : Addr} {x : Node ν} (cell : m.nodes.cells a = some x)
    (kind : IsContainer x) : Formed rule m a ↔ NodeFormed m.texts x ∧
      ∃ cs, ListFormed rule m.nodes a x cs ∧ ∀ c ∈ cs, Formed rule m c := by
  constructor
  · rintro (⟨cell', node, leaf⟩ | ⟨cell', node, kind', list, below⟩)
    · cases cell.symm.trans cell'
      exact absurd kind leaf
    · cases cell.symm.trans cell'
      exact ⟨node, _, list, below⟩
  · rintro ⟨node, cs, list, below⟩
    exact .container cell node kind list below

/-- A node with children passes where it is a tree whose members have no keys, if its children
do. -/
theorem jsonCheck_container {a : Addr} {x : Node ν} {cs : List Addr}
    (cell : m.nodes.cells a = some x) (readable : NodeReadable m.texts x) (kind : IsContainer x)
    (walk : Walk (links m.nodes).next x.head cs) (live : ∀ c ∈ cs, ∃ y, m.nodes.cells c = some y)
    (fuel : Nat) (results : ∀ c ∈ cs, c ≠ a → ∃ problem, jsonCheck fuel c m = .ok (problem, m) ∧
      (problem = none ↔ Formed Unkeyed m c)) (enough : cs.length < fuel + 1) :
    ∃ problem, jsonCheck (fuel + 1) a m = .ok (problem, m) ∧
      (problem = none ↔ Formed Unkeyed m a) := by
  rw [formed_container cell kind]
  by_cases good : (∀ b, x.key.value = some b → ValidText m.texts b) ∧ x.tag ≤ code .object
  swap
  · obtain ⟨problem, run⟩ := jsonCheck_bad cell readable (fun key tag => good ⟨key, tag⟩) fuel
    refine ⟨_, run, iff_of_false (Option.some_ne_none problem) ?_⟩
    exact fun formed => good ⟨formed.1.key, formed.1.tag⟩
  obtain ⟨key, tag⟩ := good
  have not_bool : x.tag ≠ code .bool := by rcases kind with eq | eq <;> rw [eq] <;> decide
  have not_string : x.tag ≠ code .string := by rcases kind with eq | eq <;> rw [eq] <;> decide
  have node : NodeFormed m.texts x := ⟨key, tag, fun string => absurd string not_string⟩
  have either : x.tag = code .array ∨ x.tag = code .object := kind
  rw [jsonCheck_good cell key tag, if_neg not_bool, if_neg not_string, if_pos either,
    and_iff_right node]
  -- the children are the ones that the links lead to
  have children : (∃ cs', ListFormed Unkeyed m.nodes a x cs' ∧ ∀ c ∈ cs', Formed Unkeyed m c) ↔
      ListFormed Unkeyed m.nodes a x cs ∧ ∀ c ∈ cs, Formed Unkeyed m c := by
    constructor
    · rintro ⟨cs', list, below⟩
      rw [walk.unique list.list.forth]
      exact ⟨list, below⟩
    · exact fun both => ⟨cs, both⟩
  rw [children]
  cases first : x.head with
  | none =>
      rw [first] at walk
      cases last : x.tail with
      | none =>
          cases cs with
          | nil =>
              refine ⟨none, rfl, iff_of_true rfl ⟨⟨?_, nofun, nofun, nofun⟩, nofun⟩⟩
              rw [first, last]
              exact .nil
          | cons c cs => exact nomatch walk.1
      | some tail =>
          refine ⟨some .headNull, rfl, iff_of_false (Option.some_ne_none _) fun formed => ?_⟩
          cases cs with
          | nil => exact nomatch last.symm.trans formed.1.list.tail_eq
          | cons c cs => exact nomatch walk.1
  | some head =>
      cases last : x.tail with
      | none =>
          refine ⟨some .tailNull, rfl, iff_of_false (Option.some_ne_none _) fun formed => ?_⟩
          have none_eq := last.symm.trans formed.1.list.tail_eq
          rw [List.getLast?_eq_none_iff.mp none_eq.symm] at walk
          exact nomatch first.symm.trans walk
      | some tail =>
          obtain ⟨y, head_cell⟩ := live head (List.mem_of_head? (walk.start_eq.symm.trans first))
          have prev : (links m.nodes).prev head = y.prev := pointer_eq head_cell Node.prev
          have not_own : (∀ c ∈ cs, Formed Unkeyed m c) → a ∉ cs := fun below own =>
            (below a own).not_own cell kind walk own
          rw [← listPasses_iff first last walk live not_own, prev]
          simp only [bind_of_ok (onNodes_ok (read_eq head_cell))]
          by_cases alone : y.prev = none
          · rw [if_neg (not_not.mpr alone), and_iff_right alone]
            rw [first] at walk
            obtain ⟨problem, run, passes⟩ :=
              checkChildren_eq x.tag head tail none walk live results enough
            rw [Option.or_none] at passes
            exact ⟨problem, run, passes⟩
          · rw [if_pos alone]
            exact ⟨_, rfl, iff_of_false (Option.some_ne_none _) fun passes => alone passes.1⟩

/-- What the checker finds in a finite structure: `true` for the trees whose members have no
keys. -/
theorem jsonCheck_eq {a : Addr} (finite : Finite m a) : ∃ enough, ∀ fuel, enough ≤ fuel →
    ∃ problem, jsonCheck fuel a m = .ok (problem, m) ∧
      (problem = none ↔ Formed Unkeyed m a) := by
  induction finite with
  | @leaf a x cell readable leaf =>
      refine ⟨1, fun fuel enough => ?_⟩
      obtain ⟨fuel, rfl⟩ := Nat.exists_eq_succ_of_ne_zero (Nat.ne_zero_of_lt enough)
      obtain ⟨problem, run, passes⟩ := jsonCheck_leaf cell readable leaf fuel
      refine ⟨problem, run, passes.trans ⟨fun ok => .leaf cell ok leaf, fun formed => ?_⟩⟩
      cases formed with
      | leaf cell' ok _ =>
          cases cell.symm.trans cell'
          exact ok
      | container cell' _ kind _ _ =>
          cases cell.symm.trans cell'
          exact absurd kind leaf
  | @container a x cs cell readable kind walk live below ih =>
      have each : ∀ c ∈ cs, ∃ enough, ∀ fuel, enough ≤ fuel → c ≠ a →
          ∃ problem, jsonCheck fuel c m = .ok (problem, m) ∧
            (problem = none ↔ Formed Unkeyed m c) := by
        intro c mem
        by_cases other : c = a
        · exact ⟨0, fun _ _ different => absurd other different⟩
        · obtain ⟨n, result⟩ := ih c mem other
          exact ⟨n, fun fuel le _ => result fuel le⟩
      obtain ⟨enough, results⟩ := exists_enough each
      refine ⟨max enough cs.length + 1, fun fuel le => ?_⟩
      obtain ⟨fuel, rfl⟩ := Nat.exists_eq_succ_of_ne_zero (Nat.ne_zero_of_lt le)
      have le_enough : enough ≤ fuel := by omega
      have lt_length : cs.length < fuel + 1 := by omega
      exact jsonCheck_container cell readable kind walk live fuel (results fuel le_enough) lt_length

/-! ### The rule for members -/

/-- The rules apart from the one for members hold. -/
abbrev Sound (m : Memory ν) : Addr → Prop := Formed (fun _ => True) m

/-- A child of an object that the links lead to from `a`. -/
inductive Member (m : Memory ν) : Addr → Node ν → Prop where
  | here {a c : Addr} {x y : Node ν} {cs : List Addr} (cell : m.nodes.cells a = some x)
      (object : x.tag = code .object) (walk : Walk (links m.nodes).next x.head cs) (mem : c ∈ cs)
      (node : m.nodes.cells c = some y) : Member m a y
  | deeper {a c : Addr} {x y : Node ν} {cs : List Addr} (cell : m.nodes.cells a = some x)
      (kind : IsContainer x) (walk : Walk (links m.nodes).next x.head cs) (mem : c ∈ cs)
      (member : Member m c y) : Member m a y

theorem Formed.member {a : Addr} {y : Node ν} (formed : Formed rule m a) (member : Member m a y) :
    rule y.key := by
  induction member with
  | here cell object walk mem node =>
      obtain ⟨-, cs, list, -⟩ := (formed_container cell (.inr object)).mp formed
      rw [walk.unique list.list.forth] at mem
      exact list.member object _ mem _ node
  | deeper cell kind walk mem _ ih =>
      obtain ⟨-, cs, list, below⟩ := (formed_container cell kind).mp formed
      rw [walk.unique list.list.forth] at mem
      exact ih (below _ mem)

theorem Formed.sound {a : Addr} (formed : Formed rule m a) : Sound m a := by
  induction formed with
  | leaf cell node leaf => exact .leaf cell node leaf
  | container cell node kind list _ ih =>
      exact .container cell node kind ⟨list.list, list.parent, list.element,
        fun _ _ _ _ _ => trivial⟩ ih

theorem Sound.formed {a : Addr} (sound : Sound m a) (members : ∀ y, Member m a y → rule y.key) :
    Formed rule m a := by
  induction sound with
  | leaf cell node leaf => exact .leaf cell node leaf
  | container cell node kind list _ ih =>
      refine .container cell node kind ⟨list.list, list.parent, list.element, ?_⟩ ?_
      · exact fun object c mem y node => members y (.here cell object list.list.forth mem node)
      · exact fun c mem => ih c mem fun y member =>
          members y (.deeper cell kind list.list.forth mem member)

/-- The rule for members is a rule of its own. -/
theorem formed_iff {a : Addr} :
    Formed rule m a ↔ Sound m a ∧ ∀ y, Member m a y → rule y.key :=
  ⟨fun formed => ⟨formed.sound, fun _ => formed.member⟩, fun both => both.1.formed both.2⟩

/-! ### The verdict -/

theorem Returns.unique {a : Addr} {b c : Bool} (returns : Returns m a b) (other : Returns m a c) :
    b = c := by
  obtain ⟨n, runs⟩ := returns
  obtain ⟨k, runs'⟩ := other
  obtain ⟨problem, run, rfl⟩ := runs (max n k) (Nat.le_max_left n k)
  obtain ⟨problem', run', rfl⟩ := runs' (max n k) (Nat.le_max_right n k)
  cases run.symm.trans run'
  rfl

/-- The checker ends on every finite structure, and passes the trees whose members have no
keys. -/
theorem returns_iff {a : Addr} (finite : Finite m a) :
    (∃ passed, Returns m a passed) ∧ (Returns m a true ↔ Formed Unkeyed m a) := by
  obtain ⟨enough, runs⟩ := jsonCheck_eq finite
  by_cases formed : Formed Unkeyed m a
  · have passes : Returns m a true := ⟨enough, fun fuel le => by
      obtain ⟨problem, run, iff⟩ := runs fuel le
      exact ⟨problem, run, Option.isNone_iff_eq_none.mpr (iff.mpr formed)⟩⟩
    exact ⟨⟨true, passes⟩, iff_of_true passes formed⟩
  · have fails : Returns m a false := ⟨enough, fun fuel le => by
      obtain ⟨problem, run, iff⟩ := runs fuel le
      refine ⟨problem, run, Option.isNone_eq_false_iff.mpr ?_⟩
      exact Option.isSome_iff_ne_none.mpr fun eq => formed (iff.mp eq)⟩
    exact ⟨⟨false, fails⟩, iff_of_false (fun passes => nomatch passes.unique fails) formed⟩

/-- Its answer is the right one unless the keys of members alone decide it. -/
theorem verdict_iff {a : Addr} (finite : Finite m a) :
    (Returns m a true ↔ WellFormed m a) ↔
      (∀ y, ¬ Member m a y) ∨ ¬ Sound m a ∨
        (∃ y, Member m a y ∧ Keyed y.key) ∧ ∃ y, Member m a y ∧ Unkeyed y.key := by
  have keyed_iff : WellFormed m a ↔ Sound m a ∧ ∀ y, Member m a y → Keyed y.key := formed_iff
  have unkeyed_iff : Formed Unkeyed m a ↔ Sound m a ∧ ∀ y, Member m a y → Unkeyed y.key :=
    formed_iff
  rw [(returns_iff finite).2, keyed_iff, unkeyed_iff]
  by_cases sound : Sound m a
  swap
  · exact iff_of_true (iff_of_false (fun both => sound both.1) fun both => sound both.1)
      (.inr (.inl sound))
  rw [and_iff_right sound, and_iff_right sound]
  constructor
  · intro same
    by_cases unkeyed : ∀ y, Member m a y → Unkeyed y.key
    · left
      exact fun y member => same.mp unkeyed y member (unkeyed y member)
    · right; right
      have keyed : ¬ ∀ y, Member m a y → Keyed y.key := fun all => unkeyed (same.mpr all)
      push Not at unkeyed keyed
      obtain ⟨y, member, not_unkeyed⟩ := unkeyed
      obtain ⟨z, member', not_keyed⟩ := keyed
      exact ⟨⟨y, member, not_unkeyed⟩, z, member', not_not.mp not_keyed⟩
  · rintro (none | no | ⟨⟨y, member, keyed⟩, z, member', unkeyed⟩)
    · exact iff_of_true (fun y member => absurd member (none y)) fun y member =>
        absurd member (none y)
    · exact absurd sound no
    · exact iff_of_false (fun all => keyed (all y member)) fun all => all z member' unkeyed

end

end AcnSdk.Json.Pointers
