/-
What an empty container does to the streaming encoder.

A machine inside an empty container emits nothing and never completes. At the
root a call returns there; below the root the `while` loop of `jem_encode_obj`
calls the machine again and again. `encodeValue_sinks` says it for every tree: a
call that has room for more than what comes before the empty container does not
come back, unless the container is the root.
-/

import AcnSdk.Json.EncodeStep

namespace AcnSdk.Json

open AcnSdk.Lib Ascii

variable {ν : Type} {libc : Libc ν}

/-! ### Inside an empty container -/

/-- A machine inside an empty container stores nothing and does not complete. -/
theorem emptyContainer_stays (libc : Libc ν) (k : Option Bytes) (kind : Container)
    (sibs : List (JsonNode ν)) {len : Nat} (room : 0 < len) (fuel : Nat) :
    let jem : JsonEncodeMachine ν := ⟨.delim, 1, false, none, .container k kind [] :: sibs⟩
    jemEncodeValue libc fuel jem [jemAt []] len = none ∨
      jemEncodeValue libc fuel jem [jemAt []] len = some (jemReturn jem [jemAt []] []) := by
  rcases fuel with _ | _ | _ | _ | _ | fuel
  · exact .inl (by rw [jemEncodeValue])
  · exact .inl (by simp [jemEncodeValue, jemEncodeDelim])
  · exact .inl (by simp [jemEncodeValue, jemEncodeDelim, jemChildren])
  · exact .inl (by simp [jemEncodeValue, jemEncodeDelim, jemChildren, jemEncodeObj])
  · exact .inl (by
      simp [jemEncodeValue, jemEncodeDelim, jemChildren, jemEncodeObj, jemObjLoop, room.ne'])
  · refine .inr ?_
    simp [jemEncodeValue, jemEncodeDelim, jemChildren, jemEncodeObj, jemObjLoop, room.ne', jemAt,
      jsonEncodeMachineInit, JsonNode.jsonFirstChild, jemReturn]

/-- At the root every call from there on returns zero. -/
theorem emptyContainer_part {k : Option Bytes} {kind : Container} {sibs : List (JsonNode ν)}
    {len : Nat} (room : 0 < len) {p : Produced (JemChain ν) Byte}
    (calls : encodePart libc (⟨.delim, 1, false, none, .container k kind [] :: sibs⟩, [jemAt []])
      len p) : p.ret = 0 := by
  obtain ⟨fuel, result⟩ := calls
  have result := result fuel le_rfl
  simp only [jsonEncodePart] at result
  rcases emptyContainer_stays libc k kind sibs room fuel with stays | stays
  · simp [stays] at result
  · rw [stays, Option.map_some] at result
    exact (congrArg Produced.ret (Option.some.inj result)).symm

/-- The loop of `jem_encode_obj` does not come out of an empty container. -/
theorem objLoop_emptyContainer (jem : JsonEncodeMachine ν) (k : Option Bytes) (kind : Container)
    (sibs : List (JsonNode ν)) (fuel : Nat) : ∀ {len : Nat} {ret : Int} (buf : Bytes), 0 < len →
    0 ≤ ret →
    jemObjLoop libc fuel jem ⟨.delim, 1, false, none, .container k kind [] :: sibs⟩ [jemAt []] len
      ret buf = none := by
  induction fuel with
  | zero => intro len ret buf _ _; rw [jemObjLoop]
  | succ fuel ih =>
      intro len ret buf room count
      have not_neg : ¬ ret < 0 := by omega
      rcases emptyContainer_stays libc k kind sibs room fuel with stays | stays
      · simp [jemObjLoop, room.ne', stays]
      · simpa [jemObjLoop, room.ne', stays, not_neg, jemReturn] using
          ih (buf.take ret.toNat) room count

/-- `case 1` of an empty container returns what was stored before. -/
theorem emptyContainer_children (libc : Libc ν) (k : Option Bytes) (kind : Container)
    (sibs : List (JsonNode ν)) (buf : Bytes) {len : Nat} (room : 0 < len) :
    let jem : JsonEncodeMachine ν := ⟨.delim, 1, false, none, .container k kind [] :: sibs⟩
    Computes (fun fuel => jemChildren libc fuel kind jem [] len buf)
      (jemReturn jem [jemAt []] buf) := by
  intro jem
  have loop : Computes (fun fuel => jemObjLoop libc fuel jem (jemAt []) [] len 0 [])
      (jemReturn jem [jemAt []] []) :=
    Computes.of_eq fun fuel => by simp [jemObjLoop, jemAt, jsonEncodeMachineInit, jemReturn]
  have obj : Computes (fun fuel => jemEncodeObj libc fuel jem [] len)
      (jemReturn jem [jemAt []] []) :=
    loop.step fun fuel => by
      simp [jemEncodeObj, room.ne', jsonEncodeMachineInit, jem, JsonNode.jsonFirstChild]
  exact obj.step_bind (k := fun _ => some _)
    (fun fuel result => by simp [jemChildren, result, jemReturn, jem]) (Computes.of_eq fun _ => rfl)

/-! ### Up to the empty container and further -/

/-- A call with room beyond the opening bracket of the empty container in `node`, which
had stored `buf` and has `rest` to go: it does not come back, or the empty container
is `node` itself and the call returns inside it. -/
inductive Sinks (node : JsonNode ν) (sibs : List (JsonNode ν)) (buf rest : Bytes)
    (f : Nat → Option (JemResult ν)) : Prop where
  | diverges (diverges : Diverges f)
  | empty {k : Option Bytes} {kind : Container} (node_eq : node = .container k kind [])
      (computes : Computes f (jemReturn ⟨.delim, 1, false, none, node :: sibs⟩ [jemAt []]
        (buf ++ rest.take (rest.length - 1))))

/-- What `case jem_encode_state_delim` does for a node that is blocked. -/
def DelimSinks (libc : Libc ν) (node : JsonNode ν) : Prop :=
  ∀ ⦃jem : JsonEncodeMachine ν⦄ ⦃chain : List (JsonEncodeMachine ν)⦄ ⦃sibs : List (JsonNode ν)⦄
    ⦃rest : Bytes⦄ (buf : Bytes) (len : Nat), 0 < len → beyond libc node ≤ rest.length →
    rest.length < len + beyond libc node → jem.state = .delim → jem.ptr = node :: sibs →
    Pending libc jem chain rest →
    Sinks node sibs buf rest fun fuel => jemEncodeDelim libc fuel node jem chain len buf

/-- What `jem_encode_value` does for a node that is blocked. -/
def ValueSinks (libc : Libc ν) (node : JsonNode ν) : Prop :=
  ∀ ⦃jem : JsonEncodeMachine ν⦄ ⦃chain : List (JsonEncodeMachine ν)⦄ ⦃sibs : List (JsonNode ν)⦄
    ⦃rest : Bytes⦄ (len : Nat), 0 < len → beyond libc node ≤ rest.length →
    rest.length < len + beyond libc node → jem.ptr = node :: sibs → Pending libc jem chain rest →
    Sinks node sibs [] rest fun fuel => jemEncodeValue libc fuel jem chain len

/-- The key, the colon and then the value. -/
theorem value_sinks_of_delim {node : JsonNode ν} (blocked : reach node = .blocked)
    (delim : DelimSinks libc node) : ValueSinks libc node := by
  intro jem chain sibs rest len room behind past ptr pending
  have value_bounds := beyond_bounds libc blocked
  by_cases at_value : jem.state = .delim
  · have step : ∀ fuel, jemEncodeValue libc (fuel + 1) jem chain len =
        jemEncodeDelim libc fuel node jem chain len [] := fun fuel => by
      rw [jemEncodeValue, ptr, at_value]
    cases delim [] len room behind past at_value ptr pending with
    | diverges diverges => exact .diverges (diverges.step fun fuel none => by rw [step, none])
    | empty node_eq computes => exact .empty node_eq (computes.step step)
  cases pending with
  | @front node' sibs' _ rest front =>
      obtain ⟨rfl, rfl⟩ : node = node' ∧ sibs = sibs' := by
        simpa using ptr.symm.trans front.ptr_eq
      rw [List.length_append] at behind past
      rcases front_step libc front [] room with ⟨inside, -⟩ | ⟨full, -⟩ | ⟨overrun, step⟩
      · omega
      · omega
      · have value := delim rest (len - rest.length) (by omega) value_bounds.2.le (by omega) rfl rfl
          (Pending.value (by simp [blocked]) sibs)
        cases value with
        | diverges diverges => exact .diverges (diverges.step fun fuel none => by rw [step, none])
        | empty node_eq computes =>
            refine .empty node_eq ?_
            have out : (rest ++ valueText libc node).take
                ((rest ++ valueText libc node).length - 1) =
                rest ++ (valueText libc node).take ((valueText libc node).length - 1) := by
              rw [List.length_append, List.take_append, List.take_of_length_le (by omega)]
              congr 2
              omega
            rw [out, List.nil_append]
            exact computes.step step
  | _ => exact absurd rfl at_value

/-- The value of an empty container. -/
theorem delim_empty_sinks (k : Option Bytes) (kind : Container) :
    DelimSinks libc (.container k kind [] : JsonNode ν) := by
  intro jem chain sibs rest buf len room behind past state ptr pending
  rw [beyond, beyondChildren] at behind past
  cases pending with
  | front h => exact absurd state h.state_ne
  | string hi => exact absurd ptr (by simp)
  | bool hi => exact absurd ptr (by simp)
  | number hi hb => exact absurd ptr (by simp)
  | @opening k kind cs sibs =>
      obtain ⟨⟨rfl, rfl, rfl⟩, rfl⟩ : (_ ∧ _ ∧ _) ∧ _ := by simpa using ptr
      simp only [childrenText, List.nil_append, List.length_cons, List.length_nil] at past
      have more : len - 1 ≠ 0 := by omega
      have inside := emptyContainer_children libc k kind sibs (buf ++ [openBracket kind])
        (show 0 < len - 1 by omega)
      refine .empty rfl (inside.step fun fuel => ?_)
      simp only [jemEncodeDelim, more, if_false]
  | @entered k kind cs sibs =>
      obtain ⟨⟨rfl, rfl, rfl⟩, rfl⟩ : (_ ∧ _ ∧ _) ∧ _ := by simpa using ptr
      have inside := emptyContainer_children libc k kind sibs buf room
      refine .empty rfl ?_
      simp only [childrenText, List.nil_append, List.length_singleton, Nat.sub_self,
        List.take_zero, List.append_nil]
      exact inside.step fun fuel => by simp only [jemEncodeDelim]
  | child suffix =>
      obtain ⟨⟨rfl, rfl, rfl⟩, rfl⟩ : (_ ∧ _ ∧ _) ∧ _ := by simpa using ptr
      simp at suffix
  | comma suffix =>
      obtain ⟨⟨rfl, rfl, rfl⟩, rfl⟩ : (_ ∧ _ ∧ _) ∧ _ := by simpa using ptr
      simp at suffix
  | closing some_child =>
      obtain ⟨⟨rfl, rfl, rfl⟩, rfl⟩ : (_ ∧ _ ∧ _) ∧ _ := by simpa using ptr
      exact absurd rfl some_child
  | closed => simp at behind

/-- The loop inside a child that is blocked. -/
theorem objLoop_blocked (jem : JsonEncodeMachine ν) {next : JsonEncodeMachine ν}
    {below : List (JsonEncodeMachine ν)} {c : JsonNode ν} {follow : List (JsonNode ν)}
    (value : ValueSinks libc c) {rest : Bytes} {len : Nat} (room : 0 < len)
    (behind : beyond libc c ≤ rest.length) (past : rest.length < len + beyond libc c)
    (ptr : next.ptr = c :: follow) (pending : Pending libc next below rest) (buf : Bytes) :
    Diverges fun fuel => jemObjLoop libc fuel jem next below len (buf.length : Nat) buf := by
  have busy := pending.complete_eq
  have result := value len room behind past ptr pending
  obtain ⟨state, start, complete, buffer, p⟩ := next
  obtain rfl : p = c :: follow := ptr
  obtain rfl : complete = false := busy
  cases result with
  | diverges diverges =>
      refine diverges.step fun fuel none => ?_
      simp [jemObjLoop, room.ne', none]
  | @empty k kind node_eq computes =>
      subst node_eq
      rw [beyond, beyondChildren] at behind past
      -- the loop goes on with the machine inside the empty container
      have left : 0 < len - (rest.length - 1) := by omega
      have stuck : Diverges fun fuel => jemObjLoop libc fuel jem
          ⟨.delim, 1, false, none, .container k kind [] :: follow⟩ [jemAt []]
          (len - (rest.length - 1)) (buf.length + (rest.length - 1) : Nat)
          (buf ++ rest.take (rest.length - 1)) :=
        Diverges.of_none fun fuel => objLoop_emptyContainer jem k kind follow fuel _ left (by omega)
      refine Diverges.step_bind (fun fuel result => ?_) computes stuck
      have out_len : (rest.take (rest.length - 1)).length = rest.length - 1 := by
        rw [List.length_take]
        omega
      have not_neg : ¬ ((buf.length : Nat) : Int) < 0 := by omega
      have left_eq : ((len : Int) - (rest.length - 1 : Nat)).toNat = len - (rest.length - 1) := by
        omega
      simp only [jemObjLoop, Bool.false_eq_true, false_and, if_false, List.length_nil,
        Nat.sub_zero, List.append_nil, Nat.cast_zero, add_zero, room.ne', result, not_neg,
        jemReturn, List.nil_append, out_len, left_eq, Int.toNat_natCast, List.take_length,
        Nat.cast_add]

/-- The loop inside a child, given what it does after the child. -/
theorem objLoop_sinks (jem : JsonEncodeMachine ν) {next : JsonEncodeMachine ν}
    {below : List (JsonEncodeMachine ν)} {c : JsonNode ν} {follow : List (JsonNode ν)}
    (value : reach c = .blocked → ValueSinks libc c)
    (after : reachChildren follow = .blocked → ∀ (len : Nat) (buf : Bytes),
      (followText libc follow).length < len + beyondChildren libc follow →
      Diverges fun fuel => jemObjLoop libc fuel jem { jemAt follow with complete := true } [] len
        (buf.length : Nat) buf)
    (blocked : reachChildren (c :: follow) = .blocked) {rest : Bytes} {len : Nat} (room : 0 < len)
    (behind : beyondChildren libc (c :: follow) ≤ rest.length + (followText libc follow).length)
    (past : rest.length + (followText libc follow).length <
      len + beyondChildren libc (c :: follow))
    (ptr : next.ptr = c :: follow) (pending : Pending libc next below rest) (buf : Bytes) :
    Diverges fun fuel => jemObjLoop libc fuel jem next below len (buf.length : Nat) buf := by
  rw [reachChildren_cons, Reach.andThen_eq_blocked] at blocked
  rw [beyondChildren] at behind past
  rcases blocked with here | ⟨passes, later⟩
  · rw [if_neg (by simp [here])] at behind past
    exact objLoop_blocked jem (value here) room (by omega) (by omega) ptr pending buf
  · rw [if_pos passes] at behind past
    have bounds := (beyondChildren_bounds libc later).2
    have some_child : follow ≠ [] := by rintro rfl; simp [reachChildren] at later
    have comma := followText_length libc some_child
    rcases objLoop_child_cases jem (encodeValue_advances c) (.inl passes)
        (fun none => absurd none room.ne') ptr pending buf with ⟨full, -⟩ | ⟨all, -, goes_on⟩
    · omega
    · exact goes_on (after later _ _ (by omega))

/-- The loop after a completed child, before the one that is blocked. -/
theorem objLoop_sinks_follow (jem : JsonEncodeMachine ν) (follow : List (JsonNode ν))
    (values : ∀ c ∈ follow, reach c = .blocked → ValueSinks libc c)
    (blocked : reachChildren follow = .blocked) : ∀ (len : Nat) (buf : Bytes),
    (followText libc follow).length < len + beyondChildren libc follow →
    Diverges fun fuel => jemObjLoop libc fuel jem { jemAt follow with complete := true } [] len
      (buf.length : Nat) buf := by
  induction follow with
  | nil => simp [reachChildren] at blocked
  | cons c follow ih =>
      intro len buf past
      have bounds := (beyondChildren_bounds libc blocked).2
      rw [childrenText_cons, List.length_append] at bounds
      rw [followText_cons, List.length_cons, List.length_append] at past
      have inside := objLoop_sinks jem (values c List.mem_cons_self)
        (ih fun d hd => values d (List.mem_cons_of_mem _ hd)) blocked
        (show 0 < len - 1 by omega) (by omega) (by omega) rfl (Pending.fresh c follow)
        (buf ++ [comma])
      simpa only [objLoop_comma jem c follow (show len ≠ 0 by omega) buf] using inside

/-- `case 1` of a container with a child that is blocked. -/
theorem children_sinks (k : Option Bytes) (kind : Container) {cs : List (JsonNode ν)}
    (sibs : List (JsonNode ν)) (values : ∀ c ∈ cs, reach c = .blocked → ValueSinks libc c)
    (blocked : reachChildren cs = .blocked) {chain : List (JsonEncodeMachine ν)} {rest : Bytes}
    (pending : (chain = [] ∧ rest = childrenText libc cs) ∨ ChildPending libc cs chain rest)
    (buf : Bytes) {len : Nat} (room : 0 < len) (behind : beyondChildren libc cs ≤ rest.length)
    (past : rest.length < len + beyondChildren libc cs) :
    Diverges fun fuel => jemChildren libc fuel kind
      ⟨.delim, 1, false, none, .container k kind cs :: sibs⟩ chain len buf := by
  let jem : JsonEncodeMachine ν := ⟨.delim, 1, false, none, .container k kind cs :: sibs⟩
  have later : ∀ {follow : List (JsonNode ν)}, follow <:+ cs →
      ∀ c ∈ follow, reach c = .blocked → ValueSinks libc c :=
    fun suffix c hc => values c (suffix.subset hc)
  have inside : ∀ {next : JsonEncodeMachine ν} {below : List (JsonEncodeMachine ν)}
      {c : JsonNode ν} {follow : List (JsonNode ν)} {rest : Bytes}, c :: follow <:+ cs →
      next.ptr = c :: follow → Pending libc next below rest →
      beyondChildren libc cs ≤ (rest ++ followText libc follow).length →
      (rest ++ followText libc follow).length < len + beyondChildren libc cs →
      Diverges fun fuel => jemObjLoop libc fuel jem next below len 0 [] := by
    intro next below c follow rest suffix ptr pending behind past
    have le := (pending.length_le ptr).1
    rw [List.length_append] at behind past
    obtain ⟨here, same⟩ := (beyondChildren_suffix libc suffix).2 blocked (by
      rw [followText_cons, List.length_cons, List.length_append]
      omega)
    rw [← same] at behind past
    exact objLoop_sinks jem (later suffix c List.mem_cons_self)
      (objLoop_sinks_follow jem follow (later ((List.suffix_cons c follow).trans suffix))) here
      room behind past ptr pending []
  have obj : Diverges fun fuel => jemEncodeObj libc fuel jem chain len := by
    rcases pending with ⟨rfl, rfl⟩ | pending
    · have some_child : cs ≠ [] := by rintro rfl; simp [reachChildren] at blocked
      obtain ⟨c, follow, rfl⟩ : ∃ c follow, cs = c :: follow :=
        List.exists_cons_of_ne_nil some_child
      rw [childrenText_cons] at behind past
      refine (inside List.suffix_rfl rfl (Pending.fresh c follow) behind past).step
        fun fuel none => ?_
      rw [← none]
      simp [jemEncodeObj, room.ne', jsonEncodeMachineInit, jem, JsonNode.jsonFirstChild]
    · cases pending with
      | child suffix ptr pending =>
          refine (inside suffix ptr pending behind past).step fun fuel none => ?_
          rw [← none]
          simp [jemEncodeObj, room.ne', ptr]
      | @comma c follow suffix =>
          obtain ⟨here, same⟩ :=
            (beyondChildren_suffix libc suffix).2 blocked behind
          rw [← same] at past
          refine (objLoop_sinks_follow jem (c :: follow) (later suffix) here len [] past).step
            fun fuel none => ?_
          rw [← none]
          simp [jemEncodeObj, room.ne', jemAt]
  exact obj.step fun fuel none => by simp only [jemChildren, jem, none]

/-- The value of a container with a child that is blocked. -/
theorem delim_container_sinks {k : Option Bytes} {kind : Container} {cs : List (JsonNode ν)}
    (blocked : reachChildren cs = .blocked)
    (values : ∀ c ∈ cs, reach c = .blocked → ValueSinks libc c) :
    DelimSinks libc (.container k kind cs) := by
  intro jem chain sibs rest buf len room behind past state ptr pending
  rw [beyond] at behind past
  have bounds := beyondChildren_bounds libc blocked
  refine .diverges ?_
  cases pending with
  | front h => exact absurd state h.state_ne
  | string hi => exact absurd ptr (by simp)
  | bool hi => exact absurd ptr (by simp)
  | number hi hb => exact absurd ptr (by simp)
  | @opening k kind cs sibs =>
      obtain ⟨⟨rfl, rfl, rfl⟩, rfl⟩ : (_ ∧ _ ∧ _) ∧ _ := by simpa using ptr
      rw [List.length_cons, List.length_append, List.length_singleton] at behind past
      have more : len - 1 ≠ 0 := by omega
      refine (children_sinks k kind sibs values blocked (.inl ⟨rfl, rfl⟩)
        (buf ++ [openBracket kind]) (show 0 < len - 1 by omega) bounds.2.le (by omega)).step
        fun fuel none => ?_
      simp only [jemEncodeDelim, more, if_false, none]
  | @entered k kind cs sibs =>
      obtain ⟨⟨rfl, rfl, rfl⟩, rfl⟩ : (_ ∧ _ ∧ _) ∧ _ := by simpa using ptr
      rw [List.length_append, List.length_singleton] at behind past
      exact (children_sinks k kind sibs values blocked (.inl ⟨rfl, rfl⟩) buf room (by omega)
        (by omega)).step fun fuel none => by simp only [jemEncodeDelim, none]
  | @child k kind cs sibs _ _ _ _ _ suffix at_child inner =>
      obtain ⟨⟨rfl, rfl, rfl⟩, rfl⟩ : (_ ∧ _ ∧ _) ∧ _ := by simpa using ptr
      rw [List.length_append, List.length_singleton] at behind past
      exact (children_sinks k kind sibs values blocked (.inr (.child suffix at_child inner)) buf
        room (by omega) (by omega)).step fun fuel none => by simp only [jemEncodeDelim, none]
  | @comma k kind cs sibs _ _ suffix =>
      obtain ⟨⟨rfl, rfl, rfl⟩, rfl⟩ : (_ ∧ _ ∧ _) ∧ _ := by simpa using ptr
      rw [List.length_append, List.length_singleton] at behind past
      exact (children_sinks k kind sibs values blocked (.inr (.comma suffix)) buf room (by omega)
        (by omega)).step fun fuel none => by simp only [jemEncodeDelim, none]
  | closing =>
      rw [List.length_singleton] at behind
      omega
  | closed => simp at behind

/-- A call with room for more than what comes before the empty container sinks into it. -/
theorem encodeValue_sinks (node : JsonNode ν) (blocked : reach node = .blocked) :
    ValueSinks libc node := by
  induction node using JsonNode.tree_induction with
  | scalar k value => exact absurd blocked (reach_scalar_ne_blocked k value)
  | container k kind cs ih =>
      refine value_sinks_of_delim blocked ?_
      cases cs with
      | nil => exact delim_empty_sinks k kind
      | cons c cs =>
          rw [reach_container (by simp)] at blocked
          exact delim_container_sinks blocked ih

end AcnSdk.Json
