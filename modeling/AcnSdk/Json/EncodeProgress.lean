/-
Progress of the streaming encoder on every tree the builders can make.

* On a null node every call from there on returns -1. In a string whose literal is
  too long for the 16-bit `start` the machine goes round for ever. In both cases
  every call comes back and none returns zero: `Endless` is the invariant and
  `encodeValue_persists` the step, by induction on the tree as in `EncodeStep`.
* `Clear` says for which trees and lengths no call gets stuck at an empty container
  and none returns zero after some bytes were sent twice.
* `encodePart_progresses_iff` — in a run every call makes progress exactly then.
-/

import AcnSdk.Json.EncodeStream
import AcnSdk.Json.EncodeStuck

namespace AcnSdk.Json

open AcnSdk.Lib Ascii Producer

variable {ν : Type}

/-! ### At a null node -/

section Failed

variable {libc : Libc ν}

/-- A machine at a null node, or with such a machine below it. -/
inductive Failed : JsonEncodeMachine ν → List (JsonEncodeMachine ν) → Prop where
  | null {k : Option Bytes} {sibs : List (JsonNode ν)} :
      Failed ⟨.delim, 0, false, none, .scalar k .null :: sibs⟩ []
  | child {k : Option Bytes} {kind : Container} {cs sibs : List (JsonNode ν)}
      {next : JsonEncodeMachine ν} {below : List (JsonEncodeMachine ν)} {c : JsonNode ν}
      {follow : List (JsonNode ν)} (at_child : next.ptr = c :: follow)
      (failed : Failed next below) :
      Failed ⟨.delim, 1, false, none, .container k kind cs :: sibs⟩ (next :: below)

theorem Failed.complete_eq {jem : JsonEncodeMachine ν} {chain : List (JsonEncodeMachine ν)}
    (h : Failed jem chain) : jem.complete = false := by
  cases h <;> rfl

/-- A child that fails lowers the running count until the loop gives up. -/
theorem objLoop_failed (jem : JsonEncodeMachine ν) {next : JsonEncodeMachine ν}
    {below : List (JsonEncodeMachine ν)} {c : JsonNode ν} {follow : List (JsonNode ν)}
    (ptr : next.ptr = c :: follow) (busy : next.complete = false)
    (fails : ∀ len, 0 < len →
      Computes (fun fuel => jemEncodeValue libc fuel next below len) (jemFail next below []))
    (count : Nat) : ∀ (len : Nat) (buf : Bytes), 0 < len → ∃ buf',
      Computes (fun fuel => jemObjLoop libc fuel jem next below len ((count : Int) - 1) buf)
        ⟨jem, next :: below, -1, buf'⟩ := by
  obtain ⟨state, start, complete, buffer, p⟩ := next
  obtain rfl : p = c :: follow := ptr
  obtain rfl : complete = false := busy
  induction count with
  | zero =>
      intro len buf room
      refine ⟨buf, (fails len room).step_bind (k := fun _ => some _) (fun fuel result => ?_)
        (Computes.of_eq fun _ => rfl)⟩
      simp [jemObjLoop, room.ne', result, jemFail]
  | succ count ih =>
      intro len buf room
      obtain ⟨buf', computes⟩ := ih (len + 1) (buf.take count) (by omega)
      refine ⟨buf', (fails len room).step_bind (fun fuel result => ?_) computes⟩
      have not_neg : ¬ ((count + 1 : Nat) : Int) - 1 < 0 := by omega
      have more : ((len : Int) - -1).toNat = len + 1 := by omega
      have less : ((count + 1 : Nat) : Int) - 1 + -1 = (count : Int) - 1 := by omega
      have taken : (((count + 1 : Nat) : Int) - 1).toNat = count := by omega
      simp only [jemObjLoop, Bool.false_eq_true, false_and, if_false, List.length_nil,
        Nat.sub_zero, List.append_nil, Nat.cast_zero, add_zero, room.ne', result, not_neg,
        jemFail, more, less, taken]

theorem Failed.state_eq {jem : JsonEncodeMachine ν} {chain : List (JsonEncodeMachine ν)}
    (h : Failed jem chain) : jem.state = .delim := by
  cases h <;> rfl

/-- `case jem_encode_state_delim` at a null node. -/
theorem failed_delim {jem : JsonEncodeMachine ν} {chain : List (JsonEncodeMachine ν)}
    (h : Failed jem chain) : ∀ {node : JsonNode ν} {sibs : List (JsonNode ν)} (len : Nat)
      (buf : Bytes), jem.ptr = node :: sibs → 0 < len →
      Computes (fun fuel => jemEncodeDelim libc fuel node jem chain len buf)
        (jemFail jem chain buf) := by
  induction h with
  | @null k sibs =>
      rintro node sibs' len buf ⟨⟩ _
      exact Computes.of_eq fun fuel => by simp only [jemEncodeDelim]
  | @child k kind cs sibs next below c follow at_child failed ih =>
      rintro node sibs' len buf ⟨⟩ room
      let jem : JsonEncodeMachine ν := ⟨.delim, 1, false, none, .container k kind cs :: sibs⟩
      have fails : ∀ len, 0 < len →
          Computes (fun fuel => jemEncodeValue libc fuel next below len) (jemFail next below []) :=
        fun len room => (ih len [] at_child room).step fun fuel => by
          rw [jemEncodeValue, at_child, failed.state_eq]
      obtain ⟨buf', loop⟩ := objLoop_failed jem at_child failed.complete_eq fails 1 len [] room
      have obj : Computes (fun fuel => jemEncodeObj libc fuel jem (next :: below) len)
          ⟨jem, next :: below, -1, buf'⟩ :=
        loop.step fun fuel => by simp [jemEncodeObj, room.ne', at_child]
      have children : Computes (fun fuel => jemChildren libc fuel kind jem (next :: below) len buf)
          (jemFail jem (next :: below) buf) :=
        obj.step_bind (k := fun _ => some _)
          (fun fuel result => by simp only [jemChildren, result]; rfl) (Computes.of_eq fun _ => rfl)
      exact children.step fun fuel => by simp only [jemEncodeDelim, jem]

/-- At a null node every call returns -1 and leaves the machines as they are. -/
theorem failed_step {jem : JsonEncodeMachine ν} {chain : List (JsonEncodeMachine ν)}
    (h : Failed jem chain) {node : JsonNode ν} {sibs : List (JsonNode ν)}
    (ptr : jem.ptr = node :: sibs) (len : Nat) (room : 0 < len) :
      Computes (fun fuel => jemEncodeValue libc fuel jem chain len) (jemFail jem chain []) :=
  (failed_delim h len [] ptr room).step fun fuel => by rw [jemEncodeValue, ptr, h.state_eq]

end Failed

/-! ### Machines that never complete -/

section Endless

variable {libc : Libc ν}

/-- The points at which a call can stop on the way to a null node or to a string
that is too long, or inside it. -/
inductive Endless (libc : Libc ν) : JsonEncodeMachine ν → List (JsonEncodeMachine ν) → Prop where
  /-- Before the value. -/
  | front {node : JsonNode ν} {sibs : List (JsonNode ν)} {jem : JsonEncodeMachine ν} {rest : Bytes}
      (front : Front node sibs jem rest) : Endless libc jem []
  /-- At a null node. -/
  | failed {jem : JsonEncodeMachine ν} {chain : List (JsonEncodeMachine ν)}
      (failed : Failed jem chain) : Endless libc jem chain
  /-- Inside a string that is too long. -/
  | long {k : Option Bytes} {s : Bytes} {sibs : List (JsonNode ν)} {start : Nat}
      (long : fits s = false) (hi : start < 0x10000) :
      Endless libc ⟨.delim, start, false, none, .scalar k (.string s) :: sibs⟩ []
  /-- Before the opening bracket. -/
  | opening {k : Option Bytes} {kind : Container} {cs sibs : List (JsonNode ν)}
      (stops : reachChildren cs = .stops) :
      Endless libc ⟨.delim, 0, false, none, .container k kind cs :: sibs⟩ []
  /-- After the opening bracket. -/
  | entered {k : Option Bytes} {kind : Container} {cs sibs : List (JsonNode ν)}
      (stops : reachChildren cs = .stops) :
      Endless libc ⟨.delim, 1, false, none, .container k kind cs :: sibs⟩ []
  /-- Inside a child before the one that stops. -/
  | before {k : Option Bytes} {kind : Container} {cs sibs : List (JsonNode ν)}
      {next : JsonEncodeMachine ν} {below : List (JsonEncodeMachine ν)}
      {c : JsonNode ν} {follow : List (JsonNode ν)} {rest : Bytes}
      (suffix : c :: follow <:+ cs) (at_child : next.ptr = c :: follow)
      (pending : Pending libc next below rest) (passes : reach c = .passes)
      (stops : reachChildren follow = .stops) :
      Endless libc ⟨.delim, 1, false, none, .container k kind cs :: sibs⟩ (next :: below)
  /-- Between a child and the comma before the next one. -/
  | comma {k : Option Bytes} {kind : Container} {cs sibs : List (JsonNode ν)}
      {c : JsonNode ν} {follow : List (JsonNode ν)} (suffix : c :: follow <:+ cs)
      (stops : reachChildren (c :: follow) = .stops) :
      Endless libc ⟨.delim, 1, false, none, .container k kind cs :: sibs⟩
        [{ jemAt (c :: follow) with complete := true }]
  /-- Inside the child that stops. -/
  | child {k : Option Bytes} {kind : Container} {cs sibs : List (JsonNode ν)}
      {next : JsonEncodeMachine ν} {below : List (JsonEncodeMachine ν)}
      {c : JsonNode ν} {follow : List (JsonNode ν)}
      (suffix : c :: follow <:+ cs) (at_child : next.ptr = c :: follow)
      (stops : reach c = .stops) (endless : Endless libc next below) :
      Endless libc ⟨.delim, 1, false, none, .container k kind cs :: sibs⟩ (next :: below)

theorem Endless.complete_eq {jem : JsonEncodeMachine ν} {chain : List (JsonEncodeMachine ν)}
    (h : Endless libc jem chain) : jem.complete = false := by
  cases h with
  | front h => exact h.complete_eq
  | failed h => exact h.complete_eq
  | _ => rfl

/-- The point right before the value of a node that stops. -/
theorem Endless.value {node : JsonNode ν} (stops : reach node = .stops)
    (sibs : List (JsonNode ν)) : Endless libc ⟨.delim, 0, false, none, node :: sibs⟩ [] := by
  cases node with
  | scalar k value =>
      cases value with
      | null => exact .failed .null
      | bool b => simp [reach] at stops
      | number n => simp [reach] at stops
      | string s =>
          refine .long ?_ (by omega)
          by_contra short
          simp [reach, short] at stops
  | container k kind cs =>
      refine .opening ?_
      cases cs with
      | nil => simp [reach] at stops
      | cons c cs => rwa [reach_container (by simp)] at stops

/-- A call that had stored `stored` bytes before and had room for `len` more: it
fails, or it stores at least one byte; either way it does not complete. -/
structure Persists (libc : Libc ν) (ptr : List (JsonNode ν)) (stored len : Nat)
    (r : JemResult ν) : Prop where
  ptr_eq : r.jem.ptr = ptr
  endless : Endless libc r.jem r.chain
  ret : (r.ret = -1 ∧ Failed r.jem r.chain) ∨
    (r.ret = (r.buf.length : Nat) ∧ stored < r.buf.length ∧ r.buf.length ≤ stored + len)

/-- What `case jem_encode_state_delim` does for a node that stops. -/
def DelimPersists (libc : Libc ν) (node : JsonNode ν) : Prop :=
  ∀ ⦃jem : JsonEncodeMachine ν⦄ ⦃chain : List (JsonEncodeMachine ν)⦄ ⦃sibs : List (JsonNode ν)⦄
    (buf : Bytes) (len : Nat), 0 < len → jem.state = .delim → jem.ptr = node :: sibs →
    Endless libc jem chain →
    ∃ r, Computes (fun fuel => jemEncodeDelim libc fuel node jem chain len buf) r ∧
      Persists libc (node :: sibs) buf.length len r

/-- What `jem_encode_value` does for a node that stops. -/
def ValuePersists (libc : Libc ν) (node : JsonNode ν) : Prop :=
  ∀ ⦃jem : JsonEncodeMachine ν⦄ ⦃chain : List (JsonEncodeMachine ν)⦄ ⦃sibs : List (JsonNode ν)⦄
    (len : Nat), 0 < len → jem.ptr = node :: sibs → Endless libc jem chain →
    ∃ r, Computes (fun fuel => jemEncodeValue libc fuel jem chain len) r ∧
      Persists libc (node :: sibs) 0 len r

/-- The key, the colon and then the value. -/
theorem value_persists_of_delim {node : JsonNode ν} (stops : reach node = .stops)
    (delim : DelimPersists libc node) : ValuePersists libc node := by
  intro jem chain sibs len room ptr endless
  by_cases at_value : jem.state = .delim
  · obtain ⟨r, computes, persists⟩ := delim [] len room at_value ptr endless
    exact ⟨r, computes.step fun fuel => by rw [jemEncodeValue, ptr, at_value], persists⟩
  cases endless with
  | @front node' sibs' _ rest front =>
      obtain ⟨rfl, rfl⟩ : node = node' ∧ sibs = sibs' := by
        simpa using ptr.symm.trans front.ptr_eq
      rcases front_step libc front [] room with
        ⟨inside, jem', rest', front', -, step⟩ | ⟨full, step⟩ | ⟨past, step⟩
      · refine ⟨_, Computes.of_eq step, front'.ptr_eq, .front front', .inr ⟨rfl, ?_, ?_⟩⟩ <;>
          simp only [jemReturn, List.length_take] <;> omega
      · refine ⟨_, Computes.of_eq step, rfl, .value stops sibs, .inr ⟨rfl, ?_, ?_⟩⟩ <;>
          simp only [jemReturn] <;> omega
      · obtain ⟨r, computes, persists⟩ := delim rest (len - rest.length) (by omega) rfl rfl
          (Endless.value stops sibs)
        exact ⟨r, computes.step step, persists.ptr_eq, persists.endless,
          persists.ret.imp_right fun gains => ⟨gains.1, by omega, by omega⟩⟩
  | failed h => exact absurd (by cases h <;> rfl) at_value
  | _ => exact absurd rfl at_value

/-- A null node, or a string that is too long. -/
theorem delim_scalar_persists {k : Option Bytes} {value : Scalar ν}
    (stops : reach (.scalar k value : JsonNode ν) = .stops) :
    DelimPersists libc (.scalar k value) := by
  intro jem chain sibs buf len room state ptr endless
  have front_absurd : ∀ {node : JsonNode ν} {sibs' : List (JsonNode ν)} {rest : Bytes},
      ¬ Front node sibs' jem rest := fun h => h.state_ne state
  cases value with
  | bool b => simp [reach] at stops
  | number n => simp [reach] at stops
  | null =>
      refine ⟨jemFail jem chain buf, Computes.of_eq fun fuel => by rw [jemEncodeDelim], ptr,
        endless,
        .inl ⟨rfl, ?_⟩⟩
      cases endless with
      | front h => exact absurd h front_absurd
      | failed h => exact h
      | _ => simp at ptr
  | string s =>
      cases endless with
      | front h => exact absurd h front_absurd
      | failed h => cases h <;> simp at ptr
      | @long k s sibs start long hi =>
          obtain ⟨⟨rfl, rfl⟩, rfl⟩ : (_ ∧ _) ∧ _ := by simpa using ptr
          simp only [fits, decide_eq_false_iff_not, encodedStrlen_eq] at long
          refine ⟨_, Computes.of_eq fun fuel => by rw [jemEncodeDelim], ?_⟩
          have out_eq := jemEncodeString_eq (show start < (quoted s).length by omega) len
          have out_len : (((quoted s).drop start).take len).length =
              min len ((quoted s).length - start) := by
            rw [List.length_take, List.length_drop]
          have wrapped : u16 (start + (((quoted s).drop start).take len).length) < 0x10000 :=
            Nat.mod_lt _ (by omega)
          have more : (u16 (start + (((quoted s).drop start).take len).length) ==
              encodedStrlen s) = false := by
            rw [beq_eq_false_iff_ne, encodedStrlen_eq]
            omega
          simp only [jemEncodeValueString, out_eq, more, Bool.or_false, jemScalarDone,
            Bool.false_eq_true, if_false]
          refine ⟨rfl, .long (by simpa [fits, encodedStrlen_eq] using long) wrapped,
            .inr ⟨rfl, ?_, ?_⟩⟩ <;>
            simp only [jemReturn, List.length_append, out_len] <;> omega
      | _ => simp at ptr

/-- The machines below a container on the way to the child that stops. -/
inductive ChildEndless (libc : Libc ν) (cs : List (JsonNode ν)) :
    List (JsonEncodeMachine ν) → Prop where
  | before {next : JsonEncodeMachine ν} {below : List (JsonEncodeMachine ν)}
      {c : JsonNode ν} {follow : List (JsonNode ν)} {rest : Bytes}
      (suffix : c :: follow <:+ cs) (at_child : next.ptr = c :: follow)
      (pending : Pending libc next below rest) (passes : reach c = .passes)
      (stops : reachChildren follow = .stops) : ChildEndless libc cs (next :: below)
  | comma {c : JsonNode ν} {follow : List (JsonNode ν)} (suffix : c :: follow <:+ cs)
      (stops : reachChildren (c :: follow) = .stops) :
      ChildEndless libc cs [{ jemAt (c :: follow) with complete := true }]
  | child {next : JsonEncodeMachine ν} {below : List (JsonEncodeMachine ν)}
      {c : JsonNode ν} {follow : List (JsonNode ν)}
      (suffix : c :: follow <:+ cs) (at_child : next.ptr = c :: follow)
      (stops : reach c = .stops) (endless : Endless libc next below) :
      ChildEndless libc cs (next :: below)

theorem ChildEndless.endless {cs : List (JsonNode ν)} {chain : List (JsonEncodeMachine ν)}
    (h : ChildEndless libc cs chain) (k : Option Bytes) (kind : Container)
    (sibs : List (JsonNode ν)) :
    Endless libc ⟨.delim, 1, false, none, .container k kind cs :: sibs⟩ chain := by
  cases h with
  | before suffix at_child pending passes stops =>
      exact .before suffix at_child pending passes stops
  | comma suffix stops => exact .comma suffix stops
  | child suffix at_child stops endless => exact .child suffix at_child stops endless

/-- A round of `jem_encode_obj` that had stored `buf` and had room for `len` bytes:
it fails, or it uses up its room. -/
structure LoopPersists (libc : Libc ν) (cs : List (JsonNode ν)) (jem : JsonEncodeMachine ν)
    (buf : Bytes) (len : Nat) (r : JemResult ν) : Prop where
  jem_eq : r.jem = jem
  ret : (r.ret = -1 ∧ ∃ next below c follow, r.chain = next :: below ∧ c :: follow <:+ cs ∧
      next.ptr = c :: follow ∧ reach c = .stops ∧ Failed next below) ∨
    (r.ret = (r.buf.length : Nat) ∧ r.buf.length = buf.length + len ∧ ChildEndless libc cs r.chain)

/-- The loop inside the child that stops. -/
theorem objLoop_endless {cs : List (JsonNode ν)} (jem : JsonEncodeMachine ν) {c : JsonNode ν}
    {follow : List (JsonNode ν)} (value : ValuePersists libc c) (stops : reach c = .stops)
    (suffix : c :: follow <:+ cs) (len : Nat) :
    ∀ (next : JsonEncodeMachine ν) (below : List (JsonEncodeMachine ν)) (buf : Bytes),
      next.ptr = c :: follow → Endless libc next below →
      ∃ r, Computes (fun fuel => jemObjLoop libc fuel jem next below len (buf.length : Nat) buf) r ∧
        LoopPersists libc cs jem buf len r := by
  induction len using Nat.strong_induction_on with
  | _ len ih =>
      intro next below buf ptr endless
      have busy := endless.complete_eq
      rcases Nat.eq_zero_or_pos len with rfl | room
      · exact ⟨_, objLoop_full libc jem ptr busy _ _, rfl,
          .inr ⟨rfl, rfl, .child suffix ptr stops endless⟩⟩
      obtain ⟨r, computes, persists⟩ := value len room ptr endless
      have more := persists.endless.complete_eq
      have round : ∀ fuel, jemEncodeValue libc fuel next below len = some r →
          jemObjLoop libc (fuel + 1) jem next below len (buf.length : Nat) buf =
            jemObjLoop libc fuel jem r.jem r.chain ((len : Int) - r.ret).toNat
              ((buf.length : Nat) + r.ret) (buf ++ r.buf) := by
        intro fuel result
        have not_neg : ¬ ((buf.length : Nat) : Int) < 0 := by omega
        obtain ⟨state, start, complete, buffer, p⟩ := next
        obtain rfl : p = c :: follow := ptr
        obtain rfl : complete = false := busy
        simp only [jemObjLoop, Bool.false_eq_true, false_and, if_false, List.length_nil,
          Nat.sub_zero, List.append_nil, Nat.cast_zero, add_zero, room.ne', result, not_neg,
          more, Int.toNat_natCast, List.take_length]
      rcases persists.ret with ⟨ret, failed⟩ | ⟨ret, low, high⟩
      · obtain ⟨buf', loop⟩ := objLoop_failed jem persists.ptr_eq more
          (fun len room => failed_step failed persists.ptr_eq len room) buf.length (len + 1)
          (buf ++ r.buf) (by omega)
        refine ⟨_, computes.step_bind (fun fuel result => ?_) loop, rfl,
          .inl ⟨rfl, _, _, c, follow, rfl, suffix, persists.ptr_eq, stops, failed⟩⟩
        have left : ((len : Int) - -1).toNat = len + 1 := by omega
        rw [round fuel result, ret, left]
        rfl
      · obtain ⟨r', loop, persists'⟩ := ih (len - r.buf.length) (by omega) r.jem r.chain
          (buf ++ r.buf) persists.ptr_eq persists.endless
        refine ⟨r', computes.step_bind (fun fuel result => ?_) loop, persists'.jem_eq,
          persists'.ret.imp_right fun gains => ⟨gains.1, ?_, gains.2.2⟩⟩
        · have left : ((len : Int) - (r.buf.length : Nat)).toNat = len - r.buf.length := by omega
          rw [round fuel result, ret, left, List.length_append, Nat.cast_add]
        · rw [gains.2.1, List.length_append]
          omega

/-- The loop inside a child before the one that stops, given what it does after the
child. -/
theorem objLoop_before {cs : List (JsonNode ν)} (jem : JsonEncodeMachine ν)
    {next : JsonEncodeMachine ν} {below : List (JsonEncodeMachine ν)} {c : JsonNode ν}
    {follow : List (JsonNode ν)} (passes : reach c = .passes)
    (stops : reachChildren follow = .stops)
    (suffix : c :: follow <:+ cs)
    (after : ∀ (len : Nat) (buf : Bytes), ∃ r,
      Computes (fun fuel => jemObjLoop libc fuel jem { jemAt follow with complete := true } [] len
        (buf.length : Nat) buf) r ∧ LoopPersists libc cs jem buf len r)
    {rest : Bytes} {len : Nat} (here : len = 0 → rewound libc c rest.length = 0)
    (ptr : next.ptr = c :: follow) (pending : Pending libc next below rest) (buf : Bytes) :
    ∃ r, Computes (fun fuel => jemObjLoop libc fuel jem next below len (buf.length : Nat) buf) r ∧
      LoopPersists libc cs jem buf len r := by
  rcases objLoop_child_cases jem (encodeValue_advances c) (.inl passes) here ptr pending buf with
    ⟨full, next', below', rest', ptr', pending', -, computes⟩ | ⟨all, goes_on, -⟩
  · refine ⟨_, computes, rfl, .inr ⟨rfl, ?_, .before suffix ptr' pending' passes stops⟩⟩
    rw [List.length_append, List.length_take]
    omega
  · obtain ⟨r, computes, persists⟩ := after (len - rest.length) (buf ++ rest)
    refine ⟨r, goes_on r computes, persists.jem_eq,
      persists.ret.imp_right fun gains => ⟨gains.1, ?_, gains.2.2⟩⟩
    rw [gains.2.1, List.length_append]
    omega

/-- The loop after a completed child, before the one that stops. -/
theorem objLoop_endless_follow {cs : List (JsonNode ν)} (jem : JsonEncodeMachine ν)
    (values : ∀ c ∈ cs, reach c = .stops → ValuePersists libc c) (follow : List (JsonNode ν))
    (suffix : follow <:+ cs) (stops : reachChildren follow = .stops) :
    ∀ (len : Nat) (buf : Bytes), ∃ r,
      Computes (fun fuel => jemObjLoop libc fuel jem { jemAt follow with complete := true } [] len
        (buf.length : Nat) buf) r ∧ LoopPersists libc cs jem buf len r := by
  induction follow with
  | nil => simp [reachChildren] at stops
  | cons c follow ih =>
      intro len buf
      rcases Nat.eq_zero_or_pos len with rfl | room
      · exact ⟨⟨jem, [{ jemAt (c :: follow) with complete := true }], (buf.length : Nat), buf⟩,
          Computes.of_eq fun fuel => by simp [jemObjLoop, jemAt], rfl,
          .inr ⟨rfl, rfl, .comma suffix stops⟩⟩
      have inside : ∃ r, Computes (fun fuel => jemObjLoop libc fuel jem (jemAt (c :: follow)) []
          (len - 1) ((buf ++ [comma]).length : Nat) (buf ++ [comma])) r ∧
          LoopPersists libc cs jem (buf ++ [comma]) (len - 1) r := by
        rw [reachChildren_cons, Reach.andThen_eq_stops] at stops
        rcases stops with here | ⟨passes, later⟩
        · exact objLoop_endless jem (values c (suffix.subset List.mem_cons_self) here) here suffix
            (len - 1) _ _ _ rfl (.front (Front.fresh c follow))
        · exact objLoop_before jem passes later suffix
            (ih ((List.suffix_cons c follow).trans suffix) later) (fun _ => rewound_front le_rfl)
            rfl (Pending.fresh c follow) _
      obtain ⟨r, computes, persists⟩ := inside
      refine ⟨r, ?_, persists.jem_eq,
        persists.ret.imp_right fun gains => ⟨gains.1, ?_, gains.2.2⟩⟩
      · simpa only [objLoop_comma jem c follow room.ne' buf] using computes
      · rw [gains.2.1, List.length_append, List.length_singleton]
        omega

/-- `jem_encode_obj` on a container with a child that stops. -/
theorem encodeObj_persists {cs : List (JsonNode ν)} (jem : JsonEncodeMachine ν)
    (values : ∀ c ∈ cs, reach c = .stops → ValuePersists libc c)
    (children : (jem.ptr.head?.map JsonNode.jsonFirstChild).getD [] = cs)
    {chain : List (JsonEncodeMachine ν)}
    (endless : (chain = [] ∧ reachChildren cs = .stops) ∨ ChildEndless libc cs chain)
    {len : Nat} (room : 0 < len) :
    ∃ r, Computes (fun fuel => jemEncodeObj libc fuel jem chain len) r ∧
      LoopPersists libc cs jem [] len r := by
  have inside : ∀ {next : JsonEncodeMachine ν} {below : List (JsonEncodeMachine ν)}
      {c : JsonNode ν} {follow : List (JsonNode ν)}, c :: follow <:+ cs → next.ptr = c :: follow →
      reach c = .stops → Endless libc next below →
      ∃ r, Computes (fun fuel => jemObjLoop libc fuel jem next below len 0 []) r ∧
        LoopPersists libc cs jem [] len r :=
    fun suffix ptr stops endless =>
      objLoop_endless jem (values _ (suffix.subset List.mem_cons_self) stops) stops
        suffix len _ _ []
        ptr endless
  have before : ∀ {next : JsonEncodeMachine ν} {below : List (JsonEncodeMachine ν)}
      {c : JsonNode ν} {follow : List (JsonNode ν)} {rest : Bytes}, c :: follow <:+ cs →
      next.ptr = c :: follow → reach c = .passes → reachChildren follow = .stops →
      Pending libc next below rest →
      ∃ r, Computes (fun fuel => jemObjLoop libc fuel jem next below len 0 []) r ∧
        LoopPersists libc cs jem [] len r :=
    fun suffix ptr passes stops pending =>
      objLoop_before jem passes stops suffix (objLoop_endless_follow jem values _
        ((List.suffix_cons _ _).trans suffix) stops) (fun none => absurd none room.ne') ptr
        pending []
  rcases endless with ⟨rfl, stops⟩ | endless
  · cases cs with
    | nil => simp [reachChildren] at stops
    | cons c follow =>
        have loop : ∃ r, Computes (fun fuel =>
            jemObjLoop libc fuel jem (jemAt (c :: follow)) [] len 0 []) r ∧
            LoopPersists libc (c :: follow) jem [] len r := by
          rw [reachChildren_cons, Reach.andThen_eq_stops] at stops
          rcases stops with here | ⟨passes, later⟩
          · exact inside List.suffix_rfl rfl here (.front (Front.fresh c follow))
          · exact before List.suffix_rfl rfl passes later (Pending.fresh c follow)
        obtain ⟨r, computes, persists⟩ := loop
        refine ⟨r, computes.step fun fuel => ?_, persists⟩
        simp [jemEncodeObj, room.ne', children, jsonEncodeMachineInit]
  · cases endless with
    | before suffix ptr pending passes stops =>
        obtain ⟨r, computes, persists⟩ := before suffix ptr passes stops pending
        exact ⟨r, computes.step fun fuel => by simp [jemEncodeObj, room.ne', ptr], persists⟩
    | @comma c follow suffix stops =>
        obtain ⟨r, computes, persists⟩ :=
          objLoop_endless_follow jem values (c :: follow) suffix stops len []
        exact ⟨r, computes.step fun fuel => by simp [jemEncodeObj, room.ne', jemAt], persists⟩
    | child suffix ptr stops endless =>
        obtain ⟨r, computes, persists⟩ := inside suffix ptr stops endless
        exact ⟨r, computes.step fun fuel => by simp [jemEncodeObj, room.ne', ptr], persists⟩

/-- `case 1` of a container with a child that stops. -/
theorem children_persists (k : Option Bytes) (kind : Container) {cs : List (JsonNode ν)}
    (sibs : List (JsonNode ν)) (values : ∀ c ∈ cs, reach c = .stops → ValuePersists libc c)
    {chain : List (JsonEncodeMachine ν)}
    (endless : (chain = [] ∧ reachChildren cs = .stops) ∨ ChildEndless libc cs chain)
    (buf : Bytes) {len : Nat} (room : 0 < len) :
    ∃ r, Computes (fun fuel => jemChildren libc fuel kind
        ⟨.delim, 1, false, none, .container k kind cs :: sibs⟩ chain len buf) r ∧
      Persists libc (.container k kind cs :: sibs) buf.length len r := by
  obtain ⟨r, computes, persists⟩ := encodeObj_persists
    ⟨.delim, 1, false, none, .container k kind cs :: sibs⟩ values rfl endless room
  have jem_eq := persists.jem_eq
  rcases persists.ret with ⟨ret, next, below, c, follow, chain_eq, suffix, ptr, stops, failed⟩ |
    ⟨ret, full, endless'⟩
  · have failed' : Failed ⟨.delim, 1, false, none, .container k kind cs :: sibs⟩ r.chain := by
      rw [chain_eq]
      exact .child ptr failed
    refine ⟨jemFail ⟨.delim, 1, false, none, .container k kind cs :: sibs⟩ r.chain buf,
      computes.step_bind (k := fun _ => some _) (fun fuel result => ?_)
        (Computes.of_eq fun _ => rfl), rfl, .failed failed', .inl ⟨rfl, failed'⟩⟩
    simp [jemChildren, result, ret, jem_eq]
  · refine ⟨jemReturn ⟨.delim, 1, false, none, .container k kind cs :: sibs⟩ r.chain (buf ++ r.buf),
      computes.step_bind (k := fun _ => some _) (fun fuel result => ?_)
        (Computes.of_eq fun _ => rfl), rfl, endless'.endless k kind sibs, .inr ⟨rfl, ?_, ?_⟩⟩
    · have not_neg : ¬ r.ret < 0 := by rw [ret]; omega
      simp [jemChildren, result, not_neg, jem_eq]
    all_goals
      simp only [jemReturn, List.length_append, full, List.length_nil]
      omega

/-- A container with a child that stops. -/
theorem delim_container_persists {k : Option Bytes} {kind : Container} {cs : List (JsonNode ν)}
    (values : ∀ c ∈ cs, reach c = .stops → ValuePersists libc c) :
    DelimPersists libc (.container k kind cs) := by
  intro jem chain sibs buf len room state ptr endless
  cases endless with
  | front h => exact absurd state h.state_ne
  | failed h =>
      exact ⟨_, failed_delim h len buf ptr room, ptr, .failed h, .inl ⟨rfl, h⟩⟩
  | long => simp at ptr
  | @opening k kind cs sibs stops =>
      obtain ⟨⟨rfl, rfl, rfl⟩, rfl⟩ : (_ ∧ _ ∧ _) ∧ _ := by simpa using ptr
      by_cases one : len - 1 = 0
      · refine ⟨jemReturn ⟨.delim, 1, false, none, .container k kind cs :: sibs⟩ []
          (buf ++ [openBracket kind]), Computes.of_eq fun fuel => by
            simp only [jemEncodeDelim, one, if_true], rfl, .entered stops, .inr ⟨rfl, ?_, ?_⟩⟩ <;>
          simp only [jemReturn, List.length_append, List.length_singleton] <;> omega
      · obtain ⟨r, computes, persists⟩ := children_persists k kind sibs values (.inl ⟨rfl, stops⟩)
          (buf ++ [openBracket kind]) (show 0 < len - 1 by omega)
        refine ⟨r, computes.step fun fuel => by simp only [jemEncodeDelim, one, if_false],
          persists.ptr_eq, persists.endless,
          persists.ret.imp_right fun gains => ⟨gains.1, ?_, ?_⟩⟩ <;>
          rw [List.length_append, List.length_singleton] at * <;> omega
  | @entered k kind cs sibs stops =>
      obtain ⟨⟨rfl, rfl, rfl⟩, rfl⟩ : (_ ∧ _ ∧ _) ∧ _ := by simpa using ptr
      obtain ⟨r, computes, persists⟩ := children_persists k kind sibs values (.inl ⟨rfl, stops⟩)
        buf room
      exact ⟨r, computes.step fun fuel => by simp only [jemEncodeDelim], persists⟩
  | @before k kind cs sibs _ _ _ _ _ suffix at_child pending passes stops =>
      obtain ⟨⟨rfl, rfl, rfl⟩, rfl⟩ : (_ ∧ _ ∧ _) ∧ _ := by simpa using ptr
      obtain ⟨r, computes, persists⟩ := children_persists k kind sibs values
        (.inr (.before suffix at_child pending passes stops)) buf room
      exact ⟨r, computes.step fun fuel => by simp only [jemEncodeDelim], persists⟩
  | @comma k kind cs sibs _ _ suffix stops =>
      obtain ⟨⟨rfl, rfl, rfl⟩, rfl⟩ : (_ ∧ _ ∧ _) ∧ _ := by simpa using ptr
      obtain ⟨r, computes, persists⟩ := children_persists k kind sibs values
        (.inr (.comma suffix stops)) buf room
      exact ⟨r, computes.step fun fuel => by simp only [jemEncodeDelim], persists⟩
  | @child k kind cs sibs _ _ _ _ suffix at_child stops endless =>
      obtain ⟨⟨rfl, rfl, rfl⟩, rfl⟩ : (_ ∧ _ ∧ _) ∧ _ := by simpa using ptr
      obtain ⟨r, computes, persists⟩ := children_persists k kind sibs values
        (.inr (.child suffix at_child stops endless)) buf room
      exact ⟨r, computes.step fun fuel => by simp only [jemEncodeDelim], persists⟩

/-- On the way to a null node or to a string that is too long, every call comes
back with an error or with at least one byte. -/
theorem encodeValue_persists (node : JsonNode ν) (stops : reach node = .stops) :
    ValuePersists libc node := by
  induction node using JsonNode.tree_induction with
  | scalar k value =>
      exact value_persists_of_delim stops (delim_scalar_persists stops)
  | container k kind cs ih =>
      exact value_persists_of_delim stops (delim_container_persists ih)

end Endless

/-! ### Whole runs -/

/-- Under the schedule every call comes back; it reports an error, or it returns
the number of bytes it stored, at most its length, and zero only when the whole
document has been emitted. -/
def Progresses (libc : Libc ν) (tree : JsonNode ν) (lens : Nat → Nat) : Prop :=
  ∃ run : Run (encodePart libc) (jsonEncodeInit tree) lens, ∀ n, run.ret n < 0 ∨
    (run.ret n = (run.out n).length ∧ run.ret n ≤ lens n ∧
      (run.ret n = 0 → run.emitted n = nodeText libc tree))

/-- How many bytes of the document are left when call `n` begins. -/
def leftAt (libc : Libc ν) (tree : JsonNode ν) (lens : Nat → Nat) : Nat → Nat
  | 0 => (nodeText libc tree).length
  | n + 1 =>
      let left := leftAt libc tree lens n - lens n
      left + rewound libc tree left

/-- By how many bytes the calls before call `n` were set back in keys. -/
def setBack (libc : Libc ν) (tree : JsonNode ν) (lens : Nat → Nat) : Nat → Nat
  | 0 => 0
  | n + 1 => setBack libc tree lens n + rewound libc tree (leftAt libc tree lens n - lens n)

/-- The walk over the document stops at a null node or at a string that is too long. Or
nothing is in its way, and no call was set back when it comes to the end. Or there is
an empty container, and no call gets past its opening bracket. -/
def Clear (libc : Libc ν) (tree : JsonNode ν) (lens : Nat → Nat) : Prop :=
  match reach tree with
  | .stops => True
  | .passes => ∀ n, leftAt libc tree lens n = 0 → setBack libc tree lens n = 0
  | .blocked => ∀ n, lens n + beyond libc tree ≤ leftAt libc tree lens n

section Runs

variable {libc : Libc ν} {tree : JsonNode ν} {lens : Nat → Nat}

theorem setBack_jumps (libc : Libc ν) (tree : JsonNode ν) (lens : Nat → Nat) (n : Nat) :
    setBack libc tree lens n = 0 ∨ 0x10000 ≤ setBack libc tree lens n := by
  induction n with
  | zero => exact .inl rfl
  | succ n ih =>
      have := rewound_jumps libc tree (leftAt libc tree lens n - lens n)
      rw [setBack]
      omega

/-- In a tree whose keys fit, the walk is clear unless an empty container comes before
any null node and any string that is too long. -/
theorem clear_iff_of_keyFits (libc : Libc ν) (fit : tree.all (JsonNode.keyHas keyFits) = true)
    (positive : ∀ n, 0 < lens n) : Clear libc tree lens ↔ reach tree ≠ .blocked := by
  have left_succ : ∀ n, leftAt libc tree lens (n + 1) = leftAt libc tree lens n - lens n := by
    intro n
    rw [leftAt, rewound_of_keyFits fit, Nat.add_zero]
  cases hr : reach tree with
  | stops => simp [Clear, hr]
  | passes =>
      have never : ∀ n, setBack libc tree lens n = 0 := by
        intro n
        induction n with
        | zero => rfl
        | succ n ih => rw [setBack, ih, rewound_of_keyFits fit]
      simp [Clear, hr, never]
  | blocked =>
      simp only [Clear, hr, ne_eq, not_true_eq_false, iff_false, not_forall]
      by_contra within
      push Not at within
      have falls : ∀ n, leftAt libc tree lens n + n ≤ leftAt libc tree lens 0 := by
        intro n
        induction n with
        | zero => exact le_rfl
        | succ n ih =>
            have := within n
            have := positive n
            rw [left_succ]
            omega
      have := falls (leftAt libc tree lens 0 + 1)
      omega

/-- A result of `jem_encode_value` as one of `json_encode_part`. -/
theorem encodePart_of_computes {jem : JemChain ν} {len : Nat} {r : JemResult ν}
    (h : Computes (fun fuel => jemEncodeValue libc fuel jem.1 jem.2 len) r) :
    encodePart libc jem len ⟨(r.jem, r.chain), r.ret, r.buf.take r.ret.toNat⟩ :=
  h.map fun r : JemResult ν =>
    (⟨(r.jem, r.chain), r.ret, r.buf.take r.ret.toNat⟩ : Produced (JemChain ν) Byte)

/-- What `Progresses` allows of a call with room for `len` bytes, after the bytes `done`. -/
def GoodPart (libc : Libc ν) (tree : JsonNode ν) (lens : Nat → Nat) (n : Nat) (done : Bytes)
    (p : Produced (JemChain ν) Byte) : Prop :=
  p.ret < 0 ∨
    (p.ret = p.out.length ∧ p.ret ≤ lens n ∧ (p.ret = 0 → done = nodeText libc tree))

/-- An invariant under which every call is good makes a run that progresses. -/
theorem Progresses.of_invariant {Inv : Nat → JemChain ν → Bytes → Prop}
    (step : ∀ n jem done, Inv n jem done → ∃ p, encodePart libc jem (lens n) p ∧
      GoodPart libc tree lens n done p ∧ Inv (n + 1) p.state (done ++ p.out))
    (init : Inv 0 (jsonEncodeInit tree) []) : Progresses libc tree lens := by
  obtain ⟨run, good⟩ := exists_run step init
  exact ⟨run, fun n => (good n).2⟩

variable (libc tree lens) in
/-- The walk before call `n`: `done` was emitted, and the machines have the rest of the
document to go, which with `done` makes up the document if no call was set back. -/
structure OnWalk (n : Nat) (jem : JemChain ν) (done rest : Bytes) : Prop where
  pending : DocumentPending libc tree jem rest
  left : rest.length = leftAt libc tree lens n
  count : done.length + rest.length = (nodeText libc tree).length + setBack libc tree lens n
  whole : setBack libc tree lens n = 0 → done ++ rest = nodeText libc tree

theorem OnWalk.init : OnWalk libc tree lens 0 (jsonEncodeInit tree) [] (nodeText libc tree) where
  pending := ⟨rfl, .inl (Pending.fresh tree [])⟩
  left := rfl
  count := Nat.add_comm _ _
  whole := fun _ => rfl

/-- A call that ends in front of anything in its way goes on with the walk. -/
theorem OnWalk.step {n : Nat} {jem : JemChain ν} {done rest : Bytes}
    (walk : OnWalk libc tree lens n jem done rest) (room : 0 < lens n)
    (short : Short libc tree (lens n) (leftAt libc tree lens n)) :
    ∃ jem' rest', encodePart libc jem (lens n)
        ⟨jem', ((rest.take (lens n)).length : Nat), rest.take (lens n)⟩ ∧
      OnWalk libc tree lens (n + 1) jem' (done ++ rest.take (lens n)) rest' := by
  rw [← walk.left] at short
  obtain ⟨jem', rest', calls, pending', resumes⟩ := encodePart_resumes room short walk.pending
  have dropped : (rest.drop (lens n)).length = leftAt libc tree lens n - lens n := by
    rw [List.length_drop, walk.left]
  have length_eq := resumes.length_eq
  have same := resumes.eq_of_zero
  rw [dropped] at length_eq same
  refine ⟨jem', rest', calls, pending', length_eq, ?_, fun never => ?_⟩
  · have count := walk.count
    have split := congrArg List.length (List.take_append_drop (lens n) rest)
    rw [List.length_append] at split
    rw [List.length_append, setBack]
    omega
  · rw [setBack, Nat.add_eq_zero_iff] at never
    rw [same never.2, List.append_assoc, List.take_append_drop]
    exact walk.whole never.1

/-- A call after `n` steps of the walk returns zero only at the end of the document. -/
theorem OnWalk.good {n : Nat} {jem jem' : JemChain ν} {done rest : Bytes}
    (walk : OnWalk libc tree lens n jem done rest) (room : 0 < lens n)
    (ends : leftAt libc tree lens n = 0 → setBack libc tree lens n = 0) :
    GoodPart libc tree lens n done
      ⟨jem', ((rest.take (lens n)).length : Nat), rest.take (lens n)⟩ := by
  refine .inr ⟨rfl, ?_, fun zero => ?_⟩
  · have := List.length_take_le (lens n) rest
    simp only
    omega
  · simp only [List.length_take, Nat.cast_eq_zero] at zero
    obtain rfl : rest = [] := List.eq_nil_of_length_eq_zero (by omega)
    rw [← walk.whole (ends walk.left.symm), List.append_nil]

/-- Every run is a walk as long as its calls end in front of anything in their way. -/
theorem OnWalk.of_run (positive : ∀ n, 0 < lens n)
    (run : Run (encodePart libc) (jsonEncodeInit tree) lens) {n : Nat}
    (short : ∀ k < n, Short libc tree (lens k) (leftAt libc tree lens k)) :
    ∃ rest, OnWalk libc tree lens n (run.state n) (run.emitted n) rest := by
  let Inv : Nat → JemChain ν → Bytes → Prop := fun n jem done =>
    ∃ rest, OnWalk libc tree lens n jem done rest
  have init : Inv 0 (jsonEncodeInit tree) [] := ⟨_, OnWalk.init⟩
  refine run.invariant (encodePart_deterministic libc) init ?_
  rintro k lt jem done ⟨rest, walk⟩
  obtain ⟨jem', rest', calls, walk'⟩ := walk.step (positive k) (short k lt)
  exact ⟨_, calls, rest', walk'⟩

/-- Nothing is in the way: the calls go on to the end of the document. -/
theorem progresses_iff_of_passes (passes : reach tree = .passes) (positive : ∀ n, 0 < lens n) :
    Progresses libc tree lens ↔
      ∀ n, leftAt libc tree lens n = 0 → setBack libc tree lens n = 0 := by
  constructor
  · rintro ⟨run, good⟩ n ended
    obtain ⟨rest, walk⟩ := OnWalk.of_run positive run (n := n) fun k _ => .inl passes
    obtain ⟨jem', rest', calls, -⟩ := walk.step (positive n) (.inl passes)
    obtain rfl : rest = [] := List.eq_nil_of_length_eq_zero (by rw [walk.left, ended])
    have result := encodePart_deterministic libc _ _ _ _ (run.step n) calls
    have zero : run.ret n = 0 := by simpa using congrArg Produced.ret result
    have whole : run.emitted n = nodeText libc tree := by
      rcases good n with negative | ⟨-, -, whole⟩
      · omega
      · exact whole zero
    have count := walk.count
    rw [whole, List.length_nil] at count
    omega
  · intro ends
    let Inv : Nat → JemChain ν → Bytes → Prop := fun n jem done =>
      ∃ rest, OnWalk libc tree lens n jem done rest
    have step : ∀ n jem done, Inv n jem done → ∃ p, encodePart libc jem (lens n) p ∧
        GoodPart libc tree lens n done p ∧ Inv (n + 1) p.state (done ++ p.out) := by
      rintro n jem done ⟨rest, walk⟩
      obtain ⟨jem', rest', calls, walk'⟩ := walk.step (positive n) (.inl passes)
      exact ⟨_, calls, walk.good (positive n) (ends n), rest', walk'⟩
    exact Progresses.of_invariant step ⟨_, OnWalk.init⟩

/-- A call that has room beyond the opening bracket of the empty container ends the
progress: it does not come back, or the calls after it return zero. -/
theorem not_good_of_beyond (blocked : reach tree = .blocked) (positive : ∀ n, 0 < lens n)
    (run : Run (encodePart libc) (jsonEncodeInit tree) lens) {n : Nat}
    (short : ∀ k < n, lens k + beyond libc tree ≤ leftAt libc tree lens k)
    (past : leftAt libc tree lens n < lens n + beyond libc tree) :
    ¬ ∀ n, run.ret n < 0 ∨ (run.ret n = (run.out n).length ∧ run.ret n ≤ lens n ∧
      (run.ret n = 0 → run.emitted n = nodeText libc tree)) := by
  intro good
  obtain ⟨rest, walk⟩ := OnWalk.of_run positive run fun k lt => .inr ⟨blocked, short k lt⟩
  have bounds := beyond_bounds libc blocked
  have behind : beyond libc tree ≤ leftAt libc tree lens n := by
    cases n with
    | zero =>
        rw [leftAt, nodeText, List.length_append]
        omega
    | succ n =>
        have := short n (Nat.lt_succ_self n)
        rw [leftAt]
        omega
  obtain ⟨ptr, pending | ⟨-, rfl⟩⟩ := walk.pending
  swap
  · have := walk.left
    rw [List.length_nil] at this
    omega
  rw [← walk.left] at behind past
  have sinks : ValueSinks libc tree := encodeValue_sinks tree blocked
  cases sinks (lens n) (positive n) behind past ptr pending with
  | diverges diverges => exact (diverges.map _).not_computes _ (run.step n)
  | @empty k kind tree_eq computes =>
      subst tree_eq
      have result := encodePart_deterministic libc _ _ _ _ (run.step n)
        (encodePart_of_computes computes)
      have stuck : run.state (n + 1) = (⟨.delim, 1, false, none,
          [.container k kind []]⟩, [jemAt []]) := congrArg Produced.state result
      have out_len : (run.out n).length = rest.length - 1 := by
        have out_eq := congrArg (fun p => p.out.length) result
        simpa [jemReturn] using out_eq
      have zero : run.ret (n + 1) = 0 := by
        have next := run.step (n + 1)
        rw [stuck] at next
        exact emptyContainer_part (positive (n + 1)) next
      have whole : run.emitted (n + 1) = nodeText libc (.container k kind []) := by
        rcases good (n + 1) with negative | ⟨-, -, whole⟩
        · omega
        · exact whole zero
      -- all but the closing bracket was sent, and some bytes perhaps more than once
      have count := walk.count
      have sent := congrArg List.length whole
      rw [Run.emitted, List.length_append, out_len] at sent
      have := setBack_jumps libc (.container k kind []) lens n
      omega

/-- An empty container is in the way: the calls have to end in front of it. -/
theorem progresses_iff_of_blocked (blocked : reach tree = .blocked) (positive : ∀ n, 0 < lens n) :
    Progresses libc tree lens ↔
      ∀ n, lens n + beyond libc tree ≤ leftAt libc tree lens n := by
  constructor
  · rintro ⟨run, good⟩
    by_contra beyond_some
    push Not at beyond_some
    classical
    have before : ∀ k < Nat.find beyond_some,
        lens k + beyond libc tree ≤ leftAt libc tree lens k :=
      fun k lt => Nat.not_lt.mp (Nat.find_min beyond_some lt)
    exact not_good_of_beyond blocked positive run before (Nat.find_spec beyond_some) good
  · intro within
    let Inv : Nat → JemChain ν → Bytes → Prop := fun n jem done =>
      ∃ rest, OnWalk libc tree lens n jem done rest
    have step : ∀ n jem done, Inv n jem done → ∃ p, encodePart libc jem (lens n) p ∧
        GoodPart libc tree lens n done p ∧ Inv (n + 1) p.state (done ++ p.out) := by
      rintro n jem done ⟨rest, walk⟩
      obtain ⟨jem', rest', calls, walk'⟩ :=
        walk.step (positive n) (.inr ⟨blocked, within n⟩)
      refine ⟨_, calls, walk.good (positive n) fun ended => ?_, rest', walk'⟩
      have := within n
      have := positive n
      omega
    exact Progresses.of_invariant step ⟨_, OnWalk.init⟩

/-- At a null node, or in a string that is too long, every call goes on as `Persists`
says. -/
theorem progresses_of_stops (stops : reach tree = .stops) (positive : ∀ n, 0 < lens n) :
    Progresses libc tree lens := by
  let Inv : Nat → JemChain ν → Bytes → Prop := fun _ jem _ =>
    jem.1.ptr = [tree] ∧ Endless libc jem.1 jem.2
  have step : ∀ n jem done, Inv n jem done → ∃ p, encodePart libc jem (lens n) p ∧
      GoodPart libc tree lens n done p ∧ Inv (n + 1) p.state (done ++ p.out) := by
    rintro n jem done ⟨ptr, endless⟩
    have persisting : ValuePersists libc tree := encodeValue_persists tree stops
    obtain ⟨r, computes, persists⟩ := persisting (lens n) (positive n) ptr endless
    refine ⟨_, encodePart_of_computes computes, ?_, persists.ptr_eq, persists.endless⟩
    rcases persists.ret with ⟨ret, -⟩ | ⟨ret, low, high⟩
    · exact .inl (by simp only [ret]; omega)
    · refine .inr ⟨?_, ?_, fun zero => ?_⟩
      · simp only [ret, Int.toNat_natCast, List.take_length]
      · simp only [ret]
        omega
      · simp only [ret] at zero
        omega
  have init : Inv 0 (jsonEncodeInit tree) [] := ⟨rfl, .front (Front.fresh tree [])⟩
  exact Progresses.of_invariant step init

end Runs

/-- Every call comes back and none returns zero before the end, exactly if the walk over
the document is clear. -/
theorem encodePart_progresses_iff (libc : Libc ν) (tree : JsonNode ν) (lens : Nat → Nat)
    (positive : ∀ n, 0 < lens n) : Progresses libc tree lens ↔ Clear libc tree lens := by
  cases hr : reach tree with
  | stops => simpa only [Clear, hr, iff_true] using progresses_of_stops hr positive
  | passes => simpa only [Clear, hr] using progresses_iff_of_passes hr positive
  | blocked => simpa only [Clear, hr] using progresses_iff_of_blocked hr positive

/-- `[true,null,[]]`: the null node comes before the empty array. -/
theorem encodePart_progresses_iff_null : Progresses Libc.nat (.container none .array
    [.scalar none (.bool true), .scalar none .null, .container none .array []]) fun _ => 3 :=
  (encodePart_progresses_iff Libc.nat _ (fun _ => 3) fun _ => by decide).mpr trivial

/-- A nested empty array keeps a call from coming back. -/
theorem nestedEmpty_not_progresses : ¬ Progresses Libc.nat
    (.container none .array [.container none .array []] : JsonNode Nat) fun _ => 3 := by
  rw [progresses_iff_of_blocked (by decide) fun _ => by decide]
  exact fun within => absurd (within 0) (by decide)

end AcnSdk.Json
