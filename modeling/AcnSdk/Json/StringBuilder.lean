/-
`src/json/sb.c`: the string builder, with an allocator that can fail.

Every request for a block is granted or refused, as a sequence of answers says. A refused
`realloc` leaves its block allocated. A write that leaves the block is a fault, and so is the
difference of pointers that do not point into one block. The assertion of `sb_finish`, that the
text is a C string, is left out: the standard build stops where it does not hold.

* `Filled.grow` — what becomes of a builder that has to grow.
* `Filled.put` — a text is put, or the block is lost.
* `Filled.finish_asserts` — the assertion of `sb_finish` holds if no zero byte was put.
-/

import AcnSdk.Lib.Pointer
import AcnSdk.Lib.Runs
import AcnSdk.Lib.HeapStrings
import AcnSdk.Lib.Within

namespace AcnSdk.Json.Builder

open AcnSdk.Lib Prog Heap

/-! ### The builder and its allocator -/

/-- `SB`. -/
structure SB where
  cur : Ptr
  end_ : Ptr
  start : Ptr

/-- A builder in its storage. `requests` counts the requests for blocks, and `made` are the blocks
that were made for the builder since its `sb_init`. -/
structure World where
  sb : SB
  heap : Heap Bytes
  requests : Nat
  made : List Addr

abbrev SbM := Prog World

section

variable (bits : Nat) (grants : Nat → Bool) (fresh : Nat → Byte)

/-- A program on the heap. -/
def onHeap {β : Type} (x : HeapM Bytes β) : SbM β := fun w =>
  (x w.heap).bind fun r => .ok (r.1, { w with heap := r.2 })

/-- The answer to a request. -/
def requested : SbM Bool := fun w => .ok (grants w.requests, { w with requests := w.requests + 1 })

/-- `SB_ALLOC`. -/
def sbAlloc (size : Nat) : SbM Ptr := do
  if ← requested grants then
    let b ← onHeap (malloc fresh size)
    modify fun w => { w with made := b :: w.made }
    return .into b 0
  else return .null

/-- `SB_REALLOC`. A block that cannot be had leaves the old one as it is. -/
def sbRealloc (p : Ptr) (size : Nat) : SbM Ptr :=
  match p with
  | .null => sbAlloc grants fresh size
  | .into _ (_ + 1) => throw .released
  | .into b 0 => do
      if ← requested grants then
        let b ← onHeap (realloc fresh b size)
        modify fun w => { w with made := b :: w.made }
        return .into b 0
      else return .null

/-- `memcpy(p, bytes, n)`. -/
def memcpy (p : Ptr) (bytes : Bytes) (n : Nat) : SbM Unit :=
  match p with
  | .null => if n = 0 then return () else throw .nullPointer
  | .into b i => if bytes.length < n then throw .overflow else onHeap (storeAt b i (bytes.take n))

/-- `int`, of a length. -/
def toInt (n : Nat) : Int := (BitVec.ofNat 32 n).toInt

/-! ### `sb.c` -/

/-- `sb_space`. -/
def sbSpace (sb : SB) : Int := (sb.end_.offset : Int) - sb.cur.offset

/-- `sb_is_valid`. -/
def sbIsValid (sb : SB) : Bool := sb.start ≠ .null

/-- `sb_init`. The blocks of a builder that was there before are not those of the new one. -/
def sbInit : SbM Int := do
  modify fun w => { w with made := [] }
  let start ← sbAlloc grants fresh 17
  modify fun w => { w with sb := { w.sb with start := start } }
  if start = .null then return -1
  else
    let end_ ← lift (start.add 16)
    modify fun w => { w with sb := { w.sb with cur := start, end_ := end_ } }
    return 0

/-- `sb_grow`. -/
def sbGrow (need : Int) : SbM Int := do
  let sb := (← get).sb
  let length := sizeT bits (← lift (sb.cur.diff sb.start))
  let alloc := sizeT bits (← lift (sb.end_.diff sb.start))
  let alloc ← lift (doubleUntil bits ((length + sizeT bits need) % 2 ^ bits) (bits + 1) alloc)
  let start ← sbRealloc grants fresh sb.start ((alloc + 1) % 2 ^ bits)
  modify fun w => { w with sb := { w.sb with start := start } }
  if start = .null then return -1
  else
    let cur ← lift (start.add length)
    let end_ ← lift (start.add alloc)
    modify fun w => { w with sb := { w.sb with cur := cur, end_ := end_ } }
    return 0

/-- `sb_need`. -/
def sbNeed (need : Int) : SbM Int := do
  let sb := (← get).sb
  if (← lift (sb.end_.diff sb.cur)) < need then sbGrow bits grants fresh need else return 0

/-- `memcpy` to `cur`, and `cur += count`. -/
def append (bytes : Bytes) (count : Int) : SbM Unit := do
  let cur := (← get).sb.cur
  memcpy cur bytes (sizeT bits count)
  let cur ← lift (cur.add count)
  modify fun w => { w with sb := { w.sb with cur := cur } }

/-- `sb_put`. -/
def sbPut (bytes : Bytes) (count : Int) : SbM Int := do
  if (← sbNeed bits grants fresh count) < 0 then return -1
  else
    append bits bytes count
    return count

/-- `sb_puts`. -/
def sbPuts (str : Bytes) : SbM Int := sbPut bits grants fresh str (toInt str.length)

/-- `sb_putc`. -/
def sbPutc (c : Byte) : SbM Unit := do
  let sb := (← get).sb
  if 0 ≤ (← lift (sb.cur.diff sb.end_)) then
    let _ ← sbGrow bits grants fresh 1
  append bits [c] 1

/-- `sb_finish`. -/
def sbFinish : SbM Ptr := do
  let sb := (← get).sb
  match sb.cur with
  | .null => return sb.start
  | .into b i =>
      onHeap (storeAt b i [0])
      return sb.start

/-! ### Calls -/

/-- A call to the builder. `spell` is what `emit_string` does from one `sb_need(out, 14)` to the
next one: what that returns is ignored, and bytes are written to `cur`. -/
inductive SbCall where
  | init
  | putc (c : Byte)
  | put (bytes : { bytes : Bytes // bytes.length < 2 ^ 31 })
  | puts (str : Bytes)
  | need (n : BitVec 32)
  | finish
  | spell (bytes : Bytes)

/-- A call whose result is not looked at. -/
def SbCall.run : SbCall → SbM Unit
  | .init => do
      let _ ← sbInit grants fresh
  | .putc c => sbPutc bits grants fresh c
  | .put bytes => do
      let _ ← sbPut bits grants fresh bytes.val bytes.val.length
  | .puts str => do
      let _ ← sbPuts bits grants fresh str
  | .need n => do
      let _ ← sbNeed bits grants fresh n.toInt
  | .finish => do
      let _ ← sbFinish
  | .spell bytes => do
      let _ ← sbNeed bits grants fresh 14
      append bits bytes bytes.length

/-! ### What a builder is to be -/

/-- A builder is valid, with `start <= cur <= end` in its only block, which goes on to `end + 1`, or
it is invalid and has no block. -/
def Intact (w : World) : Prop :=
  (∃ b i n block, w.sb = ⟨.into b i, .into b n, .into b 0⟩ ∧ i ≤ n ∧
    w.heap.cells b = some block ∧ block.length = n + 1 ∧
    ∀ c ∈ w.made, c ≠ b → w.heap.cells c = none) ∨
  (w.sb.start = .null ∧ ∀ c ∈ w.made, w.heap.cells c = none)

/-- A builder that has no room for `need` bytes gets a block that has. -/
def Grows (need : Int) (w : World) : Prop :=
  sbSpace w.sb < need →
    (w.sb.cur.offset : Int) + need ≤ 2 ^ (bits - 1) ∧ grants w.requests = true

/-- What a call to a valid builder depends on. -/
def SbCall.Granted : SbCall → World → Prop
  | .init, _ => True
  | .putc _, w => Grows bits grants 1 w
  | .put bytes, w => Grows bits grants bytes.val.length w
  | .puts str, w => 0 ≤ toInt str.length ∧ Grows bits grants (toInt str.length) w
  | .need n, w => Grows bits grants n.toInt w
  | .finish, _ => True
  | .spell _, w => Grows bits grants 14 w

/-- Nothing but `sb_init` is called while the builder is invalid, and `emit_string` does not write
more than it asked for. -/
def SbCall.Used : SbCall → World → Prop
  | .init, _ => True
  | .spell bytes, w => sbIsValid w.sb = true ∧ bytes.length ≤ 14
  | _, w => sbIsValid w.sb = true

end

/-- What `sb_finish` asserts: the text ends where the builder does. -/
def FinishAsserts (w : World) : Prop :=
  ∃ b i block, w.sb.start = .into b 0 ∧ w.sb.cur = .into b i ∧ w.heap.cells b = some block ∧
    ((cstr block).length : Int) = i

/-! ### A builder that is valid -/

/-- The builder holds the text at the front of the block at `b`, which has `2 ^ k + 1` bytes. -/
structure Filled (bits : Nat) (w : World) (text : Bytes) (b : Addr) (k : Nat) : Prop where
  sb : w.sb = ⟨.into b text.length, .into b (2 ^ k), .into b 0⟩
  cell : ∃ rest, w.heap.cells b = some (text ++ rest) ∧ text.length + rest.length = 2 ^ k + 1
  room : text.length ≤ 2 ^ k
  below : k < bits
  fresh : w.heap.Fresh
  mem : b ∈ w.made
  only : ∀ c ∈ w.made, c ≠ b → w.heap.cells c = none

/-- A builder that has lost its block. -/
def Lost (w : World) : Prop := w.sb.start = .null ∧ ∃ b ∈ w.made, (w.heap.cells b).isSome = true

variable {bits : Nat} {grants : Nat → Bool} {fresh : Nat → Byte} {w w' : World} {text : Bytes}
  {b : Addr} {k : Nat}

namespace Filled

variable (filled : Filled bits w text b k)

include filled

theorem cur_eq : w.sb.cur = .into b text.length := by rw [filled.sb]

theorem start_eq : w.sb.start = .into b 0 := by rw [filled.sb]

theorem end_eq : w.sb.end_ = .into b (2 ^ k) := by rw [filled.sb]

theorem space_eq : sbSpace w.sb = (2 ^ k : Nat) - text.length := by
  rw [sbSpace, filled.cur_eq, filled.end_eq]
  rfl

variable (grants fresh) in
/-- `sb_need` compares with the room that is left. -/
theorem need_eq (need : Int) :
    sbNeed bits grants fresh need w =
      (if ((2 ^ k : Nat) : Int) - text.length < need then sbGrow bits grants fresh need
        else return 0) w := by
  rw [sbNeed, bind_of_ok (get_apply w), filled.cur_eq, filled.end_eq, Ptr.diff_into,
    bind_of_ok (lift_ok _ w)]

end Filled

theorem Lost.not_intact (lost : Lost w) : ¬ Intact w := by
  obtain ⟨start, c, mem, live⟩ := lost
  rintro (⟨d, i, n, block, sb, -⟩ | ⟨-, released⟩)
  · rw [sb] at start
    cases start
  · rw [released c mem] at live
    cases live

theorem onHeap_ok {β : Type} {x : HeapM Bytes β} {r : β} {h : Heap Bytes}
    (run : x w.heap = .ok (r, h)) : onHeap x w = .ok (r, { w with heap := h }) := by
  rw [onHeap, run]
  rfl

variable (fresh) in
theorem sbAlloc_granted (answer : grants w.requests = true) (size : Nat) :
    sbAlloc grants fresh size w = .ok (.into w.heap.brk 0,
      { w with heap := w.heap.push ((List.range size).map fresh), requests := w.requests + 1,
               made := w.heap.brk :: w.made }) := by
  have asked : requested grants w = .ok (true, { w with requests := w.requests + 1 }) := by
    rw [requested, answer]
  rw [sbAlloc, bind_of_ok asked]
  rfl

variable (fresh) in
theorem sbAlloc_refused (answer : grants w.requests = false) (size : Nat) :
    sbAlloc grants fresh size w = .ok (.null, { w with requests := w.requests + 1 }) := by
  have asked : requested grants w = .ok (false, { w with requests := w.requests + 1 }) := by
    rw [requested, answer]
  rw [sbAlloc, bind_of_ok asked]
  rfl

variable (fresh) in
theorem sbRealloc_granted {block : Bytes} (cell : w.heap.cells b = some block)
    (answer : grants w.requests = true) (size : Nat) :
    sbRealloc grants fresh (.into b 0) size w = .ok (.into w.heap.brk 0,
      { w with heap := (w.heap.erase b).push
                 (block.take size ++ (List.range (size - block.length)).map fresh),
               requests := w.requests + 1, made := w.heap.brk :: w.made }) := by
  have asked : requested grants w = .ok (true, { w with requests := w.requests + 1 }) := by
    rw [requested, answer]
  have moved : realloc fresh b size w.heap = .ok (w.heap.brk, (w.heap.erase b).push
      (block.take size ++ (List.range (size - block.length)).map fresh)) :=
    realloc_eq fresh cell size
  have in_heap := onHeap_ok (w := { w with requests := w.requests + 1 }) moved
  rw [sbRealloc, bind_of_ok asked, if_pos rfl, bind_of_ok in_heap]
  rfl

variable (fresh) in
theorem sbRealloc_refused (answer : grants w.requests = false) (b : Addr) (size : Nat) :
    sbRealloc grants fresh (.into b 0) size w =
      .ok (.null, { w with requests := w.requests + 1 }) := by
  have asked : requested grants w = .ok (false, { w with requests := w.requests + 1 }) := by
    rw [requested, answer]
  rw [sbRealloc, bind_of_ok asked]
  rfl

variable (bits fresh) in
/-- `sb_init` begins with an empty text. -/
theorem sbInit_granted (wide : 4 < bits) (alive : w.heap.Fresh)
    (answer : grants w.requests = true) :
    ∃ w', sbInit grants fresh w = .ok (0, w') ∧ Filled bits w' [] w.heap.brk 4 := by
  have made := sbAlloc_granted fresh (w := { w with made := [] }) answer 17
  refine ⟨{ w with
    sb := ⟨.into w.heap.brk 0, .into w.heap.brk 16, .into w.heap.brk 0⟩
    heap := w.heap.push ((List.range 17).map fresh)
    requests := w.requests + 1
    made := [w.heap.brk] }, ?_, rfl, ⟨_, if_pos rfl, rfl⟩, Nat.zero_le _, wide, alive.push _,
    List.mem_singleton_self _, ?_⟩
  · rw [sbInit, bind_of_ok (modify_apply _ w), bind_of_ok made]
    rfl
  · intro c mem other
    exact absurd (List.mem_singleton.mp mem) other

variable (fresh) in
theorem sbInit_refused (answer : grants w.requests = false) :
    ∃ w', sbInit grants fresh w = .ok (-1, w') ∧ w'.sb.start = .null ∧ w'.made = [] ∧
      w'.heap = w.heap := by
  have none := sbAlloc_refused fresh (w := { w with made := [] }) answer 17
  refine ⟨{ w with sb := { w.sb with start := .null }, requests := w.requests + 1, made := [] },
    ?_, rfl, rfl, rfl⟩
  rw [sbInit, bind_of_ok (modify_apply _ w), bind_of_ok none]
  rfl

/-- What writing bytes leaves as it is. -/
structure Stays (w w' : World) : Prop where
  start : w'.sb.start = w.sb.start
  made : w'.made = w.made
  live : ∀ c, (w.heap.cells c).isSome = true → (w'.heap.cells c).isSome = true

instance : IsPreorder World Stays where
  refl _ := ⟨rfl, rfl, fun _ live => live⟩
  trans _ _ _ first second :=
    ⟨second.start.trans first.start, second.made.trans first.made,
      fun c live => second.live c (first.live c live)⟩

theorem Lost.stays (lost : Lost w) (stays : Stays w w') : Lost w' := by
  obtain ⟨start, c, mem, live⟩ := lost
  exact ⟨stays.start.trans start, c, stays.made ▸ mem, stays.live c live⟩

theorem storeAt_stays (b : Addr) (i : Nat) (bytes : Bytes) :
    Within Stays (onHeap (storeAt b i bytes)) := by
  intro w r w' run
  cases cell : w.heap.cells b with
  | none =>
      have released : storeAt b i bytes w.heap = .error .released := by
        simp [storeAt, Heap.read, cell]
      rw [onHeap, released] at run
      cases run
  | some block =>
      by_cases fits : i + bytes.length ≤ block.length
      · rw [onHeap_ok (storeAt_eq cell fits)] at run
        cases run
        refine ⟨rfl, rfl, fun c live => ?_⟩
        by_cases here : c = b
        · exact congrArg Option.isSome (if_pos here)
        · exact (congrArg Option.isSome (if_neg here)).trans live
      · rw [onHeap, storeAt_overflow cell fits] at run
        cases run

theorem memcpy_stays (p : Ptr) (bytes : Bytes) (n : Nat) : Within Stays (memcpy p bytes n) := by
  cases p with
  | null => exact .ite (fun _ => .pure ()) fun _ => .throw _
  | into b i => exact .ite (fun _ => .throw _) fun _ => storeAt_stays b i _

theorem append_stays (bytes : Bytes) (count : Int) : Within Stays (append bits bytes count) := by
  refine .bind .get fun w => .bind (memcpy_stays _ _ _) fun _ => .bind (.lift _) fun cur => ?_
  exact .modify fun w => ⟨rfl, rfl, fun _ live => live⟩

section

variable (wide : 32 ≤ bits)

include wide

theorem two_pow_word : 2 ^ bits = 2 * 2 ^ (bits - 1) := by
  obtain ⟨n, rfl⟩ : ∃ n, bits = n + 1 := ⟨bits - 1, by omega⟩
  rw [Nat.add_sub_cancel, Nat.pow_succ, Nat.mul_comm]

theorem int_fits_word : 2 ^ 31 ≤ 2 ^ (bits - 1) := Nat.pow_le_pow_right (by decide) (by omega)

namespace Filled

variable (filled : Filled bits w text b k)

include filled

theorem size_le : 2 ^ k ≤ 2 ^ (bits - 1) := by
  have below := filled.below
  exact Nat.pow_le_pow_right (by decide) (by omega)

omit wide in
/-- The text moves to a block of its own. -/
theorem moved {j : Nat} {rest : Bytes} (length : text.length + rest.length = 2 ^ j + 1)
    (room : text.length ≤ 2 ^ j) (below : j < bits) :
    Filled bits { w with
      sb := ⟨.into w.heap.brk text.length, .into w.heap.brk (2 ^ j), .into w.heap.brk 0⟩
      heap := (w.heap.erase b).push (text ++ rest)
      requests := w.requests + 1
      made := w.heap.brk :: w.made } text w.heap.brk j where
  sb := rfl
  cell := ⟨rest, if_pos rfl, length⟩
  room := room
  below := below
  fresh := (filled.fresh.erase b).push _
  mem := List.mem_cons_self
  only c mem other := by
    have old : c ∈ w.made := (List.mem_cons.mp mem).resolve_left other
    by_cases same : c = b
    · exact (if_neg other).trans (if_pos same)
    · exact (if_neg other).trans ((if_neg same).trans (filled.only c old same))

variable (grants fresh) in
/-- A builder that has to grow moves to a larger block, or loses the one that it has, or doubles
its size for ever. -/
theorem grow (need : Nat) (int : need < 2 ^ 31) (full : 2 ^ k < text.length + need) :
    (text.length + need ≤ 2 ^ (bits - 1) ∧ grants w.requests = true ∧
      ∃ w' b' j, sbGrow bits grants fresh need w = .ok (0, w') ∧ Filled bits w' text b' j ∧
        text.length + need ≤ 2 ^ j) ∨
    (grants w.requests = false ∧
      ∃ w', sbGrow bits grants fresh need w = .ok (-1, w') ∧ Lost w') ∨
    (2 ^ (bits - 1) < text.length + need ∧
      sbGrow bits grants fresh need w = .error .endless) := by
  have word := two_pow_word wide
  have int_fits := int_fits_word wide
  have size_le := filled.size_le wide
  have room := filled.room
  have length_eq : w.sb.cur.diff w.sb.start = .ok ((text.length : Nat) : Int) := by
    rw [filled.cur_eq, filled.start_eq, Ptr.diff_into, Nat.cast_zero, sub_zero]
  have alloc_eq : w.sb.end_.diff w.sb.start = .ok ((2 ^ k : Nat) : Int) := by
    rw [filled.end_eq, filled.start_eq, Ptr.diff_into, Nat.cast_zero, sub_zero]
  have target : (text.length + need) % 2 ^ bits = text.length + need :=
    Nat.mod_eq_of_lt (by omega)
  rw [sbGrow, bind_of_ok (get_apply w)]
  dsimp only
  rw [length_eq, bind_of_ok (lift_ok _ w), alloc_eq, bind_of_ok (lift_ok _ w),
    sizeT_natCast (by omega), sizeT_natCast (by omega), sizeT_natCast (by omega), target,
    filled.start_eq]
  by_cases fits : text.length + need ≤ 2 ^ (bits - 1)
  · obtain ⟨j, below, doubled, enough⟩ :=
      doubleUntil_eq fits full (bits + 1) (by omega)
    obtain ⟨rest, cell, length⟩ := filled.cell
    have larger : 2 ^ k < 2 ^ j := Nat.lt_of_lt_of_le full enough
    have half : 2 ^ j ≤ 2 ^ (bits - 1) := Nat.pow_le_pow_right (by decide) (by omega)
    have size : (2 ^ j + 1) % 2 ^ bits = 2 ^ j + 1 := Nat.mod_eq_of_lt (by omega)
    rw [doubled, bind_of_ok (lift_ok _ w), size]
    cases answer : grants w.requests with
    | true =>
        have moved := sbRealloc_granted fresh cell answer (2 ^ j + 1)
        have whole : (text ++ rest).length ≤ 2 ^ j + 1 := by
          rw [List.length_append]
          omega
        rw [List.take_of_length_le whole, List.append_assoc] at moved
        have longer : text.length + (rest ++
            (List.range (2 ^ j + 1 - (text ++ rest).length)).map fresh).length = 2 ^ j + 1 := by
          rw [List.length_append, List.length_map, List.length_range, List.length_append]
          omega
        refine .inl ⟨fits, rfl, _, w.heap.brk, j, ?_,
          filled.moved longer (Nat.le_trans (Nat.le_add_right _ _) enough) below, enough⟩
        rw [bind_of_ok moved, bind_of_ok (modify_apply _ _), if_neg nofun, Ptr.add_into,
          bind_of_ok (lift_ok _ _), Ptr.add_into, bind_of_ok (lift_ok _ _), Nat.zero_add,
          Nat.zero_add]
        rfl
    | false =>
        refine .inr (.inl ⟨rfl, { w with
          sb := { w.sb with start := .null }
          requests := w.requests + 1 }, ?_, rfl, b, filled.mem, ?_⟩)
        · rw [bind_of_ok (sbRealloc_refused fresh answer b (2 ^ j + 1)),
            bind_of_ok (modify_apply _ _), if_pos rfl]
          rfl
        · dsimp only
          rw [cell]
          rfl
  · have beyond := Nat.lt_of_not_le fits
    refine .inr (.inr ⟨beyond, ?_⟩)
    rw [doubleUntil_endless beyond filled.below, bind_apply, lift_error, error_bind]

variable (grants fresh) in
/-- What `sb_need` leads to. -/
theorem need (need : Int) (int : need < 2 ^ 31) :
    (Grows bits grants need w ∧ ∃ w' b' j, sbNeed bits grants fresh need w = .ok (0, w') ∧
      Filled bits w' text b' j ∧ text.length + need ≤ (2 ^ j : Nat)) ∨
    (¬ Grows bits grants need w ∧
      ∀ r w', sbNeed bits grants fresh need w = .ok (r, w') → r = -1 ∧ Lost w') := by
  have space := filled.space_eq
  have room := filled.room
  have offset : w.sb.cur.offset = text.length := by
    rw [filled.cur_eq]
    rfl
  have power : ((2 ^ (bits - 1) : Nat) : Int) = 2 ^ (bits - 1) := by norm_cast
  rw [filled.need_eq grants fresh]
  by_cases less : ((2 ^ k : Nat) : Int) - text.length < need
  · obtain ⟨n, rfl⟩ := Int.eq_ofNat_of_zero_le (a := need) (by omega)
    rw [if_pos less]
    rcases filled.grow grants fresh wide n (by omega) (by omega) with
      ⟨fits, answer, w', b', j, run, filled', enough⟩ | ⟨answer, w', run, lost⟩ | ⟨beyond, run⟩
    · refine .inl ⟨fun _ => ⟨by omega, answer⟩, w', b', j, run, filled', by omega⟩
    · refine .inr ⟨fun grows => ?_, fun r w'' run' => ?_⟩
      · have granted := (grows (by omega)).2
        rw [answer] at granted
        cases granted
      · cases run.symm.trans run'
        exact ⟨rfl, lost⟩
    · refine .inr ⟨fun grows => ?_, fun r w'' run' => ?_⟩
      · have fits := (grows (by omega)).1
        omega
      · cases run.symm.trans run'
  · rw [if_neg less]
    exact .inl ⟨fun full => absurd (space ▸ full) less, w, b, k, rfl, filled, by omega⟩

/-- Bytes for which there is room are appended. -/
theorem append {bytes : Bytes} {n : Nat} (have_n : n ≤ bytes.length)
    (fits : text.length + n ≤ 2 ^ k) :
    ∃ w', Builder.append bits bytes n w = .ok ((), w') ∧
      Filled bits w' (text ++ bytes.take n) b k := by
  have word := two_pow_word wide
  have pos := Nat.two_pow_pos (bits - 1)
  have size_le := filled.size_le wide
  obtain ⟨rest, cell, length⟩ := filled.cell
  have taken : (bytes.take n).length = n := List.length_take_of_le have_n
  have long : (bytes.take n).length ≤ rest.length := by omega
  have stored : storeAt b text.length (bytes.take n) w.heap = .ok ((), w.heap.set b
      (text ++ bytes.take n ++ rest.drop (bytes.take n).length)) := by
    rw [storeAt, bind_of_ok (read_eq cell), copyTo_append rfl long, bind_of_ok (lift_ok _ _)]
    exact write_eq cell _
  have copied : memcpy (.into b text.length) bytes n w = .ok ((), { w with
      heap := w.heap.set b (text ++ bytes.take n ++ rest.drop (bytes.take n).length) }) := by
    rw [memcpy, if_neg (Nat.not_lt.mpr have_n)]
    exact onHeap_ok stored
  refine ⟨{ w with
    sb := { w.sb with cur := .into b (text.length + n) }
    heap := w.heap.set b (text ++ bytes.take n ++ rest.drop (bytes.take n).length) }, ?_, ?_,
    ⟨_, if_pos rfl, ?_⟩, ?_, filled.below, ?_, filled.mem, fun c mem other => ?_⟩
  · rw [Builder.append, bind_of_ok (get_apply w), filled.cur_eq, sizeT_natCast (by omega),
      bind_of_ok copied, Ptr.add_into, bind_of_ok (lift_ok _ _)]
    rfl
  · rw [filled.sb, List.length_append, taken]
  · rw [List.length_append, List.length_drop]
    omega
  · rw [List.length_append, taken]
    exact fits
  · exact filled.fresh.set cell _
  · exact (if_neg other).trans (filled.only c mem other)

variable (grants fresh) in
/-- `sb_need` whose result is ignored, and then bytes that fit into what was asked for. -/
theorem needed (need : Nat) (bytes : Bytes) (int : need < 2 ^ 31) (fits : bytes.length ≤ need) :
    (Grows bits grants need w ∧ ∃ w' b' j, (do
        let _ ← sbNeed bits grants fresh need
        Builder.append bits bytes bytes.length) w = .ok ((), w') ∧
      Filled bits w' (text ++ bytes) b' j) ∨
    (¬ Grows bits grants need w ∧ ∀ w', (do
        let _ ← sbNeed bits grants fresh need
        Builder.append bits bytes bytes.length) w = .ok ((), w') → Lost w') := by
  have int' : (need : Int) < 2 ^ 31 := by omega
  rcases filled.need grants fresh wide _ int' with
    ⟨grows, w₁, b', j, run₁, filled₁, enough⟩ | ⟨stuck, lost⟩
  · obtain ⟨w', run, filled'⟩ := filled₁.append wide (Nat.le_refl bytes.length) (by omega)
    rw [List.take_length] at filled'
    exact .inl ⟨grows, w', b', j, by rw [bind_of_ok run₁, run], filled'⟩
  · refine .inr ⟨stuck, fun w' run => ?_⟩
    obtain ⟨⟨r, w₁⟩, run₁, run₂⟩ := ok_of_bind run
    exact (lost r w₁ run₁).2.stays (append_stays _ _ w₁ () w' run₂)

variable (grants fresh) in
theorem put (bytes : Bytes) (n : Nat) (int : n < 2 ^ 31) (have_n : n ≤ bytes.length) :
    (Grows bits grants n w ∧ ∃ w' b' j, sbPut bits grants fresh bytes n w = .ok (n, w') ∧
      Filled bits w' (text ++ bytes.take n) b' j) ∨
    (¬ Grows bits grants n w ∧
      ∀ r w', sbPut bits grants fresh bytes n w = .ok (r, w') → Lost w') := by
  have int' : (n : Int) < 2 ^ 31 := by omega
  rcases filled.need grants fresh wide _ int' with
    ⟨grows, w₁, b', j, run₁, filled₁, enough⟩ | ⟨stuck, lost⟩
  · obtain ⟨w', run, filled'⟩ := filled₁.append wide have_n (by omega)
    refine .inl ⟨grows, w', b', j, ?_, filled'⟩
    rw [sbPut, bind_of_ok run₁, if_neg (by decide), bind_of_ok run]
    rfl
  · refine .inr ⟨stuck, fun r w' run => ?_⟩
    obtain ⟨⟨answer, w₁⟩, run₁, run₂⟩ := ok_of_bind run
    obtain ⟨rfl, lost₁⟩ := lost answer w₁ run₁
    cases run₂
    exact lost₁

/-- A length that is below 0 as an `int` is a large one for `memcpy`. -/
theorem put_overrun {bytes : Bytes} {m : Nat} (pos : 0 < m) (int : m ≤ 2 ^ 31) (r : Int)
    (w' : World) :
    sbPut bits grants fresh bytes (-(m : Int)) w ≠ .ok (r, w') := by
  intro run
  have word := two_pow_word wide
  have int_fits := int_fits_word wide
  have size_le := filled.size_le wide
  obtain ⟨rest, cell, length⟩ := filled.cell
  have room := filled.room
  have needs : sbNeed bits grants fresh (-(m : Int)) w = .ok (0, w) := by
    rw [filled.need_eq, if_neg (by omega)]
    rfl
  rw [sbPut, bind_of_ok needs, if_neg (by decide)] at run
  obtain ⟨⟨_, w₁⟩, appended, -⟩ := ok_of_bind run
  rw [Builder.append, bind_of_ok (get_apply w), filled.cur_eq] at appended
  obtain ⟨⟨_, w₂⟩, copied, added⟩ := ok_of_bind appended
  rw [sizeT_neg pos (by omega), memcpy] at copied
  split at copied
  · cases copied
  · next have_m =>
      have taken : (bytes.take (2 ^ bits - m)).length = 2 ^ bits - m :=
        List.length_take_of_le (Nat.not_lt.mp have_m)
      by_cases fits : text.length + (2 ^ bits - m) ≤ 2 ^ k + 1
      · -- the pointer would leave the block at its front
        have before : ¬ 0 ≤ (text.length : Int) + -(m : Int) := by omega
        rw [Ptr.add, if_neg before] at added
        cases added
      · have beyond : ¬ text.length + (bytes.take (2 ^ bits - m)).length ≤
            (text ++ rest).length := by
          rw [taken, List.length_append, length]
          exact fits
        rw [onHeap, storeAt_overflow cell beyond] at copied
        cases copied

omit wide in
/-- `sb_finish` ends the text. -/
theorem finish : ∃ w', sbFinish w = .ok (.into b 0, w') ∧ Filled bits w' text b k ∧
    ∃ rest, w'.heap.cells b = some (text ++ 0 :: rest) := by
  obtain ⟨rest, cell, length⟩ := filled.cell
  have room := filled.room
  obtain ⟨c, rest, rfl⟩ : ∃ c cs, rest = c :: cs := by
    cases rest with
    | nil => exact absurd length (by rw [List.length_nil]; omega)
    | cons c cs => exact ⟨c, cs, rfl⟩
  have stored : storeAt b text.length [0] w.heap = .ok ((), w.heap.set b (text ++ 0 :: rest)) := by
    rw [storeAt, bind_of_ok (read_eq cell), copyTo_append rfl (by simp),
      bind_of_ok (lift_ok _ _), List.append_assoc]
    exact write_eq cell _
  refine ⟨{ w with heap := w.heap.set b (text ++ 0 :: rest) }, ?_,
    ⟨filled.sb, ⟨0 :: rest, if_pos rfl, length⟩, room, filled.below, filled.fresh.set cell _,
      filled.mem, fun c mem other => (if_neg other).trans (filled.only c mem other)⟩,
    rest, if_pos rfl⟩
  rw [sbFinish, bind_of_ok (get_apply w), filled.cur_eq]
  dsimp only
  rw [bind_of_ok (onHeap_ok stored), filled.start_eq]
  rfl

omit wide in
/-- A text without a zero byte meets the assertion of `sb_finish`. -/
theorem finish_asserts (plain : 0 ∉ text) :
    ∃ w', sbFinish w = .ok (.into b 0, w') ∧ FinishAsserts w' := by
  obtain ⟨w', run, filled', rest, cell⟩ := filled.finish
  refine ⟨w', run, b, text.length, _, filled'.start_eq, filled'.cur_eq, cell, ?_⟩
  rw [cstr_terminated plain]

end Filled

end

end AcnSdk.Json.Builder
