/-
What the functions of the pool do to its bits, and which bits they look at.

Each is followed by one equation for both ways to run it: with `strict` it is a fault
exactly if a bit outside the bitmaps is looked at.
-/

import AcnSdk.Data.StaticBuf
import AcnSdk.Lib.Spans

namespace AcnSdk.Data

open AcnSdk.Lib Prog

/-! ### Bits -/

/-- How many sectors have bits: a byte of a bitmap is for eight of them. -/
def Geometry.covered (geo : Geometry) : Nat := 8 * (geo.sectors / 8)

/-- The bitmaps are as long as they were made. -/
structure Sized (geo : Geometry) (pool : Pool) : Prop where
  head : 8 * pool.head.length = geo.covered
  space : 8 * pool.space.length = geo.covered

/-- Something that looks at the bits below `stop` only, or at none. -/
def bounded {β : Type} (geo : Geometry) (strict : Bool) (stop : Nat) (x : Except Fault (β × Pool)) :
    Except Fault (β × Pool) :=
  if strict = true ∧ geo.covered < stop then .error .overflow else x

section

variable {geo : Geometry} {strict : Bool} {pool : Pool}

theorem inside_iff (i : Nat) : i < geo.sectors ∧ i >>> 3 < geo.sectors >>> 3 ↔ i < geo.covered := by
  rw [Geometry.covered, Nat.shiftRight_eq_div_pow, Nat.shiftRight_eq_div_pow]
  omega

theorem access_eq (i : Nat) :
    access geo strict i pool = bounded geo strict (i + 1) (.ok ((), pool)) := by
  rw [access, bounded]
  simp only [inside_iff, Nat.lt_succ_iff, Nat.not_lt]
  split <;> rfl

theorem bounded_ok {β : Type} {stop : Nat} {x : Except Fault (β × Pool)}
    (inside : stop ≤ geo.covered) :
    bounded geo strict stop x = x := if_neg fun h => Nat.not_lt.mpr inside h.2

theorem bounded_bind {β γ : Type} {stop : Nat} (x : Except Fault (β × Pool))
    (f : β × Pool → Except Fault (γ × Pool)) :
    (bounded geo strict stop x).bind f = bounded geo strict stop (x.bind f) := by
  unfold bounded
  split <;> rfl

@[simp] theorem bounded_false {β : Type} (stop : Nat) (x : Except Fault (β × Pool)) :
    bounded geo false stop x = x := if_neg (by simp)

theorem bounded_zero {β : Type} (x : Except Fault (β × Pool)) : bounded geo strict 0 x = x :=
  bounded_ok (Nat.zero_le _)

theorem bounded_bounded {β : Type} (i stop : Nat) (x : Except Fault (β × Pool)) :
    bounded geo strict i (bounded geo strict stop x) = bounded geo strict (max i stop) x := by
  unfold bounded
  by_cases beyond : strict = true ∧ geo.covered < max i stop
  · rw [if_pos beyond]
    by_cases first : strict = true ∧ geo.covered < i
    · rw [if_pos first]
    · rw [if_neg first, if_pos
        ⟨beyond.1, by have := beyond.2; rw [not_and] at first; have := first beyond.1; omega⟩]
  · rw [if_neg beyond, if_neg (fun h => beyond ⟨h.1, by have := h.2; omega⟩),
      if_neg (fun h => beyond ⟨h.1, by have := h.2; omega⟩)]

theorem spaceInUse_eq (i : Nat) :
    spaceInUse geo strict i pool = bounded geo strict (i + 1) (.ok (bitAt pool.space i, pool)) := by
  rw [spaceInUse, bind_apply, access_eq, bounded_bind]
  rfl

theorem headInUse_eq (i : Nat) :
    headInUse geo strict i pool = bounded geo strict (i + 1) (.ok (bitAt pool.head i, pool)) := by
  rw [headInUse, bind_apply, access_eq, bounded_bind]
  rfl

theorem setHead_eq (i : Nat) : setHead geo strict i pool =
    bounded geo strict (i + 1) (.ok ((), { pool with head := setBit pool.head i })) := by
  rw [setHead, bind_apply, access_eq, bounded_bind]
  rfl

theorem setSpace_eq (i : Nat) : setSpace geo strict i pool =
    bounded geo strict (i + 1) (.ok ((), { pool with space := setBit pool.space i })) := by
  rw [setSpace, bind_apply, access_eq, bounded_bind]
  rfl

theorem unsetHead_eq (i : Nat) : unsetHead geo strict i pool =
    bounded geo strict (i + 1) (.ok ((), { pool with head := clearBit pool.head i })) := by
  rw [unsetHead, bind_apply, access_eq, bounded_bind]
  rfl

theorem unsetSpace_eq (i : Nat) : unsetSpace geo strict i pool =
    bounded geo strict (i + 1) (.ok ((), { pool with space := clearBit pool.space i })) := by
  rw [unsetSpace, bind_apply, access_eq, bounded_bind]
  rfl

/-! ### Allocation -/

theorem findSectors_eq (r left i t : Nat) : findSectors geo strict r left i t pool =
    bounded geo strict (findStop (bitAt pool.space) r left i t)
      (.ok (findRun (bitAt pool.space) r left i t, pool)) := by
  induction left generalizing i t with
  | zero => exact (bounded_zero _).symm
  | succ left ih =>
      rw [findSectors, bind_apply, spaceInUse_eq, bounded_bind, ok_bind, findStop, findRun,
        ← bounded_bounded]
      dsimp only
      cases bitAt pool.space i with
      | true => exact congrArg _ (ih (i + 1) 0)
      | false =>
          by_cases last : t + 1 = r
          · simp only [last, Bool.false_eq_true, if_false, if_true, bounded_zero]
            rfl
          · simp only [last, Bool.false_eq_true, if_false]
            exact congrArg _ (ih (i + 1) (t + 1))

theorem markSectors_eq (left i : Nat) : markSectors geo strict left i pool =
    bounded geo strict (if left = 0 then 0 else i + left)
      (.ok ((), { pool with space := setBits pool.space i left })) := by
  induction left generalizing i pool with
  | zero => exact (bounded_zero _).symm
  | succ left ih =>
      rw [markSectors, bind_apply, setSpace_eq, bounded_bind, ok_bind, ih, bounded_bounded,
        if_neg (Nat.succ_ne_zero left)]
      congr 1
      split <;> omega

/-- A block in the bitmaps. -/
def Pool.mark (pool : Pool) (start r : Nat) : Pool :=
  { pool with head := setBit pool.head start, space := setBits pool.space start r }

theorem Geometry.need_pos (geo : Geometry) {size : Nat} (pos : 0 < size) : 0 < geo.need size := by
  rw [need]
  split
  · exact Nat.succ_pos _
  · next whole =>
      have := Nat.div_add_mod size geo.chunk
      rw [not_not] at whole
      rw [whole] at this
      apply Nat.lt_of_lt_of_le _ (Nat.le_add_right _ _)
      apply Nat.pos_of_ne_zero
      intro zero
      rw [zero] at this
      omega

/-- Marking a block that is found. -/
theorem markBlock_eq {β : Type} {r : Nat} (start : Nat) (p : β) (pos : 0 < r) :
    (setHead geo strict start >>= fun _ => markSectors geo strict r start >>= fun _ =>
      pure p) pool =
      bounded geo strict (start + r) (.ok (p, pool.mark start r)) := by
  rw [bind_apply, setHead_eq, bounded_bind, ok_bind, bind_apply, markSectors_eq, bounded_bind,
    bounded_bounded, if_neg (by omega)]
  congr 1
  omega

/-- `__static_alloc` looks at the sectors up to the one where it stops. -/
theorem staticAlloc_eq {size : Int} (pos : 0 < size) : staticAlloc geo strict size pool =
    bounded geo strict (findStop (bitAt pool.space) (geo.need size.toNat) geo.bound 0 0)
      (match findRun (bitAt pool.space) (geo.need size.toNat) geo.bound 0 0 with
        | none => .ok (none, pool)
        | some e =>
            .ok (some (geo.chunk * (e + 1 - geo.need size.toNat)),
              pool.mark (e + 1 - geo.need size.toNat) (geo.need size.toNat))) := by
  have need_pos := geo.need_pos (show 0 < size.toNat by omega)
  rw [staticAlloc, if_neg (by omega)]
  generalize geo.need size.toNat = r at *
  generalize geo.bound = left
  rw [bind_apply, findSectors_eq, bounded_bind, ok_bind]
  cases found : findRun (bitAt pool.space) r left 0 0 with
  | none => rfl
  | some e =>
      obtain ⟨-, fits, stop, -⟩ := findRun_some (.start need_pos) found
      refine (congrArg _ (markBlock_eq (e + 1 - r) _ need_pos)).trans ?_
      rw [bounded_bounded, stop]
      congr 1
      omega

/-! ### Release -/

theorem freeSectors_eq {fuel i e : Nat} (ends : BlockEnd (bitAt pool.head) (bitAt pool.space) i e)
    (enough : e < i + fuel) : freeSectors geo strict fuel i pool =
      bounded geo strict (e + 1)
        (.ok ((), { pool with space := clearBits pool.space i (e - i) })) := by
  induction fuel generalizing i pool with
  | zero =>
      have := ends.le
      omega
  | succ fuel ih =>
      rw [freeSectors, bind_apply, headInUse_eq, bounded_bind, ok_bind]
      dsimp only
      by_cases last : i = e
      · subst last
        rw [Nat.sub_self]
        cases head_eq : bitAt pool.head i with
        | true => rfl
        | false =>
            have space_eq := ends.ends.resolve_left (by simp [head_eq])
            rw [if_neg (by decide), bind_apply, spaceInUse_eq, space_eq, bounded_bind,
              bounded_bounded,
              Nat.max_self]
            rfl
      · have le := ends.le
        obtain ⟨head_eq, space_eq⟩ := ends.inner i (Nat.le_refl i) (by omega)
        have rest : BlockEnd (bitAt pool.head) (bitAt (clearBit pool.space i)) (i + 1) e := by
          have same : ∀ j, i + 1 ≤ j → bitAt (clearBit pool.space i) j = bitAt pool.space j := by
            intro j ge
            rw [bitAt_clearBit, decide_eq_false (by omega), Bool.not_false, Bool.true_and]
          refine ⟨by omega, ?_, ?_⟩
          · intro j ge lt
            rw [same j ge]
            exact ends.inner j (by omega) lt
          · rw [same e (by omega)]
            exact ends.ends
        rw [head_eq, if_neg (by decide), bind_apply, spaceInUse_eq, space_eq, bounded_bind, ok_bind]
        dsimp only
        rw [if_pos rfl, bind_apply, unsetSpace_eq, bounded_bind, ok_bind]
        have next : freeSectors geo strict fuel (i + 1)
            { pool with space := clearBit pool.space i } = _ := ih rest (by omega)
        dsimp only at next ⊢
        rw [next, bounded_bounded, bounded_bounded, bounded_bounded]
        congr 1
        · omega
        · rw [show e - i = e - (i + 1) + 1 by omega]
          rfl

/-- The first sector of a pointer's block. -/
def Geometry.sector (geo : Geometry) (ptr : Int) : Nat := (toInt32 ptr).toNat / geo.chunk

/-- Where the block of a pointer ends. -/
def Pool.blockEnd (geo : Geometry) (pool : Pool) (ptr : Int) : Nat :=
  Lib.blockEnd (bitAt (clearBit pool.head (geo.sector ptr))) (bitAt pool.space) pool.steps
    (geo.sector ptr)

/-- The sectors looked at for a pointer. -/
def Pool.reach (geo : Geometry) (pool : Pool) (ptr : Int) : Nat :=
  if toInt32 ptr < 0 then 0
  else if bitAt pool.head (geo.sector ptr) then pool.blockEnd geo ptr + 1
  else geo.sector ptr + 1

/-- The pool without the block of a pointer. -/
def Pool.free (geo : Geometry) (pool : Pool) (ptr : Int) : Pool :=
  if 0 ≤ toInt32 ptr ∧ bitAt pool.head (geo.sector ptr) then
    { pool with
      head := clearBit pool.head (geo.sector ptr),
      space := clearBits pool.space (geo.sector ptr) (pool.blockEnd geo ptr - geo.sector ptr) }
  else pool

theorem Pool.blockEnd_spec (geo : Geometry) (pool : Pool) (ptr : Int) :
    BlockEnd (bitAt (clearBit pool.head (geo.sector ptr))) (bitAt pool.space) (geo.sector ptr)
      (pool.blockEnd geo ptr) := by
  have clear : ∀ j, 8 * pool.space.length ≤ j → bitAt pool.space j = false := fun _ => bitAt_of_ge
  exact Lib.blockEnd_spec clear (by rw [Pool.steps]; omega)

theorem Pool.blockEnd_lt (geo : Geometry) (pool : Pool) (ptr : Int) :
    pool.blockEnd geo ptr < geo.sector ptr + pool.steps := by
  have spec := pool.blockEnd_spec geo ptr
  by_contra far
  have busy := (spec.inner (geo.sector ptr + 8 * pool.space.length) (by omega)
    (by rw [Pool.steps] at far; omega)).2
  rw [bitAt_of_ge (by omega)] at busy
  cases busy

/-- `__static_free` looks at the sectors of the block, and one more. -/
theorem staticFree_eq (ptr : Int) : staticFree geo strict ptr pool =
    bounded geo strict (pool.reach geo ptr) (.ok ((), pool.free geo ptr)) := by
  rw [staticFree, Pool.reach, Pool.free]
  dsimp only
  by_cases negative : toInt32 ptr < 0
  · rw [if_pos negative, if_pos negative, if_neg (fun h => by omega), bounded_zero]
    rfl
  · rw [if_neg negative, if_neg negative, bind_apply, headInUse_eq, bounded_bind, ok_bind,
      ← Geometry.sector]
    dsimp only
    cases head_eq : bitAt pool.head (geo.sector ptr) with
    | false =>
        rw [if_neg (by decide), if_neg (by decide), if_neg (by simp)]
        rfl
    | true =>
        have spec := pool.blockEnd_spec geo ptr
        have le := spec.le
        rw [if_pos rfl, if_pos rfl, if_pos ⟨by omega, rfl⟩, bind_apply, unsetHead_eq, bounded_bind,
          ok_bind, bind_apply, get_apply, ok_bind]
        have freed : freeSectors geo strict pool.steps (geo.sector ptr)
            { pool with head := clearBit pool.head (geo.sector ptr) } = _ :=
          freeSectors_eq spec (pool.blockEnd_lt geo ptr)
        dsimp only [Pool.steps] at freed ⊢
        rw [freed, bounded_bounded, bounded_bounded]
        congr 1
        omega

/-! ### Reallocation -/

theorem nextHead_eq (shift i : Nat) : nextHead geo strict shift i pool =
    bounded geo strict (if i = shift then 0 else i + 1)
      (.ok (bitAt (clearBit pool.head shift) i, pool)) := by
  rw [bitAt_clearBit, nextHead]
  by_cases first : i = shift
  · rw [if_pos first, if_pos first, bounded_zero, decide_eq_true first.symm]
    rfl
  · rw [if_neg first, if_neg first, headInUse_eq, decide_eq_false (Ne.symm first), Bool.not_false,
      Bool.true_and]

theorem countSectors_eq {shift fuel i e size : Nat}
    (ends : BlockEnd (bitAt (clearBit pool.head shift)) (bitAt pool.space) i e)
    (enough : e < i + fuel)
    (small : size < 2 ^ 16) : countSectors geo strict shift fuel i size pool =
      bounded geo strict (e + 1) (.ok ((size + (e - i)) % 2 ^ 16, pool)) := by
  have looked : ∀ i, max (if i = shift then 0 else i + 1) (i + 1) = i + 1 := by
    intro i
    split <;> omega
  induction fuel generalizing i size with
  | zero =>
      have := ends.le
      omega
  | succ fuel ih =>
      rw [countSectors, bind_apply, nextHead_eq, bounded_bind, ok_bind]
      dsimp only
      by_cases last : i = e
      · subst last
        have same : (size + (i - i)) % 2 ^ 16 = size := by
          rw [Nat.sub_self]
          exact Nat.mod_eq_of_lt small
        rw [same]
        cases head_eq : bitAt (clearBit pool.head shift) i with
        | true =>
            have differ : i ≠ shift := by
              rintro rfl
              rw [bitAt_clearBit, decide_eq_true rfl] at head_eq
              cases head_eq
            rw [if_neg differ]
            rfl
        | false =>
            have space_eq := ends.ends.resolve_left (by simp [head_eq])
            simp only [Bool.false_eq_true, if_false, bind_apply, spaceInUse_eq, space_eq,
              bounded_bind,
              ok_bind, bounded_bounded, looked]
            rfl
      · have le := ends.le
        obtain ⟨head_eq, space_eq⟩ := ends.inner i (Nat.le_refl i) (by omega)
        have rest : BlockEnd (bitAt (clearBit pool.head shift)) (bitAt pool.space) (i + 1) e :=
          ⟨by omega, fun j ge lt => ends.inner j (by omega) lt, ends.ends⟩
        have next := ih rest (by omega) (Nat.mod_lt (size + 1) (show 0 < 2 ^ 16 by decide))
        simp only [head_eq, Bool.false_eq_true, if_false, bind_apply, spaceInUse_eq, space_eq,
          bounded_bind, ok_bind, if_true, next, bounded_bounded]
        have stop : max (if i = shift then 0 else i + 1) (max (i + 1) (e + 1)) = e + 1 := by
          split <;> omega
        have count : ((size + 1) % 2 ^ 16 + (e - (i + 1))) % 2 ^ 16 =
            (size + (e - i)) % 2 ^ 16 := by
          omega
        rw [stop, count]

/-- How many sectors `__static_buf_size` finds in the block of a pointer. -/
def Pool.blockSize (geo : Geometry) (pool : Pool) (ptr : Int) : Nat :=
  if 0 ≤ toInt32 ptr ∧ bitAt pool.head (geo.sector ptr) then
    (pool.blockEnd geo ptr - geo.sector ptr) % 2 ^ 16
  else 0

theorem staticBufSize_eq (ptr : Int) : staticBufSize geo strict ptr pool =
    bounded geo strict (pool.reach geo ptr) (.ok (pool.blockSize geo ptr, pool)) := by
  rw [staticBufSize, Pool.reach, Pool.blockSize]
  by_cases negative : toInt32 ptr < 0
  · rw [if_pos negative, if_pos negative, if_neg (fun h => by omega), bounded_zero]
    rfl
  · have spec := pool.blockEnd_spec geo ptr
    have le := spec.le
    rw [if_neg negative, if_neg negative, bind_apply, headInUse_eq, bounded_bind, ok_bind,
      ← Geometry.sector]
    cases head_eq : bitAt pool.head (geo.sector ptr) with
    | false =>
        dsimp only
        rw [if_neg (by decide), if_neg (by decide), if_neg (by simp)]
        rfl
    | true =>
        have counted : countSectors geo strict (geo.sector ptr) pool.steps (geo.sector ptr) 0
            pool = _ :=
          countSectors_eq spec (pool.blockEnd_lt geo ptr) (by decide)
        rw [if_pos rfl, if_pos rfl, if_pos ⟨by omega, rfl⟩, bind_apply, get_apply, ok_bind]
        dsimp only
        rw [counted, bounded_bounded, Nat.zero_add]
        congr 1
        omega

/-- The bytes that go from the block of a pointer to one of the size. -/
def Pool.copySize (geo : Geometry) (pool : Pool) (ptr size : Int) : Nat :=
  if size < toInt32 geo.chunk * pool.blockSize geo ptr then (size % 2 ^ 32).toNat
  else (toInt32 geo.chunk * pool.blockSize geo ptr % 2 ^ 32).toNat

theorem reallocSize_eq (ptr size : Int) : reallocSize geo strict ptr size pool =
    bounded geo strict (pool.reach geo ptr) (.ok (pool.copySize geo ptr size, pool)) := by
  rw [reallocSize, Pool.copySize, bind_apply, staticBufSize_eq, bounded_bind, ok_bind]
  dsimp only
  by_cases less : size < toInt32 geo.chunk * pool.blockSize geo ptr
  · rw [if_pos less, if_pos less]
    rfl
  · rw [if_neg less, if_neg less, bind_apply, staticBufSize_eq, bounded_bind, bounded_bounded,
      Nat.max_self]
    rfl

theorem Pool.free_buffer (ptr : Int) (buffer : Bytes) :
    Pool.free geo { pool with buffer := buffer } ptr =
      { pool.free geo ptr with buffer := buffer } := by
  unfold Pool.free
  dsimp only
  split <;> rfl

/-- The block of a pointer is copied to `p` and given back. -/
def Pool.move (geo : Geometry) (pool : Pool) (ptr size : Int) (p : Nat) : Pool :=
  { pool.free geo ptr with
    buffer := store pool.buffer p ((pool.buffer.drop ptr.toNat).take (pool.copySize geo ptr size)) }

/-- What `__static_realloc` does after the allocation. -/
theorem moveBlock_eq {β : Type} (ptr size : Int) (p : Nat) (q : β) :
    (reallocSize geo strict ptr size >>= fun s =>
        (modify fun pool =>
          { pool with buffer := store pool.buffer p ((pool.buffer.drop ptr.toNat).take s) }) >>=
            fun _ =>
        staticFree geo strict ptr >>= fun _ => pure q) pool =
      bounded geo strict (pool.reach geo ptr) (.ok (q, pool.move geo ptr size p)) := by
  rw [bind_apply, reallocSize_eq, Pool.move]
  generalize pool.copySize geo ptr size = s
  rw [bounded_bind, ok_bind, bind_apply, modify_apply, ok_bind, bind_apply, staticFree_eq,
    bounded_bind, ok_bind, pure_apply, Pool.free_buffer]
  exact (bounded_bounded _ _ _).trans
    (by rw [Pool.reach, Pool.reach]; exact congrArg (bounded geo strict · _) (Nat.max_self _))

/-- `__static_realloc` looks at what allocation and release do. -/
theorem staticRealloc_eq {size : Int} (ptr : Int) (pos : 0 < size) :
    staticRealloc geo strict ptr size pool =
      bounded geo strict (findStop (bitAt pool.space) (geo.need size.toNat) geo.bound 0 0)
        (match findRun (bitAt pool.space) (geo.need size.toNat) geo.bound 0 0 with
          | none => .ok (none, pool)
          | some e =>
              bounded geo strict
                ((pool.mark (e + 1 - geo.need size.toNat) (geo.need size.toNat)).reach geo ptr)
                (.ok (some (geo.chunk * (e + 1 - geo.need size.toNat)),
                  (pool.mark (e + 1 - geo.need size.toNat) (geo.need size.toNat)).move geo ptr size
                    (geo.chunk * (e + 1 - geo.need size.toNat))))) := by
  rw [staticRealloc, bind_apply, staticAlloc_eq pos, bounded_bind]
  cases found : findRun (bitAt pool.space) (geo.need size.toNat) geo.bound 0 0 with
  | none => rfl
  | some e =>
      have moved : _ = bounded geo strict
          ((pool.mark (e + 1 - geo.need size.toNat) (geo.need size.toNat)).reach geo ptr)
          (.ok (some (geo.chunk * (e + 1 - geo.need size.toNat)), _)) :=
        moveBlock_eq ptr size (geo.chunk * (e + 1 - geo.need size.toNat)) _
      generalize geo.need size.toNat = r at *
      generalize geo.bound = left at *
      exact congrArg (bounded geo strict _) moved

/-! ### Free space -/

theorem countFree_eq (left i sector : Nat) : countFree geo strict left i sector pool =
    bounded geo strict (if left = 0 then 0 else i + left)
      (.ok (sector + freeCount (bitAt pool.space) i left, pool)) := by
  induction left generalizing i sector with
  | zero => exact (bounded_zero _).symm
  | succ left ih =>
      rw [countFree, bind_apply, spaceInUse_eq, bounded_bind, ok_bind,
        if_neg (Nat.succ_ne_zero left)]
      have stop : max (i + 1) (if left = 0 then 0 else i + 1 + left) = i + (left + 1) := by
        split <;> omega
      cases state : bitAt pool.space i with
      | true =>
          have count : freeCount (bitAt pool.space) i (left + 1) =
              freeCount (bitAt pool.space) (i + 1) left := by
            simp [freeCount, List.range'_succ, state]
          dsimp only
          rw [if_pos rfl, ih, bounded_bounded, stop, count]
      | false =>
          have count : freeCount (bitAt pool.space) i (left + 1) =
              freeCount (bitAt pool.space) (i + 1) left + 1 := by
            simp [freeCount, List.range'_succ, state]
          dsimp only
          rw [if_neg (by decide), ih, bounded_bounded, stop, count]
          congr 2
          simp only [Prod.mk.injEq, and_true]
          omega

theorem findMaxAlloc_eq : findMaxAlloc geo strict pool =
    bounded geo strict geo.bound
      (.ok (toInt32 (freeCount (bitAt pool.space) 0 geo.bound * geo.chunk : Nat), pool)) := by
  rw [findMaxAlloc]
  generalize geo.bound = left
  have stop : (if left = 0 then 0 else 0 + left) = left := by
    split <;> omega
  rw [bind_apply, countFree_eq, stop, Nat.zero_add, bounded_bind, ok_bind]
  rfl

end

end AcnSdk.Data
