/-
Runs of a pool: what callers do with it, one call after the other.

A caller gives back, or makes larger, only what it was given and still has; these are the
live blocks. In a pool of less than 2 GiB they are the spans in the two bitmaps.

* `Consistent` — how live blocks and bitmaps belong together.
* `Consistent.run` — every run keeps it.
-/

import Mathlib.Algebra.Order.Floor.Div
import AcnSdk.Data.PoolSteps

namespace AcnSdk.Data

open AcnSdk.Lib Prog

/-! ### Calls -/

/-- What a caller was given: a pointer, and the size that it asked for. -/
structure Block where
  ptr : Nat
  size : Nat
deriving DecidableEq, Repr

/-- The calls. -/
inductive Op where
  | alloc (size : Int)
  | free (block : Block)
  | realloc (block : Block) (size : Int)
  | maxPiece
deriving DecidableEq, Repr

/-- A pool and the live blocks. -/
structure World where
  pool : Pool
  live : List Block
deriving DecidableEq, Repr

/-- At the start. -/
def World.start (geo : Geometry) : World := ⟨createBuffer geo, []⟩

/-- One call. What is not live is not given back. -/
def World.step (geo : Geometry) (strict : Bool) (w : World) : Op → Except Fault World
  | .alloc size => (staticAlloc geo strict size w.pool).map fun r =>
      match r.1 with
      | none => ⟨r.2, w.live⟩
      | some p => ⟨r.2, ⟨p, size.toNat⟩ :: w.live⟩
  | .free b =>
      if b ∈ w.live then (staticFree geo strict b.ptr w.pool).map fun r => ⟨r.2, w.live.erase b⟩
      else .ok w
  | .realloc b size =>
      if b ∈ w.live then (staticRealloc geo strict b.ptr size w.pool).map fun r =>
        match r.1 with
        | none => ⟨r.2, w.live⟩
        | some p => ⟨r.2, ⟨p, size.toNat⟩ :: w.live.erase b⟩
      else .ok w
  | .maxPiece => (findMaxAlloc geo strict w.pool).map fun r => ⟨r.2, w.live⟩

/-- Call after call. -/
def World.run (geo : Geometry) (strict : Bool) : World → List Op → Except Fault World
  | w, [] => .ok w
  | w, op :: ops => (w.step geo strict op).bind fun w' => w'.run geo strict ops

/-! ### Live blocks in the bitmaps -/

/-- The sectors of a block. -/
def Block.span (geo : Geometry) (b : Block) : Span := ⟨b.ptr / geo.chunk, b.size ⌈/⌉ geo.chunk⟩

/-- The live blocks start at sectors, and are the disjoint spans in the bitmaps. -/
structure Consistent (geo : Geometry) (w : World) : Prop where
  sized : Sized geo w.pool
  aligned : ∀ b ∈ w.live, geo.chunk ∣ b.ptr
  marked : Marked geo.sectors (w.live.map (Block.span geo)) (bitAt w.pool.space) (bitAt w.pool.head)

/-- The numbers of the pool fit into an `int`. -/
structure Small (geo : Geometry) : Prop where
  sectors : geo.sectors < 2 ^ 31
  last : geo.chunk * (geo.sectors - 1) < 2 ^ 31

theorem need_eq (geo : Geometry) (size : Nat) : geo.need size = size ⌈/⌉ geo.chunk := by
  have pos := geo.chunk_pos
  have parts := Nat.div_add_mod size geo.chunk
  have mod_lt := Nat.mod_lt size pos
  rw [Geometry.need, Nat.ceilDiv_eq_add_pred_div]
  generalize size % geo.chunk = m at *
  generalize size / geo.chunk = q at *
  by_cases whole : m = 0
  · rw [if_neg (by omega), Nat.add_zero, ← parts, whole, Nat.add_zero, Nat.add_sub_assoc pos,
      Nat.mul_add_div pos, Nat.div_eq_of_lt (by omega), Nat.add_zero]
  · rw [if_pos whole, ← parts,
      show geo.chunk * q + m + geo.chunk - 1 = geo.chunk * (q + 1) + (m - 1) by
      rw [Nat.mul_add]; omega, Nat.mul_add_div pos, Nat.div_eq_of_lt (by omega), Nat.add_zero]

section

variable {geo : Geometry} {strict : Bool} {w w' : World} {b : Block}

theorem covered_eq (whole : 8 ∣ geo.sectors) : geo.covered = geo.sectors :=
  Nat.mul_div_cancel' whole

theorem bound_eq (lt : geo.sectors < 2 ^ 31) : geo.bound = geo.sectors := by
  rw [Geometry.bound, toInt32_of_lt (by omega) (by omega), Int.toNat_natCast]

theorem Consistent.start (geo : Geometry) : Consistent geo (.start geo) where
  sized := by
    have length : ∀ n, 8 * (List.replicate (n >>> 3) (0 : Byte)).length = 8 * (n / 8) := by
      intro n
      rw [List.length_replicate, Nat.shiftRight_eq_div_pow]
    exact ⟨length _, length _⟩
  aligned := by simp [World.start]
  marked := .nil _ (bitAt_replicate _) (bitAt_replicate _)

namespace Consistent

/-- The pointer of a live block is not cut. -/
theorem sector_eq (consistent : Consistent geo w) (small : Small geo) (mem : b ∈ w.live) :
    toInt32 b.ptr = b.ptr ∧ geo.sector b.ptr = (b.span geo).start := by
  obtain ⟨start, ptr_eq⟩ := consistent.aligned b mem
  have pos := consistent.marked.pos _ (List.mem_map_of_mem mem)
  have le := consistent.marked.le _ (List.mem_map_of_mem mem)
  have first : (b.span geo).start = start := by
    rw [Block.span, ptr_eq, Nat.mul_div_cancel_left _ geo.chunk_pos]
  have ptr_le : b.ptr ≤ geo.chunk * (geo.sectors - 1) := by
    rw [ptr_eq]
    exact Nat.mul_le_mul_left _ (by omega)
  have last := small.last
  have uncut : toInt32 b.ptr = b.ptr := toInt32_of_lt (by omega) (by omega)
  exact ⟨uncut, by rw [Geometry.sector, uncut, Int.toNat_natCast]; rfl⟩

/-- Behind a live block. -/
theorem blockEnd_eq (consistent : Consistent geo w) (small : Small geo) (mem : b ∈ w.live) :
    w.pool.blockEnd geo b.ptr = (b.span geo).start + (b.span geo).len := by
  have sector := (consistent.sector_eq small mem).2
  have front := consistent.marked.perm ((List.perm_cons_erase mem).map (Block.span geo))
  have spec := w.pool.blockEnd_spec geo b.ptr
  rw [sector] at spec
  exact spec.unique (front.ends fun i => bitAt_clearBit _ _ _)

theorem free_eq (consistent : Consistent geo w) (small : Small geo) (mem : b ∈ w.live) :
    w.pool.free geo b.ptr =
      { w.pool with
        head := clearBit w.pool.head (b.span geo).start
        space := clearBits w.pool.space (b.span geo).start (b.span geo).len } := by
  obtain ⟨uncut, sector⟩ := consistent.sector_eq small mem
  have is_head := (consistent.marked.head_iff _).mpr ⟨_, List.mem_map_of_mem mem, rfl⟩
  rw [Pool.free, consistent.blockEnd_eq small mem, sector, if_pos ⟨by omega, is_head⟩,
    Nat.add_sub_cancel_left]

/-- A live block is given back. -/
theorem free (consistent : Consistent geo w) (small : Small geo) (mem : b ∈ w.live) :
    Consistent geo ⟨w.pool.free geo b.ptr, w.live.erase b⟩ := by
  have front := consistent.marked.perm ((List.perm_cons_erase mem).map (Block.span geo))
  rw [consistent.free_eq small mem]
  constructor
  · constructor
    · rw [length_clearBit]
      exact consistent.sized.head
    · rw [length_clearBits]
      exact consistent.sized.space
  · exact fun c mem' => consistent.aligned c (List.mem_of_mem_erase mem')
  · apply front.remove
    · exact fun i => bitAt_clearBits _ _ _ _
    · exact fun i => bitAt_clearBit _ _ _

/-- A block is marked in free sectors. -/
theorem mark (consistent : Consistent geo w) (whole : 8 ∣ geo.sectors) {start size : Nat}
    (pos : 0 < size)
    (run : IsRun (bitAt w.pool.space) geo.sectors start (geo.need size)) :
    Consistent geo ⟨w.pool.mark start (geo.need size), ⟨geo.chunk * start, size⟩ :: w.live⟩ := by
  have need_pos := geo.need_pos pos
  have le := run.le
  have span_eq : Block.span geo ⟨geo.chunk * start, size⟩ = ⟨start, geo.need size⟩ := by
    rw [Block.span, need_eq, Nat.mul_div_cancel_left _ geo.chunk_pos]
  have space_length := consistent.sized.space
  have head_length := consistent.sized.head
  rw [covered_eq whole] at space_length head_length
  constructor
  · constructor
    · rw [Pool.mark, length_setBit]
      exact consistent.sized.head
    · rw [Pool.mark, length_setBits]
      exact consistent.sized.space
  · intro c mem
    rcases List.mem_cons.mp mem with rfl | mem
    · exact Nat.dvd_mul_right _ _
    · exact consistent.aligned c mem
  · rw [List.map_cons, span_eq]
    refine consistent.marked.insert need_pos run ?_ ?_
    · exact bitAt_setBits (by omega)
    · exact bitAt_setBit (by omega)

/-- A block is not live where its sectors are free. -/
theorem not_mem (consistent : Consistent geo w) {start size : Nat} (pos : 0 < size)
    (run : IsRun (bitAt w.pool.space) geo.sectors start (geo.need size)) :
    ⟨geo.chunk * start, size⟩ ∉ w.live := by
  intro mem
  have need_pos := geo.need_pos pos
  have busy := (consistent.marked.space_iff start).mpr ⟨_, List.mem_map_of_mem mem, by
    rw [Block.span, Nat.mul_div_cancel_left _ geo.chunk_pos, ← need_eq]
    exact ⟨Nat.le_refl _, by dsimp only; omega⟩⟩
  rw [run.free start (Nat.le_refl _) (by omega)] at busy
  cases busy

theorem buffer (consistent : Consistent geo w) (buffer : Bytes) :
    Consistent geo ⟨{ w.pool with buffer := buffer }, w.live⟩ :=
  ⟨⟨consistent.sized.head, consistent.sized.space⟩, consistent.aligned, consistent.marked⟩

/-- A live block is given back after its bytes have been copied. -/
theorem move (consistent : Consistent geo w) (small : Small geo) (mem : b ∈ w.live) (size : Int)
    (p : Nat) : Consistent geo ⟨w.pool.move geo b.ptr size p, w.live.erase b⟩ :=
  (consistent.free small mem).buffer _

end Consistent

/-! ### What the calls do -/

theorem staticAlloc_cases (geo : Geometry) (pool : Pool) {size : Int} (pos : 0 < size) :
    ((∀ start, ¬ IsRun (bitAt pool.space) geo.bound start (geo.need size.toNat)) ∧
      staticAlloc geo false size pool = .ok (none, pool)) ∨
    ∃ start, FirstRun (bitAt pool.space) geo.bound start (geo.need size.toNat) ∧
      staticAlloc geo false size pool =
        .ok (some (geo.chunk * start), pool.mark start (geo.need size.toNat)) := by
  have need_pos := geo.need_pos (show 0 < size.toNat by omega)
  rw [staticAlloc_eq pos, bounded_false]
  cases found : findRun (bitAt pool.space) (geo.need size.toNat) geo.bound 0 0 with
  | none => exact .inl ⟨(findRun_eq_none_iff need_pos).mp found, rfl⟩
  | some e =>
      have first := (findRun_some (.start need_pos) found).2.2.2
      rw [Nat.zero_add] at first
      exact .inr ⟨_, first, rfl⟩

theorem staticRealloc_cases (geo : Geometry) (pool : Pool) {size : Int} (ptr : Int)
    (pos : 0 < size) :
    ((∀ start, ¬ IsRun (bitAt pool.space) geo.bound start (geo.need size.toNat)) ∧
      staticRealloc geo false ptr size pool = .ok (none, pool)) ∨
    ∃ start, FirstRun (bitAt pool.space) geo.bound start (geo.need size.toNat) ∧
      staticRealloc geo false ptr size pool = .ok (some (geo.chunk * start),
        (pool.mark start (geo.need size.toNat)).move geo ptr size (geo.chunk * start)) := by
  have need_pos := geo.need_pos (show 0 < size.toNat by omega)
  rw [staticRealloc_eq ptr pos, bounded_false]
  cases found : findRun (bitAt pool.space) (geo.need size.toNat) geo.bound 0 0 with
  | none => exact .inl ⟨(findRun_eq_none_iff need_pos).mp found, rfl⟩
  | some e =>
      have first := (findRun_some (.start need_pos) found).2.2.2
      rw [Nat.zero_add] at first
      exact .inr ⟨_, first, bounded_false _ _⟩

/-- Nothing is allocated for a size that is not positive. -/
theorem staticAlloc_nonpos {pool : Pool} {size : Int} (nonpos : size ≤ 0) :
    staticAlloc geo strict size pool = .ok (none, pool) := by
  rw [staticAlloc, if_pos nonpos]
  rfl

theorem staticRealloc_nonpos {pool : Pool} {ptr size : Int} (nonpos : size ≤ 0) :
    staticRealloc geo strict ptr size pool = .ok (none, pool) := by
  rw [staticRealloc, bind_apply, staticAlloc_nonpos nonpos]
  rfl

/-- One call keeps blocks and bitmaps together. -/
theorem Consistent.step (consistent : Consistent geo w) (whole : 8 ∣ geo.sectors)
    (small : Small geo) (op : Op) :
    ∃ w', w.step geo false op = .ok w' ∧ Consistent geo w' := by
  have keep : Consistent geo ⟨w.pool, w.live⟩ := consistent
  cases op with
  | alloc size =>
      rw [World.step]
      by_cases pos : 0 < size
      · rcases staticAlloc_cases geo w.pool pos with ⟨-, eq⟩ | ⟨start, first, eq⟩
        · rw [eq]
          exact ⟨_, rfl, keep⟩
        · rw [bound_eq small.sectors] at first
          rw [eq]
          exact ⟨_, rfl, consistent.mark whole (by omega) first.run⟩
      · rw [staticAlloc_nonpos (by omega)]
        exact ⟨_, rfl, keep⟩
  | free b =>
      rw [World.step]
      by_cases mem : b ∈ w.live
      · rw [if_pos mem, staticFree_eq, bounded_false]
        have freed := consistent.free small mem
        generalize w.pool.free geo b.ptr = pool' at *
        exact ⟨_, rfl, freed⟩
      · rw [if_neg mem]
        exact ⟨w, rfl, consistent⟩
  | realloc b size =>
      rw [World.step]
      by_cases mem : b ∈ w.live
      · rw [if_pos mem]
        by_cases pos : 0 < size
        · rcases staticRealloc_cases geo w.pool b.ptr pos with
            ⟨-, eq⟩ | ⟨start, first, eq⟩
          · rw [eq]
            exact ⟨_, rfl, keep⟩
          · rw [bound_eq small.sectors] at first
            rw [eq]
            have marked := consistent.mark whole (by omega) first.run
            have other : ⟨geo.chunk * start, size.toNat⟩ ≠ b := by
              rintro rfl
              exact consistent.not_mem (by omega) first.run mem
            have freed := marked.move small (List.mem_cons_of_mem _ mem) size (geo.chunk * start)
            rw [List.erase_cons_tail (by simpa using other)] at freed
            exact ⟨_, rfl, freed⟩
        · rw [staticRealloc_nonpos (by omega)]
          exact ⟨_, rfl, keep⟩
      · rw [if_neg mem]
        exact ⟨w, rfl, consistent⟩
  | maxPiece =>
      rw [World.step, findMaxAlloc_eq, bounded_false]
      exact ⟨_, rfl, keep⟩

theorem Consistent.run (consistent : Consistent geo w) (whole : 8 ∣ geo.sectors) (small : Small geo)
    (ops : List Op) : ∃ w', w.run geo false ops = .ok w' ∧ Consistent geo w' := by
  induction ops generalizing w with
  | nil => exact ⟨w, rfl, consistent⟩
  | cons op ops ih =>
      obtain ⟨w', stepped, consistent'⟩ := consistent.step whole small op
      rw [World.run, stepped]
      exact ih consistent'

end

end AcnSdk.Data
