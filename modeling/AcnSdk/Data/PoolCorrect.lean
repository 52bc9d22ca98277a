/-
The static pool as an allocator, over whole runs.

A distance in the pool is kept in an `int`. Where the sectors are fewer than 2 ^ 31, and the
last of them is less than 2 ^ 31 bytes from the first, the pool does what an allocator has
to do; a larger pool does not.

* `poolCorrect_iff` — this condition is exact.
-/

import AcnSdk.Data.PoolRun

namespace AcnSdk.Data

open AcnSdk.Lib Prog

/-- What an allocation answers: the first run of free sectors that is long enough, or `NULL` if
there is none. -/
def FirstFit (geo : Geometry) (pool : Pool) (size : Nat) : Option Nat → Prop
  | none => ∀ start, ¬ IsRun (bitAt pool.space) geo.sectors start (size ⌈/⌉ geo.chunk)
  | some p => ∃ start, p = geo.chunk * start ∧
      FirstRun (bitAt pool.space) geo.sectors start (size ⌈/⌉ geo.chunk)

/-- Exactly the bits of a block are cleared. -/
structure Released (geo : Geometry) (b : Block) (pool pool' : Pool) : Prop where
  space : ∀ i, bitAt pool'.space i = true ↔ bitAt pool.space i = true ∧ ¬ (b.span geo).Has i
  head : ∀ i, bitAt pool'.head i = true ↔ bitAt pool.head i = true ∧ i ≠ (b.span geo).start

/-- Calls from the start on lead here. -/
def Reachable (geo : Geometry) (w : World) : Prop :=
  ∃ ops, (World.start geo).run geo false ops = .ok w

/-- The pool works, whatever is called. -/
structure PoolCorrect (geo : Geometry) : Prop where
  runs : ∀ ops, ∃ w, (World.start geo).run geo false ops = .ok w
  consistent : ∀ w, Reachable geo w → Consistent geo w
  alloc : ∀ w, Reachable geo w → ∀ size : Int, 0 < size → ∃ answer pool',
    staticAlloc geo false size w.pool = .ok (answer, pool') ∧ FirstFit geo w.pool size.toNat answer
  realloc : ∀ w, Reachable geo w → ∀ b ∈ w.live, ∀ size : Int, 0 < size → ∃ answer pool',
    staticRealloc geo false b.ptr size w.pool = .ok (answer, pool') ∧
      FirstFit geo w.pool size.toNat answer
  free : ∀ w, Reachable geo w → ∀ b ∈ w.live, ∃ pool',
    staticFree geo false b.ptr w.pool = .ok ((), pool') ∧ Released geo b w.pool pool'
  noHead : ∀ w, Reachable geo w → ∀ ptr < geo.size, bitAt w.pool.head (ptr / geo.chunk) = false →
    staticFree geo false ptr w.pool = .ok ((), w.pool)

section

variable {geo : Geometry} {w : World} {b : Block}

/-! ### Pools of less than 2 GiB -/

theorem alloc_firstFit (small : Small geo) {pool : Pool} {size : Int} (pos : 0 < size) :
    ∃ answer pool', staticAlloc geo false size pool = .ok (answer, pool') ∧
      FirstFit geo pool size.toNat answer := by
  rcases staticAlloc_cases geo pool pos with ⟨no_run, eq⟩ | ⟨start, first, eq⟩
  · rw [bound_eq small.sectors, need_eq] at no_run
    exact ⟨none, pool, eq, no_run⟩
  · rw [bound_eq small.sectors, need_eq] at first
    exact ⟨some (geo.chunk * start), _, eq, start, rfl, first⟩

theorem realloc_firstFit (small : Small geo) {pool : Pool} {size : Int} (ptr : Int)
    (pos : 0 < size) :
    ∃ answer pool', staticRealloc geo false ptr size pool = .ok (answer, pool') ∧
      FirstFit geo pool size.toNat answer := by
  rcases staticRealloc_cases geo pool ptr pos with
    ⟨no_run, eq⟩ | ⟨start, first, eq⟩
  · rw [bound_eq small.sectors, need_eq] at no_run
    exact ⟨none, pool, eq, no_run⟩
  · rw [bound_eq small.sectors, need_eq] at first
    exact ⟨some (geo.chunk * start), _, eq, start, rfl, first⟩

theorem Consistent.released (consistent : Consistent geo w) (small : Small geo) (mem : b ∈ w.live) :
    Released geo b w.pool (w.pool.free geo b.ptr) := by
  rw [consistent.free_eq small mem]
  constructor
  · intro i
    rw [bitAt_clearBits, Bool.and_eq_true, Bool.not_eq_true', decide_eq_false_iff_not, and_comm]
    rfl
  · intro i
    rw [bitAt_clearBit, Bool.and_eq_true, Bool.not_eq_true', decide_eq_false_iff_not, and_comm,
      ne_comm]

/-- A pointer into the pool that is cut is cut to a negative number. -/
theorem cut_neg (whole : 8 ∣ geo.sectors) (some : 0 < geo.sectors) (small : Small geo) {ptr : Nat}
    (inside : ptr < geo.size) (far : 2 ^ 31 ≤ ptr) : toInt32 ptr < 0 := by
  have last := small.last
  have size_lt : geo.size < geo.chunk * (geo.sectors + 1) := Nat.lt_mul_div_succ _ geo.chunk_pos
  obtain ⟨k, eq⟩ := Nat.exists_eq_add_of_le (show 8 ≤ geo.sectors by omega)
  rw [eq, show 8 + k - 1 = 7 + k by omega, Nat.mul_add] at last
  rw [eq, show 8 + k + 1 = 9 + k by omega, Nat.mul_add] at size_lt
  rw [toInt32_of_ge (by omega) (by omega)]
  omega

theorem Consistent.free_noHead (consistent : Consistent geo w) (whole : 8 ∣ geo.sectors)
    (small : Small geo) {ptr : Nat} (inside : ptr < geo.size)
    (no_head : bitAt w.pool.head (ptr / geo.chunk) = false) : w.pool.free geo ptr = w.pool := by
  apply if_neg
  rintro ⟨nonneg, is_head⟩
  obtain ⟨s, mem, -⟩ := (consistent.marked.head_iff _).mp is_head
  have s_le := consistent.marked.le s mem
  have s_pos := consistent.marked.pos s mem
  by_cases far : 2 ^ 31 ≤ ptr
  · have := cut_neg whole (by omega) small inside far
    omega
  · rw [Geometry.sector, toInt32_of_lt (by omega) (by omega), Int.toNat_natCast, no_head] at is_head
    cases is_head

theorem PoolCorrect.of_small (whole : 8 ∣ geo.sectors) (small : Small geo) : PoolCorrect geo := by
  have consistent : ∀ w, Reachable geo w → Consistent geo w := by
    rintro w ⟨ops, reached⟩
    obtain ⟨w', eq, consistent⟩ := (Consistent.start geo).run whole small ops
    rw [eq] at reached
    cases reached
    exact consistent
  constructor
  · intro ops
    obtain ⟨w, eq, -⟩ := (Consistent.start geo).run whole small ops
    exact ⟨w, eq⟩
  · exact consistent
  · exact fun w _ size pos => alloc_firstFit small pos
  · exact fun w _ b _ size pos => realloc_firstFit small b.ptr pos
  · intro w reached b mem
    rw [staticFree_eq, bounded_false]
    exact ⟨_, rfl, (consistent w reached).released small mem⟩
  · intro w reached ptr inside no_head
    rw [staticFree_eq, bounded_false, (consistent w reached).free_noHead whole small inside no_head]

/-! ### Larger pools -/

/-- The first `j` sectors are blocks of one sector, and the others are free. -/
structure Filled (geo : Geometry) (j : Nat) (w : World) : Prop where
  sized : Sized geo w.pool
  space : ∀ i, bitAt w.pool.space i = decide (i < j)
  head : ∀ i, bitAt w.pool.head i = decide (i < j)
  live : ∀ i < j, ⟨geo.chunk * i, 1⟩ ∈ w.live

theorem need_one (geo : Geometry) : geo.need 1 = 1 := by
  rw [need_eq, Nat.ceilDiv_eq_add_pred_div, Nat.add_sub_cancel_left, Nat.div_self geo.chunk_pos]

theorem Filled.start (geo : Geometry) : Filled geo 0 (.start geo) where
  sized := (Consistent.start geo).sized
  space := bitAt_replicate _
  head := bitAt_replicate _
  live := by simp

theorem Filled.alloc {j : Nat} (filled : Filled geo j w) (below : j < geo.bound)
    (covered : j < geo.covered) :
    ∃ w', w.step geo false (.alloc 1) = .ok w' ∧ Filled geo (j + 1) w' := by
  have free : IsRun (bitAt w.pool.space) geo.bound j 1 := by
    refine ⟨below, ?_⟩
    intro i ge lt
    rw [filled.space, decide_eq_false (by omega)]
  have first : ∀ s < j, ¬ IsRun (bitAt w.pool.space) geo.bound s 1 := by
    intro s lt run
    have := run.free s (Nat.le_refl s) (Nat.lt_succ_self s)
    rw [filled.space, decide_eq_true lt] at this
    cases this
  have space_length := filled.sized.space
  have head_length := filled.sized.head
  have next : ∀ i, (decide (j = i) || decide (i < j)) = decide (i < j + 1) := by
    intro i
    rw [← Bool.decide_or]
    exact decide_eq_decide.mpr (by omega)
  rw [World.step]
  rcases staticAlloc_cases geo w.pool (show (0 : Int) < 1 by decide) with
    ⟨no_run, -⟩ | ⟨start, found, eq⟩
  · rw [Int.toNat_one, need_one] at no_run
    exact absurd free (no_run j)
  rw [Int.toNat_one, need_one] at found eq
  obtain rfl := found.unique ⟨free, first⟩
  rw [eq]
  refine ⟨_, rfl, ⟨?_, ?_⟩, ?_, ?_, ?_⟩
  · rw [Pool.mark, length_setBit]
    exact head_length
  · rw [Pool.mark, length_setBits]
    exact space_length
  · intro i
    rw [Pool.mark, setBits, setBits, bitAt_setBit (by omega), filled.space, next]
  · intro i
    rw [Pool.mark, bitAt_setBit (by omega), filled.head, next]
  · intro i lt
    rcases Nat.lt_succ_iff_lt_or_eq.mp lt with lt | rfl
    · exact List.mem_cons_of_mem _ (filled.live i lt)
    · exact List.mem_cons_self

theorem Filled.run {j : Nat} (filled : Filled geo j w) (n : Nat) (below : j + n ≤ geo.bound)
    (covered : j + n ≤ geo.covered) :
    ∃ w', w.run geo false (List.replicate n (.alloc 1)) = .ok w' ∧ Filled geo (j + n) w' := by
  induction n generalizing j w with
  | zero => exact ⟨w, rfl, filled⟩
  | succ n ih =>
      obtain ⟨w', stepped, filled'⟩ := filled.alloc (by omega) (by omega)
      obtain ⟨w'', ran, filled''⟩ := ih filled' (by omega) (by omega)
      rw [show j + 1 + n = j + (n + 1) by omega] at filled''
      refine ⟨w'', ?_, filled''⟩
      rw [List.replicate_succ, World.run, stepped]
      exact ran

/-- Blocks of one sector fill the sectors that are looked at. -/
theorem reachable_filled (whole : 8 ∣ geo.sectors) {j : Nat} (below : j ≤ geo.bound)
    (le : j ≤ geo.sectors) : ∃ w, Reachable geo w ∧ Filled geo j w := by
  rw [← covered_eq whole] at le
  obtain ⟨w, ran, filled⟩ := (Filled.start geo).run j (by omega) (by omega)
  rw [Nat.zero_add] at filled
  exact ⟨w, ⟨_, ran⟩, filled⟩

/-- Where the number of sectors does not fit into an `int`, not all are looked at. -/
theorem PoolCorrect.sectors_lt (whole : 8 ∣ geo.sectors) (correct : PoolCorrect geo) :
    geo.sectors < 2 ^ 31 := by
  by_contra large
  have short : geo.bound < geo.sectors := by
    have := toInt32_lt geo.sectors
    rw [Geometry.bound]
    omega
  obtain ⟨w, reached, filled⟩ := reachable_filled whole (Nat.le_refl _) (Nat.le_of_lt short)
  obtain ⟨answer, pool', eq, fit⟩ := correct.alloc w reached 1 (by decide)
  rcases staticAlloc_cases geo w.pool (show (0 : Int) < 1 by decide) with
    ⟨-, eq'⟩ | ⟨start, first, -⟩
  · rw [eq'] at eq
    cases eq
    have fit : ∀ start, ¬ IsRun (bitAt w.pool.space) geo.sectors start _ := fit
    rw [Int.toNat_one, ← need_eq, need_one] at fit
    apply fit geo.bound
    refine ⟨by omega, ?_⟩
    intro i ge lt
    rw [filled.space, decide_eq_false (by omega)]
  · rw [Int.toNat_one, need_one] at first
    have le := first.run.le
    have free := first.run.free start (Nat.le_refl _) (by omega)
    rw [filled.space, decide_eq_true (by omega)] at free
    cases free

/-- Where the distance of the last sector does not fit into an `int`, its block is not freed. -/
theorem PoolCorrect.last_lt (whole : 8 ∣ geo.sectors) (correct : PoolCorrect geo) :
    geo.chunk * (geo.sectors - 1) < 2 ^ 31 := by
  by_contra far
  have sectors_lt := correct.sectors_lt whole
  have some : 0 < geo.sectors := by
    by_contra none
    rw [show geo.sectors - 1 = 0 by omega] at far
    omega
  obtain ⟨w, reached, filled⟩ := reachable_filled whole (Nat.le_of_eq (bound_eq sectors_lt).symm)
    (Nat.le_refl _)
  obtain ⟨pool', eq, released⟩ :=
    correct.free w reached _ (filled.live (geo.sectors - 1) (by omega))
  have gone := released.head (geo.sectors - 1)
  have span_start : (Block.span geo ⟨geo.chunk * (geo.sectors - 1), 1⟩).start = geo.sectors - 1 :=
    Nat.mul_div_cancel_left _ geo.chunk_pos
  rw [staticFree_eq, bounded_false] at eq
  obtain ⟨-, rfl⟩ := Prod.mk.inj (Except.ok.inj eq)
  have cut_lt := toInt32_lt (geo.chunk * (geo.sectors - 1) : Nat)
  have other : geo.sector (geo.chunk * (geo.sectors - 1) : Nat) < geo.sectors - 1 := by
    apply Nat.div_lt_of_lt_mul
    omega
  have kept : bitAt (w.pool.free geo (geo.chunk * (geo.sectors - 1) : Nat)).head (geo.sectors - 1) =
      true := by
    rw [Pool.free]
    split
    · rw [bitAt_clearBit, decide_eq_false (by omega), filled.head]
      exact decide_eq_true (by omega)
    · rw [filled.head]
      exact decide_eq_true (by omega)
  exact (gone.mp kept).2 span_start.symm

end

/-- The pool is a correct allocator exactly if its numbers fit into an `int`. -/
theorem poolCorrect_iff (geo : Geometry) (whole : 8 ∣ geo.sectors) :
    PoolCorrect geo ↔ geo.sectors < 2 ^ 31 ∧ geo.chunk * (geo.sectors - 1) < 2 ^ 31 := by
  constructor
  · exact fun correct => ⟨correct.sectors_lt whole, correct.last_lt whole⟩
  · exact fun small => .of_small whole ⟨small.1, small.2⟩

/-- Eight sectors of one byte. -/
theorem poolCorrect_eight :
    PoolCorrect ⟨8, 1, by decide, by decide⟩ ↔
      Geometry.sectors ⟨8, 1, by decide, by decide⟩ < 2 ^ 31 ∧
        1 * (Geometry.sectors ⟨8, 1, by decide, by decide⟩ - 1) < 2 ^ 31 :=
  poolCorrect_iff ⟨8, 1, by decide, by decide⟩ (by decide)

/-- Eight sectors of 512 MiB. -/
theorem not_poolCorrect_large : ¬ PoolCorrect ⟨2 ^ 32, 2 ^ 29, by decide, by decide⟩ :=
  fun correct => absurd (correct.last_lt (by decide)) (by decide)

end AcnSdk.Data
