/-
What becomes of the contents of a pool when a block is made larger or smaller.

Callers write to their blocks, so the bytes of a reachable pool are arbitrary. The sectors of
the old block are counted when those of the new one are marked already, and still the old
block is told from the new one where they touch.

* `staticRealloc_moves` — a block is moved with its bytes, or nothing happens.
-/

import AcnSdk.Data.PoolCorrect

namespace AcnSdk.Data

open AcnSdk.Lib Prog

/-- Calls lead here, and callers wrote to the buffer. -/
structure ReachableWritten (geo : Geometry) (w : World) : Prop where
  length_eq : w.pool.buffer.length = geo.size
  reachable : ∃ buffer, Reachable geo ⟨{ w.pool with buffer := buffer }, w.live⟩

namespace Block

/-- How many bytes the sectors of a block have. -/
def capacity (geo : Geometry) (b : Block) : Nat := geo.chunk * (b.span geo).len

/-- The bytes of a block. -/
def bytes (geo : Geometry) (b : Block) (pool : Pool) : Bytes :=
  (pool.buffer.drop b.ptr).take (b.capacity geo)

/-- Two blocks have no byte in common. -/
def Apart (geo : Geometry) (b c : Block) : Prop :=
  b.ptr + b.capacity geo ≤ c.ptr ∨ c.ptr + c.capacity geo ≤ b.ptr

end Block

/-- The block `b` has become the block `new`. -/
structure Reallocated (geo : Geometry) (w : World) (b new : Block) (pool' : Pool) : Prop where
  inside : new.ptr + new.capacity geo ≤ geo.size
  apart : ∀ c ∈ w.live, new.Apart geo c
  copied : (new.bytes geo pool').take (min (b.capacity geo) new.size) =
    (b.bytes geo w.pool).take (min (b.capacity geo) new.size)
  kept : ∀ c ∈ w.live.erase b, c.bytes geo pool' = c.bytes geo w.pool
  released : ∀ i, (b.span geo).Has i → bitAt pool'.space i = false ∧ bitAt pool'.head i = false
  consistent : Consistent geo ⟨pool', new :: w.live.erase b⟩

section

variable {geo : Geometry} {w : World} {b c : Block}

namespace Consistent

theorem ptr_eq (consistent : Consistent geo w) (mem : b ∈ w.live) :
    b.ptr = geo.chunk * (b.span geo).start := by
  obtain ⟨start, ptr_eq⟩ := consistent.aligned b mem
  rw [Block.span, ptr_eq, Nat.mul_div_cancel_left _ geo.chunk_pos]

/-- Behind the last byte of a block. -/
theorem ptr_add_capacity (consistent : Consistent geo w) (mem : b ∈ w.live) :
    b.ptr + b.capacity geo = geo.chunk * ((b.span geo).start + (b.span geo).len) := by
  rw [Block.capacity, consistent.ptr_eq mem, Nat.mul_add]

theorem inside (consistent : Consistent geo w) (mem : b ∈ w.live) :
    b.ptr + b.capacity geo ≤ geo.chunk * geo.sectors := by
  rw [consistent.ptr_add_capacity mem]
  exact Nat.mul_le_mul_left _ (consistent.marked.le _ (List.mem_map_of_mem mem))

/-- Blocks with no sector in common have no byte in common. -/
theorem blocks_apart (consistent : Consistent geo w) (mem : b ∈ w.live) (mem' : c ∈ w.live)
    (apart : (b.span geo).Apart (c.span geo)) : b.Apart geo c := by
  have pos := consistent.marked.pos _ (List.mem_map_of_mem mem)
  have pos' := consistent.marked.pos _ (List.mem_map_of_mem mem')
  rw [Block.Apart, consistent.ptr_add_capacity mem, consistent.ptr_add_capacity mem',
    consistent.ptr_eq mem, consistent.ptr_eq mem']
  by_cases before : (b.span geo).start + (b.span geo).len ≤ (c.span geo).start
  · exact .inl (Nat.mul_le_mul_left _ before)
  · refine .inr (Nat.mul_le_mul_left _ ?_)
    by_contra behind
    -- the later one of the two first sectors is in both
    rcases Nat.le_total (b.span geo).start (c.span geo).start with le | le
    · exact apart (c.span geo).start ⟨⟨le, by omega⟩, Nat.le_refl _, by omega⟩
    · exact apart (b.span geo).start ⟨⟨Nat.le_refl _, by omega⟩, le, by omega⟩

end Consistent

/-- The numbers of a pool of less than 2 GiB with less than 2 ^ 16 sectors. -/
structure Countable (geo : Geometry) : Prop where
  whole : 8 ∣ geo.sectors
  sectors : geo.sectors < 65536
  size : geo.size < 2 ^ 31

theorem Countable.small (countable : Countable geo) : Small geo := by
  have le : geo.chunk * geo.sectors ≤ geo.size := Nat.mul_div_le _ _
  have size := countable.size
  constructor
  · exact Nat.lt_trans countable.sectors (by decide)
  · exact Nat.lt_of_le_of_lt (Nat.mul_le_mul_left _ (Nat.sub_le _ 1)) (Nat.lt_of_le_of_lt le size)

/-- What is copied is as long as the shorter block. -/
theorem Consistent.copySize_eq (consistent : Consistent geo w) (countable : Countable geo)
    (mem : b ∈ w.live) {size : Int} (pos : 0 < size) :
    w.pool.copySize geo b.ptr size = min (b.capacity geo) size.toNat := by
  have small := countable.small
  obtain ⟨uncut, sector⟩ := consistent.sector_eq small mem
  have span_pos := consistent.marked.pos _ (List.mem_map_of_mem mem)
  have span_le := consistent.marked.le _ (List.mem_map_of_mem mem)
  have is_head : bitAt w.pool.head (b.span geo).start = true :=
    (consistent.marked.head_iff _).mpr ⟨_, List.mem_map_of_mem mem, rfl⟩
  have few := countable.sectors
  have counted : w.pool.blockSize geo b.ptr = (b.span geo).len := by
    rw [Pool.blockSize, consistent.blockEnd_eq small mem, sector, if_pos ⟨by omega, is_head⟩,
      Nat.add_sub_cancel_left]
    exact Nat.mod_eq_of_lt (by omega)
  have int := countable.size
  have room : geo.chunk * geo.sectors ≤ geo.size := Nat.mul_div_le _ _
  have capacity_le := consistent.inside mem
  have chunk_le : geo.chunk * 1 ≤ geo.chunk * geo.sectors := Nat.mul_le_mul_left _ (by omega)
  have chunk_eq : toInt32 geo.chunk = geo.chunk := toInt32_of_lt (by omega) (by omega)
  have bytes_eq : (geo.chunk : Int) * (b.span geo).len = b.capacity geo := by
    rw [Block.capacity, Nat.cast_mul]
  rw [Pool.copySize, counted, chunk_eq, bytes_eq]
  split_ifs with less <;> omega

theorem ReachableWritten.consistent (reached : ReachableWritten geo w) (countable : Countable geo) :
    Consistent geo w := by
  obtain ⟨buffer, reachable⟩ := reached.reachable
  have consistent := (PoolCorrect.of_small countable.whole countable.small).consistent _ reachable
  exact consistent.buffer w.pool.buffer

/-- A block that is marked beside the others, and to which the bytes of one of them are moved. -/
theorem Consistent.reallocated (consistent : Consistent geo w) (countable : Countable geo)
    (length_eq : w.pool.buffer.length = geo.size) (mem : b ∈ w.live) {size : Int} (pos : 0 < size)
    {start : Nat} (run : IsRun (bitAt w.pool.space) geo.sectors start (geo.need size.toNat)) :
    Reallocated geo w b ⟨geo.chunk * start, size.toNat⟩
      ((w.pool.mark start (geo.need size.toNat)).move geo b.ptr size (geo.chunk * start)) := by
  have size_pos : 0 < size.toNat := by omega
  have small := countable.small
  obtain ⟨new, new_eq⟩ : ∃ new : Block, new = ⟨geo.chunk * start, size.toNat⟩ := ⟨_, rfl⟩
  have marked : Consistent geo ⟨w.pool.mark start (geo.need size.toNat), new :: w.live⟩ :=
    new_eq ▸ consistent.mark countable.whole size_pos run
  have fresh : new ∉ w.live := new_eq ▸ consistent.not_mem size_pos run
  have ptr_eq : new.ptr = geo.chunk * start := by rw [new_eq]
  have new_size : new.size = size.toNat := by rw [new_eq]
  rw [← new_eq, ← ptr_eq]
  generalize pool_eq : w.pool.mark start (geo.need size.toNat) = pool at *
  have buffer_eq : pool.buffer = w.pool.buffer := by rw [← pool_eq]; rfl
  have mem' : b ∈ new :: w.live := List.mem_cons_of_mem _ mem
  have copied := marked.copySize_eq countable mem' pos
  have others := (List.pairwise_map.mp marked.marked.apart)
  obtain ⟨apart, -⟩ := List.pairwise_cons.mp others
  have apart_new : ∀ c ∈ w.live, new.Apart geo c := fun c mem_c =>
    marked.blocks_apart List.mem_cons_self (List.mem_cons_of_mem _ mem_c) (apart c mem_c)
  have room : geo.chunk * geo.sectors ≤ geo.size := Nat.mul_div_le _ _
  have new_inside := marked.inside List.mem_cons_self
  have old_inside := marked.inside mem'
  have fits_new : new.size ≤ new.capacity geo := by
    rw [Block.capacity, Block.span]
    exact le_smul_ceilDiv geo.chunk_pos
  have fits : new.ptr + min (b.capacity geo) new.size ≤ w.pool.buffer.length := by
    rw [length_eq]
    omega
  have other : new ≠ b := fun same => fresh (same ▸ mem)
  have freed := marked.move small mem' size new.ptr
  rw [List.erase_cons_tail (by simpa using other)] at freed
  -- the bytes that are stored in the new block
  obtain ⟨front, front_eq⟩ : ∃ front, front = (w.pool.buffer.drop b.ptr).take
      (min (b.capacity geo) new.size) := ⟨_, rfl⟩
  have front_length : front.length = min (b.capacity geo) new.size := by
    rw [front_eq, List.length_take, List.length_drop, length_eq]
    omega
  have stored : (pool.move geo b.ptr size new.ptr).buffer = store w.pool.buffer new.ptr front := by
    rw [Pool.move, copied, buffer_eq, front_eq, new_size, Int.toNat_natCast]
  rw [← front_length] at fits
  refine ⟨by omega, apart_new, ?_, ?_, ?_, freed⟩
  · rw [Block.bytes, Block.bytes, List.take_take, List.take_take, stored, ← front_length,
      Nat.min_eq_left (by omega), Nat.min_eq_left (by omega), take_drop_store (by omega),
      front_length]
    exact front_eq
  · intro c mem_c
    have beside := apart_new c (List.mem_of_mem_erase mem_c)
    rw [Block.Apart] at beside
    rw [Block.bytes, Block.bytes, stored]
    apply take_drop_store_of_apart fits
    omega
  · intro i has
    have spans := freed.marked
    have front := marked.marked.perm ((List.perm_cons_erase mem').map (Block.span geo))
    rw [List.erase_cons_tail (by simpa using other)] at front
    obtain ⟨alone, -⟩ := List.pairwise_cons.mp front.apart
    constructor
    · by_contra busy
      obtain ⟨s, mem_s, has'⟩ := (spans.space_iff i).mp (Bool.not_eq_false _ ▸ busy)
      exact alone s mem_s i ⟨has, has'⟩
    · by_contra is_head
      obtain ⟨s, mem_s, starts⟩ := (spans.head_iff i).mp (Bool.not_eq_false _ ▸ is_head)
      have s_pos := spans.pos s mem_s
      exact alone s mem_s i ⟨has, by omega, by omega⟩

end

/-- `__static_realloc` of a live block, with whatever callers have written. It returns a new block
that the old one was moved to, or `NULL` without any change: the old block is still live. -/
theorem staticRealloc_moves (geo : Geometry) (countable : Countable geo) {w : World}
    (reached : ReachableWritten geo w) {b : Block} (mem : b ∈ w.live) {size : Int}
    (pos : 0 < size) :
    (staticRealloc geo false b.ptr size w.pool = .ok (none, w.pool) ∧
      w.step geo false (.realloc b size) = .ok w) ∨
    ∃ p pool', staticRealloc geo false b.ptr size w.pool = .ok (some p, pool') ∧
      w.step geo false (.realloc b size) = .ok ⟨pool', ⟨p, size.toNat⟩ :: w.live.erase b⟩ ∧
      Reallocated geo w b ⟨p, size.toNat⟩ pool' := by
  have small := countable.small
  rw [World.step, if_pos mem]
  rcases staticRealloc_cases geo w.pool b.ptr pos with ⟨-, eq⟩ | ⟨start, first, eq⟩
  · rw [eq]
    exact .inl ⟨rfl, rfl⟩
  · rw [bound_eq small.sectors] at first
    rw [eq]
    exact .inr ⟨_, _, rfl, rfl,
      (reached.consistent countable).reallocated countable reached.length_eq mem pos first.run⟩

/-- Eight sectors of one byte. -/
def eightBytes : Geometry := ⟨8, 1, by decide, by decide⟩

/-- The block in the first of them. -/
def oneByte : Block := ⟨0, 1⟩

/-- The pool with no other block. -/
def oneBlock : World := ⟨⟨[1], [1], [7, 0, 0, 0, 0, 0, 0, 0]⟩, [oneByte]⟩

theorem oneBlock_reached : ReachableWritten eightBytes oneBlock :=
  ⟨rfl, List.replicate 8 0, [.alloc 1], by decide⟩

/-- It is made larger. -/
theorem staticRealloc_moves_one :
    (staticRealloc eightBytes false oneByte.ptr 3 oneBlock.pool = .ok (none, oneBlock.pool) ∧
      oneBlock.step eightBytes false (.realloc oneByte 3) = .ok oneBlock) ∨
    ∃ p pool', staticRealloc eightBytes false oneByte.ptr 3 oneBlock.pool = .ok (some p, pool') ∧
      oneBlock.step eightBytes false (.realloc oneByte 3) =
        .ok ⟨pool', ⟨p, Int.toNat 3⟩ :: oneBlock.live.erase oneByte⟩ ∧
      Reallocated eightBytes oneBlock oneByte ⟨p, Int.toNat 3⟩ pool' :=
  staticRealloc_moves eightBytes ⟨by decide, by decide, by decide⟩ oneBlock_reached
    (by decide) (by decide)

end AcnSdk.Data
