/-
Admission by free space.

`static_max_piece` counts the bytes of all free sectors, wherever they are. The functions of
`src/arrow/events.c` compare it with the size of a message. This is enough for a block of
that size if the free sectors are together.

* `admissionSound_iff` — the exact condition.
-/

import AcnSdk.Data.PoolRun

namespace AcnSdk.Data

open AcnSdk.Lib Prog

section

variable (geo : Geometry) (strict : Bool)

/-- `json_static_memory_max_sector`. -/
def jsonStaticMemoryMaxSector : Prog Pool Int := findMaxAlloc geo strict

/-- Whether the check of `process_http_init` lets a message of that size pass. -/
def httpSizeFits (size : Int) : Prog Pool Bool := do
  return ! decide (size * 1 > (← jsonStaticMemoryMaxSector geo strict) - 512)

/-- Whether the check of `process_event_init` lets a message of that size pass. -/
def eventSizeFits (size : Int) : Prog Pool Bool := do
  return ! decide (size * 2 > (← jsonStaticMemoryMaxSector geo strict) - 1024)

end

section

variable (geo : Geometry) (pool : Pool)

/-- An allocation of that size succeeds. -/
def Succeeds (size : Int) : Prop := ∃ p pool', staticAlloc geo false size pool = .ok (some p, pool')

/-- What is admitted can be allocated. -/
structure AdmissionSound : Prop where
  piece : ∀ m pool', findMaxAlloc geo false pool = .ok (m, pool') →
    ∀ size, 0 < size → size ≤ m → Succeeds geo pool' size
  http : ∀ size pool', 0 < size → httpSizeFits geo false size pool = .ok (true, pool') →
    Succeeds geo pool' size
  event : ∀ size pool', 0 < size → eventSizeFits geo false size pool = .ok (true, pool') →
    Succeeds geo pool' size

/-- The bytes of the free sectors. -/
def freeBytes : Nat := freeCount (bitAt pool.space) 0 geo.bound * geo.chunk

/-- The free sectors are together. Where the number of their bytes does not fit into an `int`, that
many bytes as it is cut to are in one run, or it is cut to no positive number. -/
def FreeTogether : Prop :=
  if freeBytes geo pool < 2 ^ 31 then Together (bitAt pool.space) geo.bound
  else toInt32 (freeBytes geo pool) ≤ 0 ∨ ∃ start,
    IsRun (bitAt pool.space) geo.bound start ((toInt32 (freeBytes geo pool)).toNat ⌈/⌉ geo.chunk)

end

section

variable {geo : Geometry} {pool : Pool}

theorem findMaxAlloc_apply (geo : Geometry) (pool : Pool) :
    findMaxAlloc geo false pool = .ok (toInt32 (freeBytes geo pool), pool) := by
  rw [findMaxAlloc_eq, bounded_false, freeBytes]

theorem succeeds_iff {size : Int} (pos : 0 < size) :
    Succeeds geo pool size ↔
      ∃ start, IsRun (bitAt pool.space) geo.bound start (geo.need size.toNat) := by
  rcases staticAlloc_cases geo pool pos with ⟨no_run, eq⟩ | ⟨start, first, eq⟩
  · rw [Succeeds, eq]
    exact iff_of_false (by rintro ⟨_, _, ⟨⟩⟩) fun ⟨start, run⟩ => no_run start run
  · rw [Succeeds, eq]
    exact iff_of_true ⟨_, _, rfl⟩ ⟨start, first.run⟩

/-- Less can be allocated where more can. -/
theorem Succeeds.mono {size size' : Int} (succeeds : Succeeds geo pool size') (pos : 0 < size)
    (le : size ≤ size') : Succeeds geo pool size := by
  obtain ⟨start, run⟩ := (succeeds_iff (by omega)).mp succeeds
  refine (succeeds_iff pos).mpr ⟨start, run.shorten ?_⟩
  rw [need_eq, need_eq, Nat.ceilDiv_eq_add_pred_div, Nat.ceilDiv_eq_add_pred_div]
  exact Nat.div_le_div_right (by omega)

/-- All that is admitted is at most the free space. -/
theorem admissionSound_iff_succeeds : AdmissionSound geo pool ↔
    toInt32 (freeBytes geo pool) ≤ 0 ∨ Succeeds geo pool (toInt32 (freeBytes geo pool)) := by
  have applied := findMaxAlloc_apply geo pool
  generalize toInt32 (freeBytes geo pool) = m at *
  constructor
  · intro sound
    by_cases pos : 0 < m
    · exact .inr (sound.piece m pool applied m pos (Int.le_refl m))
    · exact .inl (by omega)
  · intro most
    have succeeds : ∀ size, 0 < size → size ≤ m → Succeeds geo pool size :=
      fun size pos le => (most.resolve_left (by omega)).mono pos le
    constructor
    · intro m' pool' eq size pos le
      rw [applied] at eq
      cases eq
      exact succeeds size pos le
    · intro size pool' pos eq
      rw [httpSizeFits, jsonStaticMemoryMaxSector, bind_apply, applied, ok_bind, pure_apply] at eq
      obtain ⟨fits, rfl⟩ := Prod.mk.inj (Except.ok.inj eq)
      rw [Bool.not_eq_true', decide_eq_false_iff_not] at fits
      exact succeeds size pos (by omega)
    · intro size pool' pos eq
      rw [eventSizeFits, jsonStaticMemoryMaxSector, bind_apply, applied, ok_bind, pure_apply] at eq
      obtain ⟨fits, rfl⟩ := Prod.mk.inj (Except.ok.inj eq)
      rw [Bool.not_eq_true', decide_eq_false_iff_not] at fits
      exact succeeds size pos (by omega)

theorem need_mul (geo : Geometry) (n : Nat) : geo.need (n * geo.chunk) = n := by
  rw [Geometry.need, Nat.mul_div_cancel _ geo.chunk_pos, Nat.mul_mod_left, if_neg (by decide),
    Nat.add_zero]

theorem freeTogether_iff : FreeTogether geo pool ↔
    toInt32 (freeBytes geo pool) ≤ 0 ∨ Succeeds geo pool (toInt32 (freeBytes geo pool)) := by
  rw [FreeTogether]
  split
  · next small =>
      have uncut : toInt32 (freeBytes geo pool) = freeBytes geo pool :=
        toInt32_of_lt (by omega) (by omega)
      rw [← exists_run_iff, uncut]
      by_cases pos : 0 < freeBytes geo pool
      · rw [succeeds_iff (by omega), Int.toNat_natCast, or_iff_right (by omega),
          freeBytes, need_mul]
      · have none : freeCount (bitAt pool.space) 0 geo.bound = 0 := by
          rcases Nat.mul_eq_zero.mp (Nat.eq_zero_of_not_pos pos) with zero | zero
          · exact zero
          · exact absurd zero (Nat.ne_of_gt geo.chunk_pos)
        refine iff_of_true ⟨0, ?_⟩ (.inl (by omega))
        rw [none]
        exact ⟨Nat.zero_le _, fun j _ lt => absurd lt (Nat.not_lt_zero j)⟩
  · apply or_congr_right'
    intro pos
    rw [succeeds_iff (by omega), need_eq]

end

/-- Admission is sound in a state exactly if the free sectors are together there. -/
theorem admissionSound_iff (geo : Geometry) (ops : List Op) (w : World)
    (_reached : (World.start geo).run geo false ops = .ok w) :
    AdmissionSound geo w.pool ↔ FreeTogether geo w.pool := by
  rw [admissionSound_iff_succeeds, freeTogether_iff]

/-- Eight sectors, after two were given out and the first one was given back. -/
theorem admissionSound_given_back :
    AdmissionSound ⟨8, 1, by decide, by decide⟩ ⟨[2], [2], List.replicate 8 0⟩ ↔
      FreeTogether ⟨8, 1, by decide, by decide⟩ ⟨[2], [2], List.replicate 8 0⟩ := by
  have reached : (World.start ⟨8, 1, by decide, by decide⟩).run ⟨8, 1, by decide, by decide⟩ false
      [.alloc 1, .alloc 1, .free ⟨0, 1⟩] = .ok ⟨⟨[2], [2], List.replicate 8 0⟩, [⟨1, 1⟩]⟩ := rfl
  exact admissionSound_iff _ _ _ reached

/-- The second of eight sectors is in use, and seven bytes are not in one piece. -/
theorem not_admissionSound_scattered : ¬ ∀ ops w,
    (World.start ⟨8, 1, by decide, by decide⟩).run ⟨8, 1, by decide, by decide⟩ false ops = .ok w →
      AdmissionSound ⟨8, 1, by decide, by decide⟩ w.pool := by
  intro sound
  have reached := sound [.alloc 1, .alloc 1, .free ⟨0, 1⟩]
      ⟨⟨[2], [2], List.replicate 8 0⟩, [⟨1, 1⟩]⟩ rfl
  obtain ⟨p, pool', eq⟩ :=
    reached.piece 7 ⟨[2], [2], List.replicate 8 0⟩ rfl 7 (by decide) (by decide)
  cases eq

end AcnSdk.Data
