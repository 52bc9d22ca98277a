/-
Which bits the pool looks at, over whole runs.

Each bitmap has a bit for the first `8 * (sectors / 8)` sectors only. A scan over all
sectors leaves the bitmaps if there are more. The walk over a block looks at the sector
behind it too: that one has to have a bit as well.

* `bitsInBounds_iff` — the exact condition on the calls of a run.
* `freeFits_iff` — for a live block, the condition is that it does not end where the
  bitmaps end.
-/

import AcnSdk.Data.PoolRun

namespace AcnSdk.Data

open AcnSdk.Lib Prog

/-- No bit outside the bitmaps is looked at in these calls. -/
def BitsInBounds (geo : Geometry) (ops : List Op) : Prop :=
  (World.start geo).run geo true ops ≠ .error .overflow

/-! ### The condition -/

/-- The search is over sectors with bits, or ends there since enough of them are free. -/
def AllocFits (geo : Geometry) (pool : Pool) (size : Int) : Prop :=
  size ≤ 0 ∨ geo.bound ≤ geo.covered ∨
    ∃ start, IsRun (bitAt pool.space) geo.covered start (geo.need size.toNat)

/-- The sector of the pointer has a bit. If it is the first of a block, then so has some sector
behind it that is free or the first of another block. -/
def FreeFits (geo : Geometry) (pool : Pool) (ptr : Int) : Prop :=
  0 ≤ toInt32 ptr → geo.sector ptr < geo.covered ∧
    (bitAt pool.head (geo.sector ptr) = true → ∃ e, geo.sector ptr ≤ e ∧ e < geo.covered ∧
      (geo.sector ptr ≠ e ∧ bitAt pool.head e = true ∨ bitAt pool.space e = false))

/-- The condition on one call. Where a block is moved, the new one is there already when the old
one is freed. -/
def Fits (geo : Geometry) (w : World) : Op → Prop
  | .alloc size => AllocFits geo w.pool size
  | .free b => b ∈ w.live → FreeFits geo w.pool b.ptr
  | .realloc b size => b ∈ w.live → AllocFits geo w.pool size ∧
      ∀ start, 0 < size → FirstRun (bitAt w.pool.space) geo.bound start (geo.need size.toNat) →
        FreeFits geo (w.pool.mark start (geo.need size.toNat)) b.ptr
  | .maxPiece => geo.bound ≤ geo.covered

/-- The condition on the calls of a run, each in the state that it meets. -/
def AllFit (geo : Geometry) : World → List Op → Prop
  | _, [] => True
  | w, op :: ops => Fits geo w op ∧ ∀ w', w.step geo false op = .ok w' → AllFit geo w' ops

/-! ### One call -/

/-- With all bits inside, both ways to run agree; else the strict one is a fault. -/
structure Checked {γ : Type} (fits : Prop) (strictly laxly : Except Fault γ) : Prop where
  same : fits → strictly = laxly
  fault : ¬ fits → strictly = .error .overflow

section

variable {geo : Geometry} {pool : Pool} {w : World} {β γ : Type}

theorem Checked.congr {fits fits' : Prop} {x y : Except Fault γ} (checked : Checked fits x y)
    (iff : fits ↔ fits') : Checked fits' x y := by rwa [← iff]

theorem Checked.map {fits : Prop} {x y : Except Fault β} (checked : Checked fits x y) (f : β → γ) :
    Checked fits (x.map f) (y.map f) where
  same := fun fit => by rw [checked.same fit]
  fault := by
    intro beyond
    rw [checked.fault beyond]
    rfl

theorem Checked.refl (x : Except Fault γ) : Checked True x x :=
  ⟨fun _ => rfl, fun h => absurd trivial h⟩

theorem Checked.bounded (stop : Nat) {fits : Prop} {x y : Except Fault (β × Pool)}
    (checked : Checked fits x y) :
    Checked (stop ≤ geo.covered ∧ fits) (bounded geo true stop x) (bounded geo false stop y) where
  same := by
    rintro ⟨inside, fit⟩
    rw [bounded_ok inside, bounded_false, checked.same fit]
  fault := by
    intro beyond
    by_cases inside : stop ≤ geo.covered
    · rw [bounded_ok inside]
      exact checked.fault fun fit => beyond ⟨inside, fit⟩
    · exact if_pos ⟨rfl, Nat.not_le.mp inside⟩

theorem findStop_fits {size : Int} (pos : 0 < size) :
    findStop (bitAt pool.space) (geo.need size.toNat) geo.bound 0 0 ≤ geo.covered ↔
      AllocFits geo pool size := by
  rw [findStop_le_iff (geo.need_pos (by omega)), AllocFits, or_iff_right (Int.not_le.mpr pos)]

theorem reach_le_iff (ptr : Int) : pool.reach geo ptr ≤ geo.covered ↔ FreeFits geo pool ptr := by
  rw [Pool.reach, FreeFits]
  by_cases negative : toInt32 ptr < 0
  · rw [if_pos negative]
    exact iff_of_true (Nat.zero_le _) fun nonneg => absurd negative (Int.not_lt.mpr nonneg)
  rw [if_neg negative, forall_prop_of_true (by omega)]
  cases head_eq : bitAt pool.head (geo.sector ptr) with
  | false =>
      simp only [Bool.false_eq_true, ↓reduceIte, ne_eq, IsEmpty.forall_iff, and_true]
      exact Nat.succ_le_iff
  | true =>
      have spec := pool.blockEnd_spec geo ptr
      have le := spec.le
      rw [if_pos rfl, forall_prop_of_true rfl]
      constructor
      · intro inside
        refine ⟨by omega, pool.blockEnd geo ptr, le, inside, ?_⟩
        rcases spec.ends with is_head | free
        · rw [bitAt_clearBit, Bool.and_eq_true, Bool.not_eq_true',
            decide_eq_false_iff_not] at is_head
          exact .inl is_head
        · exact .inr free
      · rintro ⟨-, e, ge, inside, ends⟩
        by_contra far
        obtain ⟨no_head, busy⟩ := spec.inner e ge (by omega)
        rcases ends with ⟨other, is_head⟩ | free
        · rw [bitAt_clearBit, decide_eq_false other, is_head] at no_head
          cases no_head
        · rw [busy] at free
          cases free

theorem staticAlloc_checked (size : Int) :
    Checked (AllocFits geo pool size) (staticAlloc geo true size pool)
      (staticAlloc geo false size pool) := by
  by_cases pos : 0 < size
  · rw [staticAlloc_eq pos, staticAlloc_eq pos]
    exact (Checked.refl _).bounded _ |>.congr (by rw [and_true, findStop_fits pos])
  · rw [staticAlloc_nonpos (by omega), staticAlloc_nonpos (by omega)]
    exact (Checked.refl _).congr (iff_of_true trivial (.inl (by omega)))

theorem staticFree_checked (ptr : Int) :
    Checked (FreeFits geo pool ptr) (staticFree geo true ptr pool)
      (staticFree geo false ptr pool) := by
  rw [staticFree_eq, staticFree_eq]
  exact (Checked.refl _).bounded _ |>.congr (by rw [and_true, reach_le_iff])

theorem staticRealloc_checked (ptr size : Int) :
    Checked (AllocFits geo pool size ∧ ∀ start, 0 < size →
        FirstRun (bitAt pool.space) geo.bound start (geo.need size.toNat) →
          FreeFits geo (pool.mark start (geo.need size.toNat)) ptr)
      (staticRealloc geo true ptr size pool) (staticRealloc geo false ptr size pool) := by
  by_cases pos : 0 < size
  · have need_pos := geo.need_pos (show 0 < size.toNat by omega)
    rw [staticRealloc_eq ptr pos, staticRealloc_eq ptr pos, ← findStop_fits pos]
    cases found : findRun (bitAt pool.space) (geo.need size.toNat) geo.bound 0 0 with
    | none =>
        refine (Checked.refl _).bounded _ |>.congr (and_congr_right fun _ => iff_of_true trivial ?_)
        intro start _ first
        exact absurd first.run ((findRun_eq_none_iff need_pos).mp found start)
    | some e =>
        have first := (findRun_some (.start need_pos) found).2.2.2
        rw [Nat.zero_add] at first
        refine ((Checked.refl _).bounded _).bounded _ |>.congr (and_congr_right fun _ => ?_)
        rw [and_true, reach_le_iff]
        constructor
        · intro fits start _ first'
          rwa [first'.unique first]
        · exact fun fits => fits _ pos first
  · rw [staticRealloc_nonpos (by omega), staticRealloc_nonpos (by omega)]
    exact (Checked.refl _).congr (iff_of_true trivial ⟨.inl (by omega), fun _ h => absurd h pos⟩)

theorem findMaxAlloc_checked :
    Checked (geo.bound ≤ geo.covered) (findMaxAlloc geo true pool)
      (findMaxAlloc geo false pool) := by
  rw [findMaxAlloc_eq, findMaxAlloc_eq]
  exact (Checked.refl _).bounded _ |>.congr (by rw [and_true])

theorem World.step_checked (geo : Geometry) (w : World) (op : Op) :
    Checked (Fits geo w op) (w.step geo true op) (w.step geo false op) := by
  have skip : ∀ {b : Block} {fits : Prop}, b ∉ w.live →
      Checked (b ∈ w.live → fits) (.ok w : Except Fault World) (.ok w) :=
    fun absent => (Checked.refl _).congr (iff_of_true trivial fun mem => absurd mem absent)
  cases op with
  | alloc size =>
      rw [World.step, World.step, Fits]
      exact (staticAlloc_checked size).map _
  | free b =>
      rw [World.step, World.step, Fits]
      by_cases mem : b ∈ w.live
      · rw [if_pos mem, if_pos mem, forall_prop_of_true mem]
        exact (staticFree_checked _).map _
      · rw [if_neg mem, if_neg mem]
        exact skip mem
  | realloc b size =>
      rw [World.step, World.step, Fits]
      by_cases mem : b ∈ w.live
      · rw [if_pos mem, if_pos mem, forall_prop_of_true mem]
        exact (staticRealloc_checked _ _).map _
      · rw [if_neg mem, if_neg mem]
        exact skip mem
  | maxPiece =>
      rw [World.step, World.step, Fits]
      exact findMaxAlloc_checked.map _

/-! ### Runs -/

/-- Nothing else goes wrong. -/
theorem World.step_ok (geo : Geometry) (w : World) (op : Op) :
    ∃ w', w.step geo false op = .ok w' := by
  cases op with
  | alloc size =>
      rw [World.step]
      by_cases pos : 0 < size
      · rcases staticAlloc_cases geo w.pool pos with ⟨-, eq⟩ | ⟨_, -, eq⟩
        all_goals
          rw [eq]
          exact ⟨_, rfl⟩
      · rw [staticAlloc_nonpos (by omega)]
        exact ⟨_, rfl⟩
  | free b =>
      rw [World.step, staticFree_eq, bounded_false]
      generalize w.pool.free geo b.ptr = pool
      by_cases mem : b ∈ w.live
      · rw [if_pos mem]
        exact ⟨_, rfl⟩
      · rw [if_neg mem]
        exact ⟨w, rfl⟩
  | realloc b size =>
      rw [World.step]
      by_cases mem : b ∈ w.live
      · rw [if_pos mem]
        by_cases pos : 0 < size
        · rcases staticRealloc_cases geo w.pool b.ptr pos with
            ⟨-, eq⟩ | ⟨_, -, eq⟩
          all_goals
            rw [eq]
            exact ⟨_, rfl⟩
        · rw [staticRealloc_nonpos (by omega)]
          exact ⟨_, rfl⟩
      · rw [if_neg mem]
        exact ⟨w, rfl⟩
  | maxPiece =>
      rw [World.step, findMaxAlloc_eq, bounded_false]
      exact ⟨_, rfl⟩

theorem World.run_iff (w : World) (ops : List Op) :
    w.run geo true ops ≠ .error .overflow ↔ AllFit geo w ops := by
  induction ops generalizing w with
  | nil => exact iff_of_true (by rintro ⟨⟩) trivial
  | cons op ops ih =>
      have checked := w.step_checked geo op
      obtain ⟨w', stepped⟩ := w.step_ok geo op
      rw [World.run, AllFit]
      by_cases fits : Fits geo w op
      · rw [checked.same fits, stepped, ok_bind, ih, and_iff_right fits]
        constructor
        · rintro rest _ ⟨⟩
          exact rest
        · exact fun rest => rest w' rfl
      · rw [checked.fault fits, error_bind]
        exact iff_of_false (fun ne => ne rfl) fun all => fits all.1

/-- A live block that ends before the bitmaps do. -/
theorem Consistent.freeFits_iff (consistent : Consistent geo w) (small : Small geo) {b : Block}
    (mem : b ∈ w.live) :
    FreeFits geo w.pool b.ptr ↔ (b.span geo).start + (b.span geo).len < geo.covered := by
  obtain ⟨uncut, sector⟩ := consistent.sector_eq small mem
  have is_head := (consistent.marked.head_iff _).mpr ⟨_, List.mem_map_of_mem mem, rfl⟩
  rw [← reach_le_iff, Pool.reach, if_neg (by omega), sector, if_pos is_head,
    consistent.blockEnd_eq small mem, Nat.succ_le_iff]

end

/-- Every bit that is looked at is inside the bitmaps, exactly if the condition holds of each
call. -/
theorem bitsInBounds_iff (geo : Geometry) (ops : List Op) :
    BitsInBounds geo ops ↔ AllFit geo (.start geo) ops :=
  World.run_iff _ ops

/-- A block of all eight sectors. -/
theorem not_bitsInBounds_full :
    ¬ BitsInBounds ⟨8, 1, by decide, by decide⟩ [.alloc 8, .free ⟨0, 8⟩] :=
  fun inside => inside rfl

end AcnSdk.Data
