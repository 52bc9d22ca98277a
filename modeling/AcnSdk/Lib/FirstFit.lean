/-
First fit: the first run of places in a row that are free.

`findRun` goes over the places once and counts how many in a row are free.

* `findRun_some`, `findRun_none` — it finds the first run that is long enough, and one if
  there is any.
* `findStop_le_iff` — how far it looks.
-/

import Mathlib.Data.Finset.Max
import Mathlib.Order.Interval.Finset.Nat

namespace AcnSdk.Lib

variable (used : Nat → Bool)

/-- The `r` places from `start` on lie below `n` and are free. -/
structure IsRun (n start r : Nat) : Prop where
  le : start + r ≤ n
  free : ∀ j, start ≤ j → j < start + r → used j = false

/-- The first such run. -/
structure FirstRun (n start r : Nat) : Prop where
  run : IsRun used n start r
  first : ∀ s < start, ¬ IsRun used n s r

/-- The last place of the first run, when `t` places in front of `i` are free and `left` places
from `i` on are looked at. -/
def findRun (r : Nat) : Nat → Nat → Nat → Option Nat
  | 0, _, _ => none
  | left + 1, i, t =>
      if used i then findRun r left (i + 1) 0
      else if t + 1 = r then some i
      else findRun r left (i + 1) (t + 1)

/-- The place behind the last one that is looked at, if there is one. -/
def findStop (r : Nat) : Nat → Nat → Nat → Nat
  | 0, _, _ => 0
  | left + 1, i, t =>
      max (i + 1) (if used i then findStop r left (i + 1) 0
        else if t + 1 = r then 0
        else findStop r left (i + 1) (t + 1))

variable {used}

theorem IsRun.weaken {n n' start r : Nat} (run : IsRun used n start r) (le : start + r ≤ n') :
    IsRun used n' start r := ⟨le, run.free⟩

theorem IsRun.shorten {n start r r' : Nat} (run : IsRun used n start r) (le : r' ≤ r) :
    IsRun used n start r' := by
  constructor
  · have := run.le
    omega
  · intro j ge lt
    exact run.free j ge (by omega)

/-- What is known before place `i`: the last `t` places are free and no more, and no run is long
enough so far. -/
structure Counted (used : Nat → Bool) (r i t : Nat) : Prop where
  short : t < r
  le : t ≤ i
  free : ∀ j, i - t ≤ j → j < i → used j = false
  maximal : t < i → used (i - t - 1) = true
  none : ∀ s, ¬ IsRun used i s r

theorem Counted.start {r : Nat} (pos : 0 < r) : Counted used r 0 0 := by
  refine ⟨pos, Nat.le_refl 0, ?_, ?_, ?_⟩
  · intro j _ lt
    omega
  · intro lt
    omega
  · intro s run
    have := run.le
    omega

theorem Counted.used_step {r i t : Nat} (counted : Counted used r i t) (busy : used i = true) :
    Counted used r (i + 1) 0 := by
  refine ⟨Nat.lt_of_le_of_lt (Nat.zero_le t) counted.short, Nat.zero_le _, ?_, ?_, ?_⟩
  · intro j ge lt
    omega
  · intro _
    simpa using busy
  · intro s run
    have le := run.le
    have short := counted.short
    by_cases before : s + r ≤ i
    · exact counted.none s (run.weaken before)
    · have := run.free i (by omega) (by omega)
      rw [busy] at this
      cases this

theorem Counted.free_step {r i t : Nat} (counted : Counted used r i t) (free : used i = false)
    (more : t + 1 ≠ r) : Counted used r (i + 1) (t + 1) := by
  have short := counted.short
  have le := counted.le
  refine ⟨by omega, by omega, ?_, ?_, ?_⟩
  · intro j ge lt
    by_cases last : j = i
    · rw [last, free]
    · exact counted.free j (by omega) (by omega)
  · intro lt
    have := counted.maximal (by omega)
    rwa [show i + 1 - (t + 1) - 1 = i - t - 1 by omega]
  · intro s run
    have run_le := run.le
    by_cases before : s + r ≤ i
    · exact counted.none s (run.weaken before)
    · have busy := counted.maximal (by omega)
      rw [run.free _ (by omega) (by omega)] at busy
      cases busy

/-- A run that is found is the first. -/
theorem findRun_some {r left i t e : Nat} (counted : Counted used r i t)
    (found : findRun used r left i t = some e) :
    i ≤ e ∧ r ≤ e + 1 ∧ findStop used r left i t = e + 1 ∧
    FirstRun used (i + left) (e + 1 - r) r := by
  induction left generalizing i t with
  | zero => cases found
  | succ left ih =>
      rw [findRun] at found
      rw [findStop, show i + (left + 1) = i + 1 + left by omega]
      cases state : used i with
      | true =>
          rw [state, if_pos rfl] at found
          obtain ⟨ge, fits, stop, first⟩ := ih (counted.used_step state) found
          rw [if_pos rfl, stop]
          exact ⟨by omega, fits, by omega, first⟩
      | false =>
          rw [state, if_neg (by decide)] at found
          rw [if_neg (by decide)]
          by_cases last : t + 1 = r
          · rw [if_pos last] at found
            obtain rfl : i = e := Option.some.inj found
            have le := counted.le
            rw [if_pos last]
            refine ⟨Nat.le_refl i, by omega, by omega, ⟨by omega, ?_⟩, ?_⟩
            · intro j ge lt
              by_cases same : j = i
              · rw [same, state]
              · exact counted.free j (by omega) (by omega)
            · intro s before run
              exact counted.none s (run.weaken (by omega))
          · rw [if_neg last] at found
            obtain ⟨ge, fits, stop, first⟩ := ih (counted.free_step state last) found
            rw [if_neg last, stop]
            exact ⟨by omega, fits, by omega, first⟩

/-- If none is found, there is none, and all places were looked at. -/
theorem findRun_none {r left i t : Nat} (counted : Counted used r i t)
    (found : findRun used r left i t = none) :
    (findStop used r left i t = if left = 0 then 0 else i + left) ∧
      ∀ s, ¬ IsRun used (i + left) s r := by
  induction left generalizing i t with
  | zero => exact ⟨rfl, counted.none⟩
  | succ left ih =>
      rw [findRun] at found
      rw [findStop, if_neg (Nat.succ_ne_zero left), show i + (left + 1) = i + 1 + left by omega]
      have stops : ∀ {stop}, (stop = if left = 0 then 0 else i + 1 + left) →
          max (i + 1) stop = i + 1 + left := by
        intro stop eq
        split at eq <;> omega
      cases state : used i with
      | true =>
          rw [state, if_pos rfl] at found
          obtain ⟨stop, none⟩ := ih (counted.used_step state) found
          rw [if_pos rfl]
          exact ⟨stops stop, none⟩
      | false =>
          rw [state, if_neg (by decide)] at found
          rw [if_neg (by decide)]
          by_cases last : t + 1 = r
          · rw [if_pos last] at found
            cases found
          · rw [if_neg last] at found
            obtain ⟨stop, none⟩ := ih (counted.free_step state last) found
            rw [if_neg last]
            exact ⟨stops stop, none⟩

/-- A run is found exactly if there is one. -/
theorem findRun_eq_none_iff {r left : Nat} (pos : 0 < r) :
    findRun used r left 0 0 = none ↔ ∀ s, ¬ IsRun used left s r := by
  constructor
  · intro found
    simpa using (findRun_none (.start pos) found).2
  · intro none
    cases found : findRun used r left 0 0 with
    | none => rfl
    | some e => exact absurd (by simpa using (findRun_some (.start pos) found).2.2.2.run) (none _)

/-- Nothing from `n` on is looked at, exactly if that is too far, or a run ends before. -/
theorem findStop_le_iff {r left n : Nat} (pos : 0 < r) :
    findStop used r left 0 0 ≤ n ↔ left ≤ n ∨ ∃ s, IsRun used n s r := by
  cases found : findRun used r left 0 0 with
  | none =>
      obtain ⟨stop, none⟩ := findRun_none (.start pos) found
      rw [Nat.zero_add] at stop none
      rw [stop]
      constructor
      · intro le
        exact .inl (by split at le <;> omega)
      · rintro (le | ⟨s, run⟩)
        · split <;> omega
        · have := run.le
          by_contra more
          refine none s (run.weaken ?_)
          split at more <;> omega
  | some e =>
      obtain ⟨-, fits, stop, first⟩ := findRun_some (.start pos) found
      rw [Nat.zero_add] at first
      have le_left := first.run.le
      rw [stop]
      constructor
      · exact fun le => .inr ⟨e + 1 - r, first.run.weaken (by omega)⟩
      · rintro (le | ⟨s, run⟩)
        · omega
        · have := run.le
          by_contra more
          exact first.first s (by omega) (run.weaken (by omega))

theorem FirstRun.unique {n s s' r : Nat} (first : FirstRun used n s r)
    (first' : FirstRun used n s' r) :
    s = s' := by
  rcases Nat.lt_trichotomy s s' with lt | eq | gt
  · exact absurd first.run (first'.first s lt)
  · exact eq
  · exact absurd first'.run (first.first s' gt)

/-! ### How many are free -/

/-- How many of the `n` places from `i` on are free. -/
def freeCount (used : Nat → Bool) (i n : Nat) : Nat :=
  ((List.range' i n).filter fun j => !used j).length

/-- No place in use lies between two free ones. -/
def Together (used : Nat → Bool) (n : Nat) : Prop :=
  ∀ i j k, i < j → j < k → k < n → used i = false → used k = false → used j = false

theorem freeCount_eq_card (n : Nat) :
    freeCount used 0 n = ((Finset.range n).filter fun j => used j = false).card := by
  rw [freeCount, ← List.range_eq_range', Finset.card_def, Finset.filter_val, Finset.range_val,
    Multiset.range,
    Multiset.filter_coe, Multiset.coe_card]
  simp

/-- All free places are in one run exactly if they are together. -/
theorem exists_run_iff (n : Nat) :
    (∃ s, IsRun used n s (freeCount used 0 n)) ↔ Together used n := by
  rw [freeCount_eq_card]
  generalize free_eq : (Finset.range n).filter (fun j => used j = false) = free
  have mem_free : ∀ j, j ∈ free ↔ j < n ∧ used j = false := by
    intro j
    rw [← free_eq, Finset.mem_filter, Finset.mem_range]
  constructor
  · rintro ⟨s, run⟩ i j k ij jk k_lt free_i free_k
    have le := run.le
    have sub : Finset.Ico s (s + free.card) ⊆ free := by
      intro l mem
      obtain ⟨ge, lt⟩ := Finset.mem_Ico.mp mem
      exact (mem_free l).mpr ⟨by omega, run.free l ge lt⟩
    have all : Finset.Ico s (s + free.card) = free :=
      Finset.eq_of_subset_of_card_le sub (by rw [Nat.card_Ico]; omega)
    have mem_run : ∀ l, l < n → used l = false → s ≤ l ∧ l < s + free.card := by
      intro l lt free_l
      have := (mem_free l).mpr ⟨lt, free_l⟩
      rwa [← all, Finset.mem_Ico] at this
    have first := mem_run i (by omega) free_i
    have last := mem_run k k_lt free_k
    exact run.free j (by omega) (by omega)
  · intro together
    rcases free.eq_empty_or_nonempty with rfl | some
    · refine ⟨0, Nat.zero_le _, ?_⟩
      intro j _ lt
      rw [Finset.card_empty] at lt
      omega
    obtain ⟨first_lt, first_free⟩ := (mem_free _).mp (free.min'_mem some)
    obtain ⟨last_lt, last_free⟩ := (mem_free _).mp (free.max'_mem some)
    have le := free.min'_le _ (free.max'_mem some)
    have interval : free = Finset.Icc (free.min' some) (free.max' some) := by
      ext j
      rw [Finset.mem_Icc]
      constructor
      · exact fun mem => ⟨free.min'_le j mem, free.le_max' j mem⟩
      · rintro ⟨ge, le⟩
        refine (mem_free j).mpr ⟨by omega, ?_⟩
        rcases Nat.eq_or_lt_of_le ge with same | lt
        · rwa [← same]
        rcases Nat.eq_or_lt_of_le le with same | gt
        · rwa [same]
        exact together _ j _ lt gt last_lt first_free last_free
    have count : free.card = free.max' some + 1 - free.min' some := by
      rw [congrArg Finset.card interval, Nat.card_Icc]
    refine ⟨free.min' some, by omega, ?_⟩
    intro j ge lt
    have mem : j ∈ Finset.Icc (free.min' some) (free.max' some) := Finset.mem_Icc.mpr ⟨ge, by omega⟩
    rw [← interval] at mem
    exact ((mem_free j).mp mem).2

end AcnSdk.Lib
