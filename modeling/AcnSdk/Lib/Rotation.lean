/-
Exchange of two neighbouring blocks in place, cycle by cycle.

A block of `a` items and one of `b` items stand side by side. Each item goes to `nextPos` of
its place; an item that is pushed out goes on from there, until the first place is reached
again. The cycles are the residue classes modulo `gcd (a + b) b`.

* `Hopped`, `Turned` — what is in place after some steps of a cycle, and after some cycles.
* `Turned.eq_swap` — all cycles together exchange the blocks.
-/

import Mathlib.Data.Int.GCD
import Mathlib.Data.Nat.ModEq
import Mathlib.Data.List.Basic
import Mathlib.Tactic.Common
import Mathlib.Tactic.Ring

namespace AcnSdk.Lib

/-- Where the item at `x` belongs. -/
def nextPos (a b x : Nat) : Nat := if x < a then b + x else x - a

/-- The place after `j` steps from `s` on. -/
def placeAfter (a b s j : Nat) : Nat := (s + j * b) % (a + b)

/-- How long a cycle is. -/
def period (a b : Nat) : Nat := (a + b) / (a + b).gcd b

section

variable {a b s i j x : Nat}

theorem nextPos_eq (lt : x < a + b) : nextPos a b x = (x + b) % (a + b) := by
  rw [nextPos]
  split
  · rw [Nat.mod_eq_of_lt (by omega), Nat.add_comm]
  · rw [show x + b = x - a + (a + b) by omega, Nat.add_mod_right, Nat.mod_eq_of_lt (by omega)]

theorem placeAfter_zero (lt : s < a + b) : placeAfter a b s 0 = s := by
  rw [placeAfter, Nat.zero_mul, Nat.add_zero, Nat.mod_eq_of_lt lt]

theorem placeAfter_lt (pos : 0 < a + b) : placeAfter a b s j < a + b := Nat.mod_lt _ pos

theorem nextPos_placeAfter (pos : 0 < a + b) :
    nextPos a b (placeAfter a b s j) = placeAfter a b s (j + 1) := by
  rw [nextPos_eq (placeAfter_lt pos), placeAfter, placeAfter, Nat.mod_add_mod, Nat.succ_mul,
    Nat.add_assoc]

theorem gcd_pos (pos : 0 < a + b) : 0 < (a + b).gcd b := Nat.gcd_pos_of_pos_left _ pos

theorem gcd_mul_period : (a + b).gcd b * period a b = a + b :=
  Nat.mul_div_cancel' (Nat.gcd_dvd_left _ _)

theorem period_pos (pos : 0 < a + b) : 0 < period a b :=
  Nat.div_pos (Nat.gcd_le_left _ (by omega)) (gcd_pos pos)

/-- The same place comes again after whole cycles only. -/
theorem period_dvd (pos : 0 < a + b) (same : placeAfter a b s i = placeAfter a b s (i + j)) :
    period a b ∣ j := by
  have dvd : a + b ∣ j * b := by
    have eq : (s + i * b + 0) % (a + b) = (s + i * b + j * b) % (a + b) := by
      rw [Nat.add_zero, Nat.add_assoc, ← Nat.add_mul]
      exact same
    exact Nat.dvd_of_mod_eq_zero (Nat.ModEq.add_left_cancel' _ eq).symm
  have part : b = (a + b).gcd b * (b / (a + b).gcd b) :=
    (Nat.mul_div_cancel' (Nat.gcd_dvd_right (a + b) b)).symm
  have coprime : (period a b).Coprime (b / (a + b).gcd b) :=
    Nat.coprime_div_gcd_div_gcd (gcd_pos pos)
  apply coprime.dvd_of_dvd_mul_right
  apply Nat.dvd_of_mul_dvd_mul_left (gcd_pos (a := a) pos)
  rw [gcd_mul_period, Nat.mul_left_comm, ← part]
  exact dvd

theorem placeAfter_ne (pos : 0 < a + b) (lt : i < j) (near : j < i + period a b) :
    placeAfter a b s i ≠ placeAfter a b s j := by
  intro same
  obtain ⟨k, rfl⟩ := Nat.exists_eq_add_of_lt lt
  have := Nat.le_of_dvd (Nat.succ_pos k) (period_dvd pos same)
  omega

theorem period_mul : period a b * b = (a + b) * (b / (a + b).gcd b) := by
  rw [period, Nat.div_mul_right_comm (Nat.gcd_dvd_left _ _),
    Nat.mul_div_assoc _ (Nat.gcd_dvd_right _ _)]

theorem placeAfter_period (lt : s < a + b) : placeAfter a b s (period a b) = s := by
  rw [placeAfter, period_mul, Nat.add_mul_mod_self_left, Nat.mod_eq_of_lt lt]

/-! ### Residue classes -/

theorem placeAfter_mod : placeAfter a b s j % (a + b).gcd b = s % (a + b).gcd b := by
  rw [placeAfter, Nat.mod_mod_of_dvd _ (Nat.gcd_dvd_left _ _)]
  obtain ⟨k, eq⟩ := Nat.gcd_dvd_right (a + b) b
  generalize (a + b).gcd b = g at *
  rw [eq, show s + j * (g * k) = s + g * (j * k) by ring, Nat.add_mul_mod_self_left]

theorem nextPos_mod (lt : x < a + b) : nextPos a b x % (a + b).gcd b = x % (a + b).gcd b := by
  have := placeAfter_mod (a := a) (b := b) (s := x) (j := 1)
  rwa [placeAfter, Nat.one_mul, ← nextPos_eq lt] at this

/-- A cycle goes through the whole class. -/
theorem exists_placeAfter (pos : 0 < a + b) (lt : x < a + b) :
    ∃ j < period a b, x = placeAfter a b (x % (a + b).gcd b) j := by
  have g_pos := gcd_pos (a := a) pos
  -- Some number of steps leads one class member further.
  obtain ⟨m, hop⟩ : ∃ m, m * b % (a + b) = (a + b).gcd b % (a + b) := by
    rcases Nat.eq_or_lt_of_le (Nat.gcd_le_left b (show 0 < a + b by omega)) with whole | less
    · exact ⟨0, by rw [whole, Nat.mod_self, Nat.zero_mul, Nat.zero_mod]⟩
    · rw [Nat.gcd_comm] at less ⊢
      obtain ⟨m, -, eq⟩ := Nat.exists_mul_mod_eq_gcd less
      exact ⟨m, by rw [Nat.mul_comm, eq, Nat.mod_eq_of_lt less]⟩
  have parts := Nat.mod_add_div x ((a + b).gcd b)
  generalize x / (a + b).gcd b = t at parts
  have reached : x = placeAfter a b (x % (a + b).gcd b) (m * t) := by
    have eq : (m * t) * b ≡ (a + b).gcd b * t [MOD a + b] := by
      rw [show m * t * b = m * b * t by ring]
      exact Nat.ModEq.mul_right t hop
    have sum := Nat.ModEq.add_left (x % (a + b).gcd b) eq
    rw [parts] at sum
    rw [placeAfter, show (x % (a + b).gcd b + m * t * b) % (a + b) = x % (a + b) from sum,
      Nat.mod_eq_of_lt lt]
  refine ⟨m * t % period a b, Nat.mod_lt _ (period_pos pos), ?_⟩
  have back := Nat.mod_add_div (m * t) (period a b)
  generalize m * t / period a b = k at back
  nth_rewrite 1 [reached]
  rw [placeAfter, placeAfter]
  nth_rewrite 1 [← back]
  rw [Nat.add_mul, show period a b * k * b = period a b * b * k by ring, period_mul,
    ← Nat.add_assoc,
    Nat.mul_assoc, Nat.add_mul_mod_self_left]

end

/-! ### What is in place -/

variable {α : Type} {M M' M'' : List α} {a b s j p : Nat}

/-- After `j` steps of the cycle from `s` on. -/
structure Hopped (a b s j : Nat) (M M' : List α) : Prop where
  length_eq : M'.length = M.length
  moved : ∀ i < j, M'[placeAfter a b s (i + 1)]? = M[placeAfter a b s i]?
  kept : ∀ y, (∀ i < j, y ≠ placeAfter a b s (i + 1)) → M'[y]? = M[y]?

theorem Hopped.start (a b s : Nat) (M : List α) : Hopped a b s 0 M M :=
  ⟨rfl, fun _ lt => absurd lt (Nat.not_lt_zero _), fun _ _ => rfl⟩

/-- What the next step pushes out was not moved yet. -/
theorem Hopped.next (hopped : Hopped a b s j M M') (pos : 0 < a + b) (more : j < period a b) :
    M'[placeAfter a b s (j + 1)]? = M[placeAfter a b s (j + 1)]? := by
  apply hopped.kept
  intro i lt
  exact (placeAfter_ne pos (by omega) (by omega)).symm

theorem Hopped.step (hopped : Hopped a b s j M M') (pos : 0 < a + b) (length : M.length = a + b)
    (more : j < period a b) {c : α} (item : M[placeAfter a b s j]? = some c) :
    Hopped a b s (j + 1) M (M'.set (placeAfter a b s (j + 1)) c) where
  length_eq := by rw [List.length_set, hopped.length_eq]
  moved := by
    intro i lt
    rcases Nat.lt_succ_iff_lt_or_eq.mp lt with lt | rfl
    · rw [List.getElem?_set_ne (placeAfter_ne pos (by omega) (by omega)).symm, hopped.moved i lt]
    · rw [List.getElem?_set_self, item]
      rw [hopped.length_eq, length]
      exact placeAfter_lt (by omega)
  kept := by
    intro y other
    rw [List.getElem?_set_ne (other j (Nat.lt_succ_self j)).symm]
    exact hopped.kept y fun i lt => other i (by omega)

/-- After the cycles from `0` to `p - 1`. -/
structure Turned (a b p : Nat) (M M' : List α) : Prop where
  length_eq : M'.length = M.length
  moved : ∀ x < a + b, x % (a + b).gcd b < p → M'[nextPos a b x]? = M[x]?
  kept : ∀ x < a + b, p ≤ x % (a + b).gcd b → M'[x]? = M[x]?

theorem Turned.start (a b : Nat) (M : List α) : Turned a b 0 M M :=
  ⟨rfl, fun _ _ lt => absurd lt (Nat.not_lt_zero _), fun _ _ _ => rfl⟩

theorem Turned.cycle (turned : Turned a b p M M') (pos : 0 < a + b) (more : p < (a + b).gcd b)
    (hopped : Hopped a b p (period a b) M' M'') : Turned a b (p + 1) M M'' := by
  have other : ∀ y, y % (a + b).gcd b ≠ p → M''[y]? = M'[y]? := by
    intro y differ
    apply hopped.kept
    rintro i lt rfl
    rw [placeAfter_mod, Nat.mod_eq_of_lt more] at differ
    exact differ rfl
  constructor
  · rw [hopped.length_eq, turned.length_eq]
  · intro x lt le
    rcases Nat.lt_succ_iff_lt_or_eq.mp le with before | here
    · rw [other _ (by rw [nextPos_mod lt]; omega), turned.moved x lt before]
    · obtain ⟨i, i_lt, eq⟩ := exists_placeAfter pos lt
      have moved := hopped.moved i i_lt
      rwa [← nextPos_placeAfter (by omega), ← here, ← eq, turned.kept x lt (by omega)] at moved
  · intro x lt ge
    rw [other x (by omega), turned.kept x lt (by omega)]

/-- All cycles together. -/
theorem Turned.eq_swap (turned : Turned a b ((a + b).gcd b) M M') (pos : 0 < a + b)
    (length : M.length = a + b) :
    M' = M.drop a ++ M.take a := by
  have moved : ∀ x < a + b, M'[nextPos a b x]? = M[x]? :=
    fun x lt => turned.moved x lt (Nat.mod_lt _ (gcd_pos pos))
  have length' := turned.length_eq
  apply List.ext_getElem?
  intro y
  by_cases first : y < b
  · have := moved (y + a) (by omega)
    rw [nextPos, if_neg (by omega), Nat.add_sub_cancel] at this
    rw [this, List.getElem?_append_left (by rw [List.length_drop]; omega), List.getElem?_drop,
      Nat.add_comm]
  · rw [List.getElem?_append_right (by rw [List.length_drop]; omega), List.length_drop, length]
    by_cases inside : y < a + b
    · have := moved (y - b) (by omega)
      rw [nextPos, if_pos (by omega), show b + (y - b) = y by omega] at this
      rw [this, List.getElem?_take_of_lt (by omega)]
      congr 1
      omega
    · rw [List.getElem?_eq_none (by omega), List.getElem?_eq_none (by rw [List.length_take]; omega)]

end AcnSdk.Lib
