/-
Tables of slots.

A slot is free or has a key and a value. A table is searched from its front, for the slot with a key
or for a free one, and a slot that was found is written anew. If no two slots have one key, the
table is a map from keys to values.

* `findKey_split`, `findKey_eq_none_iff`, `findFree_split`, `findFree_eq_none_iff` — what a search
  finds.
* `Represents.replace` — writing a slot anew changes the map at its old key and at its new one.
-/

import Mathlib.Data.List.Nodup
import Mathlib.Data.List.Infix
import Mathlib.Tactic.Common

namespace AcnSdk.Lib

variable {σ κ ν : Type} (key : σ → Option κ)

/-- The place of the first slot with a key. -/
def findKey [DecidableEq κ] (k : κ) (t : List σ) : Option Nat := t.findIdx? fun s => key s = some k

/-- The place of the first free slot. -/
def findFree (t : List σ) : Option Nat := t.findIdx? fun s => (key s).isNone

/-- The keys in a table. -/
def slotKeys (t : List σ) : List κ := t.filterMap key

/-- No two slots have one key. -/
def DistinctKeys (t : List σ) : Prop := (slotKeys key t).Nodup

/-- The table is the map `m`, with the values that `value` finds in the slots. -/
def Represents (value : σ → Option ν) (t : List σ) (m : κ → Option ν) : Prop :=
  ∀ k v, m k = some v ↔ ∃ s ∈ t, key s = some k ∧ value s = some v

variable {key} {value : σ → Option ν} {t pre post : List σ} {s s' : σ} {k : κ} {i : Nat}
  {m : κ → Option ν}

/-! ### Searching -/

theorem split_of_findIdx? {p : σ → Bool} (found : t.findIdx? p = some i) :
    ∃ pre s post, t = pre ++ s :: post ∧ i = pre.length ∧ p s = true := by
  obtain ⟨lt, holds, -⟩ := List.findIdx?_eq_some_iff_getElem.mp found
  refine ⟨t.take i, t[i], t.drop (i + 1), ?_, ?_, holds⟩
  · rw [← List.drop_eq_getElem_cons lt, List.take_append_drop]
  · rw [List.length_take]
    omega

theorem set_split (pre post : List σ) (s s' : σ) :
    (pre ++ s :: post).set pre.length s' = pre ++ s' :: post := by
  rw [List.set_append_right _ _ (Nat.le_refl _), Nat.sub_self, List.set_cons_zero]

theorem findKey_split [DecidableEq κ] (found : findKey key k t = some i) :
    ∃ pre s post, t = pre ++ s :: post ∧ i = pre.length ∧ key s = some k := by
  obtain ⟨pre, s, post, split, place, holds⟩ := split_of_findIdx? found
  exact ⟨pre, s, post, split, place, of_decide_eq_true holds⟩

theorem findKey_eq_none_iff [DecidableEq κ] : findKey key k t = none ↔ k ∉ slotKeys key t := by
  rw [findKey, List.findIdx?_eq_none_iff, slotKeys, List.mem_filterMap]
  simp only [decide_eq_false_iff_not, not_exists, not_and]

theorem findFree_split (found : findFree key t = some i) :
    ∃ pre s post, t = pre ++ s :: post ∧ i = pre.length ∧ key s = none := by
  obtain ⟨pre, s, post, split, place, holds⟩ := split_of_findIdx? found
  exact ⟨pre, s, post, split, place, Option.isNone_iff_eq_none.mp holds⟩

theorem length_slotKeys_le (t : List σ) : (slotKeys key t).length ≤ t.length :=
  List.length_filterMap_le key t

theorem slotKeys_cons (s : σ) (t : List σ) :
    slotKeys key (s :: t) = (key s).toList ++ slotKeys key t := by
  rw [slotKeys, List.filterMap_cons]
  cases key s <;> rfl

/-- There is no free slot if and only if there are as many keys as slots. -/
theorem findFree_eq_none_iff : findFree key t = none ↔ (slotKeys key t).length = t.length := by
  rw [findFree, List.findIdx?_eq_none_iff]
  induction t with
  | nil => simp [slotKeys]
  | cons s t ih =>
      have le : (slotKeys key t).length ≤ t.length := length_slotKeys_le t
      rw [List.forall_mem_cons, ih, slotKeys_cons]
      cases keyed : key s with
      | none =>
          refine iff_of_false (fun h => by simp at h) (fun same => ?_)
          rw [Option.toList_none, List.nil_append, List.length_cons] at same
          omega
      | some k =>
          rw [Option.toList_some, List.singleton_append, List.length_cons, List.length_cons,
            Nat.succ_inj]
          exact and_iff_right rfl

/-! ### Writing a slot -/

theorem slotKeys_split (pre post : List σ) (s : σ) :
    slotKeys key (pre ++ s :: post) = slotKeys key pre ++ (key s).toList ++ slotKeys key post := by
  rw [slotKeys, List.filterMap_append, ← slotKeys, ← slotKeys, slotKeys_cons, List.append_assoc]

/-- A slot has its key for itself. -/
theorem DistinctKeys.not_mem (distinct : DistinctKeys key (pre ++ s :: post))
    (keyed : key s = some k) :
    k ∉ slotKeys key pre ∧ k ∉ slotKeys key post := by
  rw [DistinctKeys, slotKeys_split, keyed, Option.toList_some, List.append_assoc] at distinct
  obtain ⟨-, rest, apart⟩ := List.nodup_append.mp distinct
  refine ⟨fun there => ?_, (List.nodup_cons.mp rest).1⟩
  exact apart k there k List.mem_cons_self rfl

theorem mem_slotKeys (there : s ∈ t) (keyed : key s = some k) : k ∈ slotKeys key t :=
  List.mem_filterMap.mpr ⟨s, there, keyed⟩

/-- A slot is given up. -/
theorem DistinctKeys.free (distinct : DistinctKeys key (pre ++ s :: post)) (freed : key s' = none) :
    DistinctKeys key (pre ++ s' :: post) := by
  rw [DistinctKeys, slotKeys_split] at distinct ⊢
  rw [freed, Option.toList_none, List.append_nil]
  refine distinct.sublist ?_
  rw [List.append_assoc]
  exact List.Sublist.append_left (List.sublist_append_right _ _) _

/-- A slot keeps its key. -/
theorem DistinctKeys.keep (distinct : DistinctKeys key (pre ++ s :: post)) (same : key s' = key s) :
    DistinctKeys key (pre ++ s' :: post) := by
  rw [DistinctKeys, slotKeys_split] at distinct ⊢
  rwa [same]

/-- A free slot is taken for a new key. -/
theorem DistinctKeys.take (distinct : DistinctKeys key (pre ++ s :: post)) (free : key s = none)
    (keyed : key s' = some k) (fresh : k ∉ slotKeys key (pre ++ s :: post)) :
    DistinctKeys key (pre ++ s' :: post) := by
  rw [slotKeys_split, free, Option.toList_none, List.append_nil] at fresh
  rw [DistinctKeys, slotKeys_split, free, Option.toList_none, List.append_nil] at distinct
  rw [DistinctKeys, slotKeys_split, keyed, Option.toList_some, List.append_assoc]
  exact List.nodup_middle.mpr (List.nodup_cons.mpr ⟨fresh, distinct⟩)

/-- The map changes at the old key and at the new one. -/
theorem Represents.replace [DecidableEq κ] (represents : Represents key value (pre ++ s :: post) m)
    (distinct : DistinctKeys key (pre ++ s :: post))
    (distinct' : DistinctKeys key (pre ++ s' :: post)) :
    Represents key value (pre ++ s' :: post) fun k =>
      if key s' = some k then value s' else if key s = some k then none else m k := by
  intro k v
  dsimp only
  by_cases new : key s' = some k
  · rw [if_pos new]
    obtain ⟨not_pre, not_post⟩ := distinct'.not_mem new
    constructor
    · intro valued
      exact ⟨s', List.mem_append_right _ List.mem_cons_self, new, valued⟩
    · rintro ⟨u, there, keyed, valued⟩
      rcases List.mem_append.mp there with before | there
      · exact absurd (mem_slotKeys before keyed) not_pre
      · rcases List.mem_cons.mp there with rfl | behind
        · exact valued
        · exact absurd (mem_slotKeys behind keyed) not_post
  · rw [if_neg new]
    by_cases old : key s = some k
    · rw [if_pos old]
      obtain ⟨not_pre, not_post⟩ := distinct.not_mem old
      refine iff_of_false (fun h => by cases h) ?_
      rintro ⟨u, there, keyed, -⟩
      rcases List.mem_append.mp there with before | there
      · exact not_pre (mem_slotKeys before keyed)
      · rcases List.mem_cons.mp there with rfl | behind
        · exact new keyed
        · exact not_post (mem_slotKeys behind keyed)
    · rw [if_neg old, represents k v]
      -- neither of the two slots has the key
      have elsewhere : ∀ {u w : σ}, key w ≠ some k → u ∈ pre ++ w :: post → key u = some k →
          u ∈ pre ∨ u ∈ post := by
        intro u w other there keyed
        rcases List.mem_append.mp there with before | there
        · exact .inl before
        · rcases List.mem_cons.mp there with rfl | behind
          · exact absurd keyed other
          · exact .inr behind
      have there {u : σ} (w : σ) (apart : u ∈ pre ∨ u ∈ post) : u ∈ pre ++ w :: post :=
        apart.elim (List.mem_append_left _)
          fun behind => List.mem_append_right _ (List.mem_cons_of_mem _ behind)
      constructor
      · rintro ⟨u, mem, keyed, valued⟩
        exact ⟨u, there s' (elsewhere old mem keyed), keyed, valued⟩
      · rintro ⟨u, mem, keyed, valued⟩
        exact ⟨u, there s (elsewhere new mem keyed), keyed, valued⟩

end AcnSdk.Lib
