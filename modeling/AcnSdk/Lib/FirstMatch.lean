/-
The first element of a list that matches a key.

A test that is true of the elements with the key may be true of others as well.

* `find?_exact_iff` — the test finds the element with the key, and no other one, if and only if
  each of the others comes after it.
-/

import Mathlib.Data.List.Nodup

namespace AcnSdk.Lib

variable {α β : Type} {key : α → β} {k : β} {p : α → Bool} {xs : List α}

theorem find?_exact_iff (distinct : (xs.map key).Nodup) (covers : ∀ a, key a = k → p a = true) :
    (∀ a ∈ xs, xs.find? p = some a ↔ key a = k) ↔
      ∀ before a after, xs = before ++ a :: after → p a = true → key a ≠ k →
        ∃ b ∈ before, key b = k := by
  constructor
  · intro exact before a after split passes other
    cases found : before.find? p with
    | none =>
        -- nothing in front of it passes, so that it is found itself
        have here : xs.find? p = some a := by
          rw [split, List.find?_append, found, List.find?_cons_of_pos passes]
          rfl
        exact absurd ((exact a (List.mem_of_find?_eq_some here)).mp here) other
    | some b =>
        have there : xs.find? p = some b := by
          rw [split, List.find?_append, found]
          rfl
        exact ⟨b, List.mem_of_find?_eq_some found,
          (exact b (List.mem_of_find?_eq_some there)).mp there⟩
  · intro after a mem
    have only : ∀ b, xs.find? p = some b → key b = k := by
      intro b found
      obtain ⟨passes, before, rest, split, none⟩ := List.find?_eq_some_iff_append.mp found
      by_contra other
      obtain ⟨c, earlier, key_eq⟩ := after before b rest split passes other
      have fails := none c earlier
      rw [covers c key_eq] at fails
      cases fails
    constructor
    · exact only a
    · intro key_eq
      cases found : xs.find? p with
      | none => exact absurd (covers a key_eq) (List.find?_eq_none.mp found a mem)
      | some b =>
          have same : key b = key a := (only b found).trans key_eq.symm
          rw [List.inj_on_of_nodup_map distinct (List.mem_of_find?_eq_some found) mem same]

end AcnSdk.Lib
