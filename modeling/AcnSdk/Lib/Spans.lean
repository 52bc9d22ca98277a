/-
Disjoint spans of numbers that are kept in two sets only: the numbers that are in some span,
and the first numbers of the spans.

The lengths are not kept. They can be found again, since behind a span there is either the
first number of another or a number that is in none.

* `Marked.insert`, `Marked.remove` — a span is put in or taken out.
* `Marked.ends` — where a span ends.
-/

import Mathlib.Data.List.Perm.Basic
import Mathlib.Data.List.Pairwise
import AcnSdk.Lib.FirstFit

namespace AcnSdk.Lib

/-! ### Walks -/

/-- The places from `i` up to `e` go on with a span, and `e` does not. -/
structure BlockEnd (head space : Nat → Bool) (i e : Nat) : Prop where
  le : i ≤ e
  inner : ∀ j, i ≤ j → j < e → head j = false ∧ space j = true
  ends : head e = true ∨ space e = false

/-- Where the span ends that goes on at `i`. -/
def blockEnd (head space : Nat → Bool) : Nat → Nat → Nat
  | 0, i => i
  | fuel + 1, i => if head i then i else if space i then blockEnd head space fuel (i + 1) else i

theorem blockEnd_spec {head space : Nat → Bool} {last : Nat}
    (clear : ∀ j, last ≤ j → space j = false)
    {fuel i : Nat} (enough : last < i + fuel) :
    BlockEnd head space i (blockEnd head space fuel i) := by
  have here : ∀ {i}, head i = true ∨ space i = false → BlockEnd head space i i :=
    fun ends => ⟨Nat.le_refl _, fun j ge lt => absurd lt (Nat.not_lt.mpr ge), ends⟩
  induction fuel generalizing i with
  | zero => exact here (.inr (clear i (by omega)))
  | succ fuel ih =>
      rw [blockEnd]
      cases head_eq : head i with
      | true =>
          rw [if_pos rfl]
          exact here (.inl head_eq)
      | false =>
          rw [if_neg (by decide)]
          cases space_eq : space i with
          | false =>
              rw [if_neg (by decide)]
              exact here (.inr space_eq)
          | true =>
              rw [if_pos rfl]
              obtain ⟨le, inner, ends⟩ := ih (i := i + 1) (by omega)
              refine ⟨by omega, ?_, ends⟩
              intro j ge lt
              by_cases first : j = i
              · rw [first]
                exact ⟨head_eq, space_eq⟩
              · exact inner j (by omega) lt

theorem BlockEnd.unique {head space : Nat → Bool} {i e e' : Nat} (first : BlockEnd head space i e)
    (second : BlockEnd head space i e') : e = e' := by
  have le : ∀ {e e'}, BlockEnd head space i e → BlockEnd head space i e' → ¬ e < e' := by
    intro e e' first second lt
    obtain ⟨no_head, busy⟩ := second.inner e first.le lt
    rcases first.ends with head_eq | space_eq
    · rw [no_head] at head_eq
      cases head_eq
    · rw [busy] at space_eq
      cases space_eq
  exact Nat.le_antisymm (Nat.not_lt.mp (le second first)) (Nat.not_lt.mp (le first second))

/-! ### Spans -/

/-- The `len` numbers from `start` on. -/
structure Span where
  start : Nat
  len : Nat
deriving DecidableEq, Repr

/-- The number is in the span. -/
def Span.Has (s : Span) (i : Nat) : Prop := s.start ≤ i ∧ i < s.start + s.len

instance (s : Span) (i : Nat) : Decidable (s.Has i) := inferInstanceAs (Decidable (_ ∧ _))

/-- Two spans have no number in common. -/
def Span.Apart (s t : Span) : Prop := ∀ i, ¬ (s.Has i ∧ t.Has i)

theorem Span.Apart.symm {s t : Span} (apart : s.Apart t) : t.Apart s :=
  fun i both => apart i ⟨both.2, both.1⟩

/-- The two sets are those of the spans, which are disjoint and lie below `n`. -/
structure Marked (n : Nat) (spans : List Span) (space head : Nat → Bool) : Prop where
  pos : ∀ s ∈ spans, 0 < s.len
  le : ∀ s ∈ spans, s.start + s.len ≤ n
  apart : spans.Pairwise Span.Apart
  space_iff : ∀ i, space i = true ↔ ∃ s ∈ spans, s.Has i
  head_iff : ∀ i, head i = true ↔ ∃ s ∈ spans, s.start = i

namespace Marked

variable {n : Nat} {spans : List Span} {s : Span} {space head space' head' : Nat → Bool}

theorem nil (n : Nat) (no_space : ∀ i, space i = false) (no_head : ∀ i, head i = false) :
    Marked n [] space head where
  pos := by simp
  le := by simp
  apart := List.Pairwise.nil
  space_iff := by simp [no_space]
  head_iff := by simp [no_head]

theorem perm (marked : Marked n spans space head) {spans' : List Span} (perm : spans.Perm spans') :
    Marked n spans' space head where
  pos := fun s mem => marked.pos s (perm.mem_iff.mpr mem)
  le := fun s mem => marked.le s (perm.mem_iff.mpr mem)
  apart := perm.pairwise marked.apart Span.Apart.symm
  space_iff := by
    intro i
    rw [marked.space_iff]
    simp only [perm.mem_iff]
  head_iff := by
    intro i
    rw [marked.head_iff]
    simp only [perm.mem_iff]

/-- A span is put where no other is. -/
theorem insert (marked : Marked n spans space head) (pos : 0 < s.len)
    (run : IsRun space n s.start s.len)
    (space_eq : ∀ i, space' i = (decide (s.Has i) || space i))
    (head_eq : ∀ i, head' i = (decide (s.start = i) || head i)) :
    Marked n (s :: spans) space' head' where
  pos := by
    intro t mem
    rcases List.mem_cons.mp mem with rfl | mem
    · exact pos
    · exact marked.pos t mem
  le := by
    intro t mem
    rcases List.mem_cons.mp mem with rfl | mem
    · exact run.le
    · exact marked.le t mem
  apart := by
    apply List.Pairwise.cons _ marked.apart
    intro t mem i both
    have busy := (marked.space_iff i).mpr ⟨t, mem, both.2⟩
    rw [run.free i both.1.1 both.1.2] at busy
    cases busy
  space_iff := by
    intro i
    rw [space_eq, Bool.or_eq_true, decide_eq_true_iff, marked.space_iff]
    simp only [List.mem_cons, exists_eq_or_imp]
  head_iff := by
    intro i
    rw [head_eq, Bool.or_eq_true, decide_eq_true_iff, marked.head_iff]
    simp only [List.mem_cons, exists_eq_or_imp]

/-- A span is taken out. -/
theorem remove (marked : Marked n (s :: spans) space head)
    (space_eq : ∀ i, space' i = (!decide (s.Has i) && space i))
    (head_eq : ∀ i, head' i = (!decide (s.start = i) && head i)) : Marked n spans space' head' := by
  obtain ⟨others, apart⟩ := List.pairwise_cons.mp marked.apart
  constructor
  · exact fun t mem => marked.pos t (List.mem_cons_of_mem _ mem)
  · exact fun t mem => marked.le t (List.mem_cons_of_mem _ mem)
  · exact apart
  · intro i
    rw [space_eq, Bool.and_eq_true, marked.space_iff, Bool.not_eq_true', decide_eq_false_iff_not]
    constructor
    · rintro ⟨not_in, t, mem, has⟩
      rcases List.mem_cons.mp mem with rfl | mem
      · exact absurd has not_in
      · exact ⟨t, mem, has⟩
    · rintro ⟨t, mem, has⟩
      exact ⟨fun own => others t mem i ⟨own, has⟩, t, List.mem_cons_of_mem _ mem, has⟩
  · intro i
    rw [head_eq, Bool.and_eq_true, marked.head_iff, Bool.not_eq_true', decide_eq_false_iff_not]
    constructor
    · rintro ⟨not_first, t, mem, first⟩
      rcases List.mem_cons.mp mem with rfl | mem
      · exact absurd first not_first
      · exact ⟨t, mem, first⟩
    · rintro ⟨t, mem, rfl⟩
      refine ⟨?_, t, List.mem_cons_of_mem _ mem, rfl⟩
      intro same
      have t_pos := marked.pos t (List.mem_cons_of_mem _ mem)
      have s_pos := marked.pos s List.mem_cons_self
      exact others t mem t.start ⟨⟨by omega, by omega⟩, by omega, by omega⟩

/-- A number that is in a span is in no other. -/
theorem eq_of_has (marked : Marked n (s :: spans) space head) {t : Span} {i : Nat} (has : s.Has i)
    (mem : t ∈ s :: spans) (has' : t.Has i) : t = s := by
  rcases List.mem_cons.mp mem with eq | mem
  · exact eq
  · exact absurd ⟨has, has'⟩ ((List.pairwise_cons.mp marked.apart).1 t mem i)

/-- A span ends where another starts, or in front of a number that is in none. -/
theorem ends (marked : Marked n (s :: spans) space head)
    (head_eq : ∀ i, head' i = (!decide (s.start = i) && head i)) :
    BlockEnd head' space s.start (s.start + s.len) := by
  have pos := marked.pos s List.mem_cons_self
  refine ⟨by omega, ?_, ?_⟩
  · intro j ge lt
    refine ⟨?_, (marked.space_iff j).mpr ⟨s, List.mem_cons_self, ge, lt⟩⟩
    by_contra is_head
    rw [Bool.not_eq_false, head_eq, Bool.and_eq_true, Bool.not_eq_true', decide_eq_false_iff_not,
      marked.head_iff] at is_head
    obtain ⟨not_first, t, mem, first⟩ := is_head
    have t_pos := marked.pos t mem
    have same := marked.eq_of_has ⟨ge, lt⟩ mem ⟨by omega, by omega⟩
    rw [same] at first
    exact not_first first
  · cases busy : space (s.start + s.len) with
    | false => exact .inr rfl
    | true =>
        obtain ⟨t, mem, ge, lt⟩ := (marked.space_iff _).mp busy
        have first : t.start = s.start + s.len := by
          by_contra differ
          have same : t = s := marked.eq_of_has (i := s.start + s.len - 1) ⟨by omega, by omega⟩ mem
            ⟨by omega, by omega⟩
          rw [same] at lt
          omega
        refine .inl ?_
        rw [head_eq, Bool.and_eq_true, Bool.not_eq_true', decide_eq_false_iff_not]
        exact ⟨by omega, (marked.head_iff _).mpr ⟨t, mem, first⟩⟩

end Marked

end AcnSdk.Lib
