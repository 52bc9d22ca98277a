/-
Resumable producers.

A producer is called again and again with the room left in a buffer; each call
stores some items, returns a count and leaves a state to resume from. Calls are
given as a relation, so that a call which never returns is one without a
result. A run is an infinite sequence of calls under a schedule of buffer
lengths.

* `Producer.Run` — a run of a producer under a schedule.
* `Producer.Streams` — the run emits exactly one document: every call returns
  between one item and its room until the document is out, and nothing after.
* `Producer.streams_of_pending` — the rule: if the rest of the document is an
  invariant of the state that each call shortens by a full buffer, every
  schedule streams the document.
-/

import Mathlib.Data.List.Basic
import Mathlib.Data.Nat.Find
import Mathlib.Data.Nat.Init
import Mathlib.Tactic.Common

namespace AcnSdk.Lib

/-- What one call leaves behind: the state, the returned count and the items
stored in the buffer. -/
structure Produced (σ β : Type) where
  state : σ
  ret : Int
  out : List β

/-- `call s room p`: a call in state `s` with room for `room` items returns `p`. -/
abbrev Producer (σ β : Type) := σ → Nat → Produced σ β → Prop

namespace Producer

variable {σ β : Type} {call : Producer σ β}

/-- A call has at most one outcome. -/
def Deterministic (call : Producer σ β) : Prop :=
  ∀ s room p q, call s room p → call s room q → p = q

/-- An infinite run under the schedule `lens`: `step n` is what call `n` does. -/
structure Run (call : Producer σ β) (s : σ) (lens : Nat → Nat) where
  state : Nat → σ
  ret : Nat → Int
  out : Nat → List β
  start : state 0 = s
  step : ∀ n, call (state n) (lens n) ⟨state (n + 1), ret n, out n⟩

/-- The items of the first `n` calls, in order. -/
def Run.emitted {s : σ} {lens : Nat → Nat} (run : Run call s lens) : Nat → List β
  | 0 => []
  | n + 1 => run.emitted n ++ run.out n

/-- The producer started in `s` emits exactly `doc` under the schedule: there is
a call `fin` before which each call returns the number of items it stored, at
least one and at most its room, and from which on every call returns zero. -/
def Streams (call : Producer σ β) (s : σ) (lens : Nat → Nat) (doc : List β) : Prop :=
  ∃ run : Run call s lens, ∃ fin : Nat,
    (∀ n < fin, 1 ≤ run.ret n ∧ run.ret n ≤ lens n ∧ run.ret n = (run.out n).length) ∧
      run.emitted fin = doc ∧ ∀ n, fin ≤ n → run.ret n = 0

/-- Two runs of a deterministic producer agree call by call. -/
theorem Run.agree (det : Deterministic call) {s : σ} {lens : Nat → Nat}
    (a b : Run call s lens) (n : Nat) :
    a.state n = b.state n ∧ a.ret n = b.ret n ∧ a.out n = b.out n := by
  have result : ∀ n, a.state n = b.state n →
      (⟨a.state (n + 1), a.ret n, a.out n⟩ : Produced σ β) =
        ⟨b.state (n + 1), b.ret n, b.out n⟩ := by
    intro n same
    have hb := b.step n
    rw [← same] at hb
    exact det _ _ _ _ (a.step n) hb
  have states : ∀ n, a.state n = b.state n := by
    intro n
    induction n with
    | zero => rw [a.start, b.start]
    | succ n ih => exact congrArg Produced.state (result n ih)
  exact ⟨states n, congrArg Produced.ret (result n (states n)),
    congrArg Produced.out (result n (states n))⟩

theorem Run.emitted_agree (det : Deterministic call) {s : σ} {lens : Nat → Nat}
    (a b : Run call s lens) (n : Nat) : a.emitted n = b.emitted n := by
  induction n with
  | zero => rfl
  | succ n ih => rw [emitted, emitted, ih, (a.agree det b n).2.2]

/-- A deterministic producer streams at most one document under a schedule. -/
theorem Streams.unique (det : Deterministic call) {s : σ} {lens : Nat → Nat}
    {doc doc' : List β} (h : Streams call s lens doc) (h' : Streams call s lens doc') :
    doc = doc' := by
  obtain ⟨a, m, busy, rfl, idle⟩ := h
  obtain ⟨b, n, busy', rfl, idle'⟩ := h'
  have same : m = n := by
    rcases Nat.lt_trichotomy m n with lt | eq | gt
    · have := (busy' m lt).1
      rw [← (a.agree det b m).2.1, idle m le_rfl] at this
      omega
    · exact eq
    · have := (busy n gt).1
      rw [(a.agree det b n).2.1, idle' n le_rfl] at this
      omega
  rw [same, a.emitted_agree det b]

/-! ### Runs from invariants -/

section Invariant

variable {lens : Nat → Nat} {Inv : Nat → σ → List β → Prop}
  {Good : Nat → List β → Produced σ β → Prop}
  (step : ∀ n s done, Inv n s done →
    ∃ p, call s (lens n) p ∧ Good n done p ∧ Inv (n + 1) p.state (done ++ p.out))

/-- The calls that `step` describes, each with its state and the items before it. -/
noncomputable def invariantState {s : σ} (init : Inv 0 s []) :
    (n : Nat) → { q : σ × List β // Inv n q.1 q.2 }
  | 0 => ⟨(s, []), init⟩
  | n + 1 =>
      let q := invariantState init n
      let next := step n q.1.1 q.1.2 q.2
      ⟨(next.choose.state, q.1.2 ++ next.choose.out), next.choose_spec.2.2⟩

include step in
/-- An invariant of the state and of the items emitted so far, under which each call
comes back with a good result and keeps the invariant, gives a run of good calls. -/
theorem exists_run {s : σ} (init : Inv 0 s []) :
    ∃ run : Run call s lens, ∀ n, Inv n (run.state n) (run.emitted n) ∧
      Good n (run.emitted n) ⟨run.state (n + 1), run.ret n, run.out n⟩ := by
  let st := invariantState step init
  have next n := step n (st n).1.1 (st n).1.2 (st n).2
  let run : Run call s lens :=
    { state := fun n => (st n).1.1
      ret := fun n => (next n).choose.ret
      out := fun n => (next n).choose.out
      start := rfl
      step := fun n => (next n).choose_spec.1 }
  have emitted : ∀ n, run.emitted n = (st n).1.2 := by
    intro n
    induction n with
    | zero => rfl
    | succ n ih =>
        rw [Run.emitted, ih]
        rfl
  refine ⟨run, fun n => ?_⟩
  rw [emitted n]
  exact ⟨(st n).2, (next n).choose_spec.2.1⟩

/-- In a run of a deterministic producer an invariant holds as long as each call keeps it. -/
theorem Run.invariant (det : Deterministic call) {s : σ} (run : Run call s lens)
    (init : Inv 0 s []) {n : Nat} (kept : ∀ k < n, ∀ s done, Inv k s done →
      ∃ p, call s (lens k) p ∧ Inv (k + 1) p.state (done ++ p.out)) :
    Inv n (run.state n) (run.emitted n) := by
  induction n with
  | zero => rwa [run.start]
  | succ n ih =>
      have here := ih fun k lt => kept k (by omega)
      obtain ⟨p, calls, inv⟩ := kept n (by omega) _ _ here
      rw [det _ _ _ _ calls (run.step n)] at inv
      exact inv

end Invariant

/-- If the rest of the document is an invariant of the state and each call emits
the front of it, as much as fits, then every schedule streams the document. -/
theorem streams_of_pending {Pending : σ → List β → Prop}
    (advance : ∀ s rest room, 0 < room → Pending s rest →
      ∃ s', call s room ⟨s', ((rest.take room).length : Nat), rest.take room⟩ ∧
        Pending s' (rest.drop room))
    {lens : Nat → Nat} (positive : ∀ n, 0 < lens n) {s : σ} {doc : List β}
    (init : Pending s doc) : Streams call s lens doc := by
  classical
  let Inv : Nat → σ → List β → Prop := fun _ s done => ∃ rest, Pending s rest ∧ done ++ rest = doc
  let Good : Nat → List β → Produced σ β → Prop := fun n done p =>
    p.out = (doc.drop done.length).take (lens n) ∧ p.ret = (p.out.length : Nat)
  have step : ∀ n s done, Inv n s done →
      ∃ p, call s (lens n) p ∧ Good n done p ∧ Inv (n + 1) p.state (done ++ p.out) := by
    rintro n s done ⟨rest, pending, rfl⟩
    obtain ⟨s', calls, pending'⟩ := advance s rest (lens n) (positive n) pending
    refine ⟨_, calls, ⟨by rw [List.drop_left], rfl⟩, rest.drop (lens n), pending', ?_⟩
    rw [List.append_assoc, List.take_append_drop]
  obtain ⟨run, good⟩ := exists_run step (⟨doc, init, rfl⟩ : Inv 0 s [])
  -- what is emitted is a front of the document that grows until it is all of it
  have front : ∀ n, ∃ rest, run.emitted n ++ rest = doc ∧ run.out n = rest.take (lens n) ∧
      run.ret n = ((run.out n).length : Nat) := by
    intro n
    obtain ⟨⟨rest, -, eq⟩, out, ret⟩ := good n
    refine ⟨rest, eq, ?_, ret⟩
    rw [← eq, List.drop_left] at out
    exact out
  have grows : ∀ n, min n doc.length ≤ (run.emitted n).length := by
    intro n
    induction n with
    | zero => exact Nat.zero_le _
    | succ n ih =>
        obtain ⟨rest, eq, out, -⟩ := front n
        have := positive n
        have := congrArg List.length eq
        rw [List.length_append] at this
        rw [Run.emitted, List.length_append, out, List.length_take]
        omega
  have whole_iff : ∀ n, run.emitted n = doc ↔ doc.length ≤ (run.emitted n).length := by
    intro n
    obtain ⟨rest, eq, -, -⟩ := front n
    refine ⟨fun whole => by rw [whole], fun le => ?_⟩
    have := congrArg List.length eq
    rw [List.length_append] at this
    have empty : rest = [] := List.eq_nil_of_length_eq_zero (by omega)
    rwa [empty, List.append_nil] at eq
  have some_whole : ∃ n, run.emitted n = doc :=
    ⟨doc.length, (whole_iff _).mpr (by have := grows doc.length; omega)⟩
  have later : ∀ n, Nat.find some_whole ≤ n → run.emitted n = doc := by
    intro n le
    induction n, le using Nat.le_induction with
    | base => exact Nat.find_spec some_whole
    | succ n _ ih =>
        rw [whole_iff, Run.emitted, List.length_append]
        have := (whole_iff n).mp ih
        omega
  refine ⟨run, Nat.find some_whole, ?_, Nat.find_spec some_whole, ?_⟩
  · intro n lt
    obtain ⟨rest, eq, out, ret⟩ := front n
    have left : rest ≠ [] := by
      rintro rfl
      exact Nat.find_min some_whole lt (by simpa using eq)
    have len : (run.out n).length = min (lens n) rest.length := by rw [out, List.length_take]
    have := positive n
    have := List.length_pos_iff.mpr left
    exact ⟨by omega, by omega, ret⟩
  · intro n le
    obtain ⟨rest, eq, out, ret⟩ := front n
    have empty : rest = [] := by
      rw [later n le] at eq
      simpa using eq
    rw [ret, out, empty, List.take_nil]
    rfl

end Producer

end AcnSdk.Lib
