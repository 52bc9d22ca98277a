/-
A heap that grew by some blocks.

A program that releases only what it made leaves all of an older heap as it was. What it holds is
a list of blocks without repetitions: making a block adds one to the list and releasing a block
takes one off, so that what is left on the list at the end was lost.

* `Grown.push`, `Grown.erase` — a block is made, and a block is released.
* `Grown.trans`, `Grown.split` — growing twice, and what some of the blocks are more than the rest.
* `Grown.changed` — only the blocks are written to.
-/

import AcnSdk.Lib.Heap

namespace AcnSdk.Lib

open Heap

variable {α : Type} {h₀ h h' : Heap α} {a : Addr} {blocks blocks' : List Addr}

theorem Heap.Fresh.eraseAll (fresh : h.Fresh) (as : List Addr) : (h.eraseAll as).Fresh := by
  refine fresh.of_old rfl fun a x cell => ?_
  by_cases there : a ∈ as
  · rw [eraseAll_mem there] at cell
    cases cell
  · exact ⟨x, (eraseAll_cells there).symm.trans cell⟩

/-- Storing to the cell that was just made. -/
theorem Heap.push_set (h : Heap α) (x y : α) : (h.push x).set h.brk y = h.push y := by
  simp only [Heap.set, Heap.push, mk.injEq, and_true]
  funext b
  split <;> rfl

/-- Releasing a cell that was stored to. -/
theorem Heap.set_erase (h : Heap α) (a : Addr) (x : α) : (h.set a x).erase a = h.erase a := by
  simp only [Heap.set, Heap.erase, mk.injEq, and_true]
  funext b
  split <;> rfl

/-- The heap `h` is `h₀` with these blocks more. -/
structure Grown (h₀ h : Heap α) (blocks : List Addr) : Prop where
  fresh : h.Fresh
  kept : ∀ a x, h₀.cells a = some x → h.cells a = some x
  old : ∀ a, (h.cells a).isSome → a ∉ blocks → (h₀.cells a).isSome
  new : ∀ a ∈ blocks, h₀.cells a = none ∧ (h.cells a).isSome
  distinct : blocks.Nodup

namespace Grown

theorem refl (fresh : h₀.Fresh) : Grown h₀ h₀ [] :=
  ⟨fresh, fun _ _ cell => cell, fun _ live _ => live, nofun, List.nodup_nil⟩

theorem perm (grown : Grown h₀ h blocks) (same : blocks.Perm blocks') : Grown h₀ h blocks' where
  fresh := grown.fresh
  kept := grown.kept
  old a live apart := grown.old a live fun there => apart (same.mem_iff.mp there)
  new a there := grown.new a (same.mem_iff.mpr there)
  distinct := same.nodup_iff.mp grown.distinct

/-- A block has a content. -/
theorem cell (grown : Grown h₀ h blocks) (there : a ∈ blocks) : ∃ x, h.cells a = some x :=
  Option.isSome_iff_exists.mp (grown.new a there).2

theorem lt (grown : Grown h₀ h blocks) (there : a ∈ blocks) : a < h.brk := by
  obtain ⟨x, cell⟩ := grown.cell there
  exact grown.fresh.lt cell

theorem length_le (grown : Grown h₀ h blocks) : blocks.length ≤ h.brk :=
  length_le_of_nodup grown.distinct fun _ => grown.lt

/-- An old cell is no block. -/
theorem not_mem {x : α} (grown : Grown h₀ h blocks) (cell : h₀.cells a = some x) : a ∉ blocks := by
  intro there
  rw [(grown.new a there).1] at cell
  cases cell

/-- Where no block is, everything is as it was. -/
theorem outside (grown : Grown h₀ h blocks) (apart : a ∉ blocks) : h.cells a = h₀.cells a := by
  cases before : h₀.cells a with
  | some x => exact grown.kept a x before
  | none =>
      refine Option.not_isSome_iff_eq_none.mp fun live => ?_
      have alive := grown.old a live apart
      rw [before] at alive
      cases alive

/-- A heap that grew twice. -/
theorem trans {h₁ : Heap α} (first : Grown h₀ h₁ blocks) (second : Grown h₁ h blocks') :
    Grown h₀ h (blocks ++ blocks') where
  fresh := second.fresh
  kept a x cell := second.kept a x (first.kept a x cell)
  old a live apart := by
    rw [List.mem_append, not_or] at apart
    exact first.old a (second.old a live apart.2) apart.1
  new a there := by
    rcases List.mem_append.mp there with there | there
    · obtain ⟨x, cell⟩ := first.cell there
      exact ⟨(first.new a there).1, by rw [second.kept a x cell]; rfl⟩
    · obtain ⟨fresh, live⟩ := second.new a there
      refine ⟨?_, live⟩
      cases before : h₀.cells a with
      | none => rfl
      | some x => exact absurd there (second.not_mem (first.kept a x before))
  distinct := by
    refine List.nodup_append.mpr ⟨first.distinct, second.distinct, ?_⟩
    rintro b there _ there' rfl
    obtain ⟨x, cell⟩ := first.cell there
    exact second.not_mem cell there'

/-- All blocks are released. -/
theorem eraseAll (grown : Grown h₀ h blocks) (a : Addr) :
    (h.eraseAll blocks).cells a = h₀.cells a := by
  by_cases there : a ∈ blocks
  · exact (eraseAll_mem there).trans (grown.new a there).1.symm
  · exact (eraseAll_cells there).trans (grown.outside there)

/-- Some of the blocks, as what a heap without them has more. -/
theorem split (grown : Grown h₀ h (blocks ++ blocks')) :
    Grown h₀ (h.eraseAll blocks') blocks ∧ Grown (h.eraseAll blocks') h blocks' := by
  obtain ⟨distinct, distinct', apart⟩ := List.nodup_append.mp grown.distinct
  constructor
  · refine ⟨grown.fresh.eraseAll _, fun a x cell => ?_, fun a live out => ?_, fun a there => ?_,
      distinct⟩
    · rw [eraseAll_cells fun there => grown.not_mem cell (List.mem_append_right _ there)]
      exact grown.kept a x cell
    · by_cases there : a ∈ blocks'
      · rw [eraseAll_mem there] at live
        cases live
      · rw [eraseAll_cells there] at live
        exact grown.old a live fun among => (List.mem_append.mp among).elim out there
    · obtain ⟨fresh, live⟩ := grown.new a (List.mem_append_left _ there)
      exact ⟨fresh, by rwa [eraseAll_cells fun there' => apart a there a there' rfl]⟩
  · refine ⟨grown.fresh, fun a x cell => ?_, fun a live out => ?_, fun a there => ?_, distinct'⟩
    · by_cases there : a ∈ blocks'
      · rw [eraseAll_mem there] at cell
        cases cell
      · rwa [eraseAll_cells there] at cell
    · rwa [eraseAll_cells out]
    · exact ⟨eraseAll_mem there, (grown.new a (List.mem_append_right _ there)).2⟩

/-- A block is made. -/
theorem push (grown : Grown h₀ h blocks) (x : α) : Grown h₀ (h.push x) (h.brk :: blocks) where
  fresh := grown.fresh.push x
  kept a y cell := grown.fresh.push_cells (grown.kept a y cell) x
  old a live apart := by
    rw [List.mem_cons, not_or] at apart
    have same : (h.push x).cells a = h.cells a := if_neg apart.1
    rw [same] at live
    exact grown.old a live apart.2
  new a there := by
    rcases List.mem_cons.mp there with rfl | there
    · refine ⟨?_, ?_⟩
      · cases cell : h₀.cells h.brk with
        | none => rfl
        | some y => exact absurd (grown.fresh.lt (grown.kept _ y cell)) (Nat.lt_irrefl _)
      · exact congrArg Option.isSome (if_pos rfl)
    · obtain ⟨y, cell⟩ := grown.cell there
      refine ⟨(grown.new a there).1, ?_⟩
      rw [grown.fresh.push_cells cell x]
      rfl
  distinct := List.nodup_cons.mpr ⟨fun there => Nat.lt_irrefl _ (grown.lt there), grown.distinct⟩

/-- A block is released. -/
theorem erase (grown : Grown h₀ h (a :: blocks)) : Grown h₀ (h.erase a) blocks where
  fresh := grown.fresh.erase a
  kept b x cell := by
    have apart : b ≠ a := fun same => grown.not_mem cell (same ▸ List.mem_cons_self)
    exact (if_neg apart).trans (grown.kept b x cell)
  old b live apart := by
    rw [erase_cells] at live
    split_ifs at live with same
    · cases live
    · exact grown.old b live fun there => (List.mem_cons.mp there).elim same apart
  new b there := by
    have apart : b ≠ a := fun same =>
      (List.nodup_cons.mp grown.distinct).1 (same ▸ there)
    obtain ⟨fresh, live⟩ := grown.new b (List.mem_cons_of_mem a there)
    exact ⟨fresh, by rwa [erase_cells, if_neg apart]⟩
  distinct := (List.nodup_cons.mp grown.distinct).2

/-- A block is made and released. -/
theorem push_erase (fresh : h₀.Fresh) (x : α) : Grown h₀ ((h₀.push x).erase h₀.brk) [] :=
  ((refl fresh).push x).erase

/-- Only the blocks are written to. -/
theorem changed (grown : Grown h₀ h blocks) (brk : h'.brk = h.brk)
    (live : ∀ a, (h'.cells a).isSome ↔ (h.cells a).isSome)
    (others : ∀ a ∉ blocks, h'.cells a = h.cells a) : Grown h₀ h' blocks where
  fresh a beyond := by
    rw [brk] at beyond
    rw [← Option.not_isSome_iff_eq_none, live, grown.fresh a beyond]
    exact Bool.false_ne_true
  kept a x cell := (others a (grown.not_mem cell)).trans (grown.kept a x cell)
  old a alive apart := grown.old a ((live a).mp alive) apart
  new a there := ⟨(grown.new a there).1, (live a).mpr (grown.new a there).2⟩
  distinct := grown.distinct

/-- A heap with the same cells. -/
theorem same (grown : Grown h₀ h blocks) (fresh : h'.Fresh) (cells : ∀ a, h'.cells a = h.cells a) :
    Grown h₀ h' blocks where
  fresh := fresh
  kept a x cell := (cells a).trans (grown.kept a x cell)
  old a live apart := grown.old a (cells a ▸ live) apart
  new a there := ⟨(grown.new a there).1, by rw [cells a]; exact (grown.new a there).2⟩
  distinct := grown.distinct

/-- A block is written to. -/
theorem set (grown : Grown h₀ h blocks) (there : a ∈ blocks) (x : α) :
    Grown h₀ (h.set a x) blocks := by
  refine grown.changed rfl (fun b => ?_) fun b apart => ?_
  · rw [set_cells]
    split_ifs with same
    · rw [same]
      exact iff_of_true rfl (grown.new a there).2
    · exact Iff.rfl
  · have other : b ≠ a := fun same => apart (same ▸ there)
    exact if_neg other

end Grown

end AcnSdk.Lib
