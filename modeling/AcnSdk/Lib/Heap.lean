/-
A heap of cells of one type, with released cells.

A cell that is made gets an address of its own, so that a pointer to a released cell
stays one. The lemmas are what a proof needs to run a program on a heap it knows some
cells of.
-/

import AcnSdk.Lib.Prog
import Mathlib.Data.Finset.Card
import Mathlib.Data.Finset.Range

namespace AcnSdk.Lib

abbrev Addr := Nat

/-- Distinct addresses below a bound are at most as many as the bound. -/
theorem length_le_of_nodup {l : List Addr} {n : Nat} (nodup : l.Nodup) (lt : ∀ a ∈ l, a < n) :
    l.length ≤ n := by
  rw [← List.toFinset_card_of_nodup nodup, ← Finset.card_range n]
  refine Finset.card_le_card fun a ha => ?_
  rw [Finset.mem_range]
  exact lt a (List.mem_toFinset.mp ha)

/-- The live cells, and the address of the next cell to be made. -/
structure Heap (α : Type) where
  cells : Addr → Option α
  brk : Nat

/-- Programs over a heap. -/
abbrev HeapM (α : Type) := Prog (Heap α)

namespace Heap

export Prog (pure_apply bind_apply map_apply throw_apply ok_bind error_bind)

variable {α β : Type}

/-- The heap with `x` stored at `a`. -/
def set (h : Heap α) (a : Addr) (x : α) : Heap α :=
  { h with cells := fun b => if b = a then some x else h.cells b }

/-- The heap without the cell at `a`. -/
def erase (h : Heap α) (a : Addr) : Heap α :=
  { h with cells := fun b => if b = a then none else h.cells b }

/-- A pointer that is about to be followed. -/
def deref (p : Option β) : HeapM α β :=
  match p with
  | some b => pure b
  | none => throw .nullPointer

def read (a : Addr) : HeapM α α := fun h =>
  match h.cells a with
  | some x => .ok (x, h)
  | none => .error .released

def write (a : Addr) (x : α) : HeapM α Unit := fun h =>
  match h.cells a with
  | some _ => .ok ((), h.set a x)
  | none => .error .released

/-- Assign fields of the cell at `a`. -/
def update (a : Addr) (f : α → α) : HeapM α Unit := do
  let x ← read a
  write a (f x)

def alloc (x : α) : HeapM α Addr := fun h =>
  .ok (h.brk, { cells := fun b => if b = h.brk then some x else h.cells b, brk := h.brk + 1 })

def free (a : Addr) : HeapM α Unit := fun h =>
  match h.cells a with
  | some _ => .ok ((), h.erase a)
  | none => .error .released

/-- More steps than a walk over distinct cells can take. -/
def bound : HeapM α Nat := fun h => .ok (h.brk + 2, h)

def check (b : Bool) : HeapM α Unit := if b then pure () else throw .assertion

/-! ### Running a program -/

@[simp] theorem bound_apply (h : Heap α) : (bound : HeapM α Nat) h = .ok (h.brk + 2, h) := rfl

@[simp] theorem deref_some (b : β) (h : Heap α) : (deref (some b) : HeapM α β) h = .ok (b, h) := rfl

@[simp] theorem check_true (h : Heap α) : (check true : HeapM α Unit) h = .ok ((), h) := rfl

@[simp] theorem set_cells (h : Heap α) (a : Addr) (x : α) (b : Addr) :
    (h.set a x).cells b = if b = a then some x else h.cells b := rfl

@[simp] theorem set_brk (h : Heap α) (a : Addr) (x : α) : (h.set a x).brk = h.brk := rfl

@[simp] theorem erase_cells (h : Heap α) (a b : Addr) :
    (h.erase a).cells b = if b = a then none else h.cells b := rfl

@[simp] theorem erase_brk (h : Heap α) (a : Addr) : (h.erase a).brk = h.brk := rfl

theorem read_eq {h : Heap α} {a : Addr} {x : α} (hx : h.cells a = some x) :
    read a h = .ok (x, h) := by
  simp only [read, hx]

theorem write_eq {h : Heap α} {a : Addr} {x : α} (hx : h.cells a = some x) (y : α) :
    write a y h = .ok ((), h.set a y) := by
  simp only [write, hx]

theorem update_eq {h : Heap α} {a : Addr} {x : α} (hx : h.cells a = some x) (f : α → α) :
    update a f h = .ok ((), h.set a (f x)) := by
  simp only [update, bind_apply, read_eq hx, ok_bind, write_eq hx]

theorem free_eq {h : Heap α} {a : Addr} {x : α} (hx : h.cells a = some x) :
    free a h = .ok ((), h.erase a) := by
  simp only [free, hx]

/-- The heap with one cell more. -/
def push (h : Heap α) (x : α) : Heap α where
  cells b := if b = h.brk then some x else h.cells b
  brk := h.brk + 1

/-- No cell lies where the next ones will be made. -/
def Fresh (h : Heap α) : Prop := ∀ a, h.brk ≤ a → h.cells a = none

theorem Fresh.lt {h : Heap α} {a : Addr} {x : α} (fresh : h.Fresh) (cell : h.cells a = some x) :
    a < h.brk := by
  by_contra beyond
  rw [fresh a (Nat.not_lt.mp beyond)] at cell
  cases cell

/-- Where nothing is new there is nothing beyond the mark. -/
theorem Fresh.of_old {h h' : Heap α} (fresh : h.Fresh) (brk : h'.brk = h.brk)
    (old : ∀ a x, h'.cells a = some x → ∃ y, h.cells a = some y) : h'.Fresh := by
  intro a beyond
  cases cell : h'.cells a with
  | none => rfl
  | some x =>
      obtain ⟨y, before⟩ := old a x cell
      exact absurd (fresh.lt before) (Nat.not_lt.mpr (brk ▸ beyond))

theorem Fresh.push {h : Heap α} (fresh : h.Fresh) (x : α) : (h.push x).Fresh := by
  intro a beyond
  have above : h.brk < a := beyond
  exact (if_neg (Nat.ne_of_gt above)).trans (fresh a (Nat.le_of_lt above))

/-- Cells stay as they are where a cell is made behind them. -/
theorem Fresh.push_cells {h : Heap α} {a : Addr} {x : α} (fresh : h.Fresh)
    (cell : h.cells a = some x) (y : α) : (h.push y).cells a = some x :=
  (if_neg (Nat.ne_of_lt (fresh.lt cell))).trans cell

theorem Fresh.set {h : Heap α} {a : Addr} {x : α} (fresh : h.Fresh) (cell : h.cells a = some x)
    (y : α) : (h.set a y).Fresh := by
  intro b beyond
  have other : b ≠ a := Nat.ne_of_gt (Nat.lt_of_lt_of_le (fresh.lt cell) beyond)
  exact (if_neg other).trans (fresh b beyond)

theorem Fresh.erase {h : Heap α} (fresh : h.Fresh) (a : Addr) : (h.erase a).Fresh := by
  intro b beyond
  rw [erase_cells, fresh b beyond, ite_self]

theorem alloc_eq (h : Heap α) (x : α) : alloc x h = .ok (h.brk, h.push x) := rfl

/-- Storing to the cell that was just made. -/
theorem update_push (h : Heap α) (x : α) (f : α → α) :
    update h.brk f (h.push x) = .ok ((), h.push (f x)) := by
  have new : (h.push x).cells h.brk = some x := if_pos rfl
  have same : (h.push x).set h.brk (f x) = h.push (f x) := by
    simp only [set, push, mk.injEq, and_true]
    funext b
    split <;> rfl
  rw [update_eq new, same]

/-- The heap without the cells at `as`. -/
def eraseAll (h : Heap α) (as : List Addr) : Heap α :=
  { h with cells := fun b => if b ∈ as then none else h.cells b }

@[simp] theorem eraseAll_nil (h : Heap α) : h.eraseAll [] = h := by
  obtain ⟨cells, brk⟩ := h
  rfl

theorem eraseAll_append (h : Heap α) (as bs : List Addr) :
    h.eraseAll (as ++ bs) = (h.eraseAll as).eraseAll bs := by
  simp only [eraseAll, mk.injEq, and_true]
  funext b
  by_cases inside : b ∈ bs
  · rw [if_pos inside, if_pos (List.mem_append_right as inside)]
  · rw [if_neg inside]
    exact if_congr (List.mem_append.trans (or_iff_left inside)) rfl rfl

theorem erase_eq_eraseAll (h : Heap α) (a : Addr) : h.erase a = h.eraseAll [a] := by
  simp only [erase, eraseAll, List.mem_singleton]

theorem eraseAll_cells {h : Heap α} {a : Addr} {as : List Addr} (apart : a ∉ as) :
    (h.eraseAll as).cells a = h.cells a :=
  if_neg apart

theorem eraseAll_mem {h : Heap α} {a : Addr} {as : List Addr} (mem : a ∈ as) :
    (h.eraseAll as).cells a = none :=
  if_pos mem

/-- Storing twice at one address. -/
@[simp] theorem set_set (h : Heap α) (a : Addr) (x y : α) : (h.set a x).set a y = h.set a y := by
  simp only [set, mk.injEq, and_true]
  funext b
  split <;> rfl

/-- Storing what is there already. -/
theorem set_self {h : Heap α} {a : Addr} {x : α} (hx : h.cells a = some x) : h.set a x = h := by
  obtain ⟨cells, brk⟩ := h
  simp only [set, mk.injEq, and_true]
  funext b
  split
  · next eq => rw [eq]; exact hx.symm
  · rfl

/-! ### Assigning fields -/

/-- Every cell under a change that knows its address. -/
def adjust (h : Heap α) (g : Addr → α → α) : Heap α :=
  { h with cells := fun a => (h.cells a).map (g a) }

/-- The change of one cell. -/
def only (a : Addr) (f : α → α) : Addr → α → α := fun b x => if b = a then f x else x

@[simp] theorem adjust_cells (h : Heap α) (g : Addr → α → α) (a : Addr) :
    (h.adjust g).cells a = (h.cells a).map (g a) := rfl

@[simp] theorem adjust_brk (h : Heap α) (g : Addr → α → α) : (h.adjust g).brk = h.brk := rfl

theorem adjust_adjust (h : Heap α) (g g' : Addr → α → α) :
    (h.adjust g).adjust g' = h.adjust fun a x => g' a (g a x) := by
  simp only [adjust, mk.injEq, and_true]
  funext a
  exact Option.map_map (g' a) (g a) (h.cells a)

theorem adjust_live {h : Heap α} {g : Addr → α → α} {a : Addr} {x : α} (cell : h.cells a = some x) :
    (h.adjust g).cells a = some (g a x) := by
  rw [adjust_cells, cell, Option.map_some]

theorem Fresh.adjust {h : Heap α} (fresh : h.Fresh) (g : Addr → α → α) : (h.adjust g).Fresh := by
  intro a beyond
  rw [adjust_cells, fresh a beyond, Option.map_none]

/-- Assignments are changes, and changes compose. -/
theorem update_adjust {h : Heap α} {a : Addr} {x : α} (cell : h.cells a = some x) (f : α → α) :
    update a f h = .ok ((), h.adjust (only a f)) := by
  have same : h.set a (f x) = h.adjust (only a f) := by
    simp only [set, Heap.adjust, mk.injEq, and_true]
    funext b
    by_cases eq : b = a
    · rw [if_pos eq, eq, cell, Option.map_some, only, if_pos rfl]
    · have idle : only a f b = id := by
        funext y
        exact if_neg eq
      rw [if_neg eq, idle, Option.map_id_fun, id_eq]
  rw [update_eq cell, same]

end Heap

end AcnSdk.Lib
