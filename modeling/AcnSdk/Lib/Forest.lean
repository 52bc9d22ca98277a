/-
Ordered forests.

A node has a sequence of children, no node is a child twice or of two nodes, and none lies inside
itself. A root can be made a child of any node that does not lie inside it, and a child can be
made a root.

* `Forest.attach`, `Forest.mem_attached` — a root becomes a child.
* `Forest.detach`, `Forest.mem_detached` — a child becomes a root.
-/

import Mathlib.Data.List.Nodup
import Mathlib.Data.List.Perm.Basic
import Mathlib.Logic.Relation
import Mathlib.Tactic.Common

namespace AcnSdk.Lib

open Relation

variable {ν : Type}

/-- The first node is a child of the second one. -/
def ChildOf (children : ν → List ν) (c p : ν) : Prop := c ∈ children p

@[ext] structure Forest (ν : Type) where
  children : ν → List ν
  nodup : ∀ p, (children p).Nodup
  single : ∀ {p q c}, c ∈ children p → c ∈ children q → p = q
  acyclic : ∀ a, ¬ TransGen (ChildOf children) a a

namespace Forest

/-- No node has children. -/
def empty : Forest ν where
  children _ := []
  nodup _ := List.nodup_nil
  single inside := absurd inside List.not_mem_nil
  acyclic a cycle := by
    obtain ⟨b, -, last⟩ := TransGen.tail'_iff.mp cycle
    exact List.not_mem_nil last

/-- The node is no child. -/
def IsRoot (f : Forest ν) (c : ν) : Prop := ∀ p, c ∉ f.children p

/-- The first node lies in the tree below the second one, or is that node. -/
def Inside (f : Forest ν) : ν → ν → Prop := ReflTransGen (ChildOf f.children)

theorem not_inside_child {f : Forest ν} {c p : ν} (child : c ∈ f.children p) : ¬ f.Inside p c :=
  fun inside => f.acyclic c (TransGen.head' child inside)

theorem child_ne {f : Forest ν} {c p : ν} (child : c ∈ f.children p) : c ≠ p :=
  fun eq => not_inside_child child (eq ▸ ReflTransGen.refl)

/-- A node below a child is no other child of the same node. -/
theorem not_sibling_of_inside {f : Forest ν} {c d p : ν} (child : c ∈ f.children p)
    (inside : f.Inside d c) (below : d ≠ c) : d ∉ f.children p := by
  intro sibling
  rcases ReflTransGen.cases_head inside with eq | ⟨q, step, rest⟩
  · exact below eq
  · have same : q = p := f.single step sibling
    subst same
    exact not_inside_child child rest

section Change

variable [DecidableEq ν]

/-- The children with those of one node replaced. -/
def replaced (f : Forest ν) (p : ν) (cs : List ν) : ν → List ν :=
  fun q => if q = p then cs else f.children q

@[simp] theorem replaced_self (f : Forest ν) (p : ν) (cs : List ν) : f.replaced p cs p = cs :=
  if_pos rfl

theorem replaced_ne (f : Forest ν) {p q : ν} (cs : List ν) (ne : q ≠ p) :
    f.replaced p cs q = f.children q :=
  if_neg ne

variable {f : Forest ν} {p c : ν} {cs : List ν}

/-- After a root became a child, it is one of its parent, and the others are what they were. -/
theorem mem_attached (more : cs.Perm (c :: f.children p)) {a b : ν} :
    a ∈ f.replaced p cs b ↔ a ∈ f.children b ∨ a = c ∧ b = p := by
  by_cases eq : b = p
  · subst eq
    rw [replaced_self, more.mem_iff, List.mem_cons, or_comm, and_iff_left rfl]
  · rw [replaced_ne f cs eq, or_iff_left fun new => eq new.2]

/-- A way up either was there before, or goes through the new child and its parent. -/
theorem transGen_attached (more : cs.Perm (c :: f.children p)) (outside : ¬ f.Inside p c) {a b : ν}
    (way : TransGen (ChildOf (f.replaced p cs)) a b) :
    TransGen (ChildOf f.children) a b ∨ f.Inside a c ∧ f.Inside p b := by
  induction way with
  | single step =>
      rcases (mem_attached more).mp step with old | ⟨rfl, rfl⟩
      · exact .inl (.single old)
      · exact .inr ⟨.refl, .refl⟩
  | tail _ step ih =>
      rcases (mem_attached more).mp step with old | ⟨rfl, rfl⟩
      · rcases ih with before | ⟨low, high⟩
        · exact .inl (before.tail old)
        · exact .inr ⟨low, high.tail old⟩
      · rcases ih with before | ⟨-, high⟩
        · exact .inr ⟨before.to_reflTransGen, .refl⟩
        · exact absurd high outside

/-- A root becomes a child of `p`, whose children are `cs` then. -/
def attach (f : Forest ν) (p c : ν) (cs : List ν) (more : cs.Perm (c :: f.children p))
    (root : f.IsRoot c) (outside : ¬ f.Inside p c) : Forest ν where
  children := f.replaced p cs
  nodup q := by
    by_cases eq : q = p
    · rw [eq, replaced_self, more.nodup_iff]
      exact List.nodup_cons.mpr ⟨root p, f.nodup p⟩
    · rw [replaced_ne f cs eq]
      exact f.nodup q
  single {q q' d} child child' := by
    rcases (mem_attached more).mp child with old | ⟨rfl, rfl⟩
    · rcases (mem_attached more).mp child' with old' | ⟨rfl, rfl⟩
      · exact f.single old old'
      · exact absurd old (root q)
    · rcases (mem_attached more).mp child' with old' | ⟨-, rfl⟩
      · exact absurd old' (root q')
      · rfl
  acyclic a cycle := by
    rcases transGen_attached more outside cycle with before | ⟨low, high⟩
    · exact f.acyclic a before
    · exact outside (high.trans low)

/-- When a node became a root, the other children are what they were. -/
theorem mem_detached {a b : ν} : a ∈ (f.children b).erase c ↔ a ∈ f.children b ∧ a ≠ c := by
  rw [(f.nodup b).mem_erase_iff, and_comm]

/-- A child becomes a root, and a root stays one. -/
def detach (f : Forest ν) (c : ν) : Forest ν where
  children p := (f.children p).erase c
  nodup p := (f.nodup p).erase c
  single child child' := f.single (mem_detached.mp child).1 (mem_detached.mp child').1
  acyclic a cycle := by
    have before : TransGen (ChildOf f.children) a a :=
      TransGen.mono (fun _ _ child => (mem_detached.mp child).1) a a cycle
    exact f.acyclic a before

@[simp] theorem attach_children (f : Forest ν) (p c : ν) (cs : List ν)
    (more : cs.Perm (c :: f.children p)) (root : f.IsRoot c) (outside : ¬ f.Inside p c) :
    (f.attach p c cs more root outside).children = f.replaced p cs := rfl

@[simp] theorem detach_children (f : Forest ν) (c p : ν) :
    (f.detach c).children p = (f.children p).erase c := rfl

theorem detach_root (root : f.IsRoot c) : f.detach c = f := by
  ext p : 2
  exact List.erase_of_not_mem (root p)

theorem isRoot_detach_iff {a : ν} : (f.detach c).IsRoot a ↔ f.IsRoot a ∨ a = c := by
  constructor
  · intro root
    refine or_iff_not_imp_right.mpr fun ne p child => ?_
    exact root p (mem_detached.mpr ⟨child, ne⟩)
  · rintro (root | rfl) p child
    · exact root p (mem_detached.mp child).1
    · exact (mem_detached.mp child).2 rfl

theorem isRoot_attach_iff (more : cs.Perm (c :: f.children p)) (root : f.IsRoot c)
    (outside : ¬ f.Inside p c) {a : ν} :
    (f.attach p c cs more root outside).IsRoot a ↔ f.IsRoot a ∧ a ≠ c := by
  constructor
  · intro top
    refine ⟨fun q child => top q ((mem_attached more).mpr (.inl child)), ?_⟩
    rintro rfl
    exact top p ((mem_attached more).mpr (.inr ⟨rfl, rfl⟩))
  · rintro ⟨top, ne⟩ q child
    rcases (mem_attached more).mp child with old | ⟨rfl, -⟩
    · exact top q old
    · exact ne rfl

end Change

end Forest

end AcnSdk.Lib
