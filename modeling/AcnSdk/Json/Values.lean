/-
What the functions of `src/json/json.c` that build a JSON tree are for.

Values are made one after the other, and an array or an object is a sequence of values. Every
value is part of one other value at most, and it has a name as long as that is an object.

* `Values.insert` — a value becomes part of another one.
* `Values.remove` — a value is taken out of the one that it is part of.
* `Values.find` — the first member of a name.
-/

import AcnSdk.Json.Node
import AcnSdk.Lib.Forest

namespace AcnSdk.Json

open AcnSdk.Lib

variable {ι : Type}

/-- The values that were made, the values that each is made of, and their names. -/
structure Values (ι : Type) where
  kind : ι → Option JsonTag
  forest : Forest ι
  name : ι → Option Bytes
  made : ∀ {c p}, c ∈ forest.children p → kind c ≠ none
  unnamed : ∀ {c}, forest.IsRoot c → name c = none
  named : ∀ {c p}, c ∈ forest.children p →
    kind p = some .array ∧ name c = none ∨ kind p = some .object ∧ name c ≠ none

namespace Values

/-- No value. -/
def empty : Values ι where
  kind _ := none
  forest := .empty
  name _ := none
  made child := absurd child List.not_mem_nil
  unnamed _ := rfl
  named child := absurd child List.not_mem_nil

/-- The members of an object and the elements of an array. -/
abbrev children (v : Values ι) : ι → List ι := v.forest.children

/-- Where a value may go: an array takes it without a name, an object under one. -/
def Takes (v : Values ι) (p : ι) (label : Option Bytes) : Prop :=
  v.kind p = some .array ∧ label = none ∨ v.kind p = some .object ∧ label ≠ none

/-- The value `c` can become a part of `p`. -/
structure Insertable (v : Values ι) (p c : ι) (label : Option Bytes) : Prop where
  takes : v.Takes p label
  made : v.kind c ≠ none
  root : v.forest.IsRoot c
  outside : ¬ v.forest.Inside p c

section

variable [DecidableEq ι]

/-- A value is made, unless there is one already. -/
def make (v : Values ι) (a : ι) (tag : JsonTag) : Values ι where
  kind b := (v.kind b).or (if b = a then some tag else none)
  forest := v.forest
  name := v.name
  made {c p} child := by
    obtain ⟨k, kind⟩ := Option.ne_none_iff_exists'.mp (v.made child)
    rw [kind]
    exact Option.some_ne_none k
  unnamed := v.unnamed
  named {c p} child := by
    rcases v.named child with ⟨kind, rest⟩ | ⟨kind, rest⟩
    · exact .inl ⟨by rw [kind]; rfl, rest⟩
    · exact .inr ⟨by rw [kind]; rfl, rest⟩

/-- The value `c` becomes a part of `p`, whose parts are `cs` then. -/
def insert (v : Values ι) (p c : ι) (label : Option Bytes) (cs : List ι)
    (more : cs.Perm (c :: v.children p)) (fit : v.Insertable p c label) : Values ι where
  kind := v.kind
  forest := v.forest.attach p c cs more fit.root fit.outside
  name b := if b = c then label else v.name b
  made {b q} child := by
    rcases (Forest.mem_attached more).mp child with old | ⟨rfl, -⟩
    · exact v.made old
    · exact fit.made
  unnamed {b} root := by
    obtain ⟨top, ne⟩ := (Forest.isRoot_attach_iff more fit.root fit.outside).mp root
    rw [if_neg ne]
    exact v.unnamed top
  named {b q} child := by
    rcases (Forest.mem_attached more).mp child with old | ⟨rfl, rfl⟩
    · have ne : b ≠ c := fun eq => fit.root q (eq ▸ old)
      rw [if_neg ne]
      exact v.named old
    · rw [if_pos rfl]
      exact fit.takes

/-- The value becomes the last part of `p`. -/
def append (v : Values ι) (p c : ι) (label : Option Bytes) (fit : v.Insertable p c label) :
    Values ι :=
  v.insert p c label (v.children p ++ [c]) (List.perm_append_singleton c _) fit

/-- The value becomes the first part of `p`. -/
def prepend (v : Values ι) (p c : ι) (label : Option Bytes) (fit : v.Insertable p c label) :
    Values ι :=
  v.insert p c label (c :: v.children p) (.refl _) fit

/-- The value is taken out of what it is part of. -/
def remove (v : Values ι) (c : ι) : Values ι where
  kind := v.kind
  forest := v.forest.detach c
  name b := if b = c then none else v.name b
  made child := v.made (Forest.mem_detached.mp child).1
  unnamed {b} root := by
    split_ifs with eq
    · rfl
    · exact v.unnamed ((Forest.isRoot_detach_iff.mp root).resolve_right eq)
  named {b q} child := by
    obtain ⟨old, ne⟩ := Forest.mem_detached.mp child
    rw [if_neg ne]
    exact v.named old

end

/-- The first member of an object that has the name. -/
def find (v : Values ι) (o : ι) (name : Bytes) : Option ι :=
  if v.kind o = some .object then (v.children o).find? fun c => v.name c == some name else none

/-- The element of an array at the index. -/
def element (v : Values ι) (a : ι) (index : Int) : Option ι :=
  if v.kind a = some .array ∧ 0 ≤ index then (v.children a)[index.toNat]? else none

end Values

end AcnSdk.Json
