/-
The keys of the nodes, and the names that they are.

A node owns the text of its key or borrows one that is not released as long as it has it. So no
key points to a text that another one owns.

* `propertyMove_kept`, `propertyCopy_kept` — a key that is handed over keeps its name.
* `Naming.take` — a node that takes a key has its name then, and the others keep theirs.
* `Naming.release` — a node whose key is released has no name.
* `propertyCmp_eq` — keys are compared by their names.
-/

import AcnSdk.Json.Pointers

namespace AcnSdk.Json.Pointers

open AcnSdk.Lib Prog Heap Data

variable {ν : Type}

/-- The C string at an address. -/
def Text (texts : Heap Bytes) (a : Addr) (s : Bytes) : Prop :=
  0 ∉ s ∧ ∃ rest, texts.cells a = some (s ++ 0 :: rest)

/-- The key is the name. NULL is none. -/
def Spells (texts : Heap Bytes) (key : Property) : Option Bytes → Prop
  | none => key = .init
  | some s => key.isRaw = false ∧ ∃ a, key.value = some a ∧ Text texts a s

/-- The text that `property_free` releases. -/
def releases (key : Property) : Option Addr :=
  if key.isOwner ∧ (key.tag = dynamicTag ∨ key.tag = jsonTag) then key.value else none

/-- The keys of the nodes are the names, and only its owner can release a text. -/
structure Naming (m : Memory ν) (name : Addr → Option Bytes) : Prop where
  fresh : m.texts.Fresh
  spells : ∀ {c x}, m.nodes.cells c = some x → Spells m.texts x.key (name c)
  apart : ∀ {c d x y a}, m.nodes.cells c = some x → m.nodes.cells d = some y → c ≠ d →
    releases x.key = some a → y.key.value ≠ some a

theorem Spells.congr {texts texts' : Heap Bytes} {key : Property} {name : Option Bytes}
    (spells : Spells texts key name)
    (same : ∀ a, key.value = some a → texts'.cells a = texts.cells a) : Spells texts' key name := by
  cases name with
  | none => exact spells
  | some s =>
      obtain ⟨raw, a, value, plain, rest, cell⟩ := spells
      exact ⟨raw, a, value, plain, rest, (same a value).trans cell⟩

theorem value_of_releases {key : Property} {a : Addr} (owns : releases key = some a) :
    key.value = some a := by
  rw [releases] at owns
  split_ifs at owns
  exact owns

/-! ### Keys that are handed over -/

/-- A key of the caller: a C string, as a property of one of the four types. Where the node is
to have its text, no other node has. -/
structure Given (m : Memory ν) (shared : Prop) (key : Property) (s : Bytes) : Prop where
  type : key.tag = constTag ∨ key.tag = dynamicTag ∨ key.tag = stackTag ∨ key.tag = jsonTag
  spells : Spells m.texts key (some s)
  borrowed : shared → ∀ {d y a}, m.nodes.cells d = some y → releases y.key = some a →
    key.value ≠ some a
  owned : shared → ∀ {d y a}, m.nodes.cells d = some y → releases key = some a →
    y.key.value ≠ some a

/-- `json_append_member` takes over the text, unless it is on the stack. -/
def Moves (key : Property) : Prop := key.tag ≠ stackTag

/-- `json_prepend_member` copies the text, unless it is constant or not the caller's own. -/
def Borrows (key : Property) : Prop :=
  key.tag = constTag ∨ key.tag = dynamicTag ∧ key.isOwner = false

/-- What a key becomes in the node: its text, or a copy of it. -/
inductive Kept (texts : Heap Bytes) (shared : Prop) (key : Property) (s : Bytes) :
    Property → Heap Bytes → Prop where
  | same {key' : Property} (sharing : shared) (value : key'.value = key.value)
      (raw : key'.isRaw = false) (owner : ∀ a, releases key' = some a → releases key = some a) :
      Kept texts shared key s key' texts
  | copied {key' : Property} (value : key'.value = some texts.brk) (raw : key'.isRaw = false) :
      Kept texts shared key s key' (texts.push (s ++ [0]))

section

variable {m : Memory ν} {texts : Heap Bytes} {key : Property} {s : Bytes}

/-- `property_move` keeps the name of a key. -/
theorem propertyMove_kept (dst : Property) (given : Given m (Moves key) key s) :
    ∃ key' src' texts', propertyMove dst key m.texts = .ok ((key', src'), texts') ∧
      Kept m.texts (Moves key) key s key' texts' := by
  obtain ⟨raw, a, value, plain, rest, cell⟩ := given.spells
  have copied : strdup a m.texts = .ok (m.texts.brk, m.texts.push (s ++ [0])) :=
    strdup_eq cell plain
  rcases given.type with const | dynamic | stack | json
  · refine ⟨constCopy key, .init, m.texts, ?_, .same ?_ rfl rfl ?_⟩
    · simp [propertyMove, const, jsonTag, constTag, Data.propertyMove, Data.propertyFree,
        dynamicTag]
    · simp [Moves, const, constTag, stackTag]
    · simp [releases, constCopy, constTag, dynamicTag, jsonTag]
  · refine ⟨⟨key.value, dynamicTag, false, key.isOwner, key.size⟩, .init, m.texts, ?_,
      .same ?_ rfl rfl ?_⟩
    · simp [propertyMove, dynamic, jsonTag, constTag, Data.propertyMove, Data.propertyFree,
        dynamicTag, dynmcMove]
    · simp [Moves, dynamic, dynamicTag, stackTag]
    · simp [releases, dynamic]
  · refine ⟨⟨some m.texts.brk, dynamicTag, false, true, key.size⟩, .init, _, ?_, .copied rfl rfl⟩
    simp [propertyMove, stack, jsonTag, constTag, Data.propertyMove, Data.propertyFree, dynamicTag,
      stackTag, stackCopy, dynmcCopy, value, raw, copied]
  · refine ⟨⟨key.value, jsonTag, false, key.isOwner, key.size⟩, .init, m.texts, ?_,
      .same ?_ rfl rfl ?_⟩
    · simp [propertyMove, json, jsonMove, propertyFree, Data.propertyFree]
    · simp [Moves, json, jsonTag, stackTag]
    · simp [releases, json]

/-- `property_copy` keeps the name of a key. -/
theorem propertyCopy_kept (given : Given m (Borrows key) key s) :
    ∃ key' texts', propertyCopy key m.texts = .ok (key', texts') ∧
      Kept m.texts (Borrows key) key s key' texts' := by
  obtain ⟨raw, a, value, plain, rest, cell⟩ := given.spells
  have copied : strdup a m.texts = .ok (m.texts.brk, m.texts.push (s ++ [0])) :=
    strdup_eq cell plain
  rcases given.type with const | dynamic | stack | json
  · refine ⟨constCopy key, m.texts, ?_, .same (.inl const) rfl rfl ?_⟩
    · simp [propertyCopy, const, jsonTag, constTag, Data.propertyCopy]
    · simp [releases, constCopy, constTag, dynamicTag, jsonTag]
  · cases owner : key.isOwner with
    | false =>
        refine ⟨⟨key.value, key.tag, key.isRaw, key.isOwner, key.size⟩, m.texts, ?_,
          .same (.inr ⟨dynamic, owner⟩) rfl raw fun a owns => owns⟩
        simp [propertyCopy, dynamic, jsonTag, constTag, Data.propertyCopy, dynamicTag,
          dynmcCopy, owner]
    | true =>
        refine ⟨⟨some m.texts.brk, dynamicTag, false, true, key.size⟩, _, ?_, .copied rfl rfl⟩
        simp [propertyCopy, dynamic, jsonTag, constTag, Data.propertyCopy, dynamicTag, dynmcCopy,
          owner, value, raw, copied]
  · refine ⟨⟨some m.texts.brk, dynamicTag, false, true, key.size⟩, _, ?_, .copied rfl rfl⟩
    simp [propertyCopy, stack, jsonTag, constTag, Data.propertyCopy, dynamicTag,
      stackTag, stackCopy, dynmcCopy, value, raw, copied]
  · refine ⟨⟨some m.texts.brk, jsonTag, false, true, key.size⟩, _, ?_, .copied rfl rfl⟩
    simp [propertyCopy, json, jsonCopy, jsonStrdup, value, copied]

/-- The texts without the one that the key owns. -/
def released (texts : Heap Bytes) (key : Property) : Heap Bytes :=
  match releases key with
  | some a => texts.erase a
  | none => texts

/-- `property_free` releases the text of the key, and nothing else. -/
theorem propertyFree_eq {name : Option Bytes} (spells : Spells texts key name) :
    propertyFree key texts = .ok (.init, released texts key) := by
  cases name with
  | none =>
      rw [spells]
      rfl
  | some s =>
      obtain ⟨-, a, value, -, rest, cell⟩ := spells
      by_cases owner : key.isOwner = true
      · by_cases json : key.tag = jsonTag
        · have owns : releases key = some a := (if_pos ⟨owner, .inr json⟩).trans value
          simp [propertyFree, owner, json, jsonDestroy, value, free_eq cell, released, owns]
        · by_cases dynamic : key.tag = dynamicTag
          · have owns : releases key = some a := (if_pos ⟨owner, .inl dynamic⟩).trans value
            have other : dynamicTag ≠ jsonTag := by decide
            simp [propertyFree, owner, dynamic, other, Data.propertyFree, dynmcDestroy, value,
              free_eq cell, released, owns]
          · have idle : releases key = none := if_neg (by simp [json, dynamic])
            simp [propertyFree, json, Data.propertyFree, dynamic, released, idle]
      · have idle : releases key = none := if_neg fun both => owner both.1
        simp [propertyFree, Data.propertyFree, owner, released, idle]

theorem released_cells {a : Addr} (kept : releases key ≠ some a) :
    (released texts key).cells a = texts.cells a := by
  rw [released]
  split
  · next b owns =>
      have ne : a ≠ b := fun eq => kept (by rw [owns, eq])
      exact if_neg ne
  · rfl

theorem released_fresh (fresh : texts.Fresh) : (released texts key).Fresh := by
  intro a beyond
  rw [released] at beyond ⊢
  split at beyond
  · rw [erase_cells]
    split_ifs
    · rfl
    · exact fresh a beyond
  · exact fresh a beyond

/-! ### Names -/

namespace Naming

variable {name : Addr → Option Bytes} {g : Addr → Node ν → Node ν} {c : Addr}

/-- Changes that leave the keys alone. -/
theorem adjust (naming : Naming m name) (same : ∀ a y, (g a y).key = y.key) :
    Naming { m with nodes := m.nodes.adjust g } name where
  fresh := naming.fresh
  spells {a x'} cell' := by
    obtain ⟨x, cell, rfl⟩ := Option.map_eq_some_iff.mp cell'
    rw [same]
    exact naming.spells cell
  apart {a b x' y' t} cell_a' cell_b' ne owns := by
    obtain ⟨x, cell_a, rfl⟩ := Option.map_eq_some_iff.mp cell_a'
    obtain ⟨y, cell_b, rfl⟩ := Option.map_eq_some_iff.mp cell_b'
    rw [same] at owns ⊢
    exact naming.apart cell_a cell_b ne owns

/-- Another heap of texts that holds those of the keys. -/
theorem elsewhere {texts' : Heap Bytes} (naming : Naming m name) (fresh : texts'.Fresh)
    (same : ∀ {d y a}, m.nodes.cells d = some y → y.key.value = some a →
      texts'.cells a = m.texts.cells a) : Naming { m with texts := texts' } name where
  fresh := fresh
  spells cell := (naming.spells cell).congr fun _ value => same cell value
  apart := naming.apart

/-- A new node has no name. -/
theorem push {x : Node ν} (naming : Naming m name) (key : x.key = .init)
    (unnamed : name m.nodes.brk = none) : Naming { m with nodes := m.nodes.push x } name where
  fresh := naming.fresh
  spells {a y} cell := by
    by_cases eq : a = m.nodes.brk
    · subst eq
      cases (if_pos rfl : (m.nodes.push x).cells m.nodes.brk = some x).symm.trans cell
      rw [unnamed]
      exact key
    · exact naming.spells ((if_neg eq).symm.trans cell)
  apart {a b y z t} cell cell' ne owns := by
    by_cases eq : a = m.nodes.brk
    · subst eq
      cases (if_pos rfl : (m.nodes.push x).cells m.nodes.brk = some x).symm.trans cell
      rw [key] at owns
      cases owns
    · by_cases eq' : b = m.nodes.brk
      · subst eq'
        cases (if_pos rfl : (m.nodes.push x).cells m.nodes.brk = some x).symm.trans cell'
        rw [key]
        exact (Option.some_ne_none t).symm
      · exact naming.apart ((if_neg eq).symm.trans cell) ((if_neg eq').symm.trans cell') ne owns

/-- One node gets another key, and the texts of the other keys stay. -/
theorem rekey {key' : Property} {label : Option Bytes} {texts' : Heap Bytes}
    (naming : Naming m name)
    (set : ∀ a y, (g a y).key = if a = c then key' else y.key) (fresh : texts'.Fresh)
    (kept : ∀ {d y a}, d ≠ c → m.nodes.cells d = some y → y.key.value = some a →
      texts'.cells a = m.texts.cells a)
    (spells : Spells texts' key' label)
    (borrowed : ∀ {d y a}, d ≠ c → m.nodes.cells d = some y → releases y.key = some a →
      key'.value ≠ some a)
    (owned : ∀ {d y a}, d ≠ c → m.nodes.cells d = some y → releases key' = some a →
      y.key.value ≠ some a) :
    Naming ⟨m.nodes.adjust g, texts'⟩ (fun b => if b = c then label else name b) where
  fresh := fresh
  spells {a x'} cell' := by
    obtain ⟨x, cell, rfl⟩ := Option.map_eq_some_iff.mp cell'
    rw [set]
    split_ifs with eq
    · exact spells
    · exact (naming.spells cell).congr fun t value => kept eq cell value
  apart {a b x' y' t} cell_a' cell_b' ne owns := by
    obtain ⟨x, cell_a, rfl⟩ := Option.map_eq_some_iff.mp cell_a'
    obtain ⟨y, cell_b, rfl⟩ := Option.map_eq_some_iff.mp cell_b'
    rw [set] at owns ⊢
    by_cases eq_a : a = c
    · have eq_b : b ≠ c := fun eq => ne (eq_a.trans eq.symm)
      rw [if_pos eq_a] at owns
      rw [if_neg eq_b]
      exact owned eq_b cell_b owns
    · rw [if_neg eq_a] at owns
      split_ifs with eq_b
      · exact borrowed eq_a cell_a owns
      · exact naming.apart cell_a cell_b ne owns

/-- The texts of the keys are live. -/
theorem value_live (naming : Naming m name) {d a : Addr} {y : Node ν}
    (cell : m.nodes.cells d = some y) (value : y.key.value = some a) :
    ∃ block, m.texts.cells a = some block := by
  have spells := naming.spells cell
  cases named : name d with
  | none =>
      rw [named] at spells
      rw [spells] at value
      cases value
  | some s =>
      rw [named] at spells
      obtain ⟨-, b, value', -, rest, block⟩ := spells
      rw [Option.some.inj (value.symm.trans value')]
      exact ⟨_, block⟩

/-- A node takes a key that was handed over. -/
theorem take {shared : Prop} {key' : Property} {texts' : Heap Bytes} (naming : Naming m name)
    (given : Given m shared key s) (kept : Kept m.texts shared key s key' texts')
    (set : ∀ a y, (g a y).key = if a = c then key' else y.key) :
    Naming ⟨m.nodes.adjust g, texts'⟩ (fun b => if b = c then some s else name b) := by
  obtain ⟨raw, a, value, plain, rest, cell⟩ := given.spells
  cases kept with
  | same sharing value' raw' owner =>
      refine naming.rekey set naming.fresh (fun _ _ _ => rfl) ?_ ?_ ?_
      · exact ⟨raw', a, value'.trans value, plain, rest, cell⟩
      · intro d y b _ cell_d owns
        rw [value']
        exact given.borrowed sharing cell_d owns
      · exact fun _ cell_d owns => given.owned sharing cell_d (owner _ owns)
  | copied value' raw' =>
      have new : ∀ {d y b}, m.nodes.cells d = some y → y.key.value = some b → b ≠ m.texts.brk := by
        intro d y b cell_d value_d
        obtain ⟨block, live⟩ := naming.value_live cell_d value_d
        exact Nat.ne_of_lt (naming.fresh.lt live)
      refine naming.rekey set (naming.fresh.push _) ?_ ?_ ?_ ?_
      · exact fun _ cell_d value_d => if_neg (new cell_d value_d)
      · exact ⟨raw', m.texts.brk, value', plain, [], if_pos rfl⟩
      · intro d y b _ cell_d owns eq
        exact new cell_d (value_of_releases owns) (Option.some.inj (value'.symm.trans eq)).symm
      · intro d y b _ cell_d owns eq
        have same : b = m.texts.brk :=
          Option.some.inj ((value_of_releases owns).symm.trans value')
        exact new cell_d eq same

/-- A node whose key is released has no name. -/
theorem release {x : Node ν} (naming : Naming m name) (cell : m.nodes.cells c = some x)
    (set : ∀ a y, (g a y).key = if a = c then .init else y.key) :
    Naming ⟨m.nodes.adjust g, released m.texts x.key⟩
      (fun b => if b = c then none else name b) := by
  refine naming.rekey set (released_fresh naming.fresh) ?_ rfl ?_ ?_
  · intro d y a ne cell_d value
    exact released_cells fun owns => naming.apart cell cell_d ne.symm owns value
  · intro d y a _ _ _ eq
    cases eq
  · intro d y a _ _ owns
    cases owns

end Naming

/-! ### Comparing names -/

/-- `property_cmp` compares the name of a key with a text. -/
theorem propertyCmp_eq {name : Property} {t : Bytes} {a : Addr}
    (spells : Spells texts key (some s)) (value : name.value = some a) (text : Text texts a t) :
    propertyCmp key name texts = .ok (if s = t then 0 else -1, texts) := by
  obtain ⟨plain, rest, cell⟩ := text
  obtain ⟨raw, b, value', plain', rest', cell'⟩ := spells
  simp only [propertyCmp, raw, Bool.false_eq_true, if_false, value, value', bind_apply, deref_some,
    ok_bind, stringAt_eq cell' plain', stringAt_eq cell plain, pure_apply, strcmp_eq_zero_iff]

end

end AcnSdk.Json.Pointers
