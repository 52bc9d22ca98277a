/-
Runs of operations on a property map.

* `propertyMapAdd_holds`, `propertyMapDelete_holds`, `propertyMapAssign_holds`,
  `propertyMapClear_holds` — what each operation makes of the list and of the blocks.
* `MapRepresents.op` — an operation does to the entries what is meant by it.
* `mapOps_meant` — so does every run, and it is told which blocks are lost.
-/

import AcnSdk.Data.OwnedList
import AcnSdk.Data.PropertyMap

namespace AcnSdk.Data

open AcnSdk.Lib Prog Heap

section

variable {N₀ : Heap PropertyMap} {h₀ : Heap Bytes} {h : MapHeap} {root : Option Addr}
  {slots : List Slot} {lost : List Addr}

/-! ### Operations -/

/-- A node keeps its properties when links are changed. -/
theorem cells_relinked {n n' : Heap PropertyMap} {nodes : List Addr} {a : Addr} {s : PropertyMap}
    (relinked : Relinked mapLink n n' nodes) (cell : n.cells a = some s) :
    ∃ next, n'.cells a = some ⟨s.key, s.value, next⟩ := by
  obtain ⟨⟨key, value, next⟩, cell', pair⟩ :=
    relinked.keeps (fun x => (x.key, x.value)) (fun _ _ => rfl) cell
  obtain ⟨rfl, rfl⟩ := Prod.mk.inj pair
  exact ⟨next, cell'⟩

/-- The nodes of a map. -/
theorem MapHolds.list (holds : MapHolds N₀ h₀ h root slots lost) :
    OwnedList mapLink N₀ h.nodes root (slots.map Slot.addr) :=
  ⟨holds.walk, holds.nodes⟩

theorem Arg.Given.mono {bytes : Heap Bytes} {a : Arg} {blocks : List Addr} (given : a.Given h₀)
    (grown : Grown h₀ bytes blocks) : Contains bytes a.property a.text :=
  given.contains.mono grown.kept

/-- `property_map_add` puts an entry at the end, if there is memory for it. -/
theorem propertyMapAdd_holds (holds : MapHolds N₀ h₀ h root slots lost) {key value : Arg}
    (key_given : key.Given h₀) (value_given : value.Given h₀) :
    ∃ root' h' s,
      propertyMapAdd true root key.property value.property h = .ok ((0, root'), h') ∧
      MapHolds N₀ h₀ h' root' (slots ++ [s]) lost ∧
      s.entry = ⟨key.text, value.text, decide key.property.Copied,
        decide value.property.Copied⟩ ∧
      ∀ a x, h.bytes.cells a = some x → h'.bytes.cells a = some x := by
  let el := h.nodes.brk
  obtain ⟨k, b₁, copy_key, keeps_key, grown₁, kept₁⟩ :=
    propertyCopy_grown key_given.usable (key_given.mono holds.blocks) holds.blocks
  obtain ⟨v, b₂, copy_value, keeps_value, grown₂, kept₂⟩ :=
    propertyCopy_grown value_given.usable (value_given.mono grown₁) grown₁
  let n₁ := h.nodes.push ⟨.init, .init, none⟩
  let n₂ := h.nodes.push ⟨k, .init, none⟩
  let n₃ := h.nodes.push ⟨k, v, none⟩
  obtain ⟨root', n₄, add, list, relinked⟩ := holds.list.add ⟨k, v, none⟩
  let s : Slot := ⟨el, k, v, ⟨key.text, value.text, decide key.property.Copied,
    decide value.property.Copied⟩⟩
  have made : onNodes (alloc ⟨.init, .init, none⟩) h = .ok (el, ⟨n₁, h.bytes⟩) := rfl
  have step₁ : onBytes (propertyCopy key.property) ⟨n₁, h.bytes⟩ = .ok (k, ⟨n₁, b₁⟩) :=
    onBytes_ok copy_key
  have step₂ : onNodes (update el fun s => { s with key := k }) ⟨n₁, b₁⟩ = .ok ((), ⟨n₂, b₁⟩) :=
    onNodes_ok (update_push h.nodes _ _)
  have step₃ : onBytes (propertyCopy value.property) ⟨n₂, b₁⟩ = .ok (v, ⟨n₂, b₂⟩) :=
    onBytes_ok copy_value
  have step₄ : onNodes (update el fun s => { s with value := v }) ⟨n₂, b₂⟩ = .ok ((), ⟨n₃, b₂⟩) :=
    onNodes_ok (update_push h.nodes _ _)
  have step₅ : onNodes (addNodeLast mapLink root el) ⟨n₃, b₂⟩ = .ok (root', ⟨n₄, b₂⟩) :=
    onNodes_ok add
  refine ⟨root', ⟨n₄, b₂⟩, s, ?_, ⟨?_, ?_, ?_, ?_, ?_⟩, rfl,
    fun a x cell => kept₂ a x (kept₁ a x cell)⟩
  · rw [propertyMapAdd, if_neg (by decide), bind_of_ok made, bind_of_ok step₁, bind_of_ok step₂,
      bind_of_ok step₃, bind_of_ok step₄, bind_of_ok step₅]
    rfl
  · rw [List.map_append]
    exact list.walk
  · refine List.forall_mem_append.mpr ⟨fun t there => ?_, List.forall_mem_singleton.mpr ?_⟩
    · obtain ⟨next, cell⟩ := holds.cells t there
      exact cells_relinked relinked (holds.nodes.fresh.push_cells cell _)
    · exact cells_relinked relinked (if_pos rfl)
  · refine List.forall_mem_append.mpr ⟨fun t there => ?_, List.forall_mem_singleton.mpr ?_⟩
    · obtain ⟨keeps, keeps'⟩ := holds.keeps t there
      exact ⟨(keeps.mono kept₁).mono kept₂, (keeps'.mono kept₁).mono kept₂⟩
    · exact ⟨keeps_key.mono kept₂, keeps_value⟩
  · rw [List.map_append]
    exact list.nodes
  · refine grown₂.perm (List.perm_iff_count.mpr fun a => ?_)
    simp only [List.flatMap_append, List.flatMap_singleton, List.count_append, Slot.owned, s]
    omega

section

variable {l r : List Slot} {s : Slot} {key : Property}

/-- `property_map_delete` takes a node out, whose blocks are lost. -/
theorem propertyMapDelete_holds (holds : MapHolds N₀ h₀ h root (l ++ s :: r) lost)
    (found : propertyMapFind root key h = .ok (some s.addr, h)) :
    ∃ root' h', propertyMapDelete root key h = .ok ((0, root'), h') ∧
      MapHolds N₀ h₀ h' root' (l ++ r) (s.owned ++ lost) ∧ h'.bytes = h.bytes := by
  have list := holds.list
  rw [List.map_append, List.map_cons] at list
  obtain ⟨root', n₁, unlink, ⟨x, cell⟩, list', relinked⟩ := list.del
  rw [← List.map_append] at list'
  have step₁ : onNodes (delNode mapLink root s.addr) h = .ok (root', ⟨n₁, h.bytes⟩) :=
    onNodes_ok unlink
  have step₂ : onNodes (free s.addr) ⟨n₁, h.bytes⟩ = .ok ((), ⟨n₁.erase s.addr, h.bytes⟩) :=
    onNodes_ok (free_eq cell)
  have other : ∀ t ∈ l ++ r, t.addr ≠ s.addr := by
    intro t there eq
    obtain ⟨y, live⟩ := list'.live (List.mem_map_of_mem there)
    rw [eq, erase_cells, if_pos rfl] at live
    cases live
  have among : ∀ t ∈ l ++ r, t ∈ l ++ s :: r := fun t there =>
    (List.Sublist.append_left (List.sublist_cons_self s r) l).mem there
  refine ⟨root', ⟨n₁.erase s.addr, h.bytes⟩, ?_, ⟨list'.walk, ?_, ?_, list'.nodes, ?_⟩, rfl⟩
  · rw [propertyMapDelete, bind_of_ok found]
    dsimp only
    rw [bind_of_ok step₁, bind_of_ok step₂]
    rfl
  · intro t there
    obtain ⟨next, before⟩ := holds.cells t (among t there)
    obtain ⟨next', after⟩ := cells_relinked relinked before
    exact ⟨next', (if_neg (other t there)).trans after⟩
  · exact fun t there => holds.keeps t (among t there)
  · refine holds.blocks.perm (List.perm_iff_count.mpr fun a => ?_)
    simp only [List.flatMap_append, List.flatMap_cons, List.count_append]
    omega

/-- `property_map_assign` gives a node another value. The blocks of the old one are lost. -/
theorem propertyMapAssign_holds (holds : MapHolds N₀ h₀ h root (l ++ s :: r) lost)
    (found : propertyMapFind root key h = .ok (some s.addr, h)) {value : Arg}
    (given : value.Given h₀) :
    ∃ h' s', propertyMapAssign root key value.property h = .ok (0, h') ∧
      MapHolds N₀ h₀ h' root (l ++ s' :: r) (s.value.owned.toList ++ lost) ∧
      s'.entry = { s.entry with
        value := value.text, ownValue := decide value.property.Copied } ∧
      ∀ a x, h.bytes.cells a = some x → h'.bytes.cells a = some x := by
  obtain ⟨v, b₁, copy, keeps, grown, kept⟩ :=
    propertyCopy_grown given.usable (given.mono holds.blocks) holds.blocks
  have here : s ∈ l ++ s :: r := List.mem_append_right l List.mem_cons_self
  obtain ⟨next, cell⟩ := holds.cells s here
  let n₁ := h.nodes.set s.addr ⟨s.key, v, next⟩
  let s' : Slot := { s with
    value := v
    entry := { s.entry with value := value.text, ownValue := decide value.property.Copied } }
  have step₁ : onBytes (propertyCopy value.property) h = .ok (v, ⟨h.nodes, b₁⟩) := onBytes_ok copy
  have step₂ : onNodes (update s.addr fun s => { s with value := v }) ⟨h.nodes, b₁⟩ =
      .ok ((), ⟨n₁, b₁⟩) := onNodes_ok (update_eq cell _)
  have addrs : (l ++ s' :: r).map Slot.addr = (l ++ s :: r).map Slot.addr := by
    rw [List.map_append, List.map_append]
    rfl
  have distinct := holds.nodes.distinct
  rw [List.map_append, List.map_cons] at distinct
  have other : ∀ t ∈ l ++ r, t.addr ≠ s.addr := fun t there eq =>
    (List.nodup_middle.mp distinct).notMem (by
      rw [← List.map_append]
      exact eq ▸ List.mem_map_of_mem there)
  have cases_of : ∀ t ∈ l ++ s' :: r, t = s' ∨ t ∈ l ++ r := by
    intro t there
    rcases List.mem_append.mp there with there | there
    · exact .inr (List.mem_append_left r there)
    · exact (List.mem_cons.mp there).imp_right (List.mem_append_right l)
  have among : ∀ t ∈ l ++ r, t ∈ l ++ s :: r := fun t there =>
    (List.Sublist.append_left (List.sublist_cons_self s r) l).mem there
  refine ⟨⟨n₁, b₁⟩, s', ?_, ⟨?_, ?_, ?_, ?_, ?_⟩, rfl, kept⟩
  · rw [propertyMapAssign, bind_of_ok found]
    dsimp only
    rw [bind_of_ok step₁, bind_of_ok step₂]
    rfl
  · rw [addrs]
    refine holds.walk.congr fun a _ => ?_
    by_cases same : a = s.addr
    · have after : n₁.cells s.addr = some ⟨s.key, v, next⟩ := if_pos rfl
      rw [same, nextIn, nextIn, cell, after]
      rfl
    · exact congrArg (Option.bind · mapLink.next) (if_neg same)
  · intro t there
    rcases cases_of t there with rfl | there
    · exact ⟨next, if_pos rfl⟩
    · obtain ⟨next', before⟩ := holds.cells t (among t there)
      exact ⟨next', (if_neg (other t there)).trans before⟩
  · intro t there
    rcases cases_of t there with rfl | there
    · exact ⟨(holds.keeps s here).key.mono kept, keeps⟩
    · obtain ⟨keeps, keeps'⟩ := holds.keeps t (among t there)
      exact ⟨keeps.mono kept, keeps'.mono kept⟩
  · rw [addrs]
    exact holds.nodes.set (List.mem_map_of_mem here) _
  · refine grown.perm (List.perm_iff_count.mpr fun a => ?_)
    simp only [List.flatMap_append, List.flatMap_cons, List.count_append, Slot.owned, s']
    omega

end

/-! ### Clearing -/

/-- A property is released, with the block that it owns. -/
theorem propertyFree_grown {p : Property} {bytes : Heap Bytes} {blocks : List Addr}
    (value : p.value.isSome) (grown : Grown h₀ bytes (p.owned.toList ++ blocks)) :
    ∃ bytes', propertyFree p bytes = .ok (.init, bytes') ∧ Grown h₀ bytes' blocks := by
  obtain ⟨a, value⟩ := Option.isSome_iff_exists.mp value
  rw [propertyFree]
  by_cases owner : p.isOwner = true ∧ p.tag = dynamicTag
  · have owned : p.owned = some a := by rw [Property.owned, if_pos owner, value]
    rw [owned] at grown
    obtain ⟨x, cell⟩ := grown.cell List.mem_cons_self
    refine ⟨bytes.erase a, ?_, grown.erase⟩
    rw [if_pos owner, dynmcDestroy, if_pos owner.1, value]
    simp only [bind_apply, deref_some, ok_bind, free_eq cell, pure_apply]
  · have owned : p.owned = none := by rw [Property.owned, if_neg owner]
    rw [owned] at grown
    rw [if_neg owner]
    exact ⟨bytes, rfl, grown⟩

/-- The loop of `property_map_clear` releases all nodes and their blocks. -/
theorem clearFrom_holds {p : Option Addr}
    (walk : Walk (nextIn mapLink h.nodes) p (slots.map Slot.addr))
    (cells : ∀ s ∈ slots, ∃ next, h.nodes.cells s.addr = some ⟨s.key, s.value, next⟩)
    (values : ∀ s ∈ slots, s.key.value.isSome ∧ s.value.value.isSome)
    (nodes : Grown N₀ h.nodes (slots.map Slot.addr))
    (blocks : Grown h₀ h.bytes (slots.flatMap Slot.owned ++ lost)) (fuel : Nat)
    (enough : slots.length < fuel) :
    ∃ h', clearFrom fuel p h = .ok ((), h') ∧ MapHolds N₀ h₀ h' none [] lost := by
  obtain ⟨fuel, rfl⟩ := Nat.exists_eq_succ_of_ne_zero (Nat.ne_zero_of_lt enough)
  induction slots generalizing h p fuel with
  | nil =>
      cases walk
      exact ⟨h, rfl, rfl, nofun, nofun, nodes, blocks⟩
  | cons s slots ih =>
      obtain ⟨rfl, rest⟩ := walk
      obtain ⟨next, cell⟩ := cells s List.mem_cons_self
      obtain ⟨key_value, value_value⟩ := values s List.mem_cons_self
      have step : nextIn mapLink h.nodes s.addr = next := by
        rw [nextIn, cell]
        rfl
      rw [step] at rest
      rw [List.flatMap_cons, Slot.owned, List.append_assoc, List.append_assoc] at blocks
      obtain ⟨b₁, free_key, blocks₁⟩ := propertyFree_grown key_value blocks
      obtain ⟨b₂, free_value, blocks₂⟩ := propertyFree_grown value_value blocks₁
      let n₁ := h.nodes.set s.addr ⟨.init, s.value, next⟩
      let n₂ := n₁.set s.addr ⟨.init, .init, next⟩
      have cell₁ : n₁.cells s.addr = some ⟨.init, s.value, next⟩ := if_pos rfl
      have cell₂ : n₂.cells s.addr = some ⟨.init, .init, next⟩ := if_pos rfl
      have nodes' : Grown N₀ (n₂.erase s.addr) (slots.map Slot.addr) :=
        ((nodes.set List.mem_cons_self _).set List.mem_cons_self _).erase
      have distinct : s.addr ∉ slots.map Slot.addr := (List.nodup_cons.mp nodes.distinct).1
      have same : ∀ a ∈ slots.map Slot.addr, (n₂.erase s.addr).cells a = h.nodes.cells a := by
        intro a there
        have ne : a ≠ s.addr := fun eq => distinct (eq ▸ there)
        exact (if_neg ne).trans ((if_neg ne).trans (if_neg ne))
      obtain ⟨fuel, rfl⟩ : ∃ n, fuel = n + 1 := by
        refine Nat.exists_eq_succ_of_ne_zero ?_
        rw [List.length_cons] at enough
        omega
      obtain ⟨h', loop, holds⟩ := ih (h := ⟨n₂.erase s.addr, b₂⟩)
        (rest.congr fun a there => congrArg (Option.bind · mapLink.next) (same a there))
        (fun t there => by
          obtain ⟨next, cell⟩ := cells t (List.mem_cons_of_mem s there)
          exact ⟨next, (same _ (List.mem_map_of_mem there)).trans cell⟩)
        (fun t there => values t (List.mem_cons_of_mem s there)) nodes' blocks₂ fuel
        (Nat.lt_of_succ_lt_succ enough)
      have step₁ : onBytes (propertyFree s.key) h = .ok (.init, ⟨h.nodes, b₁⟩) :=
        onBytes_ok free_key
      have step₂ : onNodes (update s.addr fun s => { s with key := .init }) ⟨h.nodes, b₁⟩ =
          .ok ((), ⟨n₁, b₁⟩) := onNodes_ok (update_eq cell _)
      have step₃ : onBytes (propertyFree s.value) ⟨n₁, b₁⟩ = .ok (.init, ⟨n₁, b₂⟩) :=
        onBytes_ok free_value
      have step₄ : onNodes (update s.addr fun s => { s with value := .init }) ⟨n₁, b₂⟩ =
          .ok ((), ⟨n₂, b₂⟩) := onNodes_ok (update_eq cell₁ _)
      have step₅ : onNodes (free s.addr) ⟨n₂, b₂⟩ = .ok ((), ⟨n₂.erase s.addr, b₂⟩) :=
        onNodes_ok (free_eq cell₂)
      refine ⟨h', ?_, holds⟩
      rw [clearFrom, bind_of_ok (onNodes_ok (read_eq cell)), bind_of_ok step₁, bind_of_ok step₂,
        bind_of_ok step₃, bind_of_ok step₄, bind_of_ok step₅]
      exact loop

/-- `property_map_clear` needs the nodes and what they own. -/
theorem propertyMapClear_cleared (walk : Walk (nextIn mapLink h.nodes) root (slots.map Slot.addr))
    (cells : ∀ s ∈ slots, ∃ next, h.nodes.cells s.addr = some ⟨s.key, s.value, next⟩)
    (values : ∀ s ∈ slots, s.key.value.isSome ∧ s.value.value.isSome)
    (nodes : Grown N₀ h.nodes (slots.map Slot.addr))
    (blocks : Grown h₀ h.bytes (slots.flatMap Slot.owned ++ lost)) :
    ∃ h', propertyMapClear root h = .ok ((if slots = [] then -1 else 0, none), h') ∧
      MapHolds N₀ h₀ h' none [] lost := by
  have first := walk.start_eq
  cases slots with
  | nil =>
      cases first
      exact ⟨h, rfl, rfl, nofun, nofun, nodes, blocks⟩
  | cons s slots =>
      have few := nodes.length_le
      rw [List.length_map] at few
      obtain ⟨h', loop, holds⟩ :=
        clearFrom_holds walk cells values nodes blocks (h.nodes.brk + 2) (by omega)
      refine ⟨h', ?_, holds⟩
      have some_root : root ≠ none := by
        rw [first]
        exact Option.some_ne_none _
      rw [propertyMapClear, if_neg some_root, bind_of_ok (onNodes_ok (bound_apply h.nodes)),
        bind_of_ok loop, if_neg (List.cons_ne_nil s slots)]
      rfl

theorem Slot.Keeps.mono {bytes bytes' : Heap Bytes} {s : Slot} (keeps : s.Keeps bytes)
    (kept : ∀ a x, bytes.cells a = some x → bytes'.cells a = some x) : s.Keeps bytes' :=
  ⟨keeps.key.mono kept, keeps.value.mono kept⟩

/-- Both properties of a node have values. -/
theorem Slot.Keeps.values {bytes : Heap Bytes} {s : Slot} (keeps : s.Keeps bytes) :
    s.key.value.isSome ∧ s.value.value.isSome := by
  obtain ⟨⟨⟨-, a, -, key, -⟩, -, -⟩, ⟨⟨-, b, -, value, -⟩, -, -⟩⟩ := keeps
  rw [key, value]
  exact ⟨rfl, rfl⟩

/-- `property_map_clear` leaves an empty map, and loses nothing. -/
theorem propertyMapClear_holds (holds : MapHolds N₀ h₀ h root slots lost) :
    ∃ h', propertyMapClear root h = .ok ((if slots = [] then -1 else 0, none), h') ∧
      MapHolds N₀ h₀ h' none [] lost :=
  propertyMapClear_cleared holds.walk holds.cells (fun t there => (holds.keeps t there).values)
    holds.nodes holds.blocks

/-! ### Runs -/

/-- The look-up of an entry is that of its node. -/
theorem find_entry (slots : List Slot) (key : Bytes) :
    (slots.map Slot.entry).find? (Entry.Has key) =
      (slots.find? fun s => s.entry.Has key).map Slot.entry := List.find?_map

theorem assignFirst_split {key value : Bytes} {own : Bool} {l r : List Entry} {e : Entry}
    (before : ∀ d ∈ l, d.Has key = false) (here : e.Has key = true) :
    assignFirst key value own (l ++ e :: r) =
      l ++ { e with value := value, ownValue := own } :: r := by
  induction l with
  | nil => rw [List.nil_append, assignFirst, if_pos here, List.nil_append]
  | cons d l ih =>
      have other : ¬ d.Has key = true := by
        rw [before d List.mem_cons_self]
        decide
      rw [List.cons_append, assignFirst, if_neg other,
        ih fun d there => before d (List.mem_cons_of_mem _ there), List.cons_append]

theorem MapHolds.length_owned {s : Slot} (holds : MapHolds N₀ h₀ h root slots lost)
    (there : s ∈ slots) :
    s.key.owned.toList.length = s.entry.ownKey.toNat ∧
      s.value.owned.toList.length = s.entry.ownValue.toNat := by
  have each (o : Option Addr) : o.toList.length = o.isSome.toNat := by cases o <;> rfl
  obtain ⟨key, value⟩ := holds.keeps s there
  rw [each, each, key.owned, value.owned]
  exact ⟨rfl, rfl⟩

/-- What a look-up in a map finds, with the nodes before it. -/
theorem find_cases (slots : List Slot) (key : Bytes) :
    ((slots.find? fun s => s.entry.Has key) = none ∧
        (slots.map Slot.entry).find? (Entry.Has key) = none) ∨
      ∃ l s r, slots = l ++ s :: r ∧ (slots.find? fun s => s.entry.Has key) = some s ∧
        (slots.map Slot.entry).find? (Entry.Has key) = some s.entry ∧ s.entry.Has key = true ∧
        ∀ d ∈ l.map Slot.entry, d.Has key = false := by
  rw [find_entry]
  cases found : slots.find? fun s => s.entry.Has key with
  | none => exact .inl ⟨rfl, rfl⟩
  | some s =>
      obtain ⟨here, l, r, split, before⟩ := List.find?_eq_some_iff_append.mp found
      refine .inr ⟨l, s, r, split, rfl, rfl, here, fun d there => ?_⟩
      obtain ⟨t, among, rfl⟩ := List.mem_map.mp there
      simpa using before t among

/-- An operation does what is meant by it, and only clearing releases texts. -/
theorem MapRepresents.op {m : Meaning} (represents : MapRepresents N₀ h₀ h root m) {op : MapOp}
    (given : op.Given h₀) :
    ∃ root' h', op.run root h = .ok (((op.meant m).1, root'), h') ∧
      MapRepresents N₀ h₀ h' root' (op.meant m).2 ∧
      (op ≠ .clear → ∀ a x, h.bytes.cells a = some x → h'.bytes.cells a = some x) := by
  obtain ⟨slots, lost, holds, entries, count⟩ := represents
  cases op with
  | add key value granted =>
      cases granted with
      | false =>
          exact ⟨root, h, rfl, ⟨slots, lost, holds, entries, count⟩, fun _ _ _ cell => cell⟩
      | true =>
          obtain ⟨root', h', s, run, holds', entry, kept⟩ :=
            propertyMapAdd_holds holds given.1 given.2
          refine ⟨root', h', run, ⟨slots ++ [s], lost, holds', ?_, count⟩, fun _ => kept⟩
          rw [List.map_append, entries, List.map_singleton, entry]
          rfl
  | delete key =>
      have find := propertyMapFind_eq holds given
      rw [MapOp.meant, ← entries]
      obtain ⟨none, none'⟩ | ⟨l, s, r, rfl, found, found', here, before⟩ :=
        find_cases slots key.text
      · rw [none] at find
        rw [none']
        refine ⟨root, h, ?_, ⟨slots, lost, holds, entries, count⟩, fun _ _ _ cell => cell⟩
        rw [MapOp.run, propertyMapDelete, bind_of_ok find]
        rfl
      · rw [found] at find
        obtain ⟨root', h', run, holds', bytes⟩ := propertyMapDelete_holds holds find
        obtain ⟨own_key, own_value⟩ := holds.length_owned (s := s)
          (List.mem_append_right l List.mem_cons_self)
        rw [found']
        refine ⟨root', h', run, ⟨l ++ r, s.owned ++ lost, holds', ?_, ?_⟩,
          fun _ _ _ cell => bytes ▸ cell⟩
        · have none_before : ∀ d ∈ l.map Slot.entry, ¬ d.Has key.text = true := fun d there => by
            rw [before d there]
            decide
          dsimp only
          rw [List.map_append, List.map_append, List.map_cons,
            List.eraseP_append_right _ none_before, List.eraseP_cons_of_pos here]
        · rw [List.length_append, Slot.owned, List.length_append, own_key, own_value, count]
          exact Nat.add_comm _ _
  | assign key value =>
      have find := propertyMapFind_eq holds given.1
      rw [MapOp.meant, ← entries]
      obtain ⟨none, none'⟩ | ⟨l, s, r, rfl, found, found', here, before⟩ :=
        find_cases slots key.text
      · rw [none] at find
        rw [none']
        refine ⟨root, h, ?_, ⟨slots, lost, holds, entries, count⟩, fun _ _ _ cell => cell⟩
        have assign : propertyMapAssign root key.property value.property h = .ok (-1, h) := by
          rw [propertyMapAssign, bind_of_ok find]
          rfl
        rw [MapOp.run, bind_of_ok assign]
        rfl
      · rw [found] at find
        obtain ⟨h', s', assign, holds', entry, kept⟩ := propertyMapAssign_holds holds find given.2
        obtain ⟨-, own_value⟩ := holds.length_owned (s := s)
          (List.mem_append_right l List.mem_cons_self)
        rw [found']
        refine ⟨root, h', ?_, ⟨l ++ s' :: r, s.value.owned.toList ++ lost, holds', ?_, ?_⟩,
          fun _ => kept⟩
        · rw [MapOp.run, bind_of_ok assign]
          rfl
        · dsimp only
          rw [List.map_append, List.map_append, List.map_cons, List.map_cons,
            assignFirst_split before here, entry]
        · rw [List.length_append, own_value, count]
          exact Nat.add_comm _ _
  | clear =>
      obtain ⟨h', clear, holds'⟩ := propertyMapClear_holds holds
      rw [MapOp.meant]
      have empty_iff : m.entries = [] ↔ slots = [] := by rw [← entries, List.map_eq_nil_iff]
      by_cases empty : slots = []
      · rw [if_pos (empty_iff.mpr empty)]
        rw [if_pos empty] at clear
        exact ⟨none, h', clear, ⟨[], lost, holds', (empty_iff.mpr empty).symm, count⟩,
          fun other => absurd rfl other⟩
      · rw [if_neg fun none => empty (empty_iff.mp none)]
        rw [if_neg empty] at clear
        exact ⟨none, h', clear, ⟨[], lost, holds', rfl, count⟩, fun other => absurd rfl other⟩

/-- Operations one after the other: what they return, and the root. -/
def mapOps : Option Addr → List MapOp → Prog MapHeap (List Int × Option Addr)
  | root, [] => return ([], root)
  | root, op :: ops => do
      let (rc, root) ← op.run root
      let (rcs, root) ← mapOps root ops
      return (rc :: rcs, root)

/-- What is meant by them. -/
def mapOpsMeant : Meaning → List MapOp → List Int × Meaning
  | m, [] => ([], m)
  | m, op :: ops =>
      let rest := mapOpsMeant (op.meant m).2 ops
      ((op.meant m).1 :: rest.1, rest.2)

theorem mapOps_represents {m : Meaning} (represents : MapRepresents N₀ h₀ h root m)
    {ops : List MapOp} (given : ∀ op ∈ ops, op.Given h₀) :
    ∃ root' h', mapOps root ops h = .ok (((mapOpsMeant m ops).1, root'), h') ∧
      MapRepresents N₀ h₀ h' root' (mapOpsMeant m ops).2 := by
  induction ops generalizing h root m with
  | nil => exact ⟨root, h, rfl, represents⟩
  | cons op ops ih =>
      obtain ⟨root₁, h₁, run, represents₁, -⟩ :=
        represents.op (given op List.mem_cons_self)
      obtain ⟨root', h', rest, represents'⟩ :=
        ih represents₁ fun o there => given o (List.mem_cons_of_mem op there)
      refine ⟨root', h', ?_, represents'⟩
      rw [mapOps, bind_of_ok run]
      dsimp only
      rw [bind_of_ok rest]
      rfl

/-- An empty map. -/
theorem represents_nil (nodes : N₀.Fresh) (bytes : h₀.Fresh) :
    MapRepresents N₀ h₀ ⟨N₀, h₀⟩ none ⟨[], 0⟩ :=
  ⟨[], [], ⟨rfl, nofun, nofun, .refl nodes, .refl bytes⟩, rfl, rfl⟩

/-- A look-up gives the first entry with the key, and its value. -/
theorem MapRepresents.find {m : Meaning} (represents : MapRepresents N₀ h₀ h root m) {key : Arg}
    (there : key.Read h₀) :
    ∃ found, propertyMapFind root key.property h = .ok (found, h) ∧
      match m.entries.find? (Entry.Has key.text) with
      | none => found = none
      | some e => ∃ a s, found = some a ∧ h.nodes.cells a = some s ∧
          Contains h.bytes s.key key.text ∧ Contains h.bytes s.value e.value := by
  obtain ⟨slots, lost, holds, entries, -⟩ := represents
  refine ⟨_, propertyMapFind_eq holds there, ?_⟩
  rw [← entries]
  obtain ⟨none, none'⟩ | ⟨l, s, r, rfl, found, found', here, -⟩ := find_cases slots key.text
  · rw [none, none']
    rfl
  · rw [found, found']
    have among : s ∈ l ++ s :: r := List.mem_append_right l List.mem_cons_self
    obtain ⟨next, cell⟩ := holds.cells s among
    obtain ⟨key_keeps, value_keeps⟩ := holds.keeps s among
    have same : s.entry.key = key.text := of_decide_eq_true here
    refine ⟨s.addr, ⟨s.key, s.value, next⟩, rfl, cell, ?_, value_keeps.contains⟩
    rw [← same]
    exact key_keeps.contains

/-- What was made and not released is the blocks of the entries, and those that were lost. -/
theorem MapRepresents.blocks {m : Meaning} (represents : MapRepresents N₀ h₀ h root m) :
    ∃ owned lost, Grown h₀ h.bytes (owned ++ lost) ∧
      owned.length = (m.entries.map Entry.blocks).sum ∧ lost.length = m.lost := by
  obtain ⟨slots, lost, holds, entries, count⟩ := represents
  refine ⟨slots.flatMap Slot.owned, lost, holds.blocks, ?_, count⟩
  rw [List.length_flatMap, ← entries, List.map_map]
  refine congrArg List.sum (List.map_congr_left fun s there => ?_)
  obtain ⟨own_key, own_value⟩ := holds.length_owned there
  rw [Function.comp_apply, Entry.blocks, Slot.owned, List.length_append, own_key, own_value]

/-- From an empty map on, any run returns what is meant by it, and finds the first entry with a key
and its value. Besides the caller's own blocks there are then those of the entries, and what was
lost: the blocks of every entry deleted, and those of every value assigned to. -/
theorem mapOps_meant (nodes : N₀.Fresh) (bytes : h₀.Fresh) (ops : List MapOp)
    (given : ∀ op ∈ ops, op.Given h₀) :
    ∃ root h', mapOps none ops ⟨N₀, h₀⟩ = .ok (((mapOpsMeant ⟨[], 0⟩ ops).1, root), h') ∧
      (∀ key : Arg, key.Read h₀ → ∃ found, propertyMapFind root key.property h' = .ok (found, h') ∧
        match (mapOpsMeant ⟨[], 0⟩ ops).2.entries.find? (Entry.Has key.text) with
        | none => found = none
        | some e => ∃ a s, found = some a ∧ h'.nodes.cells a = some s ∧
            Contains h'.bytes s.key key.text ∧ Contains h'.bytes s.value e.value) ∧
      ∃ owned lost, Grown h₀ h'.bytes (owned ++ lost) ∧
        owned.length = ((mapOpsMeant ⟨[], 0⟩ ops).2.entries.map Entry.blocks).sum ∧
        lost.length = (mapOpsMeant ⟨[], 0⟩ ops).2.lost := by
  obtain ⟨root, h', run, represents⟩ := mapOps_represents (represents_nil nodes bytes) given
  exact ⟨root, h', run, fun key there => represents.find there, represents.blocks⟩

end

/-- Two texts. -/
def twoTexts : Heap Bytes := (Heap.push ⟨fun _ => none, 0⟩ [0x61, 0]).push [0x62, 0]

/-- An entry is added, one is refused, the first gets another value, and is deleted: two blocks are
lost. -/
theorem mapOps_meant_lost :
    ∃ root h', mapOps none [.add ⟨.const 0 1, [0x61]⟩ ⟨.heap 1 1, [0x62]⟩ true,
        .add ⟨.const 0 1, [0x61]⟩ ⟨.heap 1 1, [0x62]⟩ false,
        .assign ⟨.const 0 1, [0x61]⟩ ⟨.stack 0 1, [0x61]⟩, .delete ⟨.stack 0 1, [0x61]⟩]
        ⟨⟨fun _ => none, 0⟩, twoTexts⟩ = .ok (([0, -1, 0, 0], root), h') ∧
      ∃ owned lost, Grown twoTexts h'.bytes (owned ++ lost) ∧ owned.length = 0 ∧
        lost.length = 2 := by
  have fresh : (⟨fun _ => none, 0⟩ : Heap Bytes).Fresh := fun _ _ => rfl
  have a : Contains twoTexts (.const 0 1) [0x61] := ⟨by decide, 0, [0], rfl, rfl, rfl⟩
  have b : Contains twoTexts (.heap 1 1) [0x62] := ⟨by decide, 1, [0], rfl, rfl, rfl⟩
  have a' : Contains twoTexts (.stack 0 1) [0x61] := ⟨by decide, 0, [0], rfl, rfl, rfl⟩
  have read : Arg.Read twoTexts ⟨.const 0 1, [0x61]⟩ := ⟨by decide, 0, [], rfl, rfl⟩
  have given : ∀ op ∈ ([.add ⟨.const 0 1, [0x61]⟩ ⟨.heap 1 1, [0x62]⟩ true,
      .add ⟨.const 0 1, [0x61]⟩ ⟨.heap 1 1, [0x62]⟩ false, .assign ⟨.const 0 1, [0x61]⟩
        ⟨.stack 0 1, [0x61]⟩, .delete ⟨.stack 0 1, [0x61]⟩] : List MapOp),
      op.Given twoTexts := by
    intro op there
    simp only [List.mem_cons, List.not_mem_nil, or_false] at there
    rcases there with rfl | rfl | rfl | rfl
    · exact ⟨⟨⟨.inl rfl, nofun⟩, a⟩, ⟨⟨.inr (.inl rfl), nofun⟩, b⟩⟩
    · exact ⟨⟨⟨.inl rfl, nofun⟩, a⟩, ⟨⟨.inr (.inl rfl), nofun⟩, b⟩⟩
    · exact ⟨read, ⟨⟨.inr (.inr rfl), nofun⟩, a'⟩⟩
    · exact ⟨by decide, 0, [], rfl, rfl⟩
  have nodes : (⟨fun _ => none, 0⟩ : Heap PropertyMap).Fresh := fun _ _ => rfl
  obtain ⟨root, h', run, -, blocks⟩ := mapOps_meant nodes ((fresh.push _).push _) _ given
  exact ⟨root, h', run, blocks⟩

end AcnSdk.Data
