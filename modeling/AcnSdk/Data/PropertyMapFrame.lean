/-
A property map beside other data.

The heaps of a map may hold other nodes and other blocks as well. To the map they are part of what
was there before.

* `Beside.op` — an operation on the map does what is meant by it, and leaves the others alone.
* `clear_beside` — and so does clearing it, for which the texts need not be there.
-/

import AcnSdk.Data.PropertyMapRuns

namespace AcnSdk.Data

open AcnSdk.Lib Prog Heap

/-- The nodes of a map. -/
structure MapNodes (n : Heap PropertyMap) (root : Option Addr) (slots : List Slot) : Prop where
  walk : Walk (nextIn mapLink n) root (slots.map Slot.addr)
  cells : ∀ s ∈ slots, ∃ next, n.cells s.addr = some ⟨s.key, s.value, next⟩

/-- A map, on heaps that hold other nodes and blocks as well. -/
structure Beside (N₀ : Heap PropertyMap) (h₀ : Heap Bytes) (h : MapHeap) (root : Option Addr)
    (slots : List Slot) (others rest : List Addr) : Prop where
  map : MapNodes h.nodes root slots
  keeps : ∀ s ∈ slots, s.Keeps h.bytes
  nodes : Grown N₀ h.nodes (others ++ slots.map Slot.addr)
  blocks : Grown h₀ h.bytes (rest ++ slots.flatMap Slot.owned)

section

variable {N₀ n n' : Heap PropertyMap} {h₀ : Heap Bytes} {h : MapHeap} {root : Option Addr}
  {slots : List Slot} {others rest : List Addr}

/-- The nodes of a map that is left alone. -/
theorem MapNodes.same (map : MapNodes n root slots)
    (same : ∀ a ∈ slots.map Slot.addr, n'.cells a = n.cells a) : MapNodes n' root slots where
  walk := map.walk.congr fun a there => congrArg (Option.bind · mapLink.next) (same a there)
  cells s there := by
    obtain ⟨next, cell⟩ := map.cells s there
    exact ⟨next, (same s.addr (List.mem_map_of_mem there)).trans cell⟩

theorem MapHolds.map {lost : List Addr} (holds : MapHolds N₀ h₀ h root slots lost) :
    MapNodes h.nodes root slots := ⟨holds.walk, holds.cells⟩

/-- The map, with all else as what was there before. -/
theorem Beside.holds (beside : Beside N₀ h₀ h root slots others rest) :
    MapHolds (h.nodes.eraseAll (slots.map Slot.addr)) (h.bytes.eraseAll (slots.flatMap Slot.owned))
      h root slots [] where
  walk := beside.map.walk
  cells := beside.map.cells
  keeps := beside.keeps
  nodes := beside.nodes.split.2
  blocks := by
    rw [List.append_nil]
    exact beside.blocks.split.2

/-- What the blocks are after something was done with the map alone. -/
theorem apart_of_split {α : Type} {g₀ g g' : Heap α} {own own' : List Addr}
    (grown : Grown g₀ g (others ++ own)) (after : Grown (g.eraseAll own) g' own') :
    Grown g₀ g' (others ++ own') ∧ ∀ a ∈ others, g'.cells a = g.cells a := by
  refine ⟨grown.split.1.trans after, fun a there => ?_⟩
  have out : a ∉ own := fun there' => (List.nodup_append.mp grown.distinct).2.2 a there a there' rfl
  obtain ⟨x, cell⟩ := grown.cell (List.mem_append_left own there)
  rw [cell]
  exact after.kept a x ((eraseAll_cells out).trans cell)

theorem Arg.Read.mono {h₁ : Heap Bytes} {blocks : List Addr} (grown : Grown h₀ h₁ blocks) {a : Arg}
    (there : a.Read h₀) : a.Read h₁ := by
  obtain ⟨plain, b, rest, value, cell⟩ := there
  exact ⟨plain, b, rest, value, grown.kept b _ cell⟩

/-- The caller's texts are part of what was there before. -/
theorem MapOp.Given.mono {h₁ : Heap Bytes} {blocks : List Addr} (grown : Grown h₀ h₁ blocks)
    {op : MapOp} (given : op.Given h₀) : op.Given h₁ := by
  have text {a : Arg} (there : a.Given h₀) : a.Given h₁ := ⟨there.usable, there.mono grown⟩
  cases op with
  | add key value granted => exact ⟨text given.1, text given.2⟩
  | delete key => exact Arg.Read.mono grown given
  | assign key value => exact ⟨given.1.mono grown, text given.2⟩
  | clear => exact given

/-- An operation does what is meant by it, and leaves all other nodes and blocks alone. -/
theorem Beside.op (beside : Beside N₀ h₀ h root slots others rest) {op : MapOp}
    (given : op.Given h₀) (other : op ≠ .clear) :
    ∃ root' h' slots' lost,
      op.run root h = .ok (((op.meant ⟨slots.map Slot.entry, 0⟩).1, root'), h') ∧
      Beside N₀ h₀ h' root' slots' others (rest ++ lost) ∧
      slots'.map Slot.entry = (op.meant ⟨slots.map Slot.entry, 0⟩).2.entries ∧
      lost.length = (op.meant ⟨slots.map Slot.entry, 0⟩).2.lost ∧
      (∀ a ∈ others, h'.nodes.cells a = h.nodes.cells a) ∧
      ∀ a x, h.bytes.cells a = some x → h'.bytes.cells a = some x := by
  have represents : MapRepresents (h.nodes.eraseAll (slots.map Slot.addr))
      (h.bytes.eraseAll (slots.flatMap Slot.owned)) h root ⟨slots.map Slot.entry, 0⟩ :=
    ⟨slots, [], beside.holds, rfl, rfl⟩
  obtain ⟨root', h', run, ⟨slots', lost, holds, entries, count⟩, kept⟩ :=
    represents.op (given.mono beside.blocks.split.1)
  obtain ⟨nodes, same⟩ := apart_of_split beside.nodes holds.nodes
  obtain ⟨blocks, -⟩ := apart_of_split beside.blocks holds.blocks
  refine ⟨root', h', slots', lost, run, ⟨holds.map, holds.keeps, nodes, ?_⟩, entries, count, same,
    kept other⟩
  refine blocks.perm ?_
  rw [List.append_assoc]
  exact List.perm_append_comm.append_left rest

/-- A look-up finds the first node with the key. -/
theorem Beside.find (beside : Beside N₀ h₀ h root slots others rest) {key : Arg}
    (there : key.Read h₀) :
    propertyMapFind root key.property h =
      .ok ((slots.find? fun s => s.entry.Has key.text).map Slot.addr, h) :=
  propertyMapFind_eq beside.holds (there.mono beside.blocks.split.1)

/-- A map is cleared, and all other nodes and blocks are left alone. -/
theorem clear_beside (map : MapNodes h.nodes root slots)
    (values : ∀ s ∈ slots, s.key.value.isSome ∧ s.value.value.isSome)
    (nodes : Grown N₀ h.nodes (others ++ slots.map Slot.addr))
    (blocks : Grown h₀ h.bytes (rest ++ slots.flatMap Slot.owned)) :
    ∃ rc h', propertyMapClear root h = .ok ((rc, none), h') ∧ Grown N₀ h'.nodes others ∧
      Grown h₀ h'.bytes rest ∧ ∀ a ∈ others, h'.nodes.cells a = h.nodes.cells a := by
  have own : Grown (h.bytes.eraseAll (slots.flatMap Slot.owned)) h.bytes
      (slots.flatMap Slot.owned ++ []) := by
    rw [List.append_nil]
    exact blocks.split.2
  obtain ⟨h', clear, holds⟩ :=
    propertyMapClear_cleared map.walk map.cells values nodes.split.2 own
  obtain ⟨nodes', same⟩ := apart_of_split nodes holds.nodes
  obtain ⟨blocks', -⟩ := apart_of_split blocks holds.blocks
  refine ⟨_, h', clear, ?_, ?_, same⟩
  · rwa [List.map_nil, List.append_nil] at nodes'
  · rwa [List.flatMap_nil, List.append_nil, List.append_nil] at blocks'

/-- What was lost before does not change what is meant. -/
theorem MapOp.meant_lost (m : Meaning) (op : MapOp) :
    op.meant m = ((op.meant ⟨m.entries, 0⟩).1,
      ⟨(op.meant ⟨m.entries, 0⟩).2.entries, m.lost + (op.meant ⟨m.entries, 0⟩).2.lost⟩) := by
  cases op with
  | add key value granted => cases granted <;> rfl
  | delete key =>
      simp only [MapOp.meant]
      cases m.entries.find? (Entry.Has key.text) with
      | none => rfl
      | some e => simp only [Nat.zero_add]
  | assign key value =>
      simp only [MapOp.meant]
      cases m.entries.find? (Entry.Has key.text) with
      | none => rfl
      | some e => simp only [Nat.zero_add]
  | clear =>
      simp only [MapOp.meant]
      split <;> rfl

end

end AcnSdk.Data
