/-
What `json_decode` of `src/json/json.c` leaves in memory.

A container that is being made owns what was made since, so that it can be deleted at any time.

* `Making.link` — a child that is appended becomes a part of what its container owns.
* `parses` — what is read is made, and nothing is left of a text that fails.
* `jsonDecodeMemory_restores` — so it is for whole texts, and for what is deleted afterwards.
-/

import AcnSdk.Json.PointerOwned
import AcnSdk.Json.PointerParse
import AcnSdk.Lib.Grown

namespace AcnSdk.Json.Pointers

open AcnSdk.Lib Prog Heap Data Ascii

variable {ν : Type}

/-! ### What is made -/

/-- Nodes and texts were made that a tree without a parent and a key owns. -/
structure Made (m m' : Memory ν) (nodes texts : List Addr) : Prop where
  root : ∃ x, m'.nodes.cells m.nodes.brk = some x ∧ x.parent = none ∧ x.key = .init
  owns : Owns m' m.nodes.brk nodes texts
  nodes : Lib.Grown m.nodes m'.nodes nodes
  texts : Lib.Grown m.texts m'.texts texts

/-- A container was made, and these are its parts so far. -/
structure Making (m m' : Memory ν) (kind : Container) (parts : List Part) : Prop where
  root : ∃ x, m'.nodes.cells m.nodes.brk = some x ∧ x.parent = none ∧ x.key = .init ∧
    x.tag = code (kindTag kind)
  holder : Holder m' m.nodes.brk parts
  nodes : Lib.Grown m.nodes m'.nodes (m.nodes.brk :: partNodes parts)
  texts : Lib.Grown m.texts m'.texts (partTexts parts)

section

variable {m m' m₁ m₂ m₃ : Memory ν} {kind : Container} {parts : List Part}

theorem Restored.refl (nodes : m.nodes.Fresh) (texts : m.texts.Fresh) : Restored m m :=
  ⟨nodes, texts, fun _ => rfl, fun _ => rfl⟩

theorem Making.made (making : Making m m' kind parts) :
    Made m m' (m.nodes.brk :: partNodes parts) (partTexts parts) where
  root := by
    obtain ⟨x, cell, loose, bare, -⟩ := making.root
    exact ⟨x, cell, loose, bare⟩
  owns := making.holder.owns
  nodes := making.nodes
  texts := making.texts

/-- A tree that was made can be deleted, and nothing is left of it. -/
theorem Made.delete {nodes texts : List Addr} (made : Made m m' nodes texts) :
    ∃ m'', deleteAny (some m.nodes.brk) m' = .ok ((), m'') ∧ Restored m m'' := by
  obtain ⟨x, cell, loose, -⟩ := made.root
  have enough : nodes.length < m'.nodes.brk + 2 :=
    Nat.lt_of_le_of_lt made.nodes.length_le (by omega)
  have run := deletes (m'.nodes.brk + 2) made.owns made.nodes.distinct made.texts.distinct cell
    loose enough
  refine ⟨⟨m'.nodes.eraseAll nodes, m'.texts.eraseAll texts⟩, ?_,
    made.nodes.fresh.eraseAll nodes, made.texts.fresh.eraseAll texts, made.nodes.eraseAll,
    made.texts.eraseAll⟩
  rw [deleteAny, bind_of_ok (onNodes_ok (bound_apply _))]
  exact run

/-- A container stays what it is where the memory is restored. -/
theorem Making.restored (making : Making m m₁ kind parts) (restored : Restored m₁ m₂) :
    Making m m₂ kind parts where
  root := by
    rw [restored.nodes]
    exact making.root
  holder := by
    obtain ⟨x, cell, container, list⟩ := making.holder.node
    refine ⟨⟨x, (restored.nodes _).trans cell, container, list.congr fun c _ => ?_⟩,
      fun q mem => ?_, fun q mem => ?_⟩
    · exact ⟨congrArg (Option.bind · Node.next) (restored.nodes c),
        congrArg (Option.bind · Node.prev) (restored.nodes c)⟩
    · exact (making.holder.child q mem).same (restored.nodes _) fun t _ => restored.texts t
    · have distinct := (List.nodup_cons.mp making.nodes.distinct).2
      exact (making.holder.below q mem).frame ((List.nodup_flatMap.mp distinct).1 q mem)
        (fun y cell_y => ⟨y, (restored.nodes _).trans cell_y, .refl y⟩)
        (fun b _ _ => restored.nodes b) fun t _ => restored.texts t
  nodes := making.nodes.same restored.freshNodes restored.nodes
  texts := making.texts.same restored.freshTexts restored.texts

theorem appended_sideways {p c a : Addr} (x : Node ν) (parent : a ≠ p) (child : a ≠ c) :
    Sideways (appended p c x) a := by
  intro y
  have ends : ¬ (x.tail = none ∧ a = p) := fun both => parent both.2
  rw [appended_eq, if_neg child, if_neg child, if_neg child, if_neg parent, if_neg ends]
  exact ⟨_, _, rfl⟩

theorem partNodes_append (parts : List Part) (q : Part) :
    partNodes (parts ++ [q]) = partNodes parts ++ q.nodes := by
  simp [partNodes]

theorem partTexts_append (parts : List Part) (q : Part) :
    partTexts (parts ++ [q]) = partTexts parts ++ (q.key.toList ++ q.texts) := by
  simp [partTexts]

/-- A child that is appended becomes a part of what its container owns. -/
theorem Making.link (making : Making m m₁ kind parts) {q : Part} {y : Node ν}
    (nodes : Lib.Grown m₁.nodes m₂.nodes q.nodes)
    (texts : Lib.Grown m₁.texts m₂.texts (q.key.toList ++ q.texts))
    (cell_q : m₂.nodes.cells q.node = some y) (keyed : y.key = .init ∨ y.key.value ≠ none)
    (key : releases y.key = q.key) (owns : Owns m₂ q.node q.nodes q.texts) :
    ∃ m₃, appendNode m.nodes.brk q.node m₂ = .ok ((), m₃) ∧ Making m m₃ kind (parts ++ [q]) := by
  obtain ⟨x, cell₁, container, list⟩ := making.holder.node
  obtain ⟨x', cell', loose, bare, tag⟩ := making.root
  cases cell₁.symm.trans cell'
  obtain ⟨apart, distinct⟩ := List.nodup_cons.mp making.nodes.distinct
  have cell := nodes.kept _ x cell₁
  have other : q.node ≠ m.nodes.brk := fun eq => nodes.not_mem cell₁ (eq ▸ owns.root_mem)
  have child_live : ∀ c ∈ parts.map Part.node, ∃ z, m₁.nodes.cells c = some z := by
    intro c mem
    obtain ⟨p, mem_p, rfl⟩ := List.mem_map.mp mem
    obtain ⟨z, cell_p, -⟩ := making.holder.child p mem_p
    exact ⟨z, cell_p⟩
  have tail_mem : ∀ b, x.tail = some b → b ∈ parts.map Part.node := fun b eq =>
    List.mem_of_getLast? (list.tail_eq.symm.trans eq)
  have last : Points m₂.nodes x.tail := by
    intro b eq
    obtain ⟨z, cell_b⟩ := child_live b (tail_mem b eq)
    exact ⟨z, nodes.kept b z cell_b⟩
  -- what was there before has no node of the new part
  have old_ne : ∀ b z, m₁.nodes.cells b = some z → b ≠ q.node := fun b z there eq =>
    nodes.not_mem there (eq ▸ owns.root_mem)
  have sideways : ∀ p ∈ parts, ∀ z, m₁.nodes.cells p.node = some z → ∃ prev next,
      (m₂.nodes.adjust (appended m.nodes.brk q.node x)).cells p.node =
        some { z with prev := prev, next := next } := by
    intro p mem z cell_p
    have not_root : p.node ≠ m.nodes.brk := fun eq =>
      apart (eq ▸ mem_partNodes mem (making.holder.below p mem).root_mem)
    obtain ⟨prev, next, eq⟩ := appended_sideways x not_root (old_ne _ z cell_p) z
    exact ⟨prev, next, (adjust_live (nodes.kept _ z cell_p)).trans (congrArg some eq)⟩
  refine ⟨_, appendNode_eq cell cell_q last, ⟨_, adjust_live cell, ?_, ?_, ?_⟩, ⟨⟨_,
    adjust_live cell, ?_, ?_⟩, ?_, ?_⟩, ?_, ?_⟩
  · rw [appended_eq]
    exact (if_neg other.symm).trans loose
  · rw [appended_eq]
    exact bare
  · rw [appended_eq]
    exact tag
  · rw [IsContainer, appended_eq]
    exact container
  · rw [List.map_append, List.map_singleton]
    refine enumerates_appended (list.congr fun c mem => ?_) ⟨y, cell_q⟩ (fun c mem => ?_)
      fun mem => ?_
    · obtain ⟨z, cell_c⟩ := child_live c mem
      have same := (nodes.kept c z cell_c).trans cell_c.symm
      exact ⟨congrArg (Option.bind · Node.next) same, congrArg (Option.bind · Node.prev) same⟩
    · obtain ⟨z, cell_c⟩ := child_live c mem
      exact ⟨z, nodes.kept c z cell_c⟩
    · obtain ⟨z, cell_c⟩ := child_live _ mem
      exact old_ne _ z cell_c rfl
  · refine List.forall_mem_append.mpr ⟨fun p mem => ?_, List.forall_mem_singleton.mpr ?_⟩
    · obtain ⟨z, cell_p, parent, keyed_p, key_p, live⟩ := making.holder.child p mem
      obtain ⟨prev, next, cell_p'⟩ := sideways p mem z cell_p
      refine ⟨_, cell_p', parent, keyed_p, key_p, fun t eq => ?_⟩
      obtain ⟨u, there⟩ := live t eq
      exact ⟨u, texts.kept t u there⟩
    · refine ⟨_, adjust_live cell_q, ?_, ?_, ?_, fun t eq => ?_⟩
      · rw [appended_eq]
        exact if_pos rfl
      · rw [appended_key]
        exact keyed
      · rw [appended_key]
        exact key
      · exact texts.cell (List.mem_append_left _ (Option.mem_toList.mpr eq))
  · refine List.forall_mem_append.mpr ⟨fun p mem => ?_, List.forall_mem_singleton.mpr ?_⟩
    · have below := making.holder.below p mem
      refine below.frame ((List.nodup_flatMap.mp distinct).1 p mem) (fun z cell_p => ?_)
        (fun b mem_b not_p => ?_) fun t mem_t => ?_
      · obtain ⟨prev, next, cell_p'⟩ := sideways p mem z cell_p
        exact ⟨_, cell_p', rfl, rfl, rfl, rfl, rfl, rfl⟩
      · obtain ⟨z, cell_b⟩ := below.live b mem_b
        rw [cell_b]
        refine appended_other (nodes.kept b z cell_b) (fun eq => ?_) (old_ne b z cell_b)
          fun eq => ?_
        · exact apart (eq ▸ mem_partNodes mem mem_b)
        · obtain ⟨p', mem', rfl⟩ := List.mem_map.mp (tail_mem b eq)
          have root := (making.holder.below p' mem').root_mem
          exact not_p (congrArg Part.node (part_unique distinct mem' mem root mem_b))
      · obtain ⟨u, there⟩ := below.liveText t mem_t
        exact (texts.kept t u there).trans there.symm
    · refine owns.frame nodes.distinct (fun z cell_z => ?_) (fun b mem_b not_q => ?_) fun _ _ => rfl
      · cases cell_q.symm.trans cell_z
        exact ⟨_, adjust_live cell_q, appended_same x other y⟩
      · obtain ⟨z, cell_b⟩ := owns.live b mem_b
        rw [cell_b]
        refine appended_other cell_b (fun eq => ?_) not_q fun eq => ?_
        · exact nodes.not_mem cell₁ (eq ▸ mem_b)
        · obtain ⟨w, cell_w⟩ := child_live b (tail_mem b eq)
          exact nodes.not_mem cell_w mem_b
  · rw [partNodes_append, ← List.cons_append]
    refine (making.nodes.trans nodes).changed rfl (fun b => ?_) fun b outside => ?_
    · rw [adjust_cells, Option.isSome_map]
    · rw [List.mem_append, List.mem_cons, not_or, not_or] at outside
      obtain ⟨⟨not_root, not_part⟩, not_new⟩ := outside
      cases there : m₂.nodes.cells b with
      | none => rw [adjust_cells, there, Option.map_none]
      | some z =>
          refine appended_other there not_root (fun eq => not_new (eq ▸ owns.root_mem)) fun eq => ?_
          obtain ⟨p, mem, rfl⟩ := List.mem_map.mp (tail_mem b eq)
          exact not_part (mem_partNodes mem (making.holder.below p mem).root_mem)
  · rw [partTexts_append]
    exact making.texts.trans texts

/-- A node without children is made, with its text. -/
theorem made_leaf {x : Node ν} {texts' : Heap Bytes} {texts : List Addr} (tag : JsonTag)
    (fresh : m.nodes.Fresh) (loose : x.parent = none) (bare : x.key = .init)
    (tagged : x.tag = code tag) (leaf : code tag ≤ code .number) (text : stringText x = texts)
    (grown : Lib.Grown m.texts texts' texts) :
    Made m ⟨m.nodes.push x, texts'⟩ [m.nodes.brk] texts where
  root := ⟨x, if_pos rfl, loose, bare⟩
  owns := by
    rw [← text]
    refine .leaf (if_pos rfl) (fun container => ?_) fun t mem => grown.cell (text ▸ mem)
    obtain array | object := container
    · rw [← tagged, array] at leaf
      exact absurd leaf (by decide)
    · rw [← tagged, object] at leaf
      exact absurd leaf (by decide)
  nodes := (Grown.refl fresh).push x
  texts := grown

variable [Zero ν]

theorem making_nil (kind : Container) (nodes : m.nodes.Fresh) (texts : m.texts.Fresh) :
    Making m { m with nodes := m.nodes.push (blank (kindTag kind)) } kind [] where
  root := ⟨blank (kindTag kind), if_pos rfl, rfl, rfl, rfl⟩
  holder := ⟨⟨blank (kindTag kind), if_pos rfl, isContainer_of_kindTag rfl, .nil⟩, nofun, nofun⟩
  nodes := (Lib.Grown.refl nodes).push _
  texts := .refl texts

theorem makeScalar_made (value : Scalar ν) (nodes : m.nodes.Fresh) (texts : m.texts.Fresh) :
    ∃ m' owned, makeScalar value m = .ok (some m.nodes.brk, m') ∧
      Made m m' [m.nodes.brk] owned := by
  have idle := Lib.Grown.refl texts
  cases value with
  | null => exact ⟨_, [], mknode_eq .null, made_leaf .null nodes rfl rfl rfl (by decide) rfl idle⟩
  | bool b =>
      exact ⟨_, [], assign_eq .bool _, made_leaf .bool nodes rfl rfl rfl (by decide) rfl idle⟩
  | number n =>
      exact ⟨_, [], assign_eq .number _, made_leaf .number nodes rfl rfl rfl (by decide) rfl idle⟩
  | string s =>
      have text : makeText s m = .ok (m.texts.brk, ⟨m.nodes, m.texts.push (s ++ [0])⟩) :=
        onTexts_ok (alloc_eq m.texts (s ++ [0]))
      refine ⟨⟨m.nodes.push { blank .string with string_ := some m.texts.brk },
        m.texts.push (s ++ [0])⟩, [m.texts.brk], ?_,
        made_leaf .string nodes rfl rfl rfl (by decide) rfl (idle.push _)⟩
      rw [makeScalar, bind_of_ok text]
      exact assign_eq (m := ⟨m.nodes, m.texts.push (s ++ [0])⟩) .string _

end

/-! ### What the parser does -/

section

variable {m m' m₁ m₂ : Memory ν} {kind : Container} {parts : List Part}

/-- The parser returns `false` and leaves nothing. -/
def Fails (m : Memory ν)
    (run : Except Fault (Option (Option Addr × Bytes) × Memory ν)) : Prop :=
  ∃ m', run = .ok (none, m') ∧ Restored m m'

/-- The container is deleted where it cannot be finished. -/
theorem Making.fails (making : Making m m₁ kind parts) :
    Fails m (failure (some m.nodes.brk) m₁) := by
  obtain ⟨m', deleted, restored⟩ := making.made.delete
  refine ⟨m', ?_, restored⟩
  rw [failure, bind_of_ok deleted]
  rfl

/-- The text of the key is released where a member cannot be finished. -/
theorem Making.failsKey {k : Bytes} (making : Making m m₁ .object parts)
    (restored : Restored ⟨m₁.nodes, m₁.texts.push (k ++ [0])⟩ m₂) :
    Fails m (failureFreeKey (some m₁.texts.brk) (some m.nodes.brk) m₂) := by
  have there : m₂.texts.cells m₁.texts.brk = some (k ++ [0]) :=
    (restored.texts _).trans (if_pos rfl)
  have freed : jsonDeleteString (some m₁.texts.brk) m₂ =
      .ok ((), { m₂ with texts := m₂.texts.erase m₁.texts.brk }) := onTexts_ok (free_eq there)
  have back : Restored m₁ { m₂ with texts := m₂.texts.erase m₁.texts.brk } := by
    refine ⟨restored.freshNodes, restored.freshTexts.erase _, restored.nodes, fun t => ?_⟩
    rw [erase_cells]
    split_ifs with eq
    · rw [eq, making.texts.fresh _ (Nat.le_refl _)]
    · exact (restored.texts t).trans (if_neg eq)
  rw [failureFreeKey, bind_of_ok freed]
  exact (making.restored back).fails

theorem readString_none {s : Bytes} (read : parseString s = none) :
    readString true s m = .ok (none, m) := by
  rw [readString, read]
  rfl

theorem readString_some {s k rest : Bytes} (read : parseString s = some (k, rest)) :
    readString true s m =
      .ok (some (some m.texts.brk, rest), ⟨m.nodes, m.texts.push (k ++ [0])⟩) := by
  rw [readString, read]
  rfl

variable [Zero ν]

/-- The parser makes the nodes of what is read. -/
def Gives (m : Memory ν) (read : Option (JsonNode ν × Bytes))
    (run : Except Fault (Option (Option Addr × Bytes) × Memory ν)) : Prop :=
  match read with
  | none => Fails m run
  | some (tree, rest) => ∃ m' nodes texts, run = .ok (some (some m.nodes.brk, rest), m') ∧
      makeTree tree m = .ok (m.nodes.brk, m') ∧ Made m m' nodes texts

/-- The parser goes on making the container that it began at `m`, from `m₁` on. -/
def Ends (m m₁ : Memory ν) (kind : Container) (done : List (JsonNode ν))
    (read : Option (JsonNode ν × Bytes))
    (run : Except Fault (Option (Option Addr × Bytes) × Memory ν)) : Prop :=
  match read with
  | none => Fails m run
  | some (tree, rest) => ∃ cs m' parts, tree = .container none kind (done ++ cs) ∧
      run = .ok (some (some m.nodes.brk, rest), m') ∧
      makeChildren kind m.nodes.brk cs m₁ = .ok ((), m') ∧ Making m m' kind parts

/-- The container is finished. -/
theorem Making.ends (making : Making m m₁ kind parts) (done : List (JsonNode ν)) (rest : Bytes) :
    Ends m m₁ kind done (some (.container none kind done, rest))
      (.ok (some (some m.nodes.brk, rest), m₁)) := by
  refine ⟨[], m₁, parts, by rw [List.append_nil], rfl, ?_, making⟩
  rw [makeChildren]
  rfl

/-- One round of a loop. -/
theorem Ends.round {done : List (JsonNode ν)} {t : JsonNode ν}
    {read : Option (JsonNode ν × Bytes)}
    {run : Except Fault (Option (Option Addr × Bytes) × Memory ν)}
    (child : makeChild kind m.nodes.brk t.key (makeTree t) m₁ = .ok ((), m₂))
    (ends : Ends m m₂ kind (done ++ [t]) read run) : Ends m m₁ kind done read run := by
  cases read with
  | none => exact ends
  | some r =>
      obtain ⟨cs, m', parts, tree, ran, made, making⟩ := ends
      refine ⟨t :: cs, m', parts, ?_, ran, ?_, making⟩
      · rw [tree, List.append_assoc, List.singleton_append]
      · rw [makeChildren, bind_of_ok child]
        exact made

/-- The container that was begun is what is read. -/
theorem Ends.gives (kind : Container) {read : Option (JsonNode ν × Bytes)}
    {run : Except Fault (Option (Option Addr × Bytes) × Memory ν)}
    (ends : Ends m { m with nodes := m.nodes.push (blank (kindTag kind)) } kind [] read run) :
    Gives m read run := by
  cases read with
  | none => exact ends
  | some r =>
      obtain ⟨cs, m', parts, tree, ran, made, making⟩ := ends
      refine ⟨m', _, _, ran, ?_, making.made⟩
      have first : (makeContainer kind >>= present) m = .ok (m.nodes.brk,
          { m with nodes := m.nodes.push (blank (kindTag kind)) }) := by
        rw [bind_of_ok (makeContainer_eq kind)]
        rfl
      rw [tree, List.nil_append, makeTree, ← bind_assoc, bind_of_ok first, bind_of_ok made]
      rfl

/-- An element is appended. -/
theorem Making.element {t : JsonNode ν} {nodes texts : List Addr}
    (making : Making m m₁ .array parts) (read : makeTree t m₁ = .ok (m₁.nodes.brk, m₂))
    (made : Made m₁ m₂ nodes texts) :
    ∃ m₃, jsonAppendElement m.nodes.brk m₁.nodes.brk m₂ = .ok ((), m₃) ∧
      makeChild .array m.nodes.brk t.key (makeTree t) m₁ = .ok ((), m₃) ∧
      Making m m₃ .array (parts ++ [⟨m₁.nodes.brk, none, nodes, texts⟩]) := by
  obtain ⟨x, cell, -, -, tag⟩ := making.root
  have array : x.tag = code .array := tag
  obtain ⟨y, cell_c, loose, bare⟩ := made.root
  have no_key : releases y.key = none := by
    rw [bare]
    rfl
  obtain ⟨m₃, appended, making₃⟩ := making.link (q := ⟨m₁.nodes.brk, none, nodes, texts⟩)
    made.nodes made.texts cell_c (.inl bare) no_key made.owns
  have run : jsonAppendElement m.nodes.brk m₁.nodes.brk m₂ = .ok ((), m₃) := by
    rw [jsonAppendElement,
      bind_of_ok (asserts_eq (made.nodes.kept _ x cell) array cell_c loose)]
    exact appended
  refine ⟨m₃, run, ?_, making₃⟩
  rw [makeChild, bind_of_ok read]
  exact run

theorem makeTree_withKey (key : Option Bytes) (t : JsonNode ν) :
    makeTree (t.withKey key) = makeTree t := by
  cases t <;> rfl

/-- A member is appended, with the text of its key. -/
theorem Making.member {t : JsonNode ν} {k : Bytes} {nodes texts : List Addr}
    (making : Making m m₁ .object parts) (plain : 0 ∉ k)
    (read : makeTree t ⟨m₁.nodes, m₁.texts.push (k ++ [0])⟩ = .ok (m₁.nodes.brk, m₂))
    (made : Made ⟨m₁.nodes, m₁.texts.push (k ++ [0])⟩ m₂ nodes texts) :
    ∃ m₃, appendKeyed (some m.nodes.brk) (some m₁.texts.brk) (some m₁.nodes.brk) m₂ =
        .ok ((), m₃) ∧
      makeChild .object m.nodes.brk (t.withKey (some k)).key (makeTree (t.withKey (some k))) m₁ =
        .ok ((), m₃) ∧
      Making m m₃ .object (parts ++ [⟨m₁.nodes.brk, some m₁.texts.brk, nodes, texts⟩]) := by
  obtain ⟨x, cell, -, -, tag⟩ := making.root
  obtain ⟨y, cell_c, loose, bare⟩ := made.root
  have text : makeText k m₁ =
      .ok (m₁.texts.brk, ⟨m₁.nodes, m₁.texts.push (k ++ [0])⟩) :=
    onTexts_ok (alloc_eq m₁.texts (k ++ [0]))
  have there : m₂.texts.cells m₁.texts.brk = some (k ++ [0]) :=
    made.texts.kept _ _ (if_pos rfl)
  have grown : Lib.Grown m₁.texts m₂.texts ([m₁.texts.brk] ++ texts) :=
    ((Lib.Grown.refl making.texts.fresh).push _).trans made.texts
  -- the key is assigned before the member is appended
  let m₂' : Memory ν := ⟨m₂.nodes.adjust (only m₁.nodes.brk fun z =>
    { z with key := pJson m₁.texts.brk k.length }), m₂.texts⟩
  have cell_key : m₂'.nodes.cells m₁.nodes.brk =
      some { y with key := pJson m₁.texts.brk k.length } := by
    refine (adjust_live cell_c).trans ?_
    rw [only, if_pos rfl]
  have others : ∀ b, b ≠ m₁.nodes.brk → m₂'.nodes.cells b = m₂.nodes.cells b := by
    intro b other
    have idle : only m₁.nodes.brk (fun z : Node ν =>
        { z with key := pJson m₁.texts.brk k.length }) b = id := by
      funext z
      exact if_neg other
    exact (adjust_cells _ _ _).trans (by rw [idle, Option.map_id_fun, id_eq])
  have owns : Owns m₂' m₁.nodes.brk nodes texts := by
    refine made.owns.frame made.nodes.distinct (fun z cell_z => ?_)
      (fun b _ other => others b other) fun _ _ => rfl
    cases cell_c.symm.trans cell_z
    exact ⟨_, cell_key, rfl, rfl, rfl, rfl, rfl, rfl⟩
  have nodes' : Lib.Grown m₁.nodes m₂'.nodes nodes := by
    refine made.nodes.changed rfl (fun b => ?_) fun b outside => ?_
    · rw [adjust_cells, Option.isSome_map]
    · exact others b fun eq => outside (eq ▸ made.owns.root_mem)
  obtain ⟨m₃, appended, making₃⟩ := making.link
    (q := ⟨m₁.nodes.brk, some m₁.texts.brk, nodes, texts⟩) nodes' grown cell_key
    (.inr (Option.some_ne_none _)) rfl owns
  have moved : propertyMove y.key (pJson m₁.texts.brk k.length) m₂.texts =
      .ok ((pJson m₁.texts.brk k.length, .init), m₂.texts) := rfl
  have run : appendMember m.nodes.brk (pJson m₁.texts.brk k.length) m₁.nodes.brk m₂ =
      .ok ((), m₃) := by
    rw [appendMember, bind_of_ok (onNodes_ok (read_eq cell_c)), bind_of_ok (onTexts_ok moved)]
    dsimp only
    rw [bind_of_ok (setKey_eq cell_c _ m₂.texts)]
    exact appended
  refine ⟨m₃, ?_, ?_, making₃⟩
  · have length : onTexts (strlen m₁.texts.brk) m₂ = .ok (k.length, m₂) :=
      onTexts_ok (strlen_eq there plain)
    rw [appendKeyed, present, present, present, bind_of_ok (pure_apply _ _),
      bind_of_ok (pure_apply _ _), bind_of_ok length, bind_of_ok (pure_apply _ _)]
    exact run
  · rw [key_withKey, makeTree_withKey, makeChild, bind_of_ok text, bind_of_ok read]
    exact run

/-- All functions of the parser for one amount of fuel. -/
structure Parses (libc : Libc ν) (fuel : Nat) : Prop where
  value : ∀ {m : Memory ν} (s : Bytes), m.nodes.Fresh → m.texts.Fresh →
    Gives m (parseValue libc fuel s) (readValue libc true fuel s m)
  array : ∀ {m : Memory ν} (s : Bytes), m.nodes.Fresh → m.texts.Fresh →
    Gives m (parseArray libc fuel s) (readArray libc true fuel s m)
  elements : ∀ {m m₁ : Memory ν} {parts : List Part} (done : List (JsonNode ν)) (s : Bytes),
    Making m m₁ .array parts → Ends m m₁ .array done (parseElements libc fuel done s)
      (readElements libc true fuel (some m.nodes.brk) s m₁)
  object : ∀ {m : Memory ν} (s : Bytes), m.nodes.Fresh → m.texts.Fresh →
    Gives m (parseObject libc fuel s) (readObject libc true fuel s m)
  members : ∀ {m m₁ : Memory ν} {parts : List Part} (done : List (JsonNode ν)) (s : Bytes),
    Making m m₁ .object parts → Ends m m₁ .object done (parseMembers libc fuel done s)
      (readMembers libc true fuel (some m.nodes.brk) s m₁)

variable {libc : Libc ν} {fuel : Nat}

theorem Parses.value_succ (ih : Parses libc fuel) (s : Bytes) (nodes : m.nodes.Fresh)
    (texts : m.texts.Fresh) :
    Gives m (parseValue libc (fuel + 1) s) (readValue libc true (fuel + 1) s m) := by
  rw [readValue, parseValue]
  split_ifs
  · exact ih.array s nodes texts
  · exact ih.object s nodes texts
  · cases parseScalar libc s with
    | none => exact ⟨m, rfl, .refl nodes texts⟩
    | some r =>
        obtain ⟨m', owned, made, tree⟩ := makeScalar_made r.1 nodes texts
        refine ⟨m', _, owned, ?_, ?_, tree⟩
        · dsimp only
          rw [wanted, if_pos rfl, bind_of_ok made]
          rfl
        · rw [makeTree, bind_of_ok made]
          rfl

theorem Parses.array_succ (ih : Parses libc fuel) (s : Bytes) (nodes : m.nodes.Fresh)
    (texts : m.texts.Fresh) :
    Gives m (parseArray libc (fuel + 1) s) (readArray libc true (fuel + 1) s m) := by
  have begun := making_nil .array nodes texts
  have made : wanted true (jsonMkarray true) m =
      .ok (some m.nodes.brk, { m with nodes := m.nodes.push (blank .array) }) := rfl
  rw [readArray, parseArray, bind_of_ok made]
  refine Ends.gives .array ?_
  dsimp only
  split_ifs
  · exact begun.ends [] _
  · exact ih.elements [] _ begun
  · exact begun.fails

theorem Parses.elements_succ (ih : Parses libc fuel) (done : List (JsonNode ν)) (s : Bytes)
    (making : Making m m₁ .array parts) :
    Ends m m₁ .array done (parseElements libc (fuel + 1) done s)
      (readElements libc true (fuel + 1) (some m.nodes.brk) s m₁) := by
  have value := ih.value s making.nodes.fresh making.texts.fresh
  rw [readElements, parseElements]
  cases read : parseValue libc fuel s with
  | none =>
      rw [read] at value
      obtain ⟨m', run, restored⟩ := value
      rw [bind_of_ok run]
      exact (making.restored restored).fails
  | some r =>
      rw [read] at value
      obtain ⟨m₂, nodes, texts, run, made, tree⟩ := value
      obtain ⟨m₃, appended, child, making₃⟩ := making.element made tree
      rw [bind_of_ok run]
      dsimp only [present]
      rw [if_pos rfl, bind_of_ok (pure_apply _ _), bind_of_ok (pure_apply _ _),
        bind_of_ok appended]
      refine Ends.round child ?_
      split_ifs
      · exact making₃.ends _ _
      · exact ih.elements _ _ making₃
      · exact making₃.fails

theorem Parses.object_succ (ih : Parses libc fuel) (s : Bytes) (nodes : m.nodes.Fresh)
    (texts : m.texts.Fresh) :
    Gives m (parseObject libc (fuel + 1) s) (readObject libc true (fuel + 1) s m) := by
  have begun := making_nil .object nodes texts
  have made : wanted true (jsonMkobject true) m =
      .ok (some m.nodes.brk, { m with nodes := m.nodes.push (blank .object) }) := rfl
  rw [readObject, parseObject, bind_of_ok made]
  refine Ends.gives .object ?_
  dsimp only
  split_ifs
  · exact begun.ends [] _
  · exact ih.members [] _ begun
  · exact begun.fails

theorem Parses.members_succ (ih : Parses libc fuel) (done : List (JsonNode ν)) (s : Bytes)
    (making : Making m m₁ .object parts) :
    Ends m m₁ .object done (parseMembers libc (fuel + 1) done s)
      (readMembers libc true (fuel + 1) (some m.nodes.brk) s m₁) := by
  rw [readMembers, parseMembers]
  cases string : parseString s with
  | none =>
      rw [bind_of_ok (readString_none string)]
      exact making.fails
  | some r =>
      obtain ⟨k, s₁⟩ := r
      have plain : 0 ∉ k := ((isText_iff k).mp (parseString_isText string)).1
      rw [bind_of_ok (readString_some string)]
      dsimp only
      by_cases separated : peek (skipSpace s₁) = colon
      · rw [if_pos separated, if_pos separated]
        have value := ih.value (m := ⟨m₁.nodes, m₁.texts.push (k ++ [0])⟩)
          (skipSpace (skipSpace s₁).tail) making.nodes.fresh (making.texts.fresh.push _)
        cases read : parseValue libc fuel (skipSpace (skipSpace s₁).tail) with
        | none =>
            rw [read] at value
            obtain ⟨m', run, restored⟩ := value
            rw [bind_of_ok run]
            exact making.failsKey restored
        | some r =>
            rw [read] at value
            obtain ⟨m₂, nodes, texts, run, made, tree⟩ := value
            obtain ⟨m₃, appended, child, making₃⟩ := making.member plain made tree
            rw [bind_of_ok run]
            dsimp only
            rw [if_pos rfl, bind_of_ok appended]
            refine Ends.round child ?_
            split_ifs
            · exact making₃.ends _ _
            · exact ih.members _ _ making₃
            · exact making₃.fails
      · rw [if_neg separated, if_neg separated]
        refine making.failsKey (.refl making.nodes.fresh (making.texts.fresh.push _))

/-- The parser does to the memory what it says of the text, at any amount of fuel. -/
theorem parses (libc : Libc ν) (fuel : Nat) : Parses libc fuel := by
  induction fuel with
  | zero =>
      exact ⟨fun _ nodes texts => ⟨_, rfl, .refl nodes texts⟩,
        fun _ nodes texts => ⟨_, rfl, .refl nodes texts⟩, fun _ _ making => making.fails,
        fun _ nodes texts => ⟨_, rfl, .refl nodes texts⟩, fun _ _ making => making.fails⟩
  | succ fuel ih =>
      exact ⟨ih.value_succ, ih.array_succ, ih.elements_succ, ih.object_succ, ih.members_succ⟩

/-- `json_decode` of a text that it accepts makes the nodes that hold the tree, and of another one
it leaves nothing. `json_delete` of what it returned leaves nothing either. -/
theorem jsonDecodeMemory_restores (libc : Libc ν) (json : Bytes) {m : Memory ν}
    (nodes : m.nodes.Fresh) (texts : m.texts.Fresh) :
    ∃ ret m', jsonDecodeMemory libc json m = .ok (ret, m') ∧
      match jsonDecode libc json with
      | none => ret = none ∧ Restored m m'
      | some tree => ∃ a, ret = some a ∧ Holds m' (a < ·) a tree ∧
          (∀ b x, m.nodes.cells b = some x → m'.nodes.cells b = some x) ∧
          (∀ t u, m.texts.cells t = some u → m'.texts.cells t = some u) ∧
          ∃ m'', deleteAny (some a) m' = .ok ((), m'') ∧ Restored m m'' := by
  have value := (parses libc (3 * json.length + 1)).value (skipSpace json) nodes texts
  rw [jsonDecodeMemory]
  cases decoded : jsonDecode libc json with
  | none =>
      rw [jsonDecode] at decoded
      cases read : parseValue libc (3 * json.length + 1) (skipSpace json) with
      | none =>
          rw [read] at value
          obtain ⟨m', run, restored⟩ := value
          rw [bind_of_ok run]
          exact ⟨none, m', rfl, rfl, restored⟩
      | some r =>
          rw [read] at value decoded
          obtain ⟨m', owned, ownedTexts, run, -, made⟩ := value
          obtain ⟨m'', deleted, restored⟩ := made.delete
          dsimp only at decoded
          split_ifs at decoded with ended
          rw [bind_of_ok run]
          dsimp only
          rw [if_neg ended, bind_of_ok deleted]
          exact ⟨none, m'', rfl, rfl, restored⟩
  | some tree =>
      obtain ⟨bare, follows⟩ := jsonDecode_decoded decoded
      rw [jsonDecode] at decoded
      cases read : parseValue libc (3 * json.length + 1) (skipSpace json) with
      | none =>
          rw [read] at decoded
          cases decoded
      | some r =>
          rw [read] at value decoded
          obtain ⟨m', owned, ownedTexts, run, makes, made⟩ := value
          dsimp only at decoded
          split_ifs at decoded with ended
          cases decoded
          obtain ⟨m₁, makes', built⟩ := makeTree_built follows m nodes texts
          cases makes.symm.trans makes'
          have holds := built.holds
          rw [withKey_none bare] at holds
          rw [bind_of_ok run]
          dsimp only
          rw [if_pos ended]
          exact ⟨_, m', rfl, _, rfl, holds, made.nodes.kept, made.texts.kept, made.delete⟩

end

/-- `{"a":[null` -/
def cutText : Bytes := [0x7B, 0x22, 0x61, 0x22, 0x3A, 0x5B, 0x6E, 0x75, 0x6C, 0x6C]

/-- Nothing is left of a text that breaks off in an array that is the value of a member. -/
theorem jsonDecodeMemory_restores_cut :
    ∃ m', jsonDecodeMemory Libc.nat cutText noMemory = .ok (none, m') ∧ Restored noMemory m' := by
  have rejected : jsonDecode Libc.nat cutText = none := rfl
  obtain ⟨ret, m', run, outcome⟩ := jsonDecodeMemory_restores Libc.nat cutText
    (show noMemory.nodes.Fresh from fun _ _ => rfl) (show noMemory.texts.Fresh from fun _ _ => rfl)
  rw [rejected] at outcome
  obtain ⟨rfl, restored⟩ := outcome
  exact ⟨m', run, restored⟩

end AcnSdk.Json.Pointers
