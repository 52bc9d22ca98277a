/-
The chain of parse machines on the heap simulates the stack machine.

* `callProcessByte_follows` — one case for each state function: it meets no fault,
  accepts the byte exactly when `Stack.step` does and leaves a heap that
  represents the new stack.
* `process_follows` — the same for `json_parse_machine_process`, which walks the
  chain and deletes a complete machine on the way.
* `decodeBytes_follows` — the same for any number of bytes.
-/

import AcnSdk.Json.DecodeStack

namespace AcnSdk.Json

open AcnSdk.Lib AcnSdk.Data Ascii Heap

variable {ν : Type} {sm : Addr}

/-! ### Chains and paths -/

/-- A chain depends on the cells of its machines only. -/
theorem Chain.congr {h h' : Heap (Jpm ν)} {p : Option Addr} {t : Addr} {below : List (Open ν)}
    {addrs : List Addr} (chain : Chain sm h p t below addrs)
    (same : ∀ a ∈ addrs, h'.cells a = h.cells a) : Chain sm h' p t below addrs := by
  induction chain with
  | first => exact .first
  | next cell _ ih =>
      refine .next ?_ (ih fun a ha => same a (List.mem_cons_of_mem _ ha))
      rw [same _ List.mem_cons_self]
      exact cell

theorem Chain.length_eq {h : Heap (Jpm ν)} {p : Option Addr} {t : Addr} {below : List (Open ν)}
    {addrs : List Addr} (chain : Chain sm h p t below addrs) : addrs.length = below.length := by
  induction chain with
  | first => rfl
  | next _ _ ih => rw [List.length_cons, List.length_cons, ih]

/-- The machines after the one at `a`, along `node.next`. -/
inductive Path (h : Heap (Jpm ν)) : Addr → List Addr → Prop where
  | last {a : Addr} {m : Jpm ν} (cell : h.cells a = some m) (next : m.next = none) : Path h a []
  | cons {a b : Addr} {m : Jpm ν} {rest : List Addr} (cell : h.cells a = some m)
      (next : m.next = some b) (path : Path h b rest) : Path h a (b :: rest)

/-- The path from the first machine goes through the chain. -/
theorem Chain.path {h : Heap (Jpm ν)} {p : Option Addr} {t : Addr} {below : List (Open ν)}
    {addrs rest : List Addr} (chain : Chain sm h p t below addrs) (path : Path h t rest) :
    ∃ first, Path h sm first ∧ sm :: first = addrs.reverse ++ t :: rest := by
  induction chain generalizing rest with
  | first => exact ⟨rest, path, rfl⟩
  | @next p a t o below addrs cell _ ih =>
      obtain ⟨first, whole, eq⟩ := ih (.cons cell (by simp [Open.jpm]) path)
      exact ⟨first, whole, by rw [eq, List.reverse_cons, List.append_assoc]; rfl⟩

/-- What a rejected byte leaves behind: the chain of machines with its links. -/
def Rejected (sm : Addr) (h : Heap (Jpm ν)) (depth : Nat) : Prop :=
  ∃ path, Path h sm path ∧ (sm :: path).Nodup ∧ (∀ a ∈ sm :: path, a < h.brk) ∧ path.length = depth

/-- What one byte does on the heap is what it does to the stack. -/
def Follows (sm : Addr) (depth : Nat) (result : Except Fault (Int × Heap (Jpm ν)))
    (next : Option (Stack ν)) : Prop :=
  ∃ r h', result = .ok (r, h') ∧ match next with
    | some st => r = 0 ∧ Represents sm h' st
    | none => r = -1 ∧ Rejected sm h' depth

section Busy

variable {h : Heap (Jpm ν)} {st : Stack ν} {p : Option Addr} {t : Addr} {addrs : List Addr}

/-- Another record at the last machine. -/
theorem RepresentsAt.chain_set (rep : RepresentsAt sm h st p t addrs none) (m : Jpm ν) :
    Chain sm (h.set t m) p t st.below addrs := by
  refine rep.chain.congr fun a ha => ?_
  have : a ≠ t := fun e => (List.nodup_cons.mp rep.distinct).1 (e ▸ ha)
  simp [this]

/-- The last machine goes to another mode. -/
theorem RepresentsAt.set_mode (rep : RepresentsAt sm h st p t addrs none) (mode : Mode ν) :
    Represents sm (h.set t (mode.jpm p none)) ⟨mode, st.below⟩ :=
  ⟨p, t, addrs, none,
    { chain := rep.chain_set _
      cell := by simp
      distinct := rep.distinct
      live := rep.live
      done := by simp }⟩

/-- The last machine rejects a byte. -/
theorem RepresentsAt.reject (rep : RepresentsAt sm h st p t addrs none) {m : Jpm ν}
    (next : m.next = none) : Rejected sm (h.set t m) st.below.length := by
  obtain ⟨first, path, eq⟩ := (rep.chain_set m).path (.last (by simp) next)
  have mem : ∀ a, a ∈ sm :: first ↔ a ∈ t :: addrs := by
    intro a
    rw [eq]
    simp [or_comm]
  refine ⟨first, path, ?_, fun a ha => rep.live a ((mem a).mp ha), ?_⟩
  · rw [eq, List.nodup_append_comm, List.singleton_append, List.nodup_cons]
    have := List.nodup_cons.mp rep.distinct
    simpa using this
  · have := congrArg List.length eq
    simp only [List.length_cons, List.length_append, List.length_reverse, List.length_nil,
      rep.chain.length_eq] at this
    omega

theorem RepresentsAt.reject_same (rep : RepresentsAt sm h st p t addrs none) :
    Rejected sm h st.below.length := by
  have same := rep.reject (m := st.mode.jpm p none) (by simp)
  rwa [set_self rep.cell] at same

end Busy

/-! ### The state functions -/

section Functions

variable {h : Heap (Jpm ν)} {st : Stack ν} {p : Option Addr} {t : Addr} {addrs : List Addr}

/-- `jpm_append_to_parent` on a value whose parent machine has the open container
`o`. -/
theorem appendToParent_eq {complete : Bool} {key : Option Bytes} {a : Addr} {o : Open ν}
    {pa : Option Addr} {node : JsonNode ν} (ne : a ≠ t)
    (cell : h.cells t = some ⟨some a, complete, some .valueEnd, none, key, some (mk node), none⟩)
    (cell_a : h.cells a = some (o.jpm pa (some t))) :
    ∃ root, jpmAppendToParent t h =
      .ok (0, (h.set t ⟨some a, complete, some .valueEnd, none, key, root, none⟩).set a
        ((o.attach key node).jpm pa (some t))) := by
  obtain ⟨okey, kind, children⟩ := o
  simp only [Open.jpm, Mode.jpm, Open.node] at cell_a
  have cell_a' : ∀ x, (h.set t x).cells a = h.cells a := fun x => by simp [ne]
  cases kind with
  | array =>
      refine ⟨some ⟨node, true⟩, ?_⟩
      simp [jpmAppendToParent, isArrayContext, jsonAppendElement, read_eq cell, read_eq cell_a,
        mk, JsonNode.tag, update_eq cell, update_eq ((cell_a' _).trans cell_a),
        JsonNode.appendNode, Open.attach, Open.jpm, Open.node, Mode.jpm]
  | object =>
      refine ⟨some ⟨node.withKey key, true⟩, ?_⟩
      simp [jpmAppendToParent, isArrayContext, jsonAppendMember, read_eq cell, read_eq cell_a,
        mk, JsonNode.tag, update_eq cell, update_eq ((cell_a' _).trans cell_a),
        JsonNode.appendNode, Open.attach, Open.jpm, Open.node, Mode.jpm]

/-- The context of a machine is the kind of the container of its parent. -/
theorem isArrayContext_eq {m : Jpm ν} {a : Addr} {o : Open ν} {pa : Option Addr}
    (cell : h.cells t = some m) (parent : m.p = some a)
    (cell_a : h.cells a = some (o.jpm pa (some t))) :
    isArrayContext t h = .ok (o.kind == .array, h) := by
  obtain ⟨okey, kind, children⟩ := o
  simp only [Open.jpm, Mode.jpm, Open.node] at cell_a
  cases kind <;> simp [isArrayContext, read_eq cell, read_eq cell_a, parent, mk, JsonNode.tag]

/-- The first machine has no parent to append to. -/
theorem appendToParent_first {m : Jpm ν} (cell : h.cells t = some m) (parent : m.p = none) :
    jpmAppendToParent t h = .ok (-1, h) := by
  simp [jpmAppendToParent, read_eq cell, parent]

/-- A closing bracket: the container of the parent machine gets its last child, and
this machine waits for its deletion. -/
theorem close_represents {key : Option Bytes} {node : JsonNode ν} {a : Addr} {o : Open ν}
    {pa : Option Addr} {below : List (Open ν)} {addrs : List Addr} {h' : Heap (Jpm ν)} {m : Jpm ν}
    (rep : RepresentsAt sm h ⟨.valueEnd key node, o :: below⟩ (some a) t (a :: addrs) none)
    (chain : Chain sm h pa a below addrs) (brk : h'.brk = h.brk)
    (cell_a : h'.cells a = some ((o.attach key node).jpm pa (some t)))
    (cell_t : h'.cells t = some m) (done : Done m a)
    (others : ∀ b, b ≠ a → b ≠ t → h'.cells b = h.cells b) :
    Represents sm h' ⟨.valueEnd o.key (o.attach key node).node, below⟩ := by
  obtain ⟨t_notin, distinct⟩ := List.nodup_cons.mp rep.distinct
  have a_notin := (List.nodup_cons.mp distinct).1
  refine ⟨pa, a, addrs, some t, ?_, cell_a, distinct, ?_, ?_⟩
  · refine chain.congr fun b hb => others b (fun e => a_notin (e ▸ hb)) fun e => ?_
    exact t_notin (e ▸ List.mem_cons_of_mem _ hb)
  · intro b hb
    rw [brk]
    exact rep.live b (List.mem_cons_of_mem _ hb)
  · rintro c ⟨⟩
    refine ⟨t_notin, ?_, ⟨m, cell_t, done⟩, _, _, _, rfl⟩
    rw [brk]
    exact rep.live _ List.mem_cons_self

/-- A comma: the container of the parent machine gets a child, and this machine
starts again with the next one. -/
theorem comma_represents {key : Option Bytes} {node : JsonNode ν} {a : Addr} {o : Open ν}
    {pa : Option Addr} {below : List (Open ν)} {addrs : List Addr} {h' : Heap (Jpm ν)}
    (rep : RepresentsAt sm h ⟨.valueEnd key node, o :: below⟩ (some a) t (a :: addrs) none)
    (chain : Chain sm h pa a below addrs) (brk : h'.brk = h.brk)
    (cell_a : h'.cells a = some ((o.attach key node).jpm pa (some t)))
    (cell_t : h'.cells t = some (o.childMode.jpm (some a) none))
    (others : ∀ b, b ≠ a → b ≠ t → h'.cells b = h.cells b) :
    Represents sm h' ⟨o.childMode, o.attach key node :: below⟩ := by
  obtain ⟨t_notin, distinct⟩ := List.nodup_cons.mp rep.distinct
  have a_notin := (List.nodup_cons.mp distinct).1
  refine ⟨some a, t, a :: addrs, none, .next cell_a ?_, cell_t, rep.distinct, ?_, by simp⟩
  · refine chain.congr fun b hb => others b (fun e => a_notin (e ▸ hb)) fun e => ?_
    exact t_notin (e ▸ List.mem_cons_of_mem _ hb)
  · intro b hb
    rw [brk]
    exact rep.live b hb

/-- The first machine rejects everything after its value. -/
theorem valueEnd_first {key : Option Bytes} {node : JsonNode ν}
    (rep : RepresentsAt sm h ⟨.valueEnd key node, []⟩ none t addrs none) {byte : Byte}
    (not_space : isSpace byte = false) : ∃ h', jpmValueEnd t byte h = .ok (-1, h') ∧
      Rejected sm h' 0 := by
  have cell : h.cells t = some ⟨none, false, some .valueEnd, none, key, some (mk node), none⟩ :=
    rep.cell
  let m : Jpm ν := ⟨none, true, some .valueEnd, none, key, some (mk node), none⟩
  have reject : Rejected sm (h.set t m) 0 := rep.reject rfl
  have fails := appendToParent_first cell rfl
  have fails' : jpmAppendToParent t (h.set t m) = .ok (-1, h.set t m) :=
    appendToParent_first (m := m) (by simp) rfl
  unfold jpmValueEnd
  simp only [not_space, Bool.false_eq_true, if_false]
  by_cases brace : byte = rbrace
  · refine ⟨_, ?_, reject⟩
    rw [if_pos brace]
    simp only [bind_apply, update_eq cell, ok_bind, fails', m]
    rfl
  by_cases brack : byte = rbrack
  · refine ⟨_, ?_, reject⟩
    rw [if_neg brace, if_pos brack]
    simp only [bind_apply, update_eq cell, ok_bind, fails', m]
    rfl
  by_cases sep : byte = comma
  · refine ⟨h, ?_, rep.reject_same⟩
    rw [if_neg brace, if_neg brack, if_pos sep]
    simp only [bind_apply, fails]
    rfl
  · refine ⟨h, ?_, rep.reject_same⟩
    rw [if_neg brace, if_neg brack, if_neg sep]
    rfl

section Inner

variable {key : Option Bytes} {node : JsonNode ν} {a : Addr} {o : Open ν} {pa : Option Addr}
  (ne : a ≠ t)
  (cell : h.cells t = some ⟨some a, false, some .valueEnd, none, key, some (mk node), none⟩)
  (cell_a : h.cells a = some (o.jpm pa (some t)))

include ne cell cell_a

/-- `jpm_value_end` on a closing bracket. -/
theorem valueEnd_close {byte : Byte} (close : byte = rbrace ∨ byte = rbrack) : ∃ root fn,
    jpmValueEnd t byte h =
      .ok (0, ((h.set t ⟨some a, true, some .valueEnd, none, key, root, none⟩).set a
        ((o.attach key node).jpm pa (some t))).set t
          ⟨some a, true, fn, none, none, none, none⟩) := by
  let m : Jpm ν := ⟨some a, true, some .valueEnd, none, key, some (mk node), none⟩
  have cell_m : (h.set t m).cells t = some m := by simp
  obtain ⟨root, appended⟩ := appendToParent_eq (o := o) ne cell_m (by simpa [ne] using cell_a)
  rw [set_set] at appended
  have cell' : ∀ x y : Jpm ν, ((h.set t x).set a y).cells t = some x := by
    intro x y
    simp [ne.symm]
  rcases close with rfl | rfl
  · refine ⟨root, some .valueEnd, ?_⟩
    simp [jpmValueEnd, isSpace, rbrace, tab, lf, cr, Ascii.space, update_eq cell, appended, m,
      update_eq (cell' _ _)]
  · refine ⟨root, none, ?_⟩
    simp [jpmValueEnd, isSpace, rbrace, rbrack, tab, lf, cr, Ascii.space, update_eq cell, appended,
      m, update_eq (cell' _ _)]

/-- `jpm_value_end` on a comma. -/
theorem valueEnd_comma : ∃ root,
    jpmValueEnd t comma h =
      .ok (0, ((h.set t ⟨some a, false, some .valueEnd, none, key, root, none⟩).set a
        ((o.attach key node).jpm pa (some t))).set t (o.childMode.jpm (some a) none)) := by
  obtain ⟨root, appended⟩ := appendToParent_eq ne cell cell_a
  refine ⟨root, ?_⟩
  have cell' : ∀ x y : Jpm ν, ((h.set t x).set a y).cells t = some x := by
    intro x y
    simp [ne.symm]
  have cell'' : ∀ x y z : Jpm ν, (((h.set t x).set a y).set t z).cells t = some z := by
    intro x y z
    simp
  have context : ∀ x z : Jpm ν, z.p = some a →
      isArrayContext t (((h.set t x).set a ((o.attach key node).jpm pa (some t))).set t z) =
        .ok (o.kind == .array, ((h.set t x).set a ((o.attach key node).jpm pa (some t))).set t z) :=
    fun x z parent => isArrayContext_eq (o := o.attach key node) (by simp) parent
      (show _ = some ((o.attach key node).jpm pa (some t)) by simp [ne])
  obtain ⟨okey, kind, children⟩ := o
  cases kind <;>
    simp [jpmValueEnd, isSpace, rbrace, rbrack, comma, tab, lf, cr, Ascii.space, appended,
      update_eq (cell' _ _), update_eq (cell'' _ _ _), context, jsonParseMachineInit,
      Open.childMode, Mode.jpm]

end Inner

/-- `jpm_value_end`. -/
theorem valueEnd_follows {key : Option Bytes} {node : JsonNode ν} {below : List (Open ν)}
    (rep : RepresentsAt sm h ⟨.valueEnd key node, below⟩ p t addrs none) (byte : Byte) :
    Follows sm below.length (jpmValueEnd t byte h) (Stack.stepValueEnd key node below byte) := by
  by_cases space : isSpace byte = true
  · rw [Stack.stepValueEnd.eq_def, jpmValueEnd, if_pos space, if_pos space]
    exact ⟨0, h, rfl, rfl, p, t, addrs, none, rep⟩
  rw [Stack.stepValueEnd.eq_def, if_neg space]
  have chain := rep.chain
  cases chain with
  | first =>
      obtain ⟨h', result, rejected⟩ := valueEnd_first rep (by simpa using space)
      exact ⟨-1, h', result, rfl, rejected⟩
  | @next pa a _ o below addrs cell_a chain =>
      have ne : a ≠ t := fun e => (List.nodup_cons.mp rep.distinct).1 (e ▸ List.mem_cons_self)
      have cell : h.cells t =
          some ⟨some a, false, some .valueEnd, none, key, some (mk node), none⟩ :=
        rep.cell
      have others : ∀ (x y z : Jpm ν) b, b ≠ a → b ≠ t →
          (((h.set t x).set a y).set t z).cells b = h.cells b := by
        intro x y z b ha ht
        simp [ha, ht]
      by_cases close : byte = rbrace ∨ byte = rbrack
      · obtain ⟨root, fn, result⟩ := valueEnd_close ne cell cell_a close
        simp only [close, if_true]
        exact ⟨0, _, result, rfl, close_represents (m := ⟨some a, true, fn, none, none, none, none⟩)
          rep chain rfl (by simp [ne]) (by simp) ⟨rfl, rfl, rfl, rfl⟩ (others _ _ _)⟩
      simp only [close, if_false]
      by_cases sep : byte = comma
      · subst sep
        obtain ⟨root, result⟩ := valueEnd_comma ne cell cell_a
        exact ⟨0, _, result, rfl, comma_represents rep chain rfl (by simp [ne]) (by simp)
          (others _ _ _)⟩
      · simp only [sep, if_false]
        refine ⟨-1, h, ?_, rfl, rep.reject_same⟩
        obtain ⟨brace, brack⟩ := not_or.mp close
        rw [jpmValueEnd, if_neg space, if_neg brace, if_neg brack, if_neg sep]
        rfl

/-- A step that only changes the mode of the last machine. -/
theorem RepresentsAt.follows_mode (rep : RepresentsAt sm h st p t addrs none) (mode : Mode ν)
    {result : Except Fault (Int × Heap (Jpm ν))} {depth : Nat}
    (eq : result = .ok (0, h.set t (mode.jpm p none))) :
    Follows sm depth result (some ⟨mode, st.below⟩) :=
  ⟨0, _, eq, rfl, rep.set_mode mode⟩

/-- A step that leaves everything as it is. -/
theorem RepresentsAt.follows_same (rep : RepresentsAt sm h st p t addrs none)
    {result : Except Fault (Int × Heap (Jpm ν))} {depth : Nat} (eq : result = .ok (0, h)) :
    Follows sm depth result (some st) :=
  ⟨0, h, eq, rfl, p, t, addrs, none, rep⟩

/-- A step that rejects the byte and leaves everything as it is. -/
theorem RepresentsAt.follows_reject (rep : RepresentsAt sm h st p t addrs none)
    {result : Except Fault (Int × Heap (Jpm ν))} (eq : result = .ok (-1, h)) :
    Follows sm st.below.length result none :=
  ⟨-1, h, eq, rfl, rep.reject_same⟩

/-- `jpm_number_body`. -/
theorem numberBody_follows {libc : Libc ν} {key : Option Bytes} {buffer : Bytes}
    {below : List (Open ν)}
    (rep : RepresentsAt sm h ⟨.numberBody key buffer, below⟩ p t addrs none) (byte : Byte) :
    Follows sm below.length (jpmNumberBody libc t byte h)
      (Stack.stepNumberBody libc key buffer below byte) := by
  have cell : h.cells t = some ⟨p, false, some .numberBody, some buffer, key, none, none⟩ :=
    rep.cell
  unfold jpmNumberBody Stack.stepNumberBody
  by_cases digit : (isDigit byte || byte == dot) = true
  · simp only [digit, if_true]
    refine rep.follows_mode (.numberBody key (buffer ++ [byte])) ?_
    simp [read_eq cell, write_eq cell, sbPutc, Mode.jpm]
  · let node : JsonNode ν := .scalar none (.number (libc.strtod (cstr buffer)))
    have result : (jpmNumberBody libc t byte) h =
        jpmValueEnd t byte (h.set t ((Mode.valueEnd key node).jpm p none)) := by
      simp [jpmNumberBody, digit, read_eq cell, write_eq cell, Mode.jpm, node]
    have rep' : RepresentsAt sm (h.set t ((Mode.valueEnd key node).jpm p none))
        ⟨.valueEnd key node, below⟩ p t addrs none :=
      { chain := rep.chain_set _
        cell := by simp
        distinct := rep.distinct
        live := rep.live
        done := by simp }
    simp only [digit, Bool.false_eq_true, if_false]
    unfold jpmNumberBody at result
    simp only [digit, Bool.false_eq_true, if_false] at result
    rw [result]
    exact valueEnd_follows rep' byte

/-- The `'{'` and `'['` cases of `jpm_value_init`. -/
theorem open_follows {key : Option Bytes} {below : List (Open ν)}
    (rep : RepresentsAt sm h ⟨.valueInit key, below⟩ p t addrs none) (kind : Container)
    {fn : JpmFn} {mode : Mode ν} {depth : Nat}
    (first : ∀ p : Option Addr, mode.jpm p none = ⟨p, false, some fn, none, none, none, none⟩) :
    Follows sm depth (jpmOpen kind fn t h) (some ⟨mode, ⟨key, kind, []⟩ :: below⟩) := by
  have cell : h.cells t = some ⟨p, false, some .valueInit, none, key, none, none⟩ := rep.cell
  have live := rep.live t List.mem_cons_self
  have ne : t ≠ h.brk := Nat.ne_of_lt live
  -- the heap with the machine of the children
  let h₁ : Heap (Jpm ν) :=
    { cells := fun b => if b = h.brk then some jsonParseMachineInit else h.cells b,
      brk := h.brk + 1 }
  have cell₁ : h₁.cells t = some ⟨p, false, some .valueInit, none, key, none, none⟩ := by
    simp [h₁, ne, cell]
  have child₁ : h₁.cells h.brk = some jsonParseMachineInit := by simp [h₁]
  let m₂ : Jpm ν := ⟨p, false, some .valueInit, none, key, none, some h.brk⟩
  let h₂ := (h₁.set h.brk jsonParseMachineInit).set t m₂
  have added : arrowLinkedListAdd (jpmLink ν) (some t) h.brk h₁ = .ok (some t, h₂) :=
    arrowLinkedListAdd_last cell₁ child₁ ne rfl
  have cell₂ : h₂.cells t = some m₂ := by simp [h₂]
  have child₂ : h₂.cells h.brk = some jsonParseMachineInit := by simp [h₂, ne.symm]
  let c : Jpm ν := ⟨some t, false, some fn, none, none, none, none⟩
  let m : Jpm ν := (Open.mk key kind []).jpm p (some h.brk)
  obtain ⟨h', result, brk, cell', child', others⟩ : ∃ h', jpmOpen kind fn t h = .ok (0, h') ∧
      h'.brk = h.brk + 1 ∧ h'.cells t = some m ∧ h'.cells h.brk = some c ∧
      ∀ b, b ≠ t → b ≠ h.brk → h'.cells b = h.cells b := by
    let c₁ : Jpm ν := ⟨none, false, some fn, none, none, none, none⟩
    let m₁ : Jpm ν := ⟨p, false, some .valueInit, none, key, some (mk (.container none kind [])),
      some h.brk⟩
    have allocated : alloc (jsonParseMachineInit : Jpm ν) h = .ok (h.brk, h₁) := rfl
    have cell₃ : (h₂.set h.brk c₁).cells t = some m₂ := by simp [ne, cell₂]
    have child₄ : ((h₂.set h.brk c₁).set t m₁).cells h.brk = some c₁ := by simp [ne.symm]
    have cell₅ : (((h₂.set h.brk c₁).set t m₁).set h.brk c).cells t = some m₁ := by simp [ne]
    refine ⟨(((h₂.set h.brk c₁).set t m₁).set h.brk c).set t m, ?_, rfl, by simp, ?_, ?_⟩
    · simp only [jpmOpen, bind_apply, allocated, ok_bind, added, update_eq child₂]
      exact (congrArg₂ Except.bind (update_eq cell₃ _) rfl).trans <|
        (congrArg₂ Except.bind (update_eq child₄ _) rfl).trans <|
          congrArg₂ Except.bind (update_eq cell₅ _) rfl
    · simp [ne.symm]
    · intro b hb hb'
      simp [hb, hb', h₂, h₁]
  refine ⟨0, h', result, rfl, some t, h.brk, t :: addrs, none, ?_⟩
  have fresh : ∀ b ∈ t :: addrs, b ≠ h.brk := fun b hb => Nat.ne_of_lt (rep.live b hb)
  have t_notin := (List.nodup_cons.mp rep.distinct).1
  exact
    { chain := .next cell' (rep.chain.congr fun b hb =>
        others b (fun e => t_notin (e ▸ hb)) (fresh b (List.mem_cons_of_mem _ hb)))
      cell := by rw [child', first]
      distinct := List.nodup_cons.mpr ⟨fun mem => fresh _ mem rfl, rep.distinct⟩
      live := by
        intro b hb
        rw [brk]
        rcases List.mem_cons.mp hb with rfl | hb
        · exact Nat.lt_succ_self _
        · exact Nat.lt_succ_of_lt (rep.live b hb)
      done := by simp }

/-- `jpm_value_init`. -/
theorem valueInit_follows {libc : Libc ν} {key : Option Bytes} {below : List (Open ν)}
    (rep : RepresentsAt sm h ⟨.valueInit key, below⟩ p t addrs none) (byte : Byte) :
    Follows sm below.length (jpmValueInit libc t byte h)
      (Stack.stepValueInit libc key below byte) := by
  have cell : h.cells t = some ⟨p, false, some .valueInit, none, key, none, none⟩ := rep.cell
  unfold jpmValueInit Stack.stepValueInit
  by_cases space : isSpace byte = true
  · simp only [space, if_true]
    exact rep.follows_same rfl
  by_cases brace : byte = lbrace
  · rw [if_neg space, if_neg space, if_pos brace, if_pos brace]
    exact open_follows rep .object fun _ => rfl
  by_cases quote : byte = dquote
  · rw [if_neg space, if_neg space, if_neg brace, if_neg brace, if_pos quote, if_pos quote]
    exact rep.follows_mode (.stringBody key []) (by simp [update_eq cell, Mode.jpm])
  by_cases f : byte = 0x66
  · rw [if_neg space, if_neg space, if_neg brace, if_neg brace, if_neg quote, if_neg quote,
      if_pos f, if_pos f]
    exact rep.follows_mode (.literal key .falseA)
      (by simp [update_eq cell, Mode.jpm, Literal.fn])
  by_cases tr : byte = 0x74
  · rw [if_neg space, if_neg space, if_neg brace, if_neg brace, if_neg quote, if_neg quote,
      if_neg f, if_neg f, if_pos tr, if_pos tr]
    exact rep.follows_mode (.literal key .trueR)
      (by simp [update_eq cell, Mode.jpm, Literal.fn])
  by_cases brack : byte = lbrack
  · rw [if_neg space, if_neg space, if_neg brace, if_neg brace, if_neg quote, if_neg quote,
      if_neg f, if_neg f, if_neg tr, if_neg tr, if_pos brack, if_pos brack]
    exact open_follows rep .array fun _ => rfl
  · rw [if_neg space, if_neg space, if_neg brace, if_neg brace, if_neg quote, if_neg quote,
      if_neg f, if_neg f, if_neg tr, if_neg tr, if_neg brack, if_neg brack]
    have rep' : RepresentsAt sm (h.set t ((Mode.numberBody key []).jpm p none))
        ⟨.numberBody key [], below⟩ p t addrs none :=
      { chain := rep.chain_set _
        cell := by simp
        distinct := rep.distinct
        live := rep.live
        done := by simp }
    simp only [bind_apply, update_eq cell, ok_bind]
    exact numberBody_follows rep' byte

/-- A byte that the last machine handles. -/
theorem callProcessByte_follows (libc : Libc ν) (rep : RepresentsAt sm h st p t addrs none)
    (byte : Byte) : ∃ fn, (st.mode.jpm p none).processByte = some fn ∧
      Follows sm st.below.length (callProcessByte libc fn t byte h) (st.step libc byte) := by
  obtain ⟨mode, below⟩ := st
  have cell := rep.cell
  cases mode with
  | valueInit key => exact ⟨_, rfl, valueInit_follows rep byte⟩
  | valueEnd key node => exact ⟨_, rfl, valueEnd_follows rep byte⟩
  | numberBody key buffer => exact ⟨_, rfl, numberBody_follows rep byte⟩
  | stringBody key buffer =>
      refine ⟨_, rfl, ?_⟩
      simp only [Mode.jpm] at cell
      simp only [callProcessByte, jpmStringBody, Stack.step]
      by_cases esc : byte = bslash
      · simp only [esc, if_true]
        exact rep.follows_mode (.stringEscape key buffer)
          (by simp [read_eq cell, write_eq cell, Mode.jpm])
      by_cases quote : byte = dquote
      · rw [if_neg esc, if_pos quote]
        exact rep.follows_mode (.valueEnd key (.scalar none (.string (cstr buffer))))
          (by simp [read_eq cell, write_eq cell, Mode.jpm, quote, dquote, bslash])
      · rw [if_neg esc, if_neg quote]
        exact rep.follows_mode (.stringBody key (buffer ++ [byte]))
          (by simp [read_eq cell, write_eq cell, Mode.jpm, esc, quote, sbPutc])
  | stringEscape key buffer =>
      refine ⟨_, rfl, ?_⟩
      simp only [Mode.jpm] at cell
      exact rep.follows_mode (.stringBody key (buffer ++ [escapeByte byte]))
        (by simp [callProcessByte, jpmStringEscape, read_eq cell, write_eq cell, Mode.jpm, sbPutc])
  | literal key state =>
      refine ⟨state.fn, rfl, ?_⟩
      simp only [Mode.jpm] at cell
      simp only [Stack.step]
      by_cases eq : byte = state.sym
      · rw [if_pos eq]
        cases state <;>
          simp only [Literal.sym, Literal.fn, Literal.next, callProcessByte, jpmBoolStateChar,
            jpmBoolE] at eq cell ⊢
        case falseE =>
          exact rep.follows_mode (.valueEnd key (.scalar none (.bool false)))
            (by simp [update_eq cell, Mode.jpm, eq])
        case trueE =>
          exact rep.follows_mode (.valueEnd key (.scalar none (.bool true)))
            (by simp [update_eq cell, Mode.jpm, eq])
        case falseA =>
          exact rep.follows_mode (.literal key .falseL)
            (by simp [update_eq cell, Mode.jpm, eq, Literal.fn])
        case falseL =>
          exact rep.follows_mode (.literal key .falseS)
            (by simp [update_eq cell, Mode.jpm, eq, Literal.fn])
        case falseS =>
          exact rep.follows_mode (.literal key .falseE)
            (by simp [update_eq cell, Mode.jpm, eq, Literal.fn])
        case trueR =>
          exact rep.follows_mode (.literal key .trueU)
            (by simp [update_eq cell, Mode.jpm, eq, Literal.fn])
        case trueU =>
          exact rep.follows_mode (.literal key .trueE)
            (by simp [update_eq cell, Mode.jpm, eq, Literal.fn])
      · rw [if_neg eq]
        refine rep.follows_reject ?_
        cases state <;>
          simp only [Literal.sym] at eq <;>
          simp [Literal.fn, callProcessByte, jpmBoolStateChar, jpmBoolE, eq]
  | keyInit =>
      refine ⟨_, rfl, ?_⟩
      simp only [Mode.jpm] at cell
      simp only [callProcessByte, jpmKeyInit, Stack.step]
      by_cases space : isSpace byte = true
      · simp only [space, if_true]
        exact rep.follows_same rfl
      by_cases quote : byte = dquote
      · rw [if_neg space, if_neg space, if_pos quote, if_pos quote]
        exact rep.follows_mode (.keyBody []) (by simp [update_eq cell, Mode.jpm])
      · rw [if_neg space, if_neg space, if_neg quote, if_neg quote]
        exact rep.follows_reject rfl
  | keyBody buffer =>
      refine ⟨_, rfl, ?_⟩
      simp only [Mode.jpm] at cell
      simp only [callProcessByte, jpmKeyBody, Stack.step]
      by_cases quote : byte = dquote
      · simp only [quote, if_true]
        exact rep.follows_mode (.keyEnd (cstr buffer))
          (by simp [read_eq cell, write_eq cell, Mode.jpm])
      · simp only [quote, if_false]
        exact rep.follows_mode (.keyBody (buffer ++ [byte]))
          (by simp [read_eq cell, write_eq cell, Mode.jpm, sbPutc])
  | keyEnd key =>
      refine ⟨_, rfl, ?_⟩
      simp only [Mode.jpm] at cell
      simp only [callProcessByte, jpmKeyEnd, Stack.step]
      by_cases space : isSpace byte = true
      · simp only [space, if_true]
        exact rep.follows_same rfl
      by_cases sep : byte = colon
      · rw [if_neg space, if_neg space, if_pos sep, if_pos sep]
        exact rep.follows_mode (.valueInit (some key)) (by simp [update_eq cell, Mode.jpm])
      · rw [if_neg space, if_neg space, if_neg sep, if_neg sep]
        exact rep.follows_reject rfl

end Functions

/-! ### The chain -/

section Process

variable {libc : Libc ν} {h : Heap (Jpm ν)} {st : Stack ν} {p : Option Addr} {t : Addr}
  {addrs : List Addr}

/-- The byte is passed on to the last busy machine. -/
theorem Chain.process_eq {below : List (Open ν)} (chain : Chain sm h p t below addrs) {m : Jpm ν}
    (cell : h.cells t = some m) (busy : m.complete = false) (fuel : Nat) (byte : Byte) :
    jsonParseMachineProcessFrom libc (fuel + addrs.length) sm byte h =
      jsonParseMachineProcessFrom libc fuel t byte h := by
  induction chain generalizing fuel m with
  | first => rfl
  | @next p a t o below addrs cell_a _ ih =>
      have eq : fuel + (a :: addrs).length = fuel + 1 + addrs.length := by
        rw [List.length_cons]
        omega
      rw [eq, ih cell_a (by simp [Open.jpm])]
      simp [jsonParseMachineProcessFrom, read_eq cell_a, Open.jpm, read_eq cell, busy]

/-- A complete machine after the last busy one is deleted first. -/
theorem RepresentsAt.delete {c : Addr} (rep : RepresentsAt sm h st p t addrs (some c))
    (libc : Libc ν) (fuel : Nat)
    (byte : Byte) : ∃ h', jsonParseMachineProcessFrom libc (fuel + 1) t byte h =
      jsonParseMachineProcessFrom libc fuel t byte h' ∧ RepresentsAt sm h' st p t addrs none := by
  obtain ⟨c_notin, -, ⟨m, cell_c, done⟩, -⟩ := rep.done c rfl
  have cell := rep.cell
  have ne : t ≠ c := fun e => c_notin (e ▸ List.mem_cons_self)
  have unlinked : ({ st.mode.jpm p (some c) with next := m.next } : Jpm ν) =
      st.mode.jpm p none := by
    rw [done.next]
    cases st.mode <;> rfl
  have deleted : arrowLinkedListDel (jpmLink ν) t c h =
      .ok (some t, h.set t (st.mode.jpm p none)) := by
    rw [← unlinked]
    exact arrowLinkedListDel_second cell cell_c ne (by simp [jpmLink])
  have cell_c' : (h.set t (st.mode.jpm p none)).cells c = some m := by simp [ne.symm, cell_c]
  let h' := ((h.set t (st.mode.jpm p none)).set c (jsonParseMachineFin m)).erase c
  have freed : free c ((h.set t (st.mode.jpm p none)).set c (jsonParseMachineFin m)) =
      .ok ((), h') := free_eq (x := jsonParseMachineFin m) (by simp)
  refine ⟨h', ?_, ?_⟩
  · rw [jsonParseMachineProcessFrom]
    simp [read_eq cell, read_eq cell_c, done.complete, deleted, update_eq cell_c', freed]
  · have others : ∀ b ∈ addrs, h'.cells b = h.cells b := by
      intro b hb
      have ne_c : b ≠ c := fun e => c_notin (e ▸ List.mem_cons_of_mem _ hb)
      have ne_t : b ≠ t := fun e => (List.nodup_cons.mp rep.distinct).1 (e ▸ hb)
      simp [h', ne_c, ne_t]
    exact
      { chain := rep.chain.congr others
        cell := by simp [h', ne]
        distinct := rep.distinct
        live := rep.live
        done := by simp }

/-- What `json_parse_machine_process` does on a heap that represents a stack is what
the byte does to the stack. -/
theorem process_follows (libc : Libc ν) (rep : Represents sm h st) (byte : Byte) :
    Follows sm st.below.length (jsonParseMachineProcess libc sm byte h) (st.step libc byte) := by
  obtain ⟨p, t, addrs, done, rep⟩ := rep
  have short : (t :: addrs).length ≤ h.brk := length_le_of_nodup rep.distinct rep.live
  obtain ⟨k, fuel⟩ : ∃ k : Nat, h.brk + 2 = k + 2 + addrs.length := by
    rw [List.length_cons] at short
    exact ⟨h.brk - addrs.length, by omega⟩
  have walk : jsonParseMachineProcess libc sm byte h =
      jsonParseMachineProcessFrom libc (k + 2) t byte h := by
    simp only [jsonParseMachineProcess, bind_apply, bound_apply, ok_bind, fuel]
    exact rep.chain.process_eq rep.cell (by simp) _ byte
  rw [walk]
  have last : ∀ {h : Heap (Jpm ν)} (fuel : Nat), RepresentsAt sm h st p t addrs none →
      Follows sm st.below.length (jsonParseMachineProcessFrom libc (fuel + 1) t byte h)
        (st.step libc byte) := by
    intro h fuel rep
    obtain ⟨fn, process, follows⟩ := callProcessByte_follows libc rep byte
    have eq : jsonParseMachineProcessFrom libc (fuel + 1) t byte h =
        callProcessByte libc fn t byte h := by
      rw [jsonParseMachineProcessFrom]
      simp [read_eq rep.cell, process]
    rw [eq]
    exact follows
  cases done with
  | none => exact last (k + 1) rep
  | some c =>
      obtain ⟨h', eq, rep'⟩ := rep.delete libc (k + 1) byte
      rw [eq]
      exact last k rep'

/-- The heap with the caller's machine only, at address 0. -/
def callerHeap : Heap (Jpm ν) where
  cells a := if a = 0 then some jsonParseMachineInit else none
  brk := 1

/-- A decoder just initialised. -/
theorem init_represents {x : Jpm ν} (cell : h.cells sm = some x) (live : sm < h.brk) :
    ∃ h', jsonDecodeInit sm h = .ok (0, h') ∧ Represents sm h' (Stack.init : Stack ν) := by
  refine ⟨h.set sm jsonParseMachineInit, by simp [jsonDecodeInit, write_eq cell], none, sm,
    [], none,
    .first, by simp [Stack.init, Mode.jpm, jsonParseMachineInit], by simp, by
      simpa using live, by simp⟩

/-- Bytes that the stack machine accepts are accepted, and lead to a heap that
represents the stack. -/
theorem decodeBytes_follows (libc : Libc ν) (rep : Represents sm h st) (bytes : Bytes) :
    match st.run libc bytes with
    | some st' => ∃ h', jsonDecodeBytes libc sm bytes h = .ok (true, h') ∧ Represents sm h' st'
    | none => ∃ h' front byte back st', bytes = front ++ byte :: back ∧
        st.run libc front = some st' ∧
        st'.step libc byte = none ∧ jsonDecodeBytes libc sm bytes h = .ok (false, h') ∧
        Rejected sm h' st'.below.length := by
  induction bytes generalizing h st with
  | nil => exact ⟨h, rfl, rep⟩
  | cons byte rest ih =>
      obtain ⟨r, h', result, next⟩ := process_follows libc rep byte
      rw [Stack.run_cons]
      cases stepped : st.step libc byte with
      | none =>
          rw [stepped] at next
          obtain ⟨rfl, rejected⟩ := next
          refine ⟨h', [], byte, rest, st, rfl, rfl, stepped, ?_, rejected⟩
          simp [jsonDecodeBytes, result]
      | some st₁ =>
          rw [stepped] at next
          obtain ⟨rfl, rep₁⟩ := next
          have rest_eq : jsonDecodeBytes libc sm (byte :: rest) h =
              jsonDecodeBytes libc sm rest h' := by
            simp [jsonDecodeBytes, result]
          have tail := ih rep₁
          rw [Option.bind_some, rest_eq]
          cases ran : st₁.run libc rest with
          | some st' =>
              rw [ran] at tail
              exact tail
          | none =>
              rw [ran] at tail
              obtain ⟨h'', front, b, back, st', rfl, fronted, failed, decoded, rejected⟩ := tail
              exact ⟨h'', byte :: front, b, back, st',
                rfl, by rw [Stack.run_cons, stepped]; exact fronted,
                failed, decoded, rejected⟩

end Process

end AcnSdk.Json
