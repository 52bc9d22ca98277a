/-
The invariant of the chain of parse machines.

`ChainOk` is what the machines reachable from the caller's machine look like as
long as no byte was rejected: parent pointers are the inverse of the links, every
machine but the last has a container and waits behind it, only the last one can be
complete, and a key is pending only below an object. `chain_invariant` shows it for
every sequence of accepted bytes, and that the next byte meets no fault whatever
it is: no NULL or released machine is followed and no assertion of
`json_append_element` or `json_append_member` fails.
-/

import AcnSdk.Json.DecodeChain

namespace AcnSdk.Json

open AcnSdk.Lib AcnSdk.Data Ascii Heap

variable {ν : Type}

/-! ### Keys -/

/-- The innermost container is an object. -/
def inObject : List (Open ν) → Bool
  | o :: _ => o.kind == .object
  | [] => false

/-- Open containers have a key only inside an object. -/
def belowKeyed : List (Open ν) → Bool
  | [] => true
  | o :: below => (!o.key.isSome || inObject below) && belowKeyed below

/-- Keys are read and pending only inside an object. -/
def Stack.keyed (st : Stack ν) : Bool :=
  (!st.mode.keyed || inObject st.below) && belowKeyed st.below

theorem Stack.keyed_iff (st : Stack ν) :
    st.keyed = true ↔ (st.mode.keyed = true → inObject st.below = true) ∧
    belowKeyed st.below = true := by
  simp [Stack.keyed, ← Bool.not_eq_true, imp_iff_not_or]

/-- A byte keeps the keys inside objects. -/
theorem step_keyed {libc : Libc ν} {st st' : Stack ν} {byte : Byte} (keyed : st.keyed = true)
    (step : st.step libc byte = some st') : st'.keyed = true := by
  rw [Stack.keyed_iff] at keyed ⊢
  obtain ⟨top, outer⟩ := keyed
  rcases Stack.step_cases step with ⟨mode, rfl, inner⟩ | ⟨key, kind, at_init, rfl⟩ |
    ⟨key, node, o, rest, -, below, rfl | rfl⟩
  · exact ⟨fun has_key => top (inner.keyed_eq ▸ has_key), outer⟩
  · rw [at_init] at top
    refine ⟨fun has_key => ?_, ?_⟩
    · cases kind with
      | array => cases has_key
      | object => rfl
    · simp only [belowKeyed, Bool.and_eq_true, Bool.or_eq_true, Bool.not_eq_true']
      refine ⟨?_, outer⟩
      cases key with
      | none => exact .inl rfl
      | some k => exact .inr (top rfl)
  · rw [below] at outer
    simp only [belowKeyed, Bool.and_eq_true, Bool.or_eq_true, Bool.not_eq_true'] at outer
    refine ⟨fun has_key => ?_, outer.2⟩
    rcases outer.1 with none | inside
    · simp only [Mode.keyed, none] at has_key
      cases has_key
    · exact inside
  · rw [below] at outer
    refine ⟨fun has_key => ?_, ?_⟩
    · cases kind : o.kind with
      | array => simp [Open.childMode, kind, Mode.keyed] at has_key
      | object => simp [inObject, Open.attach, kind]
    · exact outer

theorem run_keyed {libc : Libc ν} {st st' : Stack ν} {bytes : Bytes} (keyed : st.keyed = true)
    (run : st.run libc bytes = some st') : st'.keyed = true := by
  induction bytes generalizing st with
  | nil =>
      cases run
      exact keyed
  | cons byte rest ih =>
      rw [Stack.run_cons] at run
      obtain ⟨st₁, step, rest_run⟩ := Option.bind_eq_some_iff.mp run
      exact ih (step_keyed keyed step) rest_run

/-! ### The chain -/

section ChainOk

variable {sm : Addr} {h : Heap (Jpm ν)}

/-- The root of a machine is a container. -/
def Jpm.HasContainer (m : Jpm ν) : Prop :=
  ∃ root, m.root = some root ∧ (root.node.tag = .array ∨ root.node.tag = .object)

/-- The root of a machine is an object. -/
def Jpm.HasObject (m : Jpm ν) : Prop := ∃ root, m.root = some root ∧ root.node.tag = .object

/-- A key is pending only if the root of the parent machine is an object. -/
def KeyOk (h : Heap (Jpm ν)) (parent : Option Addr) (m : Jpm ν) : Prop :=
  m.key.isSome → ∃ a pm, parent = some a ∧ h.cells a = some pm ∧ pm.HasObject

/-- The machine at an address, whose parent has the address `parent`, and the
machines after it. -/
inductive ChainOk (h : Heap (Jpm ν)) : Option Addr → Addr → List Addr → Prop where
  | last {parent : Option Addr} {a : Addr} {m : Jpm ν} (cell : h.cells a = some m)
      (p : m.p = parent) (next : m.next = none) (complete : m.complete = true → parent.isSome)
      (key : KeyOk h parent m) : ChainOk h parent a []
  | cons {parent : Option Addr} {a b : Addr} {m : Jpm ν} {rest : List Addr}
      (cell : h.cells a = some m) (p : m.p = parent) (next : m.next = some b)
      (busy : m.complete = false) (state : m.processByte = some .valueEnd) (root : m.HasContainer)
      (key : KeyOk h parent m) (chain : ChainOk h (some a) b rest) : ChainOk h parent a (b :: rest)

theorem HasContainer_jpm (key : Option Bytes) (kind : Container) (children : List (JsonNode ν))
    (p next : Option Addr) :
    ((Mode.valueEnd key (.container none kind children)).jpm p next).HasContainer := by
  refine ⟨_, rfl, ?_⟩
  cases kind with
  | array => exact .inl rfl
  | object => exact .inr rfl

/-- The parent machine of a value inside an object has that object. -/
theorem Chain.hasObject {p : Option Addr} {t : Addr} {below : List (Open ν)} {addrs : List Addr}
    (chain : Chain sm h p t below addrs) (inside : inObject below = true) :
    ∃ a pm, p = some a ∧ h.cells a = some pm ∧ pm.HasObject := by
  cases chain with
  | first => cases inside
  | @next p a t o below addrs cell chain =>
      refine ⟨a, _, rfl, cell, _, rfl, ?_⟩
      have object : o.kind = .object := by simpa [inObject] using inside
      simp [mk, Open.node, object, JsonNode.tag]

/-- The invariant of the machines from `t` on extends to the whole chain. -/
theorem Chain.chainOk {p : Option Addr} {t : Addr} {below : List (Open ν)} {addrs rest : List Addr}
    (chain : Chain sm h p t below addrs) (keyed : belowKeyed below = true)
    (ok : ChainOk h p t rest) :
    ∃ path, ChainOk h none sm path ∧ sm :: path = addrs.reverse ++ t :: rest := by
  induction chain generalizing rest with
  | first => exact ⟨rest, ok, rfl⟩
  | @next p a t o below addrs cell chain ih =>
      simp only [belowKeyed, Bool.and_eq_true, Bool.or_eq_true, Bool.not_eq_true'] at keyed
      have key : KeyOk h p (o.jpm p (some t)) := by
        intro pending
        rcases keyed.1 with none | inside
        · rw [show (o.jpm p (some t)).key = o.key from rfl, none] at pending
          cases pending
        · exact chain.hasObject inside
      have link : ChainOk h p a (t :: rest) :=
        .cons cell (by simp [Open.jpm]) (by simp [Open.jpm]) (by simp [Open.jpm]) rfl
          (HasContainer_jpm _ _ _ _ _) key ok
      obtain ⟨path, whole, eq⟩ := ih keyed.2 link
      exact ⟨path, whole, by rw [eq, List.reverse_cons, List.append_assoc]; rfl⟩

/-- A pending key is one of the keys that `Mode.keyed` counts. -/
theorem Mode.keyed_of_key {mode : Mode ν} {p next : Option Addr}
    (pending : (mode.jpm p next).key.isSome = true) : mode.keyed = true := by
  cases mode with
  | keyInit => rfl
  | keyBody _ => rfl
  | keyEnd _ => rfl
  | _ => exact pending

/-- A heap that represents a stack satisfies the invariant. -/
theorem Represents.chainOk {st : Stack ν} (rep : Represents sm h st) (keyed : st.keyed = true) :
    ∃ path, (sm :: path).Nodup ∧ ChainOk h none sm path := by
  obtain ⟨p, t, addrs, done, rep⟩ := rep
  rw [Stack.keyed_iff] at keyed
  have key : KeyOk h p (st.mode.jpm p done) := fun pending =>
    rep.chain.hasObject (keyed.1 (Mode.keyed_of_key pending))
  have nodup := rep.distinct
  cases done with
  | none =>
      have ok : ChainOk h p t [] := .last rep.cell (by simp) (by simp) (by simp) key
      obtain ⟨path, whole, eq⟩ := rep.chain.chainOk keyed.2 ok
      refine ⟨path, ?_, whole⟩
      rw [eq, List.nodup_append_comm]
      simpa using nodup
  | some c =>
      obtain ⟨fresh, -, ⟨m, cell_c, last⟩, ckey, kind, children, at_end⟩ := rep.done c rfl
      have ok_c : ChainOk h (some t) c [] :=
        .last cell_c last.parent last.next (fun _ => rfl)
          (fun pending => by simp [last.key] at pending)
      have ok : ChainOk h p t [c] :=
        .cons rep.cell (by simp) (by simp) (by simp) (by rw [at_end]; rfl)
          (by rw [at_end]; exact HasContainer_jpm _ _ _ _ _) key ok_c
      obtain ⟨path, whole, eq⟩ := rep.chain.chainOk keyed.2 ok
      refine ⟨path, ?_, whole⟩
      rw [eq, List.nodup_append_comm]
      simp only [List.nodup_cons, List.mem_cons, not_or] at nodup fresh
      simp [nodup, fresh.2, Ne.symm fresh.1]

/-- From `json_decode_init` on, no sequence of bytes makes a machine follow a NULL
pointer, touch a released machine or violate an assertion; as long as the bytes are
accepted, the reachable machines form a chain with the invariant. -/
theorem chain_invariant (libc : Libc ν) {x : Jpm ν} (cell : h.cells sm = some x) (live : sm < h.brk)
    (bytes : Bytes) :
    ∃ accepted h', (jsonDecodeInit sm >>= fun _ => jsonDecodeBytes libc sm bytes) h =
        .ok (accepted, h') ∧
      (accepted = true → (∃ path, (sm :: path).Nodup ∧ ChainOk h' none sm path) ∧
        ∀ byte, ∃ r h'', jsonParseMachineProcess libc sm byte h' = .ok (r, h'')) := by
  obtain ⟨h₁, init, rep⟩ := init_represents cell live
  have follows := decodeBytes_follows libc rep bytes
  rw [bind_apply, init, ok_bind]
  cases ran : (Stack.init : Stack ν).run libc bytes with
  | none =>
      rw [ran] at follows
      obtain ⟨h', _, _, _, _, -, -, -, decoded, -⟩ := follows
      exact ⟨false, h', decoded, fun accepted => by cases accepted⟩
  | some st =>
      rw [ran] at follows
      obtain ⟨h', decoded, rep'⟩ := follows
      refine ⟨true, h', decoded, fun _ => ⟨rep'.chainOk (run_keyed rfl ran), fun byte => ?_⟩⟩
      obtain ⟨r, h'', result, -⟩ := process_follows libc rep' byte
      exact ⟨r, h'', result⟩

/-- After `[{"a":` there are three machines. -/
theorem chain_invariant_nested :
    ∃ accepted h', (jsonDecodeInit 0 >>= fun _ =>
        jsonDecodeBytes Libc.nat 0 [0x5B, 0x7B, 0x22, 0x61, 0x22, 0x3A]) callerHeap =
          .ok (accepted, h') ∧
      (accepted = true → (∃ path, (0 :: path).Nodup ∧ ChainOk h' none 0 path) ∧
        ∀ byte, ∃ r h'', jsonParseMachineProcess Libc.nat 0 byte h' = .ok (r, h'')) :=
  chain_invariant Libc.nat (x := jsonParseMachineInit) rfl (by decide) _

end ChainOk

end AcnSdk.Json
