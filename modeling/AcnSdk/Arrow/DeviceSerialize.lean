/-
`arrow_device_serialize` of `src/arrow/device.c`, on the nodes in memory.

The trees of the device are linked into an object that is made for the text, and unlinked before
that object is deleted. A key is a string literal, which has an address of its own.

* `arrowDeviceSerialize_eq` — one call returns the text of the device, and what was in memory stays,
  if all texts are in valid UTF-8.
* `serializeAll_eq` — so any number of calls return the same text.
* `arrowDeviceSerialize_invalid` — with a text that is not, no call returns.
-/

import AcnSdk.Json.PointerScratch

namespace AcnSdk.Arrow

open AcnSdk.Lib AcnSdk.Json AcnSdk.Json.Pointers Prog Heap Data

variable {ν : Type}

/-! ### The device -/

/-- What `arrow_device_serialize` reads of `arrow_device_t`. -/
structure ArrowDevice where
  name : Property
  type : Property
  uid : Property
  gatewayHid : Property
  softwareName : Property
  softwareVersion : Property
  info : Option Addr
  prop : Option Addr

/-- `"name"`. -/
def nameKey : Bytes := [0x6E, 0x61, 0x6D, 0x65]

/-- `"type"`. -/
def typeKey : Bytes := [0x74, 0x79, 0x70, 0x65]

/-- `"uid"`. -/
def uidKey : Bytes := [0x75, 0x69, 0x64]

/-- `"gatewayHid"`. -/
def gatewayHidKey : Bytes := [0x67, 0x61, 0x74, 0x65, 0x77, 0x61, 0x79, 0x48, 0x69, 0x64]

/-- `"softwareName"`. -/
def softwareNameKey : Bytes :=
  [0x73, 0x6F, 0x66, 0x74, 0x77, 0x61, 0x72, 0x65, 0x4E, 0x61, 0x6D, 0x65]

/-- `"softwareVersion"`. -/
def softwareVersionKey : Bytes :=
  [0x73, 0x6F, 0x66, 0x74, 0x77, 0x61, 0x72, 0x65, 0x56, 0x65, 0x72, 0x73, 0x69, 0x6F, 0x6E]

/-- `"info"`. -/
def infoKey : Bytes := [0x69, 0x6E, 0x66, 0x6F]

/-- `"properties"`. -/
def propertiesKey : Bytes := [0x70, 0x72, 0x6F, 0x70, 0x65, 0x72, 0x74, 0x69, 0x65, 0x73]

/-- The string literals. -/
def deviceKeys : List Bytes :=
  [nameKey, typeKey, uidKey, gatewayHidKey, softwareNameKey, softwareVersionKey, infoKey,
    propertiesKey]

/-- `p_const` of a literal. -/
def pConst (literal : Bytes → Addr) (s : Bytes) : Property := .const (literal s) s.length

section

variable [Zero ν]

/-- `json_append_member` of `json_mkstring(P_VALUE(value))`. -/
def appendMkstring (main : Addr) (key value : Property) : JsonM ν Unit := do
  let node ← jsonMkstring true (← onTexts (deref value.value))
  jsonAppendMember main key (← present node)

/-- `json_append_member` of a tree that is there. -/
def appendTree (main : Addr) (key : Property) (tree : Option Addr) : JsonM ν Unit :=
  match tree with
  | some node => jsonAppendMember main key node
  | none => return ()

/-- `json_remove_from` of a tree that is there. -/
def removeTree (tree : Option Addr) : JsonM ν Unit :=
  match tree with
  | some node => jsonRemoveFromParent node
  | none => return ()

/-- `arrow_device_serialize`. -/
def arrowDeviceSerialize (libc : Libc ν) (literal : Bytes → Addr) (fuel : Nat) (dev : ArrowDevice) :
    JsonM ν Property := do
  let main ← present (← jsonMkobject true)
  appendMkstring main (pConst literal nameKey) dev.name
  appendMkstring main (pConst literal typeKey) dev.type
  appendMkstring main (pConst literal uidKey) dev.uid
  appendMkstring main (pConst literal gatewayHidKey) dev.gatewayHid
  appendMkstring main (pConst literal softwareNameKey) dev.softwareName
  appendMkstring main (pConst literal softwareVersionKey) dev.softwareVersion
  appendTree main (pConst literal infoKey) dev.info
  appendTree main (pConst literal propertiesKey) dev.prop
  let devProperty ← jsonEncodeProperty libc fuel main
  removeTree dev.info
  removeTree dev.prop
  jsonDelete fuel main
  return devProperty

/-- The caller keeps a text or releases it. -/
def keepOrRelease (keep : Bool) (p : Property) : JsonM ν Unit :=
  if keep then return ()
  else do
    let _ ← onTexts (Pointers.propertyFree p)
    return ()

/-- Calls one after the other. The caller reads each text, and keeps it or releases it then. -/
def serializeAll (libc : Libc ν) (literal : Bytes → Addr) (fuel : Nat) (dev : ArrowDevice) :
    List Bool → JsonM ν (List Bytes)
  | [] => return []
  | keep :: rest => do
      let p ← arrowDeviceSerialize libc literal fuel dev
      let text ← onTexts (do stringAt (← deref p.value))
      keepOrRelease keep p
      return text :: (← serializeAll libc literal fuel dev rest)

end

/-! ### What it is in memory -/

/-- The texts of a device. -/
structure DeviceTexts where
  name : Bytes
  type : Bytes
  uid : Bytes
  gatewayHid : Bytes
  softwareName : Bytes
  softwareVersion : Bytes

/-- A property that is set. -/
def IsSet (m : Memory ν) (p : Property) (s : Bytes) : Prop :=
  ∃ a, p.value = some a ∧ Text m.texts a s

/-- A tree of the device: its root has no parent, no neighbours and no key. -/
def HasTree (m : Memory ν) : Option Addr → Option (JsonNode ν) → Prop
  | some a, some tree => (∃ x, m.nodes.cells a = some x ∧ cleared x = x) ∧
      Holds m (fun _ => True) a tree ∧ tree.all JsonNode.childrenKeyed = true
  | none, none => True
  | _, _ => False

/-- A device whose texts are set, and its trees. -/
structure HasDevice (m : Memory ν) (literal : Bytes → Addr) (dev : ArrowDevice)
    (texts : DeviceTexts) (info prop : Option (JsonNode ν)) : Prop where
  freshNodes : m.nodes.Fresh
  freshTexts : m.texts.Fresh
  literals : ∀ key ∈ deviceKeys, Text m.texts (literal key) key
  name : IsSet m dev.name texts.name
  type : IsSet m dev.type texts.type
  uid : IsSet m dev.uid texts.uid
  gatewayHid : IsSet m dev.gatewayHid texts.gatewayHid
  softwareName : IsSet m dev.softwareName texts.softwareName
  softwareVersion : IsSet m dev.softwareVersion texts.softwareVersion
  info : HasTree m dev.info info
  prop : HasTree m dev.prop prop
  apart : ∀ a, dev.info = some a → dev.prop ≠ some a

/-- A member that is a string. -/
def mkstringMember (key s : Bytes) : JsonNode ν := .scalar (some key) (.string s)

/-- The tree that is serialised. -/
def deviceTree (texts : DeviceTexts) (info prop : Option (JsonNode ν)) : JsonNode ν :=
  .container none .object
    ([mkstringMember nameKey texts.name, mkstringMember typeKey texts.type,
      mkstringMember uidKey texts.uid, mkstringMember gatewayHidKey texts.gatewayHid,
      mkstringMember softwareNameKey texts.softwareName,
      mkstringMember softwareVersionKey texts.softwareVersion] ++
      ((info.map (JsonNode.withKey (some infoKey))).toList ++
        (prop.map (JsonNode.withKey (some propertiesKey))).toList))

section

variable {libc : Libc ν} {literal : Bytes → Addr} {m₀ m : Memory ν} {main : Addr}
  {leaves : List Leaf} {roots : List (Borrowed ν)} {dev : ArrowDevice} {texts : DeviceTexts}
  {info prop : Option (JsonNode ν)}

theorem spells_pConst {key : Bytes} (text : Text m₀.texts (literal key) key) :
    Spells m₀.texts (pConst literal key) (some key) :=
  ⟨rfl, literal key, rfl, text⟩

/-- One of the strings is made and appended. -/
theorem appendMkstring_eq [Zero ν] (scratch : Scratch m₀ m main leaves []) {key s : Bytes}
    {value : Property} (text : Text m₀.texts (literal key) key) (set : IsSet m₀ value s) :
    ∃ m' node block, appendMkstring main (pConst literal key) value m = .ok ((), m') ∧
      Scratch m₀ m' main (leaves ++ [⟨node, block, key, s⟩]) [] := by
  obtain ⟨a, value_eq, plain, rest, cell_a⟩ := set
  obtain ⟨x, cell, tag, -⟩ := scratch.object
  have copied : onTexts (jsonStrdup a) m =
      .ok (m.texts.brk, { m with texts := m.texts.push (s ++ [0]) }) :=
    onTexts_ok (strdup_eq (scratch.keeps a _ cell_a) plain)
  have made := assign_eq (m := { m with texts := m.texts.push (s ++ [0]) }) .string
    fun x => { x with string_ := some m.texts.brk }
  have other : main ≠ m.nodes.brk := Nat.ne_of_lt (scratch.freshNodes.lt cell)
  have last : Points (m.nodes.push { (blank .string : Node ν) with string_ := some m.texts.brk })
      x.tail := by
    intro b eq
    obtain ⟨y, cell_b⟩ := scratch.points_tail cell b eq
    exact ⟨y, scratch.freshNodes.push_cells cell_b _⟩
  have appended := appendMember_const
    (m := ⟨m.nodes.push { (blank .string : Node ν) with string_ := some m.texts.brk },
      m.texts.push (s ++ [0])⟩)
    (scratch.freshNodes.push_cells cell _) tag (if_pos rfl) rfl other last (literal key) key.length
  refine ⟨_, m.nodes.brk, m.texts.brk, ?_,
    scratch.leaf_more cell rfl (spells_pConst text) plain⟩
  have begins : onTexts (deref value.value) m = .ok (a, m) := by
    rw [value_eq]
    rfl
  rw [appendMkstring, bind_of_ok begins, jsonMkstring, bind_apply, bind_of_ok copied,
    mkstring, made]
  exact appended

/-- A tree of the device, as a borrowed one. -/
def borrowed (key : Bytes) : Option Addr → Option (JsonNode ν) → List (Borrowed ν)
  | some a, some tree => [⟨a, key, tree⟩]
  | _, _ => []

theorem HasTree.cases {p : Option Addr} {t : Option (JsonNode ν)} (has : HasTree m p t) :
    (p = none ∧ t = none) ∨ ∃ a x tree, p = some a ∧ t = some tree ∧ m.nodes.cells a = some x ∧
      cleared x = x ∧ Holds m (fun _ => True) a tree ∧ tree.all JsonNode.childrenKeyed = true := by
  cases p with
  | none =>
      cases t with
      | none => exact .inl ⟨rfl, rfl⟩
      | some tree => exact has.elim
  | some a =>
      cases t with
      | none => exact has.elim
      | some tree =>
          obtain ⟨⟨x, cell, loose⟩, holds, keyed⟩ := has
          exact .inr ⟨a, x, tree, rfl, rfl, cell, loose, holds, keyed⟩

/-- A tree of the device is appended, where there is one. -/
theorem appendTree_eq (scratch : Scratch m₀ m main leaves roots) {key : Bytes} {p : Option Addr}
    {t : Option (JsonNode ν)} (text : Text m₀.texts (literal key) key) (has : HasTree m₀ p t)
    (apart : ∀ a, p = some a → a ∉ roots.map Borrowed.node) :
    ∃ m', appendTree main (pConst literal key) p m = .ok ((), m') ∧
      Scratch m₀ m' main leaves (roots ++ borrowed key p t) := by
  obtain ⟨rfl, rfl⟩ | ⟨a, x, tree, rfl, rfl, old, loose, -, -⟩ := has.cases
  · have nothing : borrowed key none none = ([] : List (Borrowed ν)) := rfl
    refine ⟨m, rfl, ?_⟩
    rw [nothing, List.append_nil]
    exact scratch
  · obtain ⟨z, cell, tag, -⟩ := scratch.object
    have other := scratch.not_main old
    have new : m.nodes.cells a = some x :=
      (scratch.nodes a other (scratch.not_leaf old) (apart a rfl)).trans old
    have parent : x.parent = none := congrArg Node.parent loose.symm
    refine ⟨_, appendMember_const cell tag new parent other.symm (scratch.points_tail cell)
      (literal key) key.length, ?_⟩
    exact scratch.link cell (r := ⟨a, key, tree⟩) old loose (apart a rfl) rfl (spells_pConst text)

/-- A tree of the device is removed, where there is one. -/
theorem removeTree_eq {key : Bytes} {p : Option Addr} {t : Option (JsonNode ν)}
    (scratch : Scratch m₀ m main leaves (borrowed key p t ++ roots))
    (both : p.isSome = t.isSome) :
    ∃ m', removeTree p m = .ok ((), m') ∧ Scratch m₀ m' main leaves roots ∧ m'.texts = m.texts := by
  cases p with
  | none => exact ⟨m, rfl, scratch, rfl⟩
  | some a =>
      cases t with
      | none => cases both
      | some tree => exact scratch.remove

theorem HasTree.both {p : Option Addr} {t : Option (JsonNode ν)} (has : HasTree m p t) :
    p.isSome = t.isSome := by
  obtain ⟨rfl, rfl⟩ | ⟨a, x, tree, rfl, rfl, -⟩ := has.cases
  · rfl
  · rfl

theorem HasTree.holds {key : Bytes} {p : Option Addr} {t : Option (JsonNode ν)}
    (has : HasTree m p t) : ∀ r ∈ borrowed key p t, Holds m (fun _ => True) r.node r.tree := by
  obtain ⟨rfl, rfl⟩ | ⟨a, x, tree, rfl, rfl, -, -, holds, -⟩ := has.cases
  · exact fun r mem => absurd mem List.not_mem_nil
  · exact List.forall_mem_singleton.mpr holds

theorem map_borrowed {key : Bytes} {p : Option Addr} {t : Option (JsonNode ν)}
    (both : p.isSome = t.isSome) :
    (borrowed key p t).map Borrowed.member = (t.map (JsonNode.withKey (some key))).toList := by
  cases p with
  | none =>
      cases t with
      | none => rfl
      | some tree => cases both
  | some a =>
      cases t with
      | none => cases both
      | some tree => rfl

theorem childrenKeyed_withKey (key : Option Bytes) (tree : JsonNode ν) :
    (tree.withKey key).all JsonNode.childrenKeyed = tree.all JsonNode.childrenKeyed := by
  cases tree with
  | scalar _ value => rfl
  | container _ kind children =>
      cases kind <;> rw [JsonNode.withKey, JsonNode.all_container, JsonNode.all_container] <;> rfl

theorem deviceTree_keyed {p q : Option Addr} (has_info : HasTree m p info)
    (has_prop : HasTree m q prop) :
    (deviceTree texts info prop).all JsonNode.childrenKeyed = true := by
  have tree_keyed {key : Bytes} {p : Option Addr} {t : Option (JsonNode ν)} (has : HasTree m p t) :
      ∀ c ∈ (t.map (JsonNode.withKey (some key))).toList,
        c.key.isSome = true ∧ c.all JsonNode.childrenKeyed = true := by
    obtain ⟨-, rfl⟩ | ⟨a, x, tree, -, rfl, -, -, -, keyed⟩ := has.cases
    · exact fun c mem => absurd mem List.not_mem_nil
    · refine List.forall_mem_singleton.mpr ⟨?_, ?_⟩
      · rw [key_withKey]
        rfl
      · rw [childrenKeyed_withKey, keyed]
  have strings : ∀ c ∈ [mkstringMember nameKey texts.name, mkstringMember typeKey texts.type,
      mkstringMember uidKey texts.uid, mkstringMember gatewayHidKey texts.gatewayHid,
      mkstringMember softwareNameKey texts.softwareName,
      mkstringMember softwareVersionKey texts.softwareVersion],
      c.key.isSome = true ∧ (c : JsonNode ν).all JsonNode.childrenKeyed = true := by
    simp [mkstringMember, JsonNode.key, JsonNode.childrenKeyed]
  have members : ∀ c ∈ ([mkstringMember nameKey texts.name, mkstringMember typeKey texts.type,
      mkstringMember uidKey texts.uid, mkstringMember gatewayHidKey texts.gatewayHid,
      mkstringMember softwareNameKey texts.softwareName,
      mkstringMember softwareVersionKey texts.softwareVersion] ++
      ((info.map (JsonNode.withKey (some infoKey))).toList ++
        (prop.map (JsonNode.withKey (some propertiesKey))).toList)),
      c.key.isSome = true ∧ (c : JsonNode ν).all JsonNode.childrenKeyed = true :=
    List.forall_mem_append.mpr ⟨strings,
      List.forall_mem_append.mpr ⟨tree_keyed has_info, tree_keyed has_prop⟩⟩
  rw [deviceTree, JsonNode.all_container, Bool.and_eq_true, JsonNode.childrenKeyed,
    List.all_eq_true, List.all_eq_true]
  exact ⟨fun c mem => (members c mem).1, fun c mem => (members c mem).2⟩

theorem HasDevice.prop_apart (has : HasDevice m literal dev texts info prop)
    (key : Bytes) (a : Addr)
    (eq : dev.prop = some a) : a ∉ (borrowed key dev.info info).map Borrowed.node := by
  obtain ⟨info_eq, rfl⟩ | ⟨b, x, tree, info_eq, rfl, -⟩ := has.info.cases
  · rw [info_eq]
    exact List.not_mem_nil
  · rw [info_eq]
    intro mem
    cases List.mem_singleton.mp mem
    exact has.apart _ info_eq eq

/-- The strings of the object, wherever they are. -/
def deviceLeaves (texts : DeviceTexts) (c₁ c₂ c₃ c₄ c₅ c₆ t₁ t₂ t₃ t₄ t₅ t₆ : Addr) : List Leaf :=
  [⟨c₁, t₁, nameKey, texts.name⟩, ⟨c₂, t₂, typeKey, texts.type⟩, ⟨c₃, t₃, uidKey, texts.uid⟩,
    ⟨c₄, t₄, gatewayHidKey, texts.gatewayHid⟩, ⟨c₅, t₅, softwareNameKey, texts.softwareName⟩,
    ⟨c₆, t₆, softwareVersionKey, texts.softwareVersion⟩]

theorem scratchTree_eq (has : HasDevice m literal dev texts info prop)
    {c₁ c₂ c₃ c₄ c₅ c₆ t₁ t₂ t₃ t₄ t₅ t₆ : Addr} :
    scratchTree (deviceLeaves texts c₁ c₂ c₃ c₄ c₅ c₆ t₁ t₂ t₃ t₄ t₅ t₆)
      (borrowed infoKey dev.info info ++ borrowed propertiesKey dev.prop prop) =
        deviceTree texts info prop := by
  rw [scratchTree, List.map_append, map_borrowed has.info.both, map_borrowed has.prop.both]
  rfl

theorem deviceTree_rounds : 7 < (deviceTree texts info prop).rounds := by
  refine Nat.succ_lt_succ (Nat.lt_of_le_of_lt ?_ (JsonNode.length_lt_rounds _))
  rw [List.length_append]
  exact Nat.le_add_right 6 _

/-- The object is made of the texts and the trees of the device, and its text is asked for. -/
theorem arrowDeviceSerialize_linked [Zero ν] (libc : Libc ν)
    (has : HasDevice m literal dev texts info prop) (fuel : Nat) :
    ∃ m₈ leaves, Scratch m m₈ m.nodes.brk leaves
        (borrowed infoKey dev.info info ++ borrowed propertiesKey dev.prop prop) ∧
      leaves.length = 6 ∧ Holds m₈ (fun _ => True) m.nodes.brk (deviceTree texts info prop) ∧
      arrowDeviceSerialize libc literal fuel dev m = (do
        let devProperty ← jsonEncodeProperty libc fuel m.nodes.brk
        removeTree dev.info
        removeTree dev.prop
        jsonDelete fuel m.nodes.brk
        return devProperty) m₈ := by
  have scratch₀ := Scratch.begin (ν := ν) has.freshNodes has.freshTexts
  obtain ⟨m₁, c₁, t₁, run₁, scratch₁⟩ :=
    appendMkstring_eq scratch₀ (has.literals nameKey (by simp [deviceKeys])) has.name
  obtain ⟨m₂, c₂, t₂, run₂, scratch₂⟩ :=
    appendMkstring_eq scratch₁ (has.literals typeKey (by simp [deviceKeys])) has.type
  obtain ⟨m₃, c₃, t₃, run₃, scratch₃⟩ :=
    appendMkstring_eq scratch₂ (has.literals uidKey (by simp [deviceKeys])) has.uid
  obtain ⟨m₄, c₄, t₄, run₄, scratch₄⟩ :=
    appendMkstring_eq scratch₃ (has.literals gatewayHidKey (by simp [deviceKeys])) has.gatewayHid
  obtain ⟨m₅, c₅, t₅, run₅, scratch₅⟩ := appendMkstring_eq scratch₄
    (has.literals softwareNameKey (by simp [deviceKeys])) has.softwareName
  obtain ⟨m₆, c₆, t₆, run₆, scratch₆⟩ := appendMkstring_eq scratch₅
    (has.literals softwareVersionKey (by simp [deviceKeys])) has.softwareVersion
  obtain ⟨m₇, run₇, scratch₇⟩ := appendTree_eq scratch₆
    (has.literals infoKey (by simp [deviceKeys])) has.info fun _ _ => List.not_mem_nil
  rw [List.nil_append] at scratch₇
  obtain ⟨m₈, run₈, scratch₈⟩ := appendTree_eq scratch₇
    (has.literals propertiesKey (by simp [deviceKeys])) has.prop (has.prop_apart infoKey)
  have holds : Holds m₈ (fun _ => True) m.nodes.brk (deviceTree texts info prop) := by
    rw [← scratchTree_eq has]
    exact scratch₈.holds (List.forall_mem_append.mpr ⟨has.info.holds, has.prop.holds⟩)
  have run₀ : jsonMkobject true m =
      .ok (some m.nodes.brk, { m with nodes := m.nodes.push (blank .object) }) := mknode_eq .object
  have main : present (some m.nodes.brk) { m with nodes := m.nodes.push (blank .object) } =
      .ok (m.nodes.brk, { m with nodes := m.nodes.push (blank .object : Node ν) }) := rfl
  refine ⟨m₈, _, scratch₈, rfl, holds, ?_⟩
  rw [arrowDeviceSerialize, bind_of_ok run₀, bind_of_ok main, bind_of_ok run₁, bind_of_ok run₂,
    bind_of_ok run₃, bind_of_ok run₄, bind_of_ok run₅, bind_of_ok run₆, bind_of_ok run₇,
    bind_of_ok run₈]

/-- One call: the text of the device in a block of its own, and the memory as it was. -/
theorem arrowDeviceSerialize_eq [Zero ν] (libc : Libc ν)
    (has : HasDevice m literal dev texts info prop)
    (valid : (deviceTree texts info prop).all JsonNode.utf8Texts = true) (fuel : Nat)
    (enough : (deviceTree texts info prop).rounds ≤ fuel) :
    ∃ a n m', arrowDeviceSerialize libc literal fuel dev m = .ok (pJson a n, m') ∧
      m.texts.cells a = none ∧ Restored
        { m with texts := m.texts.set a (jsonEncode libc (deviceTree texts info prop) ++ [0]) }
        m' := by
  obtain ⟨m₈, leaves, scratch₈, six, holds, run⟩ := arrowDeviceSerialize_linked libc has fuel
  obtain ⟨n, run₉⟩ := jsonEncodeProperty_eq libc holds
    (deviceTree_keyed has.info has.prop) valid fuel enough
  obtain ⟨m₁₀, run₁₀, scratch₁₀, -⟩ := removeTree_eq (scratch₈.pushText
    (jsonEncode libc (deviceTree texts info prop) ++ [0])) has.info.both
  rw [← List.append_nil (borrowed propertiesKey dev.prop prop)] at scratch₁₀
  obtain ⟨m₁₁, run₁₁, scratch₁₁, -⟩ := removeTree_eq scratch₁₀ has.prop.both
  have delete_enough : leaves.length + 1 < fuel := by
    rw [six]
    exact Nat.lt_of_lt_of_le deviceTree_rounds enough
  obtain ⟨m₁₂, run₁₂, restored⟩ := scratch₁₁.delete fuel delete_enough
  refine ⟨m₈.texts.brk, n, m₁₂, ?_, scratch₈.brk_free.2, restored⟩
  rw [run, bind_of_ok run₉, bind_of_ok run₁₀, bind_of_ok run₁₁, bind_of_ok run₁₂]
  rfl

/-- A call does not return if one of the texts is not in valid UTF-8. -/
theorem arrowDeviceSerialize_invalid [Zero ν] (libc : Libc ν)
    (has : HasDevice m literal dev texts info prop)
    (invalid : (deviceTree texts info prop).all JsonNode.utf8Texts = false) (fuel : Nat)
    (enough : (deviceTree texts info prop).rounds ≤ fuel) :
    arrowDeviceSerialize libc literal fuel dev m = .error .assertion := by
  obtain ⟨m₈, leaves, -, -, holds, run⟩ := arrowDeviceSerialize_linked libc has fuel
  have stops : jsonEncodeProperty libc fuel m.nodes.brk m₈ = .error .assertion :=
    jsonEncodeProperty_invalid holds (deviceTree_keyed has.info has.prop) invalid fuel enough
  rw [run, bind_apply, stops]
  rfl

/-! ### Calls one after the other -/

/-- A tree stays where the nodes stay and no text is lost. -/
theorem HasTree.kept {m' : Memory ν} {p : Option Addr} {t : Option (JsonNode ν)}
    (has : HasTree m p t) (nodes : ∀ b, m'.nodes.cells b = m.nodes.cells b)
    (keeps : KeepsTexts m.texts m'.texts) : HasTree m' p t := by
  obtain ⟨rfl, rfl⟩ | ⟨a, x, tree, rfl, rfl, cell, loose, holds, keyed⟩ := has.cases
  · trivial
  · refine ⟨⟨x, (nodes a).trans cell, loose⟩, ?_, keyed⟩
    rw [← withKey_key tree]
    refine holds.frame (fun y cell_y => ?_) (fun b y _ cell_b => (nodes b).trans cell_b) keeps
    obtain ⟨z, cell_z, named⟩ := holds.cell
    cases cell_y.symm.trans cell_z
    exact ⟨y, (nodes a).trans cell_y, .refl y, keeps.spells named⟩

theorem HasDevice.kept {m' : Memory ν} (has : HasDevice m literal dev texts info prop)
    (freshNodes : m'.nodes.Fresh) (freshTexts : m'.texts.Fresh)
    (nodes : ∀ b, m'.nodes.cells b = m.nodes.cells b) (keeps : KeepsTexts m.texts m'.texts) :
    HasDevice m' literal dev texts info prop := by
  have stays {p : Property} {s : Bytes} (set : IsSet m p s) : IsSet m' p s := by
    obtain ⟨a, value, text⟩ := set
    exact ⟨a, value, keeps.text text⟩
  exact ⟨freshNodes, freshTexts, fun key mem => keeps.text (has.literals key mem), stays has.name,
    stays has.type, stays has.uid, stays has.gatewayHid, stays has.softwareName,
    stays has.softwareVersion, has.info.kept nodes keeps, has.prop.kept nodes keeps, has.apart⟩

theorem cstr_append_zero (s : Bytes) : cstr (s ++ [0]) = cstr s := by
  induction s with
  | nil => rfl
  | cons c s ih =>
      rw [List.cons_append, cstr, cstr, List.takeWhile_cons, List.takeWhile_cons]
      split
      · exact congrArg (c :: ·) ih
      · rfl

theorem stringAt_block {h : Heap Bytes} {a : Addr} {s : Bytes}
    (cell : h.cells a = some (s ++ [0])) :
    stringAt a h = .ok (cstr s, h) := by
  obtain ⟨t, rest, split, plain⟩ := List.eq_append_cons_of_mem (List.mem_append_right s
    (List.mem_cons_self (a := (0 : Byte)) (l := [])))
  have same : cstr s = t := by rw [← cstr_append_zero, split, cstr_terminated plain]
  rw [split] at cell
  rw [stringAt_eq cell plain, same]

theorem keepOrRelease_eq {a : Addr} {block : Bytes} (n : Nat) (cell : m.texts.cells a = some block)
    (fresh : m.texts.Fresh) (keep : Bool) :
    ∃ m', keepOrRelease keep (pJson a n) m = .ok ((), m') ∧ m'.nodes = m.nodes ∧ m'.texts.Fresh ∧
      ∀ b ≠ a, m'.texts.cells b = m.texts.cells b := by
  cases keep with
  | true => exact ⟨m, rfl, rfl, fresh, fun _ _ => rfl⟩
  | false =>
      have freed : Pointers.propertyFree (pJson a n) m.texts = .ok (.init, m.texts.erase a) := by
        simp [Pointers.propertyFree, pJson, jsonDestroy, free_eq cell]
      refine ⟨{ m with texts := m.texts.erase a }, ?_, rfl, fresh.erase a, fun b other => ?_⟩
      · rw [keepOrRelease, if_neg Bool.false_ne_true, bind_of_ok (onTexts_ok freed)]
        rfl
      · exact if_neg other

/-- If all texts are in valid UTF-8, any number of calls return the same text, whatever the caller
does with the texts, and leave the trees of the device, and all else that was in memory, as they
were. -/
theorem serializeAll_eq [Zero ν] (libc : Libc ν) (has : HasDevice m literal dev texts info prop)
    (valid : (deviceTree texts info prop).all JsonNode.utf8Texts = true) (fuel : Nat)
    (enough : (deviceTree texts info prop).rounds ≤ fuel) (keeps : List Bool) :
    ∃ m', serializeAll libc literal fuel dev keeps m =
        .ok
          (List.replicate keeps.length (cstr (jsonEncode libc (deviceTree texts info prop))), m') ∧
      HasDevice m' literal dev texts info prop ∧ (∀ b, m'.nodes.cells b = m.nodes.cells b) ∧
      KeepsTexts m.texts m'.texts := by
  induction keeps generalizing m with
  | nil => exact ⟨m, rfl, has, fun _ => rfl, fun _ _ old => old⟩
  | cons keep keeps ih =>
      obtain ⟨a, n, m₁, run, free, restored⟩ := arrowDeviceSerialize_eq libc has valid fuel enough
      have cell : m₁.texts.cells a =
          some (jsonEncode libc (deviceTree texts info prop) ++ [0]) :=
        (restored.texts a).trans (if_pos rfl)
      obtain ⟨m₂, released, nodes, fresh, others⟩ :=
        keepOrRelease_eq n cell restored.freshTexts keep
      have nodes₂ : ∀ b, m₂.nodes.cells b = m.nodes.cells b := by
        rw [nodes]
        exact restored.nodes
      have keeps₂ : KeepsTexts m.texts m₂.texts := by
        intro b u old
        have other : b ≠ a := by
          rintro rfl
          cases old.symm.trans free
        rw [others b other, restored.texts b]
        exact (if_neg other).trans old
      have has₂ := has.kept (nodes ▸ restored.freshNodes) fresh nodes₂ keeps₂
      obtain ⟨m₃, rest, has₃, nodes₃, keeps₃⟩ := ih has₂
      refine ⟨m₃, ?_, has₃, fun b => (nodes₃ b).trans (nodes₂ b),
        fun b u old => keeps₃ b u (keeps₂ b u old)⟩
      have read_text : onTexts (do stringAt (← deref (pJson a n).value)) m₁ =
          .ok (cstr (jsonEncode libc (deviceTree texts info prop)), m₁) :=
        onTexts_ok (stringAt_block cell)
      rw [serializeAll, bind_of_ok run, bind_of_ok read_text, bind_of_ok released, bind_of_ok rest]
      rfl

/-- An object with a string in it at 0 and an empty one at 2, and texts that begin with the
literals. -/
def twoTrees (value : Bytes) : Memory Nat where
  nodes := ⟨fun a => [{ blank .object with head := some 1, tail := some 1 },
    { blank .string with parent := some 0, key := .const 9 1, string_ := some 10 },
    blank .object][a]?, 3⟩
  texts := ⟨fun a => ((deviceKeys ++ [[0x61], [0x6B], value])[a]?).map (· ++ [0]), 11⟩

def twoTreesDevice : ArrowDevice :=
  ⟨.const 8 1, .const 8 1, .const 8 1, .const 8 1, .const 8 1, .const 8 1, some 0, some 2⟩

theorem twoTrees_device {value : Bytes} (plain : 0 ∉ value) :
    HasDevice (twoTrees value) (fun s => deviceKeys.idxOf s) twoTreesDevice
      ⟨[0x61], [0x61], [0x61], [0x61], [0x61], [0x61]⟩
      (some (.container none .object [mkstringMember [0x6B] value]))
      (some (.container none .object [])) := by
  have letter : IsSet (twoTrees value) (.const 8 1) [0x61] := ⟨8, rfl, by decide, [], rfl⟩
  have child : Holds (twoTrees value) (fun _ => True) 1 (mkstringMember [0x6B] value) :=
    .scalar rfl ⟨rfl, 9, rfl, by decide, [], rfl⟩ ⟨rfl, 10, rfl, plain, [], rfl⟩
  constructor
  · exact fun a beyond => List.getElem?_eq_none beyond
  · intro a beyond
    exact congrArg (Option.map (· ++ [0])) (List.getElem?_eq_none beyond)
  · intro key mem
    refine ⟨?_, [], ?_⟩
    · revert key
      decide
    · have at_key : (deviceKeys ++ [[0x61], [0x6B], value])[deviceKeys.idxOf key]? = some key := by
        rw [List.getElem?_append_left (List.idxOf_lt_length_of_mem mem)]
        exact List.getElem?_idxOf mem
      exact congrArg (Option.map (· ++ [0])) at_key
  · exact letter
  · exact letter
  · exact letter
  · exact letter
  · exact letter
  · exact letter
  · have one : Enumerates (links (twoTrees value).nodes) (some 1) (some 1) [1] :=
      ⟨⟨rfl, rfl⟩, ⟨rfl, rfl⟩⟩
    refine ⟨⟨_, rfl, rfl⟩, .container rfl rfl rfl one ?_ ?_ rfl ?_, rfl⟩
    · exact List.forall_mem_singleton.mpr rfl
    · exact fun _ _ => trivial
    · exact List.forall_mem_singleton.mpr child
  · have none_ : Enumerates (links (twoTrees value).nodes) none none [] := ⟨rfl, rfl⟩
    exact ⟨⟨_, rfl, rfl⟩, .container rfl rfl rfl none_ nofun nofun rfl nofun, rfl⟩
  · intro a info prop
    cases info
    cases prop

/-- Three calls, of which the second text is kept, with a letter of two bytes in a tree. -/
theorem serializeAll_twoTrees :
    ∃ m', serializeAll Libc.nat (fun s => deviceKeys.idxOf s) 40 twoTreesDevice
        [false, true, false] (twoTrees [0xC3, 0xA9]) =
      .ok (List.replicate 3 (cstr (jsonEncode Libc.nat (deviceTree
        ⟨[0x61], [0x61], [0x61], [0x61], [0x61], [0x61]⟩
        (some (.container none .object [mkstringMember [0x6B] [0xC3, 0xA9]]))
        (some (.container none .object []))))), m') ∧
      HasDevice m' (fun s => deviceKeys.idxOf s) twoTreesDevice
        ⟨[0x61], [0x61], [0x61], [0x61], [0x61], [0x61]⟩
        (some (.container none .object [mkstringMember [0x6B] [0xC3, 0xA9]]))
        (some (.container none .object [])) ∧
      (∀ b, m'.nodes.cells b = (twoTrees [0xC3, 0xA9]).nodes.cells b) ∧
      KeepsTexts (twoTrees [0xC3, 0xA9]).texts m'.texts :=
  serializeAll_eq Libc.nat (twoTrees_device (by decide)) (by decide) 40 (by decide)
    [false, true, false]

/-- A byte that is not UTF-8 in a tree: the device is one as before, and no call returns. -/
theorem not_serialized_invalid :
    HasDevice (twoTrees [0xFF]) (fun s => deviceKeys.idxOf s) twoTreesDevice
        ⟨[0x61], [0x61], [0x61], [0x61], [0x61], [0x61]⟩
        (some (.container none .object [mkstringMember [0x6B] [0xFF]]))
        (some (.container none .object [])) ∧
      arrowDeviceSerialize Libc.nat (fun s => deviceKeys.idxOf s) 40 twoTreesDevice
        (twoTrees [0xFF]) = .error .assertion :=
  ⟨twoTrees_device (by decide),
    arrowDeviceSerialize_invalid Libc.nat (twoTrees_device (by decide)) (by decide) 40 (by decide)⟩

end

end AcnSdk.Arrow
