/-
Both builds make the same canonical form of the parameters of an event.

`Params` are the parameters that this is about: up to 20 members that are strings or booleans,
with different keys, and lines of less than 3000 bytes altogether. The first characters in
which two lines differ are then characters of the keys or equals signs, so that no value and
no newline is ever compared.

* `canonicalPrm_agree` — the two results are the sorted entries with newlines between them,
  whatever the order of the members.
-/

import Mathlib.Data.List.Sort
import AcnSdk.Arrow.CanonicalBlocks
import AcnSdk.Arrow.CanonicalBuffer

namespace AcnSdk.Arrow

open AcnSdk.Lib AcnSdk.Json Ascii Prog

/-! ### Parameters -/

/-- The value of a member. -/
inductive MemberValue where
  | string (s : Bytes) (plain : 0 ∉ s)
  | bool (b : Bool)

/-- A member of the parameters object. -/
structure Member where
  key : Bytes
  value : MemberValue
  ascii : ∀ c ∈ key, c.toNat < 128
  no_equals : equals ∉ key
  plain : 0 ∉ key

variable {ν : Type}

/-- Its node. -/
def Member.node (m : Member) : JsonNode ν :=
  match m.value with
  | .string s _ => .scalar (some m.key) (.string s)
  | .bool b => .scalar (some m.key) (.bool b)

/-- The text of its value. -/
def Member.text (m : Member) : Bytes :=
  match m.value with
  | .string s _ => s
  | .bool true => [0x74, 0x72, 0x75, 0x65]
  | .bool false => [0x66, 0x61, 0x6C, 0x73, 0x65]

/-- Its key in lower case. -/
def Member.lower (m : Member) : Bytes := m.key.map tolower

/-- `lower(key)=value`. -/
def Member.entry (m : Member) : Bytes := m.lower ++ equals :: m.text

/-- Parameters that can be signed. -/
structure Params where
  members : List Member
  some : members ≠ []
  le : members.length ≤ 20
  distinct : (members.map Member.lower).Nodup
  short : (members.map fun m => m.entry.length + 1).sum < 3000

namespace Params

variable (params : Params)

/-- The object. -/
def node (key : Option Bytes) : JsonNode ν :=
  .container key .object (params.members.map Member.node)

def entries : List Bytes := params.members.map Member.entry

/-- The entries in the order of their bytes, with newlines between them. -/
def canonical : Bytes := [lf].intercalate (params.entries.insertionSort (· ≤ ·))

end Params

/-! ### Entries -/

section

variable {m m' : Member}

theorem tolower_lt {c : Byte} (lt : c.toNat < 128) : (tolower c).toNat < 128 := by
  have all : ∀ n < 128, (tolower (UInt8.ofNat n)).toNat < 128 := by decide
  simpa using all c.toNat lt

theorem Member.lower_ascii (m : Member) : ∀ c ∈ m.lower, c.toNat < 128 := by
  intro c mem
  obtain ⟨d, in_key, rfl⟩ := List.mem_map.mp mem
  exact tolower_lt (m.ascii d in_key)

theorem Member.not_mem_lower {c : Byte} (not_lower : c.toNat < 0x61) (absent : c ∉ m.key) :
    c ∉ m.lower := by
  intro mem
  obtain ⟨d, in_key, eq⟩ := List.mem_map.mp mem
  refine tolower_ne ?_ not_lower eq
  rintro rfl
  exact absent in_key

theorem Member.text_plain (m : Member) : 0 ∉ m.text := by
  rw [Member.text]
  split
  · assumption
  · decide
  · decide

/-- Different keys make the difference, or one ends where the other goes on. -/
theorem differ_of_keys {k l s t : Bytes} (ne : k ≠ l) (k_ascii : ∀ c ∈ k, c.toNat < 128)
    (l_ascii : ∀ c ∈ l, c.toNat < 128) (k_equals : equals ∉ k) (l_equals : equals ∉ l) :
    Differ (k ++ equals :: s) (l ++ equals :: t) := by
  induction k generalizing l with
  | nil =>
      cases l with
      | nil => exact absurd rfl ne
      | cons d l =>
          have differ : equals ≠ d := fun eq => l_equals (eq ▸ List.mem_cons_self)
          exact ⟨[], equals, d, s, _, rfl, rfl, differ, by decide, l_ascii d List.mem_cons_self⟩
  | cons c k ih =>
      cases l with
      | nil =>
          have differ : c ≠ equals := fun eq => k_equals (eq ▸ List.mem_cons_self)
          exact ⟨[], c, equals, _, t, rfl, rfl, differ, k_ascii c List.mem_cons_self, by decide⟩
      | cons d l =>
          by_cases same : c = d
          · subst same
            obtain ⟨p, e, f, s', t', s_eq, t_eq, differ, e_lt, f_lt⟩ :=
              ih (fun eq => ne (by rw [eq]))
              (fun e mem => k_ascii e (List.mem_cons_of_mem _ mem))
              (fun e mem => l_ascii e (List.mem_cons_of_mem _ mem))
              (fun mem => k_equals (List.mem_cons_of_mem _ mem))
              (fun mem => l_equals (List.mem_cons_of_mem _ mem))
            exact ⟨c :: p, e, f, s', t', by rw [List.cons_append, s_eq]; rfl,
              by rw [List.cons_append, t_eq]; rfl, differ, e_lt, f_lt⟩
          · exact ⟨[], c, d, _, _, rfl, rfl, same, k_ascii c List.mem_cons_self,
              l_ascii d List.mem_cons_self⟩

theorem Params.differ (params : Params) : params.entries.Pairwise Differ := by
  have distinct := List.pairwise_map.mp params.distinct
  refine List.pairwise_map.mpr (distinct.imp ?_)
  intro m m' ne
  exact differ_of_keys ne m.lower_ascii m'.lower_ascii (m.not_mem_lower (by decide) m.no_equals)
    (m'.not_mem_lower (by decide) m'.no_equals)

/-- There is only one way to sort. -/
theorem sorted_eq {list list' : List Bytes} (perm : list.Perm list')
    (ordered : list.Pairwise (· ≤ ·)) :
    list = list'.insertionSort (· ≤ ·) :=
  List.Perm.eq_of_pairwise (fun _ _ _ _ => List.le_antisymm) ordered
    (List.pairwise_insertionSort _ _)
    (perm.trans (List.perm_insertionSort _ _).symm)

end

/-! ### The node -/

section

variable (printNumber : JsonNode ν → Bytes)

@[simp] theorem Member.lowerKey_node (m : Member) : lowerKey (m.node : JsonNode ν) = m.lower := by
  obtain ⟨key, value | value, _, _, _⟩ := m <;> rfl

@[simp] theorem Member.memberText_node (m : Member) : memberText printNumber m.node = m.text := by
  obtain ⟨key, _ | (_ | _), _, _, _⟩ := m <;> rfl

@[simp] theorem Member.key_node (m : Member) : (m.node : JsonNode ν).key = some m.key := by
  obtain ⟨key, value | value, _, _, _⟩ := m <;> rfl

theorem Member.entry_node (m : Member) : Arrow.entry printNumber m.node = m.entry := by
  rw [Arrow.entry, m.lowerKey_node, m.memberText_node, Member.entry]

theorem Member.plain_node (m : Member) : Plain printNumber m.node := by
  constructor
  · rw [m.key_node]
    exact m.plain
  · rw [m.memberText_node]
    exact m.text_plain

/-- No member is printed with `%f`. -/
theorem Member.whole_node (m : Member) (width : Nat) : Whole printNumber width m.node := by
  rintro ⟨string, bool⟩
  unfold Member.node at string bool
  split at string
  · exact absurd rfl string
  · next b value_eq =>
      rw [value_eq] at bool
      exact absurd rfl bool

namespace Params

variable (params : Params) (key : Option Bytes)

theorem entries_node : (params.node key).jsonFirstChild.map (Arrow.entry printNumber) =
    params.entries := by
  rw [node, JsonNode.jsonFirstChild, List.map_map, entries]
  exact List.map_congr_left fun m _ => m.entry_node printNumber

theorem plain_node : ∀ child ∈ (params.node key : JsonNode ν).jsonFirstChild,
    Plain printNumber child := by
  intro child mem
  obtain ⟨m, -, rfl⟩ := List.mem_map.mp mem
  exact m.plain_node printNumber

theorem fits_node (width : Nat) : Fits printNumber width (params.node key) := by
  constructor
  · exact fun none => params.some (List.map_eq_nil_iff.mp none)
  · rw [node, JsonNode.jsonFirstChild, List.length_map]
    exact params.le
  · intro child mem
    obtain ⟨m, -, rfl⟩ := List.mem_map.mp mem
    rw [m.key_node]
    rfl
  · intro child mem
    obtain ⟨m, -, rfl⟩ := List.mem_map.mp mem
    exact m.whole_node printNumber width

theorem short_node : linesLength printNumber (params.node key).jsonFirstChild < canonicalSize := by
  have short := params.short
  have lengths : linesLength printNumber (params.node key).jsonFirstChild =
      (params.members.map fun m => m.entry.length + 1).sum := by
    rw [linesLength, node, JsonNode.jsonFirstChild, List.map_map]
    refine congrArg List.sum (List.map_congr_left fun m _ => ?_)
    rw [Function.comp_apply, m.entry_node]
  rwa [lengths]

variable {printNumber key}

/-- Only one string is canonical, in every order that goes by the bytes where two entries differ
first in their keys. -/
theorem canonical_eq {order : Bytes → Bytes → Prop} {text : Bytes}
    (canonical : IsCanonical printNumber order (params.node key) text)
    (agrees : ∀ s t, Differ s t → order s t → s ≤ t) : text = params.canonical := by
  obtain ⟨list, perm, ordered, rfl⟩ := canonical
  rw [params.entries_node] at perm
  have chain : list.IsChain (· ≤ ·) := by
    refine ordered.imp_of_mem_imp fun s t s_mem t_mem le => ?_
    by_cases same : s = t
    · exact same ▸ List.le_refl s
    · refine agrees s t ?_ le
      exact params.differ.forall (perm.mem_iff.mp s_mem) (perm.mem_iff.mp t_mem) same
  rw [Params.canonical, ← sorted_eq perm (List.isChain_iff_pairwise.mp chain)]

end Params

end

/-! ### The builds -/

section

variable (printNumber : JsonNode ν → Bytes) (params : Params) (key : Option Bytes)

/-- The static build. -/
theorem formCanonicalPrmStatic_eq (signed : Bool) {buffer : Bytes}
    (length : buffer.length = canonicalSize) :
    ∃ buffer', formCanonicalPrmStatic printNumber signed (params.node key) buffer =
      .ok (params.canonical, buffer') := by
  obtain ⟨text, rest, run, canonical⟩ :=
    (formCanonicalPrmStatic_iff signed length (params.plain_node printNumber key)).mpr
      ⟨params.fits_node printNumber key 15, params.short_node printNumber key⟩
  rw [params.canonical_eq canonical fun s t differ => (inOrder_iff differ [lf] [lf]).mp] at run
  exact ⟨_, run⟩

/-- The dynamic build. -/
theorem formCanonicalPrm_eq (fresh : Nat → Byte)
    {qsort : (Bytes → Bytes → Int) → List Bytes → List Bytes} (sorts : SortsStrings qsort) :
    formCanonicalPrm printNumber fresh qsort (params.node key : JsonNode ν) =
      .ok params.canonical := by
  obtain ⟨text, run, canonical⟩ :=
    (formCanonicalPrm_iff fresh sorts (params.plain_node printNumber key)).mpr
      (params.fits_node printNumber key 49)
  rw [run, params.canonical_eq canonical fun s t _ => (strcmp_le_iff s t).mp]

end

/-! ### Agreement -/

/-- Both builds return the same, for every order of the members. -/
theorem canonicalPrm_agree (printNumber : JsonNode ν → Bytes) (signed : Bool) (fresh : Nat → Byte)
    {qsort : (Bytes → Bytes → Int) → List Bytes → List Bytes} (sorts : SortsStrings qsort)
    (params : Params)
    (key : Option Bytes) {buffer : Bytes} (length : buffer.length = canonicalSize) :
    (∃ buffer', formCanonicalPrmStatic printNumber signed (params.node key) buffer =
        .ok (params.canonical, buffer')) ∧
      formCanonicalPrm printNumber fresh qsort (params.node key) = .ok params.canonical ∧
      ∀ params' : Params, params'.members.Perm params.members →
        params'.canonical = params.canonical := by
  refine ⟨formCanonicalPrmStatic_eq printNumber params key signed length,
    formCanonicalPrm_eq printNumber params key fresh sorts, ?_⟩
  intro params' perm
  have same : params'.entries.insertionSort (· ≤ ·) = params.entries.insertionSort (· ≤ ·) :=
    sorted_eq ((List.perm_insertionSort _ _).trans (perm.map Member.entry))
      (List.pairwise_insertionSort _ _)
  rw [Params.canonical, Params.canonical, same]

/-- `{"b": true, "A": "x"}` -/
def mixedParams : Params where
  members :=
    [⟨[0x62], .bool true, List.forall_mem_singleton.mpr (by decide), by decide, by decide⟩,
      ⟨[0x41], .string [0x78] (by decide), List.forall_mem_singleton.mpr (by decide), by decide,
        by decide⟩]
  some := List.cons_ne_nil _ _
  le := by decide
  distinct := by decide
  short := by decide

example : mixedParams.canonical =
    [0x61, equals, 0x78, lf, 0x62, equals, 0x74, 0x72, 0x75, 0x65] := by decide

theorem canonicalPrm_agree_mixed :
    (∃ buffer', formCanonicalPrmStatic (fun _ : JsonNode Unit => []) true (mixedParams.node none)
        (List.replicate canonicalSize 0) = .ok (mixedParams.canonical, buffer')) ∧
      formCanonicalPrm (fun _ : JsonNode Unit => []) (fun _ => 0)
        (fun cmp list => list.insertionSort fun s t => cmp s t ≤ 0) (mixedParams.node none) =
          .ok mixedParams.canonical ∧
      ∀ params' : Params, params'.members.Perm mixedParams.members →
        params'.canonical = mixedParams.canonical :=
  canonicalPrm_agree _ true _ insertionSort_sortsStrings mixedParams none (List.length_replicate ..)

end AcnSdk.Arrow
