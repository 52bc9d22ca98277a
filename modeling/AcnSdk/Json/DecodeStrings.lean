/-
The keys and the strings of a decoded tree are C strings.

The decoder makes keys and strings out of its buffer with functions for C strings, so that what
comes after a zero byte of the document does not get into the tree.

* `decodeStream_strings` — every decoded tree holds C strings.
* `run_plain` — a document without a zero byte puts none into a buffer, which is what `sb_finish`
  asserts.
-/

import AcnSdk.Json.DecodeRun

namespace AcnSdk.Json

open AcnSdk.Lib AcnSdk.Data Ascii

variable {ν : Type}

/-- Every key and every string in the tree is a C string. -/
inductive JsonNode.Strings : JsonNode ν → Prop where
  | scalar {key : Option Bytes} {value : Scalar ν} (named : ∀ k, key = some k → 0 ∉ k)
      (text : ∀ s, value = .string s → 0 ∉ s) : Strings (.scalar key value)
  | container {key : Option Bytes} {kind : Container} {children : List (JsonNode ν)}
      (named : ∀ k, key = some k → 0 ∉ k) (each : ∀ c ∈ children, Strings c) :
      Strings (.container key kind children)

/-- An open container with such children. -/
structure Open.Strings (o : Open ν) : Prop where
  named : ∀ k, o.key = some k → 0 ∉ k
  each : ∀ c ∈ o.children, c.Strings

/-- A stack of such trees. -/
structure Stack.Strings (st : Stack ν) : Prop where
  named : ∀ k, st.mode.key? = some (some k) → 0 ∉ k
  value : ∀ key node, st.mode = .valueEnd key node → node.Strings
  below : ∀ o ∈ st.below, o.Strings

namespace JsonNode.Strings

variable {node : JsonNode ν}

theorem key (strings : node.Strings) : ∀ k, node.key = some k → 0 ∉ k := by
  cases strings with
  | scalar named _ => exact named
  | container named _ => exact named

theorem children (strings : node.Strings) : ∀ c ∈ node.jsonFirstChild, c.Strings := by
  cases strings with
  | scalar _ _ => exact List.forall_mem_nil _
  | container _ each => exact each

theorem withKey (strings : node.Strings) {key : Option Bytes} (named : ∀ k, key = some k → 0 ∉ k) :
    (node.withKey key).Strings := by
  cases strings with
  | scalar _ text => exact .scalar named text
  | container _ each => exact .container named each

end JsonNode.Strings

theorem Open.Strings.node {o : Open ν} (strings : o.Strings) : o.node.Strings := by
  refine .container ?_ strings.each
  rintro k ⟨⟩

/-- One more child. -/
theorem Open.Strings.attach {o : Open ν} (strings : o.Strings) {key : Option Bytes}
    {node : JsonNode ν} (named : ∀ k, key = some k → 0 ∉ k) (value : node.Strings) :
    (o.attach key node).Strings := by
  refine ⟨strings.named, fun c mem => ?_⟩
  rcases List.mem_append.mp mem with old | new
  · exact strings.each c old
  · rw [List.mem_singleton] at new
    rw [new]
    cases o.kind with
    | array => exact value
    | object => exact value.withKey named

namespace Stack

variable {libc : Libc ν} {key : Option Bytes} {below : List (Open ν)} {byte : Byte}
    {st st' : Stack ν}

/-- A mode without a value. -/
theorem Strings.of_mode {mode : Mode ν} (named : ∀ k, mode.key? = some (some k) → 0 ∉ k)
    (open_value : ∀ key node, mode ≠ .valueEnd key node) (each : ∀ o ∈ below, o.Strings) :
    Strings ⟨mode, below⟩ :=
  ⟨named, fun key node at_end => absurd at_end (open_value key node), each⟩

theorem stepValueEnd_strings {node : JsonNode ν} (named : ∀ k, key = some k → 0 ∉ k)
    (value : node.Strings) (each : ∀ o ∈ below, o.Strings)
    (step : stepValueEnd key node below byte = some st') : st'.Strings := by
  rw [stepValueEnd.eq_def] at step
  split at step
  · cases step
    refine ⟨fun k has_key => named k (Option.some.inj has_key), ?_, each⟩
    rintro _ _ ⟨⟩
    exact value
  cases below with
  | nil => cases step
  | cons o rest =>
      obtain ⟨first, others⟩ := List.forall_mem_cons.mp each
      have attached := first.attach named value
      dsimp only at step
      split at step
      · cases step
        refine ⟨fun k has_key => first.named k (Option.some.inj has_key), ?_, others⟩
        rintro _ _ ⟨⟩
        exact attached.node
      split at step
      · cases step
        refine .of_mode ?_ ?_ (List.forall_mem_cons.mpr ⟨attached, others⟩)
        · unfold Open.childMode
          cases o.kind <;> rintro k ⟨⟩
        · unfold Open.childMode
          cases o.kind <;> rintro _ _ ⟨⟩
      · cases step

theorem stepNumberBody_strings {buffer : Bytes} (named : ∀ k, key = some k → 0 ∉ k)
    (each : ∀ o ∈ below, o.Strings)
    (step : stepNumberBody libc key buffer below byte = some st') : st'.Strings := by
  unfold stepNumberBody at step
  split at step
  · cases step
    refine .of_mode (fun k has_key => named k (Option.some.inj has_key)) ?_ each
    rintro _ _ ⟨⟩
  · refine stepValueEnd_strings named (.scalar ?_ ?_) each step
    · rintro k ⟨⟩
    · rintro s ⟨⟩

theorem stepValueInit_strings (named : ∀ k, key = some k → 0 ∉ k) (each : ∀ o ∈ below, o.Strings)
    (step : stepValueInit libc key below byte = some st') : st'.Strings := by
  have opened : ∀ kind, ∀ o ∈ (⟨key, kind, []⟩ : Open ν) :: below, o.Strings := by
    intro kind
    exact List.forall_mem_cons.mpr ⟨⟨named, List.forall_mem_nil _⟩, each⟩
  have same : ∀ mode : Mode ν, mode.key? = some key → (∀ key node, mode ≠ .valueEnd key node) →
      Strings ⟨mode, below⟩ := by
    intro mode key_eq open_value
    refine .of_mode (fun k has_key => named k ?_) open_value each
    rw [key_eq] at has_key
    exact Option.some.inj has_key
  unfold stepValueInit at step
  split at step
  · cases step
    exact same _ rfl (by rintro _ _ ⟨⟩)
  split at step
  · cases step
    exact .of_mode (by rintro k ⟨⟩) (by rintro _ _ ⟨⟩) (opened .object)
  split at step
  · cases step
    exact same _ rfl (by rintro _ _ ⟨⟩)
  split at step
  · cases step
    exact same _ rfl (by rintro _ _ ⟨⟩)
  split at step
  · cases step
    exact same _ rfl (by rintro _ _ ⟨⟩)
  split at step
  · cases step
    exact .of_mode (by rintro k ⟨⟩) (by rintro _ _ ⟨⟩) (opened .array)
  · exact stepNumberBody_strings named each step

theorem step_strings (strings : st.Strings) (step : st.step libc byte = some st') :
    st'.Strings := by
  obtain ⟨mode, below⟩ := st
  obtain ⟨named, value, each⟩ := strings
  dsimp only at named value each
  have closed : ∀ {key : Option Bytes} {v : Scalar ν}, (∀ k, some key = some (some k) → 0 ∉ k) →
      (∀ s, v = .string s → 0 ∉ s) →
      Strings ⟨.valueEnd key (.scalar none v), below⟩ := by
    intro key v named text
    refine ⟨named, ?_, each⟩
    rintro _ _ ⟨⟩
    exact .scalar (by rintro k ⟨⟩) text
  cases mode with
  | valueInit key => exact stepValueInit_strings (fun k eq => named k (congrArg some eq)) each step
  | valueEnd key node =>
      exact stepValueEnd_strings (fun k eq => named k (congrArg some eq))
        (value key node rfl) each step
  | numberBody key buffer =>
      exact stepNumberBody_strings (fun k eq => named k (congrArg some eq)) each step
  | stringBody key buffer =>
      simp only [Stack.step] at step
      split at step
      · cases step
        exact .of_mode named (by rintro _ _ ⟨⟩) each
      split at step
      · cases step
        refine closed named ?_
        rintro s ⟨⟩
        exact not_mem_cstr buffer
      · cases step
        exact .of_mode named (by rintro _ _ ⟨⟩) each
  | stringEscape key buffer =>
      cases step
      exact .of_mode named (by rintro _ _ ⟨⟩) each
  | literal key state =>
      simp only [Stack.step] at step
      split at step
      · split at step
        · cases step
          exact .of_mode named (by rintro _ _ ⟨⟩) each
        · cases step
          exact closed named (by rintro s ⟨⟩)
      · cases step
  | keyInit =>
      simp only [Stack.step] at step
      split at step
      · cases step
        exact .of_mode named (by rintro _ _ ⟨⟩) each
      split at step
      · cases step
        exact .of_mode (by rintro k ⟨⟩) (by rintro _ _ ⟨⟩) each
      · cases step
  | keyBody buffer =>
      simp only [Stack.step] at step
      split at step
      · cases step
        refine .of_mode ?_ (by rintro _ _ ⟨⟩) each
        rintro k ⟨⟩
        exact not_mem_cstr buffer
      · cases step
        exact .of_mode (by rintro k ⟨⟩) (by rintro _ _ ⟨⟩) each
  | keyEnd key =>
      simp only [Stack.step] at step
      split at step
      · cases step
        exact .of_mode named (by rintro _ _ ⟨⟩) each
      split at step
      · cases step
        exact .of_mode named (by rintro _ _ ⟨⟩) each
      · cases step

theorem run_strings {bytes : Bytes} (strings : st.Strings) (run : st.run libc bytes = some st') :
    st'.Strings := by
  induction bytes generalizing st with
  | nil =>
      cases run
      exact strings
  | cons byte rest ih =>
      rw [run_cons] at run
      obtain ⟨st₁, step, rest_run⟩ := Option.bind_eq_some_iff.mp run
      exact ih (step_strings strings step) rest_run

theorem Strings.root {node : JsonNode ν} (strings : st.Strings) (root : st.root = some node) :
    node.Strings := by
  unfold Stack.root at root
  split at root
  · next o last =>
      cases root
      exact (strings.below o (List.mem_of_getLast? last)).node
  · split at root
    · next at_end =>
        cases root
        exact strings.value _ _ at_end
    · cases root

end Stack

/-- Every tree that `json_decode_finish` returns holds C strings. -/
theorem decodeStream_strings (libc : Libc ν) {sm : Addr} {h h' : Heap (Jpm ν)} {x : Jpm ν}
    (cell : h.cells sm = some x) (live : sm < h.brk) {parts : List Bytes} {node : JsonNode ν}
    (decoded : jsonDecodeStream libc sm parts h = .ok (some (some node), h')) : node.Strings := by
  obtain ⟨h₁, eq⟩ := decodeStream_eq libc cell live parts
  rw [decoded] at eq
  have tree := congrArg Prod.fst (Except.ok.inj eq)
  obtain ⟨st, run, root⟩ := Option.map_eq_some_iff.mp tree.symm
  refine (Stack.run_strings ?_ run).root root
  exact .of_mode (by rintro k ⟨⟩) (by rintro _ _ ⟨⟩) (List.forall_mem_nil _)

/-! ### The assertion of `sb_finish` -/

/-- What `sb_finish` asserts of the buffer that a machine reads into: no zero byte has been put. -/
def Mode.Plain : Mode ν → Prop
  | .stringBody _ buffer => 0 ∉ buffer
  | .stringEscape _ buffer => 0 ∉ buffer
  | .numberBody _ buffer => 0 ∉ buffer
  | .keyBody buffer => 0 ∉ buffer
  | .valueInit _ | .valueEnd _ _ | .literal _ _ | .keyInit | .keyEnd _ => True

theorem not_mem_put {buffer : Bytes} (plain : 0 ∉ buffer) {byte : Byte} (some : byte ≠ 0) :
    0 ∉ buffer ++ [byte] := by
  rw [List.mem_append, List.mem_singleton]
  rintro (old | new)
  · exact plain old
  · exact some new.symm

namespace Stack

variable {libc : Libc ν} {key : Option Bytes} {below : List (Open ν)} {byte : Byte}
    {st st' : Stack ν}

theorem stepValueEnd_plain {node : JsonNode ν}
    (step : stepValueEnd key node below byte = some st') :
    st'.mode.Plain := by
  rw [stepValueEnd.eq_def] at step
  split at step
  · cases step
    trivial
  cases below with
  | nil => cases step
  | cons o rest =>
      dsimp only at step
      split at step
      · cases step
        trivial
      split at step
      · cases step
        unfold Open.childMode
        cases o.kind <;> trivial
      · cases step

theorem stepNumberBody_plain {buffer : Bytes} (plain : 0 ∉ buffer) (some : byte ≠ 0)
    (step : stepNumberBody libc key buffer below byte = .some st') : st'.mode.Plain := by
  unfold stepNumberBody at step
  split at step
  · cases step
    exact not_mem_put plain some
  · exact stepValueEnd_plain step

theorem stepValueInit_plain (some : byte ≠ 0)
    (step : stepValueInit libc key below byte = .some st') : st'.mode.Plain := by
  unfold stepValueInit at step
  split at step
  · cases step
    trivial
  split at step
  · cases step
    trivial
  split at step
  · cases step
    exact List.not_mem_nil
  split at step
  · cases step
    trivial
  split at step
  · cases step
    trivial
  split at step
  · cases step
    trivial
  · exact stepNumberBody_plain List.not_mem_nil some step

theorem step_plain (plain : st.mode.Plain) (some : byte ≠ 0)
    (step : st.step libc byte = .some st') : st'.mode.Plain := by
  obtain ⟨mode, below⟩ := st
  cases mode with
  | valueInit key => exact stepValueInit_plain some step
  | valueEnd key node => exact stepValueEnd_plain step
  | numberBody key buffer => exact stepNumberBody_plain plain some step
  | stringBody key buffer =>
      simp only [Stack.step] at step
      split at step
      · cases step
        exact plain
      split at step
      · cases step
        trivial
      · cases step
        exact not_mem_put plain some
  | stringEscape key buffer =>
      cases step
      exact not_mem_put plain (escapeByte_ne_zero some)
  | literal key state =>
      simp only [Stack.step] at step
      split at step
      · split at step
        · cases step
          trivial
        · cases step
          trivial
      · cases step
  | keyInit =>
      simp only [Stack.step] at step
      split at step
      · cases step
        trivial
      split at step
      · cases step
        exact List.not_mem_nil
      · cases step
  | keyBody buffer =>
      simp only [Stack.step] at step
      split at step
      · cases step
        trivial
      · cases step
        exact not_mem_put plain some
  | keyEnd key =>
      simp only [Stack.step] at step
      split at step
      · cases step
        trivial
      split at step
      · cases step
        trivial
      · cases step

/-- After a document without a zero byte, or a part of one, `sb_finish` asserts nothing false. -/
theorem run_plain {bytes : Bytes} (clean : 0 ∉ bytes) (plain : st.mode.Plain)
    (run : st.run libc bytes = some st') : st'.mode.Plain := by
  induction bytes generalizing st with
  | nil =>
      cases run
      exact plain
  | cons byte rest ih =>
      rw [run_cons] at run
      obtain ⟨st₁, step, rest_run⟩ := Option.bind_eq_some_iff.mp run
      obtain ⟨some, clean⟩ := List.ne_and_not_mem_of_not_mem_cons clean
      exact ih clean (step_plain plain some.symm step) rest_run

end Stack

end AcnSdk.Json
