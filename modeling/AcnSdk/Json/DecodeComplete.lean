/-
Completeness of the streaming decoder, against the recursive parser.

`Compatible tree st` says that the stack can still become the tree: what every open
container has so far is a front of what the tree has there. No byte repairs a stack
that is not compatible, so a text that is read as `tree` in the end keeps it
compatible all the way (`compatible_of_run`). Along the derivation of a JSON text that
is the tree, this leaves the plain texts only.

* `Derives.plain_of_run` — a text that is read as the tree it denotes is plain.
* `decodeStream_eq_jsonDecode_iff` — the streaming decoder agrees with `json_decode` on
  exactly the plain texts.
-/

import AcnSdk.Json.DecodeInvariant
import AcnSdk.Json.DecodePlain
import AcnSdk.Json.DecodeRun

namespace AcnSdk.Json

open AcnSdk.Lib Ascii Stack

variable {ν : Type} {libc : Libc ν} {tree : JsonNode ν}

/-! ### Stacks that can become a tree -/

/-- A value as it is attached to the innermost container. -/
def attached (below : List (Open ν)) (key : Option Bytes) (node : JsonNode ν) : JsonNode ν :=
  if inObject below then node.withKey key else node

/-- The value that the tree has at the place inside the open containers `below`, or
`none` if the tree has no value there. -/
inductive Expects (tree : JsonNode ν) : List (Open ν) → Option (JsonNode ν) → Prop where
  | root : Expects tree [] (some tree)
  | beyond {o : Open ν} {below : List (Open ν)} (outer : Expects tree below none) :
      Expects tree (o :: below) none
  | child {o : Open ν} {below : List (Open ν)} {more : List (JsonNode ν)}
      (outer : Expects tree below
        (some (attached below o.key (.container none o.kind (o.children ++ more))))) :
      Expects tree (o :: below) more.head?

/-- The key and the value that a stack has read are those of `c`. -/
structure Fits (st : Stack ν) (c : JsonNode ν) : Prop where
  value : ∀ key node, st.mode = .valueEnd key node → attached st.below key node = c
  key : ∀ key, inObject st.below = true → st.mode.key? = some key → c.key = key

/-- The stack can still become the tree. -/
def Compatible (tree : JsonNode ν) (st : Stack ν) : Prop :=
  ∃ e, Expects tree st.below e ∧ ∀ c, e = some c → Fits st c

theorem attached_container {below : List (Open ν)} {key : Option Bytes} {kind : Container}
    {cs cs' : List (JsonNode ν)}
    (h : attached below key (.container none kind cs) =
      attached below key (.container none kind cs')) :
    cs = cs' := by
  unfold attached at h
  split at h <;> simpa [JsonNode.withKey] using h

theorem attached_scalar {below : List (Open ν)} {key : Option Bytes} {v v' : Scalar ν}
    (h : attached below key (.scalar none v) = attached below key (.scalar none v')) : v = v' := by
  unfold attached at h
  split at h <;> simpa [JsonNode.withKey] using h

theorem attach_eq (o : Open ν) (below : List (Open ν)) (key : Option Bytes) (node : JsonNode ν) :
    o.attach key node = ⟨o.key, o.kind, o.children ++ [attached (o :: below) key node]⟩ := by
  obtain ⟨okey, kind, children⟩ := o
  cases kind <;> rfl

theorem Expects.unique {below : List (Open ν)} {e e' : Option (JsonNode ν)}
    (h : Expects tree below e) (h' : Expects tree below e') : e = e' := by
  induction h generalizing e' with
  | root =>
      cases h'
      rfl
  | beyond _ ih =>
      cases h' with
      | beyond _ => rfl
      | child outer => cases ih outer
  | child _ ih =>
      cases h' with
      | beyond outer => cases ih outer
      | child outer =>
          have same := attached_container (Option.some.inj (ih outer))
          rw [List.append_cancel_left same]

/-- What a compatible stack has read is what the tree has there. -/
theorem Compatible.fits {st : Stack ν} {c : JsonNode ν} (h : Compatible tree st)
    (expects : Expects tree st.below (some c)) : Fits st c := by
  obtain ⟨e, expects', fits⟩ := h
  exact fits c (expects'.unique expects)

/-- A whole value whose container the tree has. -/
theorem expects_of_attach {o : Open ν} {rest : List (Open ν)} {key : Option Bytes}
    {node : JsonNode ν} {more : List (JsonNode ν)}
    (outer : Expects tree rest (some (attached rest o.key
      (.container none o.kind ((o.attach key node).children ++ more))))) :
    Expects tree (o :: rest) (some (attached (o :: rest) key node)) := by
  rw [attach_eq o rest, List.append_assoc] at outer
  exact .child outer

theorem fits_of_endsWith {mode : Mode ν} {key : Option Bytes} {node : JsonNode ν}
    {below : List (Open ν)} (ends : mode.EndsWith libc key node) :
    Fits ⟨mode, below⟩ (attached below key node) := by
  have key_eq : ∀ k, inObject below = true → mode.key? = some k → (attached below key node).key =
      k := by
    intro k inside pending
    have named : (attached below key node).key = key := by
      simp only [attached, inside, if_true]
      cases node <;> rfl
    rw [named]
    rcases ends with rfl | ⟨buffer, rfl | ⟨rfl, -⟩, -⟩ <;> exact Option.some.inj pending
  refine ⟨fun k n at_end => ?_, key_eq⟩
  rcases ends with rfl | ⟨buffer, rfl | ⟨rfl, -⟩, -⟩
  · cases at_end
    rfl
  · cases at_end
  · cases at_end

/-- No byte makes a stack compatible. -/
theorem compatible_of_step {st st' : Stack ν} {byte : Byte} (stepped : st.step libc byte = some st')
    (h : Compatible tree st') : Compatible tree st := by
  obtain ⟨e, expects, fits⟩ := h
  rcases Stack.step_cases stepped with ⟨mode, rfl, inner⟩ | ⟨key, kind, at_init, rfl⟩ |
    ⟨key, node, o, rest, ends, below, rfl | rfl⟩
  · refine ⟨e, expects, fun c eq => ⟨fun key node at_end => ?_, fun key inside pending => ?_⟩⟩
    · exact (fits c eq).value key node ((inner.value_eq key node at_end).trans at_end)
    · exact (fits c eq).key key inside (inner.key_eq key pending)
  · cases expects with
    | beyond outer => exact ⟨none, outer, fun c eq => by cases eq⟩
    | child outer =>
        refine ⟨_, outer, fun c eq => ⟨fun k n at_end => ?_, fun k inside pending => ?_⟩⟩
        · rw [at_init] at at_end
          cases at_end
        · rw [at_init] at pending
          cases pending
          cases eq
          simp [attached, inside, JsonNode.withKey, JsonNode.key]
  · obtain ⟨mode, below'⟩ := st
    obtain rfl : below' = o :: rest := below
    cases e with
    | none => exact ⟨none, .beyond expects, fun c eq => by cases eq⟩
    | some c =>
        have value := (fits c rfl).value _ _ rfl
        have outer : Expects tree rest (some (attached rest o.key
            (.container none o.kind ((o.attach key node).children ++ [])))) := by
          rw [List.append_nil]
          exact value ▸ expects
        refine ⟨_, expects_of_attach outer, fun d eq => ?_⟩
        cases eq
        exact fits_of_endsWith ends
  · obtain ⟨mode, below'⟩ := st
    obtain rfl : below' = o :: rest := below
    cases expects with
    | beyond outer => exact ⟨none, .beyond outer, fun c eq => by cases eq⟩
    | child outer =>
        refine ⟨_, expects_of_attach outer, fun d eq => ?_⟩
        cases eq
        exact fits_of_endsWith ends

/-- Beyond a tree that is whole already there is nothing. -/
theorem expects_of_last {below : List (Open ν)} {o : Open ν} (last : below.getLast? = some o)
    (whole : o.node = tree) : Expects tree below none := by
  induction below with
  | nil => cases last
  | cons o' below ih =>
      cases below with
      | nil =>
          obtain rfl : o' = o := Option.some.inj last
          have outer : Expects tree [] (some (attached [] o'.key
              (.container none o'.kind (o'.children ++ [])))) := by
            rw [List.append_nil]
            exact whole ▸ .root
          exact .child outer
      | cons o'' below => exact .beyond (ih last)

theorem compatible_of_root {st : Stack ν} (h : st.root = some tree) : Compatible tree st := by
  obtain ⟨mode, below⟩ := st
  unfold Stack.root at h
  cases last : below.getLast? with
  | some o =>
      rw [last] at h
      exact ⟨none, expects_of_last last (Option.some.inj h), fun c eq => by cases eq⟩
  | none =>
      rw [last] at h
      rw [List.getLast?_eq_none_iff] at last
      subst last
      refine ⟨some tree, .root, fun c eq => ⟨fun key node at_end => ?_, fun key inside => ?_⟩⟩
      · cases eq
        obtain rfl : mode = .valueEnd key node := at_end
        exact Option.some.inj h
      · cases inside

/-- The rest of the text makes the stack the tree. -/
def Succeeds (libc : Libc ν) (tree : JsonNode ν) (st : Stack ν) (s : Bytes) : Prop :=
  ∃ fin, st.run libc s = some fin ∧ fin.root = some tree

theorem compatible_of_run {st : Stack ν} {s : Bytes} (h : Succeeds libc tree st s) :
    Compatible tree st := by
  obtain ⟨fin, ran, root⟩ := h
  induction s generalizing st with
  | nil =>
      cases ran
      exact compatible_of_root root
  | cons byte s ih =>
      rw [run_cons] at ran
      obtain ⟨st₁, stepped, rest⟩ := Option.bind_eq_some_iff.mp ran
      exact compatible_of_step stepped (ih rest)

/-! ### Texts that are read as their tree -/

section Plain

variable {key : Option Bytes} {below : List (Open ν)}

theorem Succeeds.congr {st st' : Stack ν} {s s' : Bytes} (same : st.run libc s = st'.run libc s')
    (h : Succeeds libc tree st s) : Succeeds libc tree st' s' := by
  rwa [Succeeds, ← same]

theorem Succeeds.step {st st' : Stack ν} {byte : Byte} {s : Bytes}
    (stepped : st.step libc byte = some st') (h : Succeeds libc tree st (byte :: s)) :
    Succeeds libc tree st' s :=
  h.congr (run_of_step stepped s)

theorem Succeeds.accepts {st : Stack ν} {s : Bytes} (h : Succeeds libc tree st s) :
    Accepts libc st s := by
  obtain ⟨fin, ran, -⟩ := h
  exact ⟨fin, ran⟩

/-- A value that was read is the one that the tree has. -/
theorem Succeeds.value_eq {node node' : JsonNode ν} {s : Bytes}
    (h : Succeeds libc tree ⟨.valueEnd key node, below⟩ s)
    (expects : Expects tree below (some (attached below key node'))) :
    attached below key node = attached below key node' :=
  ((compatible_of_run h).fits expects).value key node rfl

/-- A scalar that is read as its value is plain. -/
theorem scalar_plain {s rest : Bytes} {value : Scalar ν}
    (reads : parseScalar libc s = some (value, rest))
    (expects : Expects tree below (some (attached below key (.scalar none value))))
    (h : Succeeds libc tree ⟨.valueInit key, below⟩ s) : plainScalar s rest value := by
  rcases parseScalar_cases reads with ⟨rfl, rfl⟩ | ⟨b, -, rfl⟩ | ⟨out, literal, rfl⟩ | ⟨number, rfl⟩
  · exact absurd h.accepts (not_accepts (step_valueInit_stuck (by decide)) _)
  · trivial
  · obtain ⟨s₁, rfl, chars⟩ := parseString_iff.mp literal
    obtain ⟨read, stream, free, -, same⟩ := chars.stream
    have later := (h.step step_string).congr (stream.run [])
    have eq := attached_scalar (later.value_eq expects)
    rw [List.nil_append, cstr_eq_self free] at eq
    exact same.mp (Scalar.string.inj eq)
  · exact number_plain number h.accepts

/-- An empty container is not read as one. -/
theorem empty_not_read {kind : Container} {s rest : Bytes}
    (close : skipSpace s = closeBracket kind :: rest)
    (expects : Expects tree below (some (attached below key (.container none kind [])))) :
    ¬ Succeeds libc tree ⟨.valueInit key, below⟩ (openBracket kind :: s) := by
  intro h
  have inside := (h.step (step_open kind)).congr (run_skipSpace (childMode_skips _) s).symm
  rw [close] at inside
  cases kind with
  | array =>
      -- the machine reads the closing bracket as the end of a number
      have stepped : step libc ⟨.valueInit none, ⟨key, .array, []⟩ :: below⟩ rbrack =
          some ⟨.valueEnd key (.container none .array [.scalar none (.number (libc.strtod []))]),
            below⟩ := rfl
      have eq := attached_container ((inside.step stepped).value_eq expects)
      cases eq
  | object => exact not_accepts rfl _ inside.accepts

/-- A text that is read as the tree it denotes is plain. -/
theorem Derives.plain_of_run {part : Part ν} {s rest : Bytes} {node : JsonNode ν}
    (h : Derives (.json libc) part s node rest) :
    match part with
    | .value => ∀ key below, (Delimited rest ∨ ∃ kind cs, node = .container none kind cs) →
        Expects tree below (some (attached below key node)) →
        Succeeds libc tree ⟨.valueInit key, below⟩ s → Derives (.plain libc) .value s node rest
    | .child kind done => ∀ key below, Expects tree below (some (attached below key node)) →
        Succeeds libc tree ⟨(Open.mk key kind done).childMode, ⟨key, kind, done⟩ :: below⟩ s →
        Derives (.plain libc) (.child kind done) s node rest
    | .after kind done => ∀ (o : Open ν) key c below, o.attach key c = ⟨o.key, kind, done⟩ →
        Expects tree below (some (attached below o.key node)) →
        Succeeds libc tree ⟨.valueEnd key c, o :: below⟩ s →
        Derives (.plain libc) (.after kind done) s node rest := by
  induction h with
  | scalar reads =>
      intro key below _ expects h
      exact .scalar ⟨reads, scalar_plain reads expects h⟩
  | empty _ close =>
      intro key below _ expects h
      exact absurd h (empty_not_read close expects)
  | container _ ih =>
      intro key below _ expects h
      exact .container (ih key below expects
        ((h.step (step_open _)).congr (run_skipSpace (childMode_skips _) _).symm))
  | @element done s s₁ rest c node _ more ih ih' =>
      intro key below expects h
      obtain ⟨others, rfl⟩ := more.children
      have here : Expects tree (⟨key, .array, done⟩ :: below)
          (some (attached (⟨key, .array, done⟩ :: below) none c)) := expects_of_attach expects
      have delimited : Delimited s₁ ∨ ∃ kind cs, c = .container none kind cs := .inl more.delimited
      have value := ih none _ delimited here h
      have later := h.congr ((value.stream_of_plain delimited).run none _ delimited)
      exact .element value (ih' _ none c below rfl expects later)
  | @member done s s₁ s₂ s₃ rest key c node reads sep _ more ih ih' =>
      intro outer below expects h
      obtain ⟨others, rfl⟩ := more.children
      have here : Expects tree (⟨outer, .object, done⟩ :: below)
          (some (attached (⟨outer, .object, done⟩ :: below) (some key) c)) :=
            expects_of_attach expects
      -- the key that the machine reads is the one that the tree has
      obtain ⟨s₀, rfl, chars⟩ := parseString_iff.mp reads
      obtain ⟨k, rest', rfl, quote, free, key_reads⟩ := chars.streamKey
      have named := (h.step step_key).congr (run_keyBody quote rest' [])
      have same := ((compatible_of_run named).fits here).key (some k) rfl (by
        simp [Mode.key?, cstr_eq_self free])
      have eq : key = k := by
        have : (attached (⟨outer, .object, done⟩ :: below) (some key) c).key = some key := by
          cases c <;> rfl
        rw [this] at same
        exact Option.some.inj same
      obtain ⟨plain, rfl⟩ := key_reads.of_eq quote eq
      subst eq
      rw [List.nil_append, cstr_eq_self free] at named
      have at_sep := named.congr (run_skipSpace keyEnd_skips rest').symm
      rw [sep] at at_sep
      have at_value := (at_sep.step step_colon).congr (run_skipSpace valueInit_skips s₂).symm
      have delimited : Delimited s₃ ∨ ∃ kind cs, c = .container none kind cs := .inl more.delimited
      have value := ih (some key) _ delimited here at_value
      have later := at_value.congr ((value.stream_of_plain delimited).run (some key) _ delimited)
      refine .member ⟨reads, ?_⟩ sep value (ih' _ (some key) c below rfl expects later)
      rw [List.tail_cons, noEscapes_iff quote]
      exact plain
  | close close =>
      intro o key c below _ _ _
      exact .close close
  | @next kind done s s₁ rest node sep _ ih =>
      intro o key c below attached expects h
      have mode : o.childMode = (Open.mk o.key kind done : Open ν).childMode := by
        rw [← attached]
        rfl
      have at_sep := h.congr (run_skipSpace valueEnd_skips s).symm
      rw [sep] at at_sep
      have later := at_sep.step (step_comma o)
      rw [attached, mode] at later
      exact .next sep (ih o.key below expects
        (later.congr (run_skipSpace (childMode_skips _) s₁).symm))

end Plain

/-! ### Both decoders -/

/-- For a text that `json_decode` accepts as a container, the streaming decoder accepts
all parts and returns the same tree, whatever the parts, exactly if the text is
plain. -/
theorem decodeStream_eq_jsonDecode_iff (libc : Libc ν) {s : Bytes} {tree : JsonNode ν}
    (text : 0 ∉ s)
    (parsed : jsonDecode libc s = some tree) (container : tree.isContainer = true)
    {sm : Addr} {h : Heap (Jpm ν)} {x : Jpm ν} (cell : h.cells sm = some x) (live : sm < h.brk) :
    (∀ parts : List Bytes, parts.flatten = s →
      ∃ h', jsonDecodeStream libc sm parts h = .ok (some (some tree), h')) ↔
      ∃ node, Document (.plain libc) s node := by
  have document := (jsonDecode_iff text).mp parsed
  obtain ⟨rest, derives, ended⟩ := document
  obtain ⟨kind, cs, rfl⟩ := derives.container_eq container
  constructor
  · intro agrees
    obtain ⟨h₁, decoded⟩ := agrees [s] (by simp)
    obtain ⟨h₂, result⟩ := decodeStream_eq libc cell live [s]
    rw [decoded, List.flatten_singleton] at result
    obtain ⟨fin, ran, root⟩ : ∃ fin, Stack.init.run libc s = some fin ∧
        fin.root = some (JsonNode.container none kind cs) := by
      have eq := congrArg Prod.fst (Except.ok.inj result)
      obtain ⟨fin, ran, root⟩ := Option.map_eq_some_iff.mp eq.symm
      exact ⟨fin, ran, root⟩
    have succeeds : Succeeds libc (.container none kind cs) ⟨.valueInit none, []⟩ (skipSpace s) :=
      Succeeds.congr (run_skipSpace valueInit_skips s).symm ⟨fin, ran, root⟩
    have plain := derives.plain_of_run none [] (.inr ⟨kind, cs, rfl⟩) .root succeeds
    exact ⟨_, rest, plain, ended⟩
  · rintro ⟨node, plain⟩ parts rfl
    obtain rfl : node = .container none kind cs :=
      plain.json_of_plain.unique text ⟨rest, derives, ended⟩
    obtain ⟨h', decoded⟩ := decodeStream_eq libc cell live parts
    rw [plain.stream_of_plain.run] at decoded
    exact ⟨h', decoded⟩

/-- ` [7,true]` -/
def plainArray : Bytes := [0x20, 0x5B, 0x37, 0x2C, 0x74, 0x72, 0x75, 0x65, 0x5D]

theorem plainArray_document : Document (.plain Libc.nat) plainArray
    (.container none .array [.scalar none (.number 7), .scalar none (.bool true)]) := by
  have number : Derives (.plain Libc.nat) .value (plainArray.drop 2) (.scalar none (.number 7))
      (plainArray.drop 3) := .scalar ⟨rfl, rfl⟩
  have bool : Derives (.plain Libc.nat) .value (plainArray.drop 4) (.scalar none (.bool true))
      (plainArray.drop 8) := .scalar ⟨rfl, trivial⟩
  have children : Derives (.plain Libc.nat) (.child .array []) (plainArray.drop 2)
      (.container none .array [.scalar none (.number 7), .scalar none (.bool true)]) [] :=
    .element number (.next rfl (.element bool (.close rfl)))
  have array : Derives (.plain Libc.nat) .value (openBracket .array :: plainArray.drop 2)
      (.container none .array [.scalar none (.number 7), .scalar none (.bool true)]) [] :=
    .container children
  exact ⟨[], array, rfl⟩

/-- ` [7,true]` in two parts. -/
theorem decodeStream_eq_jsonDecode_iff_plain :
    ∃ h', jsonDecodeStream Libc.nat 0 [plainArray.take 3, plainArray.drop 3] callerHeap =
      .ok (some (some
        (.container none .array [.scalar none (.number 7), .scalar none (.bool true)])), h') :=
  (decodeStream_eq_jsonDecode_iff Libc.nat (by decide) rfl rfl (x := jsonParseMachineInit) rfl
    (by decide)).mpr ⟨_, plainArray_document⟩ [plainArray.take 3, plainArray.drop 3] (by decide)

/-- `[null]` -/
def nullArray : Bytes := [0x5B, 0x6E, 0x75, 0x6C, 0x6C, 0x5D]

/-- `json_decode` accepts `[null]`, the streaming decoder rejects it. -/
theorem nullArray_rejected :
    jsonDecode Libc.nat nullArray = some (.container none .array [.scalar none .null]) ∧
      ∃ h', jsonDecodeStream Libc.nat 0 [nullArray] callerHeap = .ok (none, h') := by
  refine ⟨rfl, ?_⟩
  have caller : (callerHeap : Heap (Jpm Nat)).cells 0 = some jsonParseMachineInit := rfl
  obtain ⟨h', decoded⟩ := decodeStream_eq Libc.nat caller (by decide) [nullArray]
  exact ⟨h', decoded⟩

end AcnSdk.Json
