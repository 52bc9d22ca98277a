/-
Whole runs of the streaming decoder.

* `finish_of_path` — `json_decode_finish` releases every machine after the caller's
  and returns the tree of the caller's machine.
* `decodeStream_eq` — a document in any number of parts: no fault, and the result is
  that of the stack machine on the concatenated bytes.
-/

import AcnSdk.Json.DecodeChain

namespace AcnSdk.Json

open AcnSdk.Lib AcnSdk.Data Ascii Heap

variable {ν : Type}

/-! ### Parts -/

section Parts

variable (libc : Libc ν)

/-- `json_decode_part` on one part after the other, as long as none fails. -/
def jsonDecodeParts (sm : Addr) : List Bytes → JpmM ν Bool
  | [] => return true
  | part :: parts => do
      if (← jsonDecodePart libc sm part) < 0 then return false
      else jsonDecodeParts sm parts

/-- A whole document: `json_decode_init`, the parts and, unless one of them fails,
`json_decode_finish`. -/
def jsonDecodeStream (sm : Addr) (parts : List Bytes) : JpmM ν (Option (Option (JsonNode ν))) := do
  let _ ← jsonDecodeInit sm
  if ← jsonDecodeParts libc sm parts then return some (← jsonDecodeFinish sm)
  else return none

end Parts

/-! ### Finishing -/

variable {sm : Addr} {h : Heap (Jpm ν)}

theorem Path.congr {h' : Heap (Jpm ν)} {a : Addr} {rest : List Addr} (path : Path h a rest)
    (same : ∀ b ∈ a :: rest, h'.cells b = h.cells b) : Path h' a rest := by
  induction path with
  | last cell next => exact .last ((same _ List.mem_cons_self).trans cell) next
  | cons cell next _ ih =>
      exact .cons ((same _ List.mem_cons_self).trans cell) next
        (ih fun b hb => same b (List.mem_cons_of_mem _ hb))

/-- The loop of `json_decode_finish` releases the machines of a path. -/
theorem release_path {a : Addr} {rest : List Addr} (path : Path h a rest)
    (nodup : (a :: rest).Nodup)
    (fuel : Nat) (enough : rest.length + 2 ≤ fuel) :
    ∃ h', jsonDecodeRelease fuel (some a) h = .ok ((), h') ∧ h'.brk = h.brk ∧
      (∀ b ∈ a :: rest, h'.cells b = none) ∧ ∀ b ∉ a :: rest, h'.cells b = h.cells b := by
  induction rest generalizing a fuel h with
  | nil =>
      obtain @⟨_, m, cell, next⟩ := path
      obtain ⟨fuel, rfl⟩ : ∃ k, fuel = k + 2 := ⟨fuel - 2, by omega⟩
      refine ⟨(h.set a (jsonParseMachineFin m)).erase a, ?_, rfl, by simp, ?_⟩
      · have freed : free a (h.set a (jsonParseMachineFin m)) = _ :=
          free_eq (x := jsonParseMachineFin m) (by simp)
        simp [jsonDecodeRelease, read_eq cell, update_eq cell, next, freed]
      · intro b hb
        have : b ≠ a := by simpa using hb
        simp [this]
  | cons b rest ih =>
      obtain @⟨⟩ | ⟨cell, next, path⟩ := path
      rename_i m
      obtain ⟨fuel, rfl⟩ : ∃ k, fuel = k + 1 := ⟨fuel - 1, by omega⟩
      rw [List.nodup_cons] at nodup
      let h₁ := (h.set a (jsonParseMachineFin m)).erase a
      have same : ∀ c, c ≠ a → h₁.cells c = h.cells c := fun c ne => by simp [h₁, ne]
      have path₁ : Path h₁ b rest :=
        path.congr fun c hc => same c fun e => nodup.1 (e ▸ hc)
      obtain ⟨h', released, brk, gone, kept⟩ := ih path₁ nodup.2 fuel
        (by rw [List.length_cons] at enough; omega)
      refine ⟨h', ?_, brk, ?_, ?_⟩
      · have freed : free a (h.set a (jsonParseMachineFin m)) = .ok ((), h₁) :=
          free_eq (x := jsonParseMachineFin m) (by simp)
        simp [jsonDecodeRelease, read_eq cell, update_eq cell, next, freed, released]
      · intro c hc
        rcases List.mem_cons.mp hc with rfl | hc
        · rw [kept c nodup.1]
          simp [h₁]
        · exact gone c hc
      · intro c hc
        rw [List.mem_cons, not_or] at hc
        rw [kept c hc.2, same c hc.1]

/-- What `json_decode_finish` does on a chain of machines. -/
structure Finished (sm : Addr) (path : List Addr) (m : Jpm ν) (h h' : Heap (Jpm ν)) : Prop where
  /-- The caller's machine is emptied, but keeps its link. -/
  caller : h'.cells sm = some (jsonParseMachineFin m)
  released : ∀ a ∈ path, h'.cells a = none
  kept : ∀ a ∉ sm :: path, h'.cells a = h.cells a
  brk_eq : h'.brk = h.brk

theorem finish_of_path {path : List Addr} (linked : Path h sm path) (nodup : (sm :: path).Nodup)
    (live : ∀ a ∈ sm :: path, a < h.brk) :
    ∃ m h', h.cells sm = some m ∧ m.next = path.head? ∧
      jsonDecodeFinish sm h = .ok (m.root.map Root.node, h') ∧ Finished sm path m h h' := by
  have short : (sm :: path).length ≤ h.brk := length_le_of_nodup nodup live
  rw [List.length_cons] at short
  cases path with
  | nil =>
      obtain @⟨_, m, cell, next⟩ := linked
      refine ⟨m, h.set sm (jsonParseMachineFin m), cell, next, ?_, ?_⟩
      · simp [jsonDecodeFinish, read_eq cell, next, jsonDecodeRelease, update_eq cell]
      · exact ⟨by simp, by simp, fun a ha => by simp_all, rfl⟩
  | cons b rest =>
      obtain @⟨⟩ | ⟨cell, next, path⟩ := linked
      rename_i m
      rw [List.nodup_cons] at nodup
      rw [List.length_cons] at short
      obtain ⟨h₁, released, brk, gone, kept⟩ := release_path path nodup.2 (h.brk + 2) (by omega)
      have cell₁ : h₁.cells sm = some m := (kept sm nodup.1).trans cell
      refine ⟨m, h₁.set sm (jsonParseMachineFin m), cell, next, ?_, by simp, ?_, ?_, brk⟩
      · simp [jsonDecodeFinish, read_eq cell, next, released, update_eq cell₁]
      · intro a ha
        have : a ≠ sm := fun e => nodup.1 (e ▸ ha)
        simp [this, gone a ha]
      · intro a ha
        rw [List.mem_cons, not_or] at ha
        simp [ha.1, kept a ha.2]

/-- The machines of a heap that represents a stack. -/
theorem Represents.path {st : Stack ν} (rep : Represents sm h st) :
    ∃ path, Path h sm path ∧ (sm :: path).Nodup ∧ ∀ a ∈ sm :: path, a < h.brk := by
  obtain ⟨p, t, addrs, done, rep⟩ := rep
  have whole : ∀ rest, Path h t rest → (t :: addrs ++ rest).Nodup → (∀ a ∈ rest, a < h.brk) →
      ∃ path, Path h sm path ∧ (sm :: path).Nodup ∧ ∀ a ∈ sm :: path, a < h.brk := by
    intro rest path nodup live
    obtain ⟨first, linked, eq⟩ := rep.chain.path path
    have perm : (sm :: first).Perm (t :: addrs ++ rest) := by
      rw [eq]
      exact List.perm_middle.trans ((List.reverse_perm addrs).append_right rest |>.cons t)
    refine ⟨first, linked, perm.nodup_iff.mpr nodup, fun a ha => ?_⟩
    rcases List.mem_append.mp (perm.mem_iff.mp ha) with old | new
    · exact rep.live a old
    · exact live a new
  cases done with
  | none => exact whole [] (.last rep.cell (by simp)) (by simpa using rep.distinct) (by simp)
  | some c =>
      obtain ⟨fresh, live, ⟨m, cell, last⟩, -⟩ := rep.done c rfl
      refine whole [c] (.cons rep.cell (by simp) (.last cell last.next)) ?_ (by simpa using live)
      exact List.nodup_append.mpr ⟨rep.distinct, by simp, fun a ha b hb e => by
        rw [List.mem_singleton] at hb
        exact fresh (hb ▸ e ▸ ha)⟩

/-- The tree of the caller's machine. -/
theorem Chain.root_eq {p : Option Addr} {t : Addr} {below : List (Open ν)} {addrs : List Addr}
    (chain : Chain sm h p t below addrs) {mode : Mode ν} {next : Option Addr}
    (cell : h.cells t = some (mode.jpm p next)) :
    ∃ m, h.cells sm = some m ∧ m.root.map Root.node = Stack.root ⟨mode, below⟩ := by
  induction chain generalizing mode next with
  | first =>
      refine ⟨_, cell, ?_⟩
      cases mode <;> rfl
  | @next p a t o below addrs cell_a _ ih =>
      obtain ⟨m, cell_sm, root⟩ := ih cell_a
      refine ⟨m, cell_sm, root.trans ?_⟩
      cases below <;> rfl

/-- `json_decode_finish` on a heap that represents a stack: the caller's machine is kept. -/
theorem Represents.finish_caller {st : Stack ν} (rep : Represents sm h st) :
    ∃ h', jsonDecodeFinish sm h = .ok (st.root, h') ∧ (∃ m, h'.cells sm = some m) ∧
      sm < h'.brk := by
  obtain ⟨path, linked, nodup, live⟩ := rep.path
  obtain ⟨m, h', cell, -, finished, effect⟩ := finish_of_path linked nodup live
  obtain ⟨p, t, addrs, done, rep⟩ := rep
  obtain ⟨m', cell', root⟩ := rep.chain.root_eq rep.cell
  rw [cell] at cell'
  cases cell'
  refine ⟨h', by rw [finished, root], ⟨_, effect.caller⟩, ?_⟩
  rw [effect.brk_eq]
  exact live sm List.mem_cons_self

theorem Represents.finish {st : Stack ν} (rep : Represents sm h st) :
    ∃ h', jsonDecodeFinish sm h = .ok (st.root, h') := by
  obtain ⟨h', finished, -⟩ := rep.finish_caller
  exact ⟨h', finished⟩

/-! ### Documents in parts -/

theorem decodeParts_eq (libc : Libc ν) {st : Stack ν} (rep : Represents sm h st)
    (parts : List Bytes) :
    match st.run libc parts.flatten with
    | some st' => ∃ h', jsonDecodeParts libc sm parts h = .ok (true, h') ∧ Represents sm h' st'
    | none => ∃ h', jsonDecodeParts libc sm parts h = .ok (false, h') := by
  induction parts generalizing h st with
  | nil => exact ⟨h, rfl, rep⟩
  | cons part parts ih =>
      have first := decodeBytes_follows libc rep part
      rw [List.flatten_cons, Stack.run_append]
      cases ran : st.run libc part with
      | none =>
          rw [ran] at first
          obtain ⟨h', _, _, _, _, -, -, -, decoded, -⟩ := first
          refine ⟨h', ?_⟩
          simp [jsonDecodeParts, jsonDecodePart, decoded]
      | some st₁ =>
          rw [ran] at first
          obtain ⟨h₁, decoded, rep₁⟩ := first
          have more := ih rep₁
          have step : jsonDecodeParts libc sm (part :: parts) h =
              jsonDecodeParts libc sm parts h₁ := by
            have : ¬ (part.length : Int) < 0 := by omega
            simp [jsonDecodeParts, jsonDecodePart, decoded, this]
          rw [Option.bind_some, step]
          exact more

/-- A document in parts: the stack machine on the concatenated bytes tells whether a
part is rejected and otherwise what `json_decode_finish` returns. -/
theorem decodeStream_eq (libc : Libc ν) {x : Jpm ν} (cell : h.cells sm = some x) (live : sm < h.brk)
    (parts : List Bytes) :
    ∃ h', jsonDecodeStream libc sm parts h =
      .ok ((Stack.init.run libc parts.flatten).map Stack.root, h') := by
  obtain ⟨h₁, init, rep⟩ := init_represents cell live
  have decoded := decodeParts_eq libc rep parts
  cases ran : (Stack.init : Stack ν).run libc parts.flatten with
  | none =>
      rw [ran] at decoded
      obtain ⟨h', decoded⟩ := decoded
      exact ⟨h', by simp [jsonDecodeStream, init, decoded]⟩
  | some st =>
      rw [ran] at decoded
      obtain ⟨h₂, decoded, rep₂⟩ := decoded
      obtain ⟨h', finished⟩ := rep₂.finish
      exact ⟨h', by simp [jsonDecodeStream, init, decoded, finished]⟩

end AcnSdk.Json
