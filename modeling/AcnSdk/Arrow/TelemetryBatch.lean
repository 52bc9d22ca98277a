/-
The request with a batch of telemetry, `_telemetry_batch_init` of `src/arrow/telemetry_api.c`.

The body is one array of JSON values. Its block is made for as many bytes as the first item has,
once for each item and once more, whatever the other items are. `property_size` is taken from 16
bits unless these are zero.

* `batchLoop_body`, `batchLoop_overflow` — the body is built if it fits, or the block is overrun.
* `telemetryBatchInit_body_iff` — the request gets its body exactly if it fits.
-/

import AcnSdk.Http.RequestInit
import AcnSdk.Json.PointerDecode
import AcnSdk.Lib.HeapStrings

namespace AcnSdk.Arrow

open AcnSdk.Lib AcnSdk.Data AcnSdk.Http AcnSdk.Json.Pointers Prog Heap Ascii

/-! ### The body -/

/-- What `telemetry_serialize` of the application returns for an item: its text, in a block of its
own. -/
def telemetrySerialize (item : Bytes) : HeapM Bytes Property := do
  return pJson (← alloc (item ++ [0])) item.length

/-- `property_size(&tmp) * (count + 1)`. The sum is an `int`, and the product a `size_t` of `bits`
bits. -/
def batchSize (bits size count : Nat) : Nat :=
  size * (toInt32 (count + 1) % 2 ^ bits).toNat % 2 ^ bits

section

variable (bits : Nat) (fresh : Nat → Byte) (count : Nat)

/-- The block of the body, which is made for the first item. -/
def batchMain (main : Option Addr) (tmp : Property) : HeapM Bytes Addr :=
  match main with
  | some main => return main
  | none => do
      let main ← malloc fresh (batchSize bits (← propertySize tmp) count)
      strcpyTo main [lbrack]
      return main

/-- What stands behind the item at `i`. -/
def batchMark (i : Nat) : Byte := if i ≠ count - 1 then comma else rbrack

/-- One item behind those that are there. -/
def batchAppend (main : Addr) (tmp : Property) (i : Nat) : HeapM Bytes Unit := do
  strcatTo main (← stringAt (← deref tmp.value))
  strcatTo main [batchMark count i]
  let _ ← Json.Pointers.propertyFree tmp

/-- The loop. -/
def batchLoop : List Bytes → Nat → Option Addr → HeapM Bytes (Option Addr)
  | [], _, main => return main
  | item :: items, i, main => do
      let tmp ← telemetrySerialize item
      let main ← batchMain bits fresh count main tmp
      batchAppend count main tmp i
      batchLoop items (i + 1) (some main)

end

/-- `"/devices/"` -/
def devicesText : Bytes := [0x2F, 0x64, 0x65, 0x76, 0x69, 0x63, 0x65, 0x73, 0x2F]

/-- `"/batch"` -/
def batchText : Bytes := [0x2F, 0x62, 0x61, 0x74, 0x63, 0x68]

/-- `URI_LEN`, for an endpoint with its terminator. -/
def uriLen (endpoint : Bytes) : Nat := endpoint.length + 1 + 50

/-- The URI of the request. -/
def batchUri (fresh : Nat → Byte) (endpoint hid : Bytes) : Except Fault Bytes := do
  let uri ← Lib.snprintf ((List.range (uriLen endpoint)).map fresh) (uriLen endpoint)
    (endpoint ++ devicesText ++ hid ++ batchText)
  return cstr uri

/-- `_telemetry_batch_init`, for a device with this hid. -/
def telemetryBatchInit (cfg : Config) (isStatic : Bool) (bits : Nat) (fresh : Nat → Byte)
    (endpoint hid : Bytes) (items : List Bytes) : HeapM Bytes HttpRequest := do
  let uri ← lift (batchUri fresh endpoint hid)
  let request ← lift (httpRequestInit cfg isStatic .post uri)
  let main ← batchLoop bits fresh items.length items 0 none
  let payload ← stringAt (← deref main)
  return { request with isChunked := .set 1, payload := .set (some payload) }

/-! ### What is built -/

/-- The body: an array of the items. -/
def batchBody (items : List Text) : Bytes :=
  [lbrack] ++ [comma].intercalate (items.map Subtype.val) ++ [rbrack]

/-- The items, each with the byte behind it. -/
def batchTail : List Text → Bytes
  | [] => []
  | s :: items => s.val ++ [if items = [] then rbrack else comma] ++ batchTail items

/-- How many bytes these are. -/
def batchLength (items : List Text) : Nat := (items.map fun s => s.val.length + 1).sum

/-- `property_size` of a serialised item. -/
def itemSize (item : Bytes) : Nat :=
  if item.length % 2 ^ 16 ≠ 0 then item.length % 2 ^ 16 else item.length

/-- The body fits into the block that is made for the first item, with its terminator. -/
def BatchFits (bits : Nat) (first : Text) (rest : List Text) : Prop :=
  batchLength (first :: rest) + 2 ≤
    batchSize bits (itemSize first.val) (first :: rest).length

instance (bits : Nat) (first : Text) (rest : List Text) : Decidable (BatchFits bits first rest) :=
  inferInstanceAs (Decidable (_ ≤ _))

theorem batchTail_eq (s : Text) (items : List Text) :
    batchTail (s :: items) = [comma].intercalate ((s :: items).map Subtype.val) ++ [rbrack] := by
  induction items generalizing s with
  | nil => simp [batchTail]
  | cons t items ih =>
      rw [batchTail, ih t, if_neg (List.cons_ne_nil t items)]
      simp [List.intercalate]

theorem batchLength_cons (s : Text) (items : List Text) :
    batchLength (s :: items) = s.val.length + 1 + batchLength items := by
  rw [batchLength, List.map_cons, List.sum_cons]
  rfl

theorem batchMark_eq (i : Nat) (s : Text) (items : List Text) :
    batchMark (i + (s :: items).length) i = if items = [] then rbrack else comma := by
  cases items with
  | nil => exact (if_neg (by simp)).trans (if_pos rfl).symm
  | cons t items =>
      have inner : i ≠ i + (s :: t :: items).length - 1 := by
        rw [List.length_cons, List.length_cons]
        omega
      exact (if_pos inner).trans (if_neg (List.cons_ne_nil t items)).symm

/-! ### The loop -/

section

variable {bits : Nat} {fresh : Nat → Byte} {h : Heap Bytes} {main : Addr} {acc : Bytes} {n : Nat}

theorem telemetrySerialize_eq (item : Bytes) (h : Heap Bytes) :
    telemetrySerialize item h = .ok (pJson h.brk item.length, h.push (item ++ [0])) := rfl

theorem propertyFree_pJson {a : Addr} {block : Bytes} (cell : h.cells a = some block) (len : Nat) :
    Json.Pointers.propertyFree (pJson a len) h = .ok (.init, h.erase a) := by
  simp [Json.Pointers.propertyFree, pJson, jsonDestroy, free_eq cell]

/-- One item goes behind those that are there, if there is room for it and its mark. -/
theorem batchAppend_eq {tmp : Addr} {item : Text} (count i len : Nat)
    (holding : Holding h main acc n) (cell : h.cells tmp = some (item.val ++ [0]))
    (apart : main ≠ tmp) (room : acc.length + (item.val.length + 1) < n) :
    ∃ h', batchAppend count main (pJson tmp len) i h = .ok ((), h') ∧ h'.brk = h.brk ∧
      Holding h' main (acc ++ item.val ++ [batchMark count i]) n := by
  have text : stringAt tmp h = .ok (item.val, h) := stringAt_eq cell item.property
  obtain ⟨block, appended, holding₁⟩ := holding.strcat_eq item.property (by omega)
  have mark_plain : 0 ∉ [batchMark count i] := by
    rw [batchMark]
    split_ifs <;> decide
  obtain ⟨block', marked, holding₂⟩ := holding₁.strcat_eq mark_plain (by
    rw [List.length_append, List.length_singleton]
    omega)
  have cell' : (((h.set main block).set main block').cells tmp) = some (item.val ++ [0]) := by
    rw [set_cells, if_neg apart.symm, set_cells, if_neg apart.symm, cell]
  refine ⟨((h.set main block).set main block').erase tmp, ?_, rfl, holding₂.congr ?_⟩
  · have value : (pJson tmp len).value = some tmp := rfl
    simp only [batchAppend, bind_apply, value, deref_some, ok_bind, text, appended, marked,
      propertyFree_pJson cell', pure_apply]
  · rw [erase_cells, if_neg apart]

theorem batchAppend_overflow {tmp : Addr} {item : Text} (count i len : Nat)
    (holding : Holding h main acc n) (cell : h.cells tmp = some (item.val ++ [0]))
    (full : n ≤ acc.length + (item.val.length + 1)) :
    batchAppend count main (pJson tmp len) i h = .error .overflow := by
  have text : stringAt tmp h = .ok (item.val, h) := stringAt_eq cell item.property
  have value : (pJson tmp len).value = some tmp := rfl
  by_cases short : acc.length + item.val.length < n
  · obtain ⟨block, appended, holding₁⟩ := holding.strcat_eq item.property short
    have marked : strcatTo main [batchMark count i] (h.set main block) = .error .overflow :=
      holding₁.strcat_overflow (by
        rw [List.length_append, List.length_singleton]
        omega)
    simp only [batchAppend, bind_apply, value, deref_some, ok_bind, text, appended, marked,
      error_bind]
  · have appended := holding.strcat_overflow (t := item.val) (Nat.not_lt.mp short)
    simp only [batchAppend, bind_apply, value, deref_some, ok_bind, text, appended, error_bind]

/-- A round with a block that is there. -/
theorem batchLoop_cons (item : Text) (items : List Text) (i : Nat) :
    batchLoop bits fresh (i + (item :: items).length) ((item :: items).map Subtype.val) i
        (some main) h =
      (batchAppend (i + (item :: items).length) main (pJson h.brk item.val.length) i
        (h.push (item.val ++ [0]))).bind fun r =>
          batchLoop bits fresh (i + 1 + items.length) (items.map Subtype.val) (i + 1) (some main)
            r.2 := by
  rw [show i + 1 + items.length = i + (item :: items).length by rw [List.length_cons]; omega,
    List.map_cons, batchLoop]
  rfl

variable (bits fresh) in
/-- The items that are left go behind those that are there. -/
theorem batchLoop_body (items : List Text) (i : Nat) (holding : Holding h main acc n)
    (made : main < h.brk) (room : acc.length + batchLength items < n) :
    ∃ h', batchLoop bits fresh (i + items.length) (items.map Subtype.val) i (some main) h =
        .ok (some main, h') ∧ Holding h' main (acc ++ batchTail items) n := by
  induction items generalizing h acc i with
  | nil => exact ⟨h, rfl, by rwa [batchTail, List.append_nil]⟩
  | cons item items ih =>
      have cell : (h.push (item.val ++ [0])).cells h.brk = some (item.val ++ [0]) := if_pos rfl
      have holding' : Holding (h.push (item.val ++ [0])) main acc n :=
        holding.congr (if_neg (Nat.ne_of_lt made))
      rw [batchLength_cons] at room
      obtain ⟨h', appended, brk, holding''⟩ := batchAppend_eq (i + (item :: items).length) i
        item.val.length holding' cell (Nat.ne_of_lt made) (by omega)
      rw [batchMark_eq] at holding''
      obtain ⟨h'', run, built⟩ := ih (i + 1) holding'' (brk ▸ Nat.lt_succ_of_lt made) (by
        rw [List.length_append, List.length_append, List.length_singleton]
        omega)
      refine ⟨h'', ?_, ?_⟩
      · rw [batchLoop_cons, appended, ok_bind]
        exact run
      · rw [batchTail]
        simpa only [List.append_assoc] using built

/-- Or they go beyond the block. -/
theorem batchLoop_overflow (items : List Text) (i : Nat) (holding : Holding h main acc n)
    (made : main < h.brk) (full : n ≤ acc.length + batchLength items) :
    batchLoop bits fresh (i + items.length) (items.map Subtype.val) i (some main) h =
      .error .overflow := by
  induction items generalizing h acc i with
  | nil => exact absurd holding.length_lt (Nat.not_lt.mpr full)
  | cons item items ih =>
      have cell : (h.push (item.val ++ [0])).cells h.brk = some (item.val ++ [0]) := if_pos rfl
      have holding' : Holding (h.push (item.val ++ [0])) main acc n :=
        holding.congr (if_neg (Nat.ne_of_lt made))
      rw [batchLoop_cons]
      rw [batchLength_cons] at full
      by_cases room : acc.length + (item.val.length + 1) < n
      · obtain ⟨h', appended, brk, holding''⟩ := batchAppend_eq (i + (item :: items).length) i
          item.val.length holding' cell (Nat.ne_of_lt made) room
        rw [appended, ok_bind]
        refine ih (i + 1) holding'' (brk ▸ Nat.lt_succ_of_lt made) ?_
        rw [List.length_append, List.length_append, List.length_singleton]
        omega
      · rw [batchAppend_overflow _ _ _ holding' cell (Nat.not_lt.mp room), error_bind]

end

/-! ### The block -/

section

variable {bits : Nat} {fresh : Nat → Byte} {h : Heap Bytes}

theorem propertySize_pJson {a : Addr} {s : Bytes} (cell : h.cells a = some (s ++ [0]))
    (plain : 0 ∉ s) : propertySize (pJson a s.length) h = .ok (itemSize s, h) := by
  have length : strlen a h = .ok (s.length, h) := strlen_eq cell plain
  have size_eq : (pJson a s.length).size = s.length % 2 ^ 16 := rfl
  rw [propertySize, itemSize, size_eq]
  by_cases size : s.length % 2 ^ 16 ≠ 0
  · rw [if_pos size, if_pos size]
    rfl
  · rw [if_neg size, if_neg size]
    exact length

/-- The heap with the first item and a block for the body. -/
def begunHeap (bits : Nat) (fresh : Nat → Byte) (h : Heap Bytes) (first : Text) (count : Nat) :
    Heap Bytes :=
  (h.push (first.val ++ [0])).push
    ((List.range (batchSize bits (itemSize first.val) count)).map fresh)

/-- The first round. -/
theorem batchLoop_none (first : Text) (rest : List Text) :
    batchLoop bits fresh (first :: rest).length ((first :: rest).map Subtype.val) 0 none h =
      (strcpyTo (h.brk + 1) [lbrack] (begunHeap bits fresh h first (first :: rest).length)).bind
        fun r => (batchAppend (first :: rest).length (h.brk + 1) (pJson h.brk first.val.length) 0
            r.2).bind fun r' =>
          batchLoop bits fresh (first :: rest).length (rest.map Subtype.val) 1 (some (h.brk + 1))
            r'.2 := by
  have cell : (h.push (first.val ++ [0])).cells h.brk = some (first.val ++ [0]) := if_pos rfl
  have size := propertySize_pJson cell first.property
  rw [List.map_cons, batchLoop, bind_of_ok (telemetrySerialize_eq _ _), batchMain, bind_apply,
    bind_of_ok size, bind_of_ok (malloc_eq _ _ _), bind_apply]
  change ((strcpyTo (h.brk + 1) [lbrack] (begunHeap bits fresh h first _)).bind _).bind _ = _
  cases strcpyTo (h.brk + 1) [lbrack] (begunHeap bits fresh h first (first :: rest).length) with
  | error e => rfl
  | ok r => rfl

theorem begunHeap_item (bits : Nat) (fresh : Nat → Byte) (h : Heap Bytes) (first : Text)
    (count : Nat) : (begunHeap bits fresh h first count).cells h.brk = some (first.val ++ [0]) :=
  (if_neg (Nat.ne_of_lt (Nat.lt_succ_self _))).trans (if_pos rfl)

theorem begunHeap_main (bits : Nat) (fresh : Nat → Byte) (h : Heap Bytes) (first : Text)
    (count : Nat) : ∃ block,
    (begunHeap bits fresh h first count).cells (h.brk + 1) = some block ∧
      block.length = batchSize bits (itemSize first.val) count := by
  refine ⟨_, if_pos rfl, ?_⟩
  rw [List.length_map, List.length_range]

variable (fresh h) in
/-- The body is built if it fits. -/
theorem batchLoop_built {first : Text} {rest : List Text} (fits : BatchFits bits first rest) :
    ∃ main h', batchLoop bits fresh (first :: rest).length ((first :: rest).map Subtype.val) 0
        none h = .ok (some main, h') ∧
      Holding h' main (batchBody (first :: rest))
        (batchSize bits (itemSize first.val) (first :: rest).length) := by
  rw [BatchFits, batchLength_cons] at fits
  obtain ⟨block, cell, length⟩ := begunHeap_main bits fresh h first (first :: rest).length
  obtain ⟨block', begun, holding⟩ := strcpyTo_eq cell (s := [lbrack]) (by decide) (by
    rw [length, List.length_singleton]
    omega)
  rw [length] at holding
  have item : ((begunHeap bits fresh h first (first :: rest).length).set (h.brk + 1) block').cells
      h.brk = some (first.val ++ [0]) := by
    rw [set_cells, if_neg (Nat.ne_of_lt (Nat.lt_succ_self _)), begunHeap_item]
  obtain ⟨h₁, appended, brk, holding₁⟩ := batchAppend_eq (first :: rest).length 0
    first.val.length holding item (Nat.succ_ne_self _) (by
      rw [List.length_singleton]
      omega)
  have mark := batchMark_eq 0 first rest
  rw [Nat.zero_add] at mark
  rw [mark] at holding₁
  obtain ⟨h₂, run, built⟩ := batchLoop_body bits fresh rest 1 holding₁
    (brk ▸ Nat.lt_succ_self _) (by
      rw [List.length_append, List.length_append, List.length_singleton, List.length_singleton]
      omega)
  refine ⟨h.brk + 1, h₂, ?_, ?_⟩
  · rw [batchLoop_none, begun, ok_bind, appended, ok_bind, List.length_cons, Nat.add_comm]
    exact run
  · have tail := batchTail_eq first rest
    rw [batchTail] at tail
    rw [batchBody, List.append_assoc [lbrack], ← tail]
    simpa only [List.append_assoc] using built

/-- Otherwise the block is overrun. -/
theorem batchLoop_overrun {first : Text} {rest : List Text} (full : ¬ BatchFits bits first rest) :
    batchLoop bits fresh (first :: rest).length ((first :: rest).map Subtype.val) 0 none h =
      .error .overflow := by
  rw [BatchFits, batchLength_cons] at full
  obtain ⟨block, cell, length⟩ := begunHeap_main bits fresh h first (first :: rest).length
  rw [batchLoop_none]
  by_cases bracket : 1 < block.length
  · obtain ⟨block', begun, holding⟩ := strcpyTo_eq cell (s := [lbrack]) (by decide) bracket
    have item : ((begunHeap bits fresh h first (first :: rest).length).set (h.brk + 1) block').cells
        h.brk = some (first.val ++ [0]) := by
      rw [set_cells, if_neg (Nat.ne_of_lt (Nat.lt_succ_self _)), begunHeap_item]
    rw [begun, ok_bind]
    by_cases room : 1 + (first.val.length + 1) < block.length
    · obtain ⟨h₁, appended, brk, holding₁⟩ := batchAppend_eq (first :: rest).length 0
        first.val.length holding item (Nat.succ_ne_self _) room
      rw [appended, ok_bind, List.length_cons, Nat.add_comm]
      refine batchLoop_overflow rest 1 holding₁ (brk ▸ Nat.lt_succ_self _) ?_
      rw [List.length_append, List.length_append, List.length_singleton, List.length_singleton]
      omega
    · rw [batchAppend_overflow _ _ _ holding item (Nat.not_lt.mp room), error_bind]
  · have overrun := strcpyTo_overflow (s := [lbrack]) cell (Nat.not_lt.mp bracket)
    rw [overrun, error_bind]

end

/-! ### The request -/

section

variable {cfg : Config} {isStatic : Bool} {bits : Nat} {fresh : Nat → Byte} {endpoint hid : Bytes}
  {request : HttpRequest}

/-- Where the URI makes a request, this gets the body exactly if the body fits into its block;
otherwise the block is overrun. -/
theorem telemetryBatchInit_body_iff
    (init : (batchUri fresh endpoint hid >>= httpRequestInit cfg isStatic .post) = .ok request)
    (first : Text) (rest : List Text) (h : Heap Bytes) :
    (∃ h', telemetryBatchInit cfg isStatic bits fresh endpoint hid
        ((first :: rest).map Subtype.val) h =
          .ok ({ request with
            isChunked := .set 1
            payload := .set (some (batchBody (first :: rest))) }, h')) ↔
      BatchFits bits first rest := by
  obtain ⟨uri, uri_eq, request_eq⟩ := ok_of_bind init
  have begun : telemetryBatchInit cfg isStatic bits fresh endpoint hid
      ((first :: rest).map Subtype.val) h =
      (batchLoop bits fresh (first :: rest).length ((first :: rest).map Subtype.val) 0 none h).bind
        fun r => (do
          let payload ← stringAt (← deref r.1)
          return { request with isChunked := .set 1, payload := .set (some payload) }) r.2 := by
    rw [telemetryBatchInit, uri_eq, bind_of_ok (lift_ok _ _), request_eq, bind_of_ok (lift_ok _ _),
      List.length_map, bind_apply]
  constructor
  · rintro ⟨h', run⟩
    by_contra full
    rw [begun, batchLoop_overrun full] at run
    cases run
  · intro fits
    obtain ⟨main, h', run, holding⟩ := batchLoop_built fresh h fits
    refine ⟨h', ?_⟩
    rw [begun, run, ok_bind, bind_of_ok (deref_some main h'), bind_of_ok holding.stringAt_eq]
    rfl

end

/-- `http://h:80/t` -/
def plainEndpoint : Bytes :=
  [0x68, 0x74, 0x74, 0x70, 0x3A, 0x2F, 0x2F, 0x68, 0x3A, 0x38, 0x30, 0x2F, 0x74]

/-- `{"t":1}` -/
def shortItem : Text := ⟨[0x7B, 0x22, 0x74, 0x22, 0x3A, 0x31, 0x7D], by decide⟩

/-- `{"t":100000}` -/
def longItem : Text :=
  ⟨[0x7B, 0x22, 0x74, 0x22, 0x3A, 0x31, 0x30, 0x30, 0x30, 0x30, 0x30, 0x7D], by decide⟩

/-- Two items of seven bytes are put together. -/
theorem telemetryBatchInit_body_short : ∃ (request : HttpRequest) (h' : Heap Bytes),
    telemetryBatchInit .standard false 64 (fun _ => 0) plainEndpoint [0x64]
      [shortItem.val, shortItem.val] ⟨fun _ => none, 0⟩ =
        .ok ({ request with
          isChunked := .set 1
          payload := .set (some (batchBody [shortItem, shortItem])) }, h') := by
  have fits : BatchFits 64 shortItem [shortItem] := by decide
  exact ⟨_, (telemetryBatchInit_body_iff rfl shortItem [shortItem] _).mpr fits⟩

/-- With twelve bytes in the second one, the block is overrun. -/
theorem not_telemetryBatchInit_body_long :
    telemetryBatchInit .standard false 64 (fun _ => 0) plainEndpoint [0x64]
      [shortItem.val, longItem.val] ⟨fun _ => none, 0⟩ = .error .overflow := by
  rfl

end AcnSdk.Arrow
