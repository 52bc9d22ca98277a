/-
Sending an HTTP request, `src/http/client.c`.

A line is printed to `tmpbuffer`, pushed to the queue and sent from there; the payload is
handed to `send` directly. `handed` are the buffers that `send` was called with, and
`output` what it took of them: each call takes some of its bytes or fails. `send` and
`ssl_send` are alike. Reading or writing outside a block is a fault.

* `Ready.push`, `Ready.push_full`, `Ready.push_beyond` — a printed line is queued, refused, or read
  past the end of `tmpbuffer`.
* `Ready.send`, `Ready.send_overflow` — what is queued goes out if `tmp` has room for it.
-/

import AcnSdk.Http.Client
import AcnSdk.Lib.CBuffer
import AcnSdk.Lib.Strings
import AcnSdk.Lib.Within

namespace AcnSdk.Http

open AcnSdk.Lib AcnSdk.Data Prog Ascii

/-! ### The request -/

/-- `http_payload_t`: the block that it points to, and how long it is in 16 bits. -/
structure Payload where
  value : Bytes
  size : UInt16
deriving DecidableEq, Repr

namespace Payload

/-- `property_nt`, and so `p_const`, `p_heap` and `p_stack`. -/
def nt (text : Text) : Payload := ⟨text.val ++ [0], .ofNat text.val.length⟩

/-- `property_size`. -/
def propertySize (payload : Payload) : Except Fault Nat :=
  if payload.size ≠ 0 then .ok payload.size.toNat
  else (stringIn payload.value (payload.value.length + 1)).map List.length

end Payload

/-- The members of `http_request_t` that sending uses. A payload that is empty is NULL. -/
structure Request where
  meth : Text
  uri : Text
  host : Text
  port : UInt16
  isChunked : Bool
  query : List (Text × Text)
  header : List (Text × Text)
  contentType : Text
  payload : Option Payload

/-- `?` -/
abbrev question : Byte := 0x3F

/-- `&` -/
abbrev ampersand : Byte := 0x26

/-- `=` -/
abbrev equals : Byte := 0x3D

/-- `HTTP_VERS`. -/
def httpVers : Bytes := [0x20, 0x48, 0x54, 0x54, 0x50, 0x2F, 0x31, 0x2E, 0x31, 0x0D, 0x0A]

/-- `"Host: "`. -/
def hostText : Bytes := [0x48, 0x6F, 0x73, 0x74, 0x3A, 0x20]

/-- `"Content-Type"`. -/
def contentTypeText : Bytes :=
  [0x43, 0x6F, 0x6E, 0x74, 0x65, 0x6E, 0x74, 0x2D, 0x54, 0x79, 0x70, 0x65]

namespace Request

/-- The method and the URI. -/
def target (req : Request) : Bytes := req.meth.val ++ [space] ++ req.uri.val

/-- `"Host: %s:%d\r\n"`. -/
def hostLine (req : Request) : Bytes :=
  hostText ++ req.host.val ++ [colon] ++ decimal req.port.toNat ++ crlf

/-- `GET /` from the host `h`. -/
def bare : Request where
  meth := ⟨[0x47, 0x45, 0x54], by decide⟩
  uri := ⟨[slash], by decide⟩
  host := ⟨[0x68], by decide⟩
  port := 80
  isChunked := false
  query := []
  header := []
  contentType := ⟨[], by decide⟩
  payload := none

end Request

/-- `"%s: %s\r\n"`. -/
def headerLine (key value : Bytes) : Bytes := key ++ separator ++ value ++ crlf

/-- `"Content-Length: %lu\r\n"`. -/
def contentLengthLine (n : Nat) : Bytes := headerLine contentLengthText (decimal n)

/-- `"Transfer-Encoding: chunked\r\n"`. -/
def chunkedLine : Bytes := headerLine transferEncodingText chunkedText

/-! ### The sender -/

/-- How many of the bytes each call of `send` takes, or an error. -/
structure Peer where
  send : Nat → Nat → Int
  send_le : ∀ k len, send k len ≤ len

/-- A connection that takes every buffer whole. -/
def Peer.takesAll : Peer := ⟨fun _ len => len, fun _ _ => Int.le_refl _⟩

/-- What sending changes. -/
structure Sender where
  queue : RingBuffer
  tmpbuffer : Bytes
  handed : List Bytes
  output : Bytes

/-- A client that has sent nothing. -/
def Sender.init (cfg : Config) : Sender where
  queue := ringbufInit (List.replicate cfg.ringbufferSize 0)
  tmpbuffer := List.replicate cfg.chunkSize 0
  handed := []
  output := []

/-- What a call of `printf` returns for a text. -/
def printed (text : Bytes) : Int := if text.length < 2 ^ 31 then text.length else -1

/-- An operation of the queue. -/
def withQueue {β : Type} (x : Prog RingBuffer β) : Prog Sender β := fun s =>
  (x s.queue).bind fun r => .ok (r.1, { s with queue := r.2 })

/-- An operation of `tmpbuffer`. -/
def onTmp (x : Bytes → Except Fault Bytes) : Prog Sender Unit := fun s =>
  (x s.tmpbuffer).bind fun tmpbuffer => .ok ((), { s with tmpbuffer := tmpbuffer })

/-- `snprintf` to `tmpbuffer`. -/
def printTmp (size : Nat) (text : Bytes) : Prog Sender Int := do
  onTmp fun tmpbuffer => snprintf tmpbuffer size text
  return printed text

/-- `ringbuf_push` of a block, which must have the bytes that are copied. -/
def pushBlock (block : Bytes) (len : Nat) : Prog Sender Int := do
  if ringbufCapacity (← get).queue < len then return -1
  else
    let bytes ← lift (copyFrom block 0 len)
    withQueue (ringbufPush bytes len)

/-- `ringbuf_push` of the C string at the front of a block. -/
def pushString (block : Bytes) : Prog Sender Int := do
  let s ← lift (stringIn block (block.length + 1))
  pushBlock block s.length

section Send

variable (cfg : Config) (peer : Peer)

/-- `send`. -/
def handOver (buf : Bytes) : Prog Sender Int := fun s =>
  let ret := peer.send s.handed.length buf.length
  .ok (ret, { s with handed := s.handed ++ [buf], output := s.output ++ buf.take ret.toNat })

/-- `client_send`: what is queued goes through `tmp`, which has `MAX_TMP_BUF_SIZE` bytes. -/
def clientSend : Prog Sender Int := do
  match ← withQueue (ringbufPop (ringbufSize (← get).queue)) with
  | none => return -1
  | some tmp => if cfg.chunkSize - 1 < tmp.length then throw .overflow else handOver peer tmp

/-- `client_send_direct`. Both lengths have 16 bits. -/
def clientSendDirect (buf : Bytes) (size : Nat) : Prog Sender Int := do
  if size % 2 ^ 16 = 0 then
    let s ← lift (stringIn buf (buf.length + 1))
    handOver peer (s.take (s.length % 2 ^ 16))
  else handOver peer (← lift (copyFrom buf 0 (size % 2 ^ 16)))

/-! ### The request line -/

/-- How long a parameter may be for a queue with that capacity. The difference is of type `size_t`,
and `sizeof` counts the terminator. -/
def spare (capacity : Nat) : Nat := ((capacity - (httpVers.length + 1) - 1 : Int) % 2 ^ 64).toNat

/-- A parameter goes behind the mark in `queryString`. -/
def putParameter (key value : Text) : Prog Sender Unit := do
  onTmp fun queryString => strcat queryString key.val
  onTmp fun queryString => strcat queryString [equals]
  onTmp fun queryString => strcat queryString value.val

/-- The loop of `send_start` over the parameters. -/
def sendQuery : List (Text × Text) → Prog Sender Unit
  | [] => return ()
  | (key, value) :: query => do
      let capacity := ringbufCapacity (← get).queue
      if (capacity : Int) < toInt32 (toInt32 key.val.length + toInt32 value.val.length + 3) then
        return ()
      else
        putParameter key value
        let queryString := (← get).tmpbuffer
        if spare capacity < (cstr queryString).length then return ()
        else if (← pushString queryString) < 0 then return ()
        else
          onTmp fun queryString => strcpy queryString [ampersand]
          sendQuery query

/-- The parameters, if there are any. -/
def putQuery (query : List (Text × Text)) : Prog Sender Unit := do
  if query ≠ [] then
    onTmp fun queryString => strcpy queryString [question]
    sendQuery query

/-- The first part of `send_start`: the request line goes to the queue. -/
def putRequestLine (req : Request) : Prog Sender Int := do
  let ret ← printTmp (cfg.chunkSize - 1) req.target
  if ret < 0 then return ret
  else if (← pushBlock (← get).tmpbuffer ret.toNat) < 0 then return -1
  else
    putQuery req.query
    pushString (httpVers ++ [0])

/-- The last part of `send_start`. -/
def sendHost (req : Request) : Prog Sender Int := do
  let ret ← printTmp (cfg.chunkSize - 1) req.hostLine
  if ret < 0 then return ret
  else if (← pushBlock (← get).tmpbuffer ret.toNat) < 0 then return -1
  else
    let ret ← clientSend cfg peer
    if ret < 0 then return ret else return 0

/-- `send_start`. -/
def sendStart (req : Request) : Prog Sender Int := do
  withQueue ringbufClear
  let ret ← putRequestLine cfg req
  if ret < 0 then return ret
  else
    let ret ← clientSend cfg peer
    if ret < 0 then return ret else sendHost cfg peer req

end Send

/-! ### What was handed over -/

/-- Buffers are handed over one after the other. -/
def Grows (s s' : Sender) : Prop := s.handed <+: s'.handed

instance : IsPreorder Sender Grows where
  refl := fun _ => List.prefix_rfl
  trans := fun _ _ _ => List.IsPrefix.trans

theorem withQueue_grows {β : Type} (x : Prog RingBuffer β) : Within Grows (withQueue x) := by
  intro s b s' run
  obtain ⟨r, -, run⟩ := ok_of_bind run
  cases run
  exact List.prefix_rfl

theorem onTmp_grows (x : Bytes → Except Fault Bytes) : Within Grows (onTmp x) := by
  intro s b s' run
  obtain ⟨r, -, run⟩ := ok_of_bind run
  cases run
  exact List.prefix_rfl

theorem printTmp_grows (size : Nat) (text : Bytes) : Within Grows (printTmp size text) :=
  (onTmp_grows _).bind fun _ => .pure _

theorem pushBlock_grows (block : Bytes) (len : Nat) : Within Grows (pushBlock block len) :=
  Within.get.bind fun _ => .ite (fun _ => .pure _) fun _ =>
    (Within.lift _).bind fun _ => withQueue_grows _

theorem handOver_grows (peer : Peer) (buf : Bytes) : Within Grows (handOver peer buf) := by
  intro s b s' run
  cases run
  exact List.prefix_append _ _

theorem clientSend_grows (cfg : Config) (peer : Peer) : Within Grows (clientSend cfg peer) := by
  refine Within.get.bind fun _ => (withQueue_grows _).bind fun popped => ?_
  cases popped with
  | none => exact .pure _
  | some tmp => exact .ite (fun _ => .throw _) fun _ => handOver_grows peer tmp

theorem clientSendDirect_grows (peer : Peer) (buf : Bytes) (size : Nat) :
    Within Grows (clientSendDirect peer buf size) :=
  .ite (fun _ => (Within.lift _).bind fun _ => handOver_grows peer _) fun _ =>
    (Within.lift _).bind fun _ => handOver_grows peer _

/-! ### One call after the other -/

/-- The queue has the bytes of `q`, and the blocks have their sizes. -/
structure Ready (cfg : Config) (s : Sender) (q : Bytes) : Prop where
  holds : Holds s.queue q
  total_eq : s.queue.total = cfg.ringbufferSize
  tmp_length : s.tmpbuffer.length = cfg.chunkSize

variable {cfg : Config} {peer : Peer} {s : Sender} {q : Bytes}

theorem Sender.init_ready (cfg : Config) : Ready cfg (.init cfg) [] := by
  have pos := cfg.ringbufferSize_pos
  have small := cfg.size_lt
  refine ⟨init_holds ?_ ?_, ?_, List.length_replicate⟩
  · rwa [List.length_replicate]
  · rwa [List.length_replicate]
  · rw [Sender.init, ringbufInit, List.length_replicate]
    exact Nat.mod_eq_of_lt small

theorem printed_eq {text : Bytes} (short : text.length < 2 ^ 16) : printed text = text.length := by
  rw [printed, if_pos (by omega)]

theorem printed_of_nonneg {text : Bytes} (nonneg : ¬ printed text < 0) :
    (printed text).toNat = text.length := by
  unfold printed at nonneg ⊢
  split_ifs with short
  · rfl
  · rw [if_neg short] at nonneg
    exact absurd (by decide) nonneg

theorem stringIn_starts {block t : Bytes} (starts : Starts block t) :
    stringIn block (block.length + 1) = .ok t := by
  have := starts.length_lt
  have whole : cstr (block.take (block.length + 1)) = t := by
    rw [List.take_of_length_le (Nat.le_succ _), starts.cstr_eq]
  simp only [stringIn, whole]
  rw [if_neg (by omega)]

namespace Ready

theorem clear (ready : Ready cfg s q) :
    ∃ buf, withQueue ringbufClear s = .ok ((), { s with queue := buf }) ∧
      Ready cfg { s with queue := buf } [] := by
  obtain ⟨buf, run, same, holds⟩ := ready.holds.clear
  refine ⟨buf, ?_, holds, same.trans ready.total_eq, ready.tmp_length⟩
  rw [withQueue, run]
  rfl

theorem tmp (ready : Ready cfg s q) {block : Bytes} (length_eq : block.length = cfg.chunkSize) :
    Ready cfg { s with tmpbuffer := block } q :=
  ⟨ready.holds, ready.total_eq, length_eq⟩

/-- A text that is shorter than the block is printed whole. -/
theorem print (ready : Ready cfg s q) {size : Nat} {text : Bytes} (plain : 0 ∉ text)
    (told : text.length < size) (short : text.length < cfg.chunkSize) :
    ∃ block, printTmp size text s = .ok (text.length, { s with tmpbuffer := block }) ∧
      Ready cfg { s with tmpbuffer := block } q ∧ Starts block text := by
  have le : cfg.chunkSize ≤ cfg.ringbufferSize := Nat.div_le_self _ _
  have small := cfg.size_lt
  have length_eq := ready.tmp_length
  obtain ⟨block, run, same, starts⟩ := snprintf_eq s.tmpbuffer plain told (by omega)
  refine ⟨block, ?_, ready.tmp (same.trans length_eq), starts⟩
  rw [← printed_eq (by omega)]
  simp only [printTmp, onTmp, bind_apply, run, ok_bind, pure_apply]

/-- Any other is cut. -/
theorem print_any (ready : Ready cfg s q) (text : Bytes) :
    ∃ block, printTmp (cfg.chunkSize - 1) text s =
        .ok (printed text, { s with tmpbuffer := block }) ∧
      Ready cfg { s with tmpbuffer := block } q := by
  have length_eq := ready.tmp_length
  have fits : cfg.chunkSize - 1 ≤ s.tmpbuffer.length := by omega
  obtain ⟨block, run, same⟩ := snprintf_within fits text
  refine ⟨block, ?_, ready.tmp (same.trans length_eq)⟩
  simp only [printTmp, onTmp, bind_apply, run, ok_bind, pure_apply]

theorem capacity_eq (ready : Ready cfg s q) :
    ringbufCapacity s.queue = cfg.ringbufferSize - 1 - q.length := by
  rw [ready.holds.capacity_eq, ready.total_eq]

theorem length_lt (ready : Ready cfg s q) : q.length < cfg.ringbufferSize := by
  have := ready.holds.size_lt
  rwa [ready.total_eq] at this

/-- Bytes of a block that there is room for are queued. -/
theorem push (ready : Ready cfg s q) {block : Bytes} {len : Nat} (pos : 0 < len)
    (there : len ≤ block.length) (room : q.length + len < cfg.ringbufferSize) :
    ∃ buf, pushBlock block len s = .ok (0, { s with queue := buf }) ∧
      Ready cfg { s with queue := buf } (q ++ block.take len) := by
  have length_eq : (block.take len).length = len := by
    rw [List.length_take]
    omega
  have nonempty : block.take len ≠ [] := by
    rw [← List.length_pos_iff]
    omega
  have total_eq := ready.total_eq
  obtain ⟨buf, run, same, holds⟩ := ready.holds.push nonempty (by omega)
  rw [length_eq] at run
  refine ⟨buf, ?_, holds, same.trans total_eq, ready.tmp_length⟩
  have fits : ¬ ringbufCapacity s.queue < len := by
    rw [ready.capacity_eq]
    omega
  simp only [pushBlock, bind_apply, get_apply, ok_bind, fits, if_false, withQueue, run, lift_ok,
    copyFrom_eq (show 0 + len ≤ block.length by omega), List.drop_zero]

theorem push_full (ready : Ready cfg s q) (block : Bytes) {len : Nat}
    (full : cfg.ringbufferSize ≤ q.length + len) : pushBlock block len s = .ok (-1, s) := by
  have := ready.length_lt
  have beyond : ringbufCapacity s.queue < len := by
    rw [ready.capacity_eq]
    omega
  simp only [pushBlock, bind_apply, get_apply, ok_bind, beyond, if_true, pure_apply]

/-- Bytes that the block does not have are read past its end. -/
theorem push_beyond (ready : Ready cfg s q) {block : Bytes} {len : Nat}
    (beyond : block.length < len) (room : q.length + len < cfg.ringbufferSize) :
    pushBlock block len s = .error .overflow := by
  have fits : ¬ ringbufCapacity s.queue < len := by
    rw [ready.capacity_eq]
    omega
  have missing : copyFrom block 0 len = .error .overflow := if_neg (by omega)
  simp only [pushBlock, bind_apply, get_apply, ok_bind, fits, if_false, missing, lift_error,
    error_bind]

theorem pushString (ready : Ready cfg s q) {block t : Bytes} (starts : Starts block t)
    (some : t ≠ []) (room : q.length + t.length < cfg.ringbufferSize) :
    ∃ buf, pushString block s = .ok (0, { s with queue := buf }) ∧
      Ready cfg { s with queue := buf } (q ++ t) := by
  obtain ⟨buf, run, ready'⟩ :=
    ready.push (List.length_pos_iff.mpr some) starts.length_lt.le room
  rw [starts.take_eq] at ready'
  refine ⟨buf, ?_, ready'⟩
  rw [Http.pushString, stringIn_starts starts, bind_apply, lift_ok]
  exact run

/-- What is queued goes out, and the queue is empty then. -/
theorem send (ready : Ready cfg s q) (peer : Peer) (short : q.length < cfg.chunkSize) :
    ∃ s', clientSend cfg peer s = .ok (peer.send s.handed.length q.length, s') ∧ Ready cfg s' [] ∧
      s'.handed = s.handed ++ [q] ∧
      s'.output = s.output ++ q.take (peer.send s.handed.length q.length).toNat := by
  obtain ⟨buf, run, same, holds⟩ := ready.holds.pop (Nat.le_refl q.length)
  rw [List.take_length] at run
  rw [List.drop_length] at holds
  have fits : ¬ cfg.chunkSize - 1 < q.length := by omega
  have size_eq : ringbufSize s.queue = q.length := ready.holds.size_eq
  generalize ret_eq : peer.send s.handed.length q.length = ret
  refine ⟨⟨buf, s.tmpbuffer, s.handed ++ [q], s.output ++ q.take ret.toNat⟩, ?_,
    ⟨holds, same.trans ready.total_eq, ready.tmp_length⟩, rfl, rfl⟩
  simp only [clientSend, bind_apply, get_apply, ok_bind, withQueue, size_eq, run, fits, if_false,
    handOver, ret_eq]

/-- More than `tmp` has room for is written past its end. -/
theorem send_overflow (ready : Ready cfg s q) (long : cfg.chunkSize ≤ q.length) :
    clientSend cfg peer s = .error .overflow := by
  obtain ⟨buf, run, same, holds⟩ := ready.holds.pop (Nat.le_refl q.length)
  rw [List.take_length] at run
  have pos := cfg.chunkSize_pos
  have beyond : cfg.chunkSize - 1 < q.length := by omega
  have size_eq : ringbufSize s.queue = q.length := ready.holds.size_eq
  simp only [clientSend, bind_apply, get_apply, ok_bind, withQueue, size_eq, run, beyond, if_true,
    throw_apply]

end Ready

/-- Bytes of a block, as many as told. -/
theorem clientSendDirect_eq {buf : Bytes} {size : Nat} (some : size % 2 ^ 16 ≠ 0)
    (there : size % 2 ^ 16 ≤ buf.length) :
    clientSendDirect peer buf size s = handOver peer (buf.take (size % 2 ^ 16)) s := by
  rw [clientSendDirect, if_neg some, copyFrom_eq (by omega), bind_apply, lift_ok, ok_bind,
    List.drop_zero]

/-- If told none, then as many as the string there has. -/
theorem clientSendDirect_string {buf t : Bytes} {size : Nat} (none : size % 2 ^ 16 = 0)
    (starts : Starts buf t) :
    clientSendDirect peer buf size s = handOver peer (t.take (t.length % 2 ^ 16)) s := by
  rw [clientSendDirect, if_pos none, stringIn_starts starts, bind_apply, lift_ok, ok_bind]

end AcnSdk.Http
