/-
Receiving an HTTP response, `src/http/client.c`.

The functions that receive use two ways to get bytes: a line (`wait_line`) and a piece of
the payload (the loop in `receive_payload` that fills the queue, and `ringbuf_pop`).
They are written over a `Source` that offers these two. `clientSource` is the one of the
program: a ring buffer and the socket.

The network is the bytes that arrive before `recv` fails or the peer closes the
connection, and how many of them each call returns. `recv` and `ssl_recv` are alike. A
write outside its buffer is a fault, and so is a loop that does not end. The code
compiled with `HTTP_PARSE_HEADER`, which stores other headers, is left out.
-/

import AcnSdk.Arrow.CopyTill
import AcnSdk.Data.RingBuffer

namespace AcnSdk.Http

open AcnSdk.Lib AcnSdk.Data AcnSdk.Arrow Prog Ascii

/-! ### Sizes and texts -/

/-- `LINE_CHUNK`. -/
def lineChunk : Nat := 40

/-- The sizes that the build fixes. -/
structure Config where
  /-- `RINGBUFFER_SIZE`. -/
  ringbufferSize : Nat
  /-- The buffer that `client_recv` receives into. -/
  scratch : Nat
  /-- A line can be waited for. -/
  line_lt : lineChunk + 2 ≤ ringbufferSize
  size_lt : ringbufferSize < 2 ^ 16
  line_le : lineChunk ≤ scratch

namespace Config

variable (cfg : Config)

/-- `CHUNK_SIZE`. -/
def chunkSize : Nat := cfg.ringbufferSize / 2

/-- The buffer of a header key. -/
def keySize : Nat := cfg.chunkSize >>> 2

theorem ringbufferSize_pos : 0 < cfg.ringbufferSize := Nat.lt_of_lt_of_le (by decide) cfg.line_lt

theorem chunkSize_pos : 0 < cfg.chunkSize := by
  have := cfg.line_lt
  rw [lineChunk] at this
  rw [chunkSize]
  omega

end Config

/-- The sizes of `include/config.h`; `tmp` of `client_recv` has `MAX_TMP_BUF_SIZE` bytes. -/
def Config.standard : Config where
  ringbufferSize := 1024
  scratch := 511
  line_lt := by decide
  size_lt := by decide
  line_le := by decide

def crlf : Bytes := [cr, lf]

/-- `": "`. -/
def separator : Bytes := [colon, space]

/-- `"HTTP/1.1 "`. -/
def versionText : Bytes := [0x48, 0x54, 0x54, 0x50, 0x2F, 0x31, 0x2E, 0x31, 0x20]

/-- `" OK"`. -/
def okText : Bytes := [0x20, 0x4F, 0x4B]

/-- `"Content-Length"`. -/
def contentLengthText : Bytes :=
  [0x43, 0x6F, 0x6E, 0x74, 0x65, 0x6E, 0x74, 0x2D, 0x4C, 0x65, 0x6E, 0x67, 0x74, 0x68]

/-- `"Transfer-Encoding"`. -/
def transferEncodingText : Bytes :=
  [0x54, 0x72, 0x61, 0x6E, 0x73, 0x66, 0x65, 0x72, 0x2D, 0x45, 0x6E, 0x63, 0x6F, 0x64, 0x69, 0x6E,
    0x67]

/-- `"chunked"`. -/
def chunkedText : Bytes := [0x63, 0x68, 0x75, 0x6E, 0x6B, 0x65, 0x64]

/-- `"Chunked"`. -/
def chunkedTextUpper : Bytes := [0x43, 0x68, 0x75, 0x6E, 0x6B, 0x65, 0x64]

/-! ### The response -/

/-- The members of `http_response_t` that receiving uses, and the pieces handed to the
payload handler. -/
structure Response where
  httpResponseCode : Nat
  isChunked : Nat
  recvContentLength : Nat
  pieces : List Bytes
deriving DecidableEq, Repr

/-- `http_response_init`. -/
def Response.init : Response := ⟨0, 0, 0, []⟩

/-- The write of an `int` to the member `m_httpResponseCode` of 16 bits, which goes on
into `is_chunked` (little endian). -/
def Response.setCode (res : Response) (code : Int) : Response :=
  { res with
    httpResponseCode := (code % 2 ^ 16).toNat, isChunked := (code / 2 ^ 16 % 2 ^ 16).toNat }

/-- The effect of one header. -/
def Response.setHeader (res : Response) (key value : Bytes) : Response :=
  if key = contentLengthText then
    { res with recvContentLength := (atoi value % 2 ^ 32).toNat }
  else if key = transferEncodingText then
    if value = chunkedTextUpper ∨ value = chunkedText then { res with isChunked := 1 } else res
  else res

/-! ### Receiving -/

/-- Where bytes come from. -/
structure Source (σ : Type) where
  /-- `wait_line` with a buffer of that size: the line with its end, or NULL. -/
  waitLine : Nat → Prog σ (Option Bytes)
  /-- That many bytes of the payload and the errors counted so far, or an error. -/
  getPiece : Nat → Nat → Prog σ (Option (Bytes × Nat))
  /-- `ringbuf_clear`. -/
  clear : Prog σ Unit

section Receive

variable {σ : Type} (cfg : Config) (src : Source σ)

/-- The loop of `receive_response`: the first line of at least ten characters. -/
def waitStatus : Nat → Prog σ (Option Bytes)
  | 0 => throw .endless
  | fuel + 1 => do
      match ← src.waitLine cfg.ringbufferSize with
      | none => return none
      | some line => if line.length - 2 < 10 then waitStatus fuel else return some line

/-- `receive_response`. -/
def receiveResponse (fuel : Nat) (res : Response) : Prog σ (Int × Response) := do
  src.clear
  match ← waitStatus cfg src fuel with
  | none => return (-1, res)
  | some line =>
      match strstr versionText (cstr (line.take (line.length - 2))) with
      | none => return (-1, res)
      | some p =>
          match ← lift (copyTillToInt (p.drop 9) okText) with
          | none => return (-1, res)
          | some (code, _) => return (0, res.setCode code)

/-- `receive_headers`. Without a line the loop ends as it does after the blank line. -/
def receiveHeaders : Nat → Response → Prog σ (Int × Response)
  | 0, _ => throw .endless
  | fuel + 1, res => do
      match ← src.waitLine cfg.ringbufferSize with
      | none => return (0, res)
      | some line =>
          if line.length - 2 = 0 then return (0, res)
          else
            match ← lift (copyTill (cstr line) separator cfg.keySize) with
            | none => return (-1, res)
            | some (key, p) =>
                match ← lift (copyTill p crlf cfg.chunkSize) with
                | none => return (-1, res)
                | some (value, _) => receiveHeaders fuel (res.setHeader key value)

/-- `get_chunked_payload_size`. -/
def getChunkedPayloadSize : Prog σ Int := do
  match ← src.waitLine cfg.ringbufferSize with
  | none => return -1
  | some line =>
      match ← lift (copyTillHexToInt (cstr line) crlf) with
      | none => return -1
      | some (chunkLen, _) => return chunkLen

/-- The length of the next chunk, or of the whole payload. -/
def nextLength (res : Response) : Prog σ Int :=
  if res.isChunked ≠ 0 then getChunkedPayloadSize cfg src
  else return toInt32 res.recvContentLength

variable (handler : List Bytes → Bytes → Int)

/-- The loop of `receive_payload` over the pieces of one chunk. What the handler returns may
depend on the pieces it got before. -/
def receiveChunk : Nat → Nat → Nat → Response → Prog σ (Option Nat × Response)
  | 0, _, _, _ => throw .endless
  | fuel + 1, chunkLen, errors, res =>
      if chunkLen = 0 then return (some errors, res)
      else do
        let needToRead := min chunkLen cfg.chunkSize
        match ← src.getPiece needToRead errors with
        | none => return (none, res)
        | some (piece, errors) =>
            let passed := { res with pieces := res.pieces ++ [piece] }
            if handler res.pieces piece < 0 then
              src.clear
              return (none, passed)
            else receiveChunk fuel (chunkLen - needToRead) errors passed

/-- The loop of `receive_payload` over the chunks. What comes in place of the line end after a
chunk is ignored. -/
def receiveChunks : Nat → Nat → Response → Prog σ (Int × Response)
  | 0, _, _ => throw .endless
  | fuel + 1, errors, res => do
      let chunkLen ← nextLength cfg src res
      if chunkLen ≤ 0 then return (0, res)
      else
        match ← receiveChunk cfg src handler fuel chunkLen.toNat errors res with
        | (none, res) => return (-1, res)
        | (some errors, res) =>
            if res.isChunked = 0 then return (0, res)
            else
              let _ ← src.waitLine cfg.chunkSize
              receiveChunks fuel errors res

/-- `receive_payload`. -/
def receivePayload (fuel : Nat) (res : Response) : Prog σ (Int × Response) :=
  receiveChunks cfg src handler fuel 0 res

/-- `default_http_client_do` after the request is sent. -/
def receive (fuel : Nat) (res : Response) : Prog σ (Int × Response) := do
  src.clear
  let (ret, res) ← receiveResponse cfg src fuel res
  if ret < 0 then return (-1, res)
  else
    let (ret, res) ← receiveHeaders cfg src fuel { res with isChunked := 0 }
    if ret < 0 then return (-1, res)
    else
      let (ret, res) ← receivePayload cfg src handler fuel res
      if ret < 0 then return (-1, res) else return (0, res)

/-- `default_http_client_do`, where `send` is `send_start`, `send_header` and
`send_payload` in one. -/
def defaultHttpClientDo (send : Prog σ Int) (fuel : Nat) : Prog σ (Int × Response) := do
  if (← send) < 0 then return (-1, .init)
  else receive cfg src handler fuel .init

end Receive

/-! ### The socket and the queue -/

/-- The bytes on their way before the connection ends, what `recv` returns then, and how
many bytes each call returns, if it is possible. -/
structure Net where
  pending : Bytes
  ending : Int
  amount : Nat → Nat → Nat
  calls : Nat

namespace Net

/-- How many bytes a call with room for `len` returns: at least one, if there is room. -/
def grant (net : Net) (len : Nat) : Nat := min len (max 1 (net.amount net.calls len))

/-- `recv`. -/
def recv (net : Net) (len : Nat) : Int × Bytes × Net :=
  let next := { net with calls := net.calls + 1 }
  if net.pending = [] then (min net.ending 0, [], next)
  else
    let got := net.pending.take (net.grant len)
    (got.length, got, { next with pending := net.pending.drop (net.grant len) })

end Net

/-- The members of `http_client_t` that receiving uses. -/
structure Session where
  queue : RingBuffer
  net : Net

/-- An operation of the queue. -/
def onQueue {β : Type} (x : Prog RingBuffer β) : Prog Session β := fun s =>
  (x s.queue).bind fun r => .ok (r.1, { s with queue := r.2 })

section Client

variable (cfg : Config)

/-- `client_recv`. -/
def clientRecv (len : Nat) : Prog Session Int := do
  let s ← get
  let len := min (len % 2 ^ 16) (ringbufCapacity s.queue)
  let (ret, tmp, net) := s.net.recv len
  if cfg.scratch < tmp.length then throw .overflow
  else
    set { s with net := net }
    if 0 < ret then
      if (← onQueue (ringbufPush tmp ret.toNat)) < 0 then return -1 else return ret
    else return ret

/-- `wait_line`, with the bytes read so far. -/
def waitLineFrom (bufSize maxsize : Nat) : Nat → Bytes → Prog Session (Option Bytes)
  | 0, _ => throw .endless
  | fuel + 1, buf =>
      if 2 ≤ buf.length ∧ buf.drop (buf.length - 2) = crlf then return some buf
      else do
        match ← onQueue (ringbufPop 1) with
        | some c =>
            -- the byte and the terminator behind it
            if bufSize ≤ (buf ++ c).length then throw .overflow
            else if (buf ++ c).length = maxsize then return none
            else waitLineFrom bufSize maxsize fuel (buf ++ c)
        | none =>
            if lineChunk < ringbufCapacity (← get).queue then
              if (← clientRecv cfg lineChunk) < 0 then return none
              else waitLineFrom bufSize maxsize fuel buf
            else return none

/-- `wait_line`. -/
def waitLine (fuel bufSize maxsize : Nat) : Prog Session (Option Bytes) :=
  waitLineFrom cfg bufSize maxsize fuel []

/-- The loop of `receive_payload` that fills the queue. -/
def fillQueue : Nat → Nat → Nat → Prog Session (Option Nat)
  | 0, _, _ => throw .endless
  | fuel + 1, needToRead, errors => do
      let size := ringbufSize (← get).queue
      if needToRead ≤ size then return some errors
      else if (← clientRecv cfg (needToRead - size)) < 0 then
        if 2 < errors then return none else fillQueue fuel needToRead (errors + 1)
      else fillQueue fuel needToRead errors

/-- A piece of the payload. -/
def getPiece (fuel needToRead errors : Nat) : Prog Session (Option (Bytes × Nat)) := do
  match ← fillQueue cfg fuel needToRead errors with
  | none => return none
  | some errors =>
      match ← onQueue (ringbufPop needToRead) with
      | none => return none
      | some piece => return some (piece, errors)

/-- The source of the program. Every buffer for a line is as long as `wait_line` is told. -/
def clientSource (fuel : Nat) : Source Session where
  waitLine size := waitLine cfg fuel size size
  getPiece := getPiece cfg fuel
  clear := onQueue ringbufClear

end Client

end AcnSdk.Http
