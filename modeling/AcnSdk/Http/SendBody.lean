/-
Sending the header and the payload, `send_header` and `send_payload` of `src/http/client.c`.

A payload that is not chunked goes out with one call. Its length is in the size field of
16 bits; where that is zero it is counted again, and what `simple_write` is told is cut to 16
bits once more.

* `sendHeader_first` — the first line of the header tells the size.
* `sendPayload_eq` — how much of the payload is handed over.
* `lengths_agree_iff` — for which lengths all three are the same.
-/

import AcnSdk.Http.Send

namespace AcnSdk.Http

open AcnSdk.Lib AcnSdk.Data Prog Ascii

section Send

variable (cfg : Config) (peer : Peer)

/-! ### The header -/

/-- A line is printed to `tmpbuffer`, told that it is as long as the queue, and queued. -/
def putLine (line : Bytes) : Prog Sender Int := do
  let ret ← printTmp (ringbufCapacity (← get).queue) line
  if ret < 0 then return ret else pushBlock (← get).tmpbuffer ret.toNat

/-- The line that tells how long the payload is. -/
def sendLength (req : Request) (size : Nat) : Prog Sender Int := do
  if req.isChunked then
    let ret ← clientSendDirect peer (chunkedLine ++ [0]) 0
    withQueue ringbufClear
    return ret
  else
    let ret ← putLine (contentLengthLine size)
    if ret < 0 then return ret
    else
      let ret ← clientSend cfg peer
      withQueue ringbufClear
      return ret

/-- The line that tells of what type the payload is. Here `ringbuf_push` is called before what
`snprintf` returned is looked at. -/
def sendType (req : Request) : Prog Sender Int := do
  let ret ← printTmp (ringbufCapacity (← get).queue)
    (headerLine contentTypeText req.contentType.val)
  if ret < 0 then throw .overflow
  else if (← pushBlock (← get).tmpbuffer ret.toNat) < 0 then return -1
  else clientSend cfg peer

/-- The loop of `send_header` over the headers. -/
def sendHeaderLines : List (Text × Text) → Prog Sender Int
  | [] => clientSendDirect peer (crlf ++ [0]) 2
  | (key, value) :: header => do
      withQueue ringbufClear
      let ret ← putLine (headerLine key.val value.val)
      if ret < 0 then return ret
      else
        let ret ← clientSend cfg peer
        if ret < 0 then return ret else sendHeaderLines header

/-- `property_size` of the payload, which is zero for NULL. -/
def payloadSize (req : Request) : Except Fault Nat :=
  match req.payload with
  | none => .ok 0
  | some payload => payload.propertySize

/-- `send_header`. -/
def sendHeader (req : Request) : Prog Sender Int := do
  withQueue ringbufClear
  let size ← lift (payloadSize req)
  if size ≠ 0 then
    let ret ← sendLength cfg peer req size
    if ret < 0 then return ret
    else
      let ret ← sendType cfg peer req
      if ret < 0 then return ret else sendHeaderLines cfg peer req.header
  else sendHeaderLines cfg peer req.header

/-! ### The payload -/

/-- A digit of `%X`. -/
def upperDigit (d : Nat) : Byte := if d < 10 then digitChar d else UInt8.ofNat (0x37 + d)

/-- The digits of `n`, at least as many of them as told, in front of `acc`. -/
def upperHexFrom : Nat → Nat → Nat → Bytes → Bytes
  | 0, _, _, acc => acc
  | fuel + 1, width, n, acc =>
      if n < 16 ∧ width ≤ 1 then upperDigit n :: acc
      else upperHexFrom fuel (width - 1) (n / 16) (upperDigit (n % 16) :: acc)

/-- `"%02X\r\n"`. -/
def sizeLine (chunk : Nat) : Bytes := upperHexFrom (chunk + 2) 2 chunk crlf

/-- The loop of `send_payload` over the chunks. What `send` returns is ignored. -/
def sendChunks : Nat → Bytes → Nat → Int → Prog Sender Unit
  | 0, _, _, _ => throw .endless
  | fuel + 1, data, trData, len =>
      if len < 0 then return ()
      else do
        let chunk := min len.toNat cfg.chunkSize
        let buf ← lift (strcpy (List.replicate 6 0) (sizeLine chunk))
        let _ ← clientSendDirect peer buf (sizeLine chunk).length
        if chunk ≠ 0 then
          let _ ← clientSendDirect peer (data.drop trData) chunk
        let _ ← clientSendDirect peer (crlf ++ [0]) 2
        if chunk = 0 then return ()
        else sendChunks fuel data (trData + chunk) (len - chunk)

/-- `send_payload`. -/
def sendPayload (req : Request) : Prog Sender Int := do
  let size ← lift (payloadSize req)
  match req.payload with
  | none => return -1
  | some payload =>
      if size = 0 then return -1
      else if req.isChunked then
        sendChunks cfg peer (size + 2) payload.value 0 (toInt32 size)
        return 0
      else clientSendDirect peer payload.value size

end Send

/-! ### The length of the payload -/

section Lengths

variable {cfg : Config} {peer : Peer} {s s₁ s₂ : Sender} {req : Request} {q : Bytes} {text : Text}

/-- The size of a text of that length: what of it has room in 16 bits, or, if that is zero, all
of it. -/
def textSize (n : Nat) : Nat := if n % 2 ^ 16 ≠ 0 then n % 2 ^ 16 else n

theorem nt_starts (text : Text) : Starts (Payload.nt text).value text.val :=
  ⟨text.property, [], rfl⟩

theorem payloadSize_nt (payload : req.payload = some (.nt text)) :
    payloadSize req = .ok (textSize text.val.length) := by
  have toNat_eq : (Payload.nt text).size.toNat = text.val.length % 2 ^ 16 := UInt16.toNat_ofNat'
  have zero_iff : (Payload.nt text).size ≠ 0 ↔ text.val.length % 2 ^ 16 ≠ 0 := by
    rw [← toNat_eq, ne_eq, ne_eq, ← UInt16.toNat_inj]
    rfl
  rw [payloadSize, payload]
  dsimp only
  rw [Payload.propertySize, stringIn_starts (nt_starts text), textSize, toNat_eq]
  by_cases part : text.val.length % 2 ^ 16 ≠ 0
  · rw [if_pos (zero_iff.mpr part), if_pos part]
  · rw [if_neg (mt zero_iff.mp part), if_neg part]
    rfl

theorem putLine_grows (line : Bytes) : Within Grows (putLine line) :=
  Within.get.bind fun _ => (printTmp_grows _ _).bind fun _ => .ite (fun _ => .pure _) fun _ =>
    Within.get.bind fun _ => pushBlock_grows _ _

theorem sendType_grows (cfg : Config) (peer : Peer) (req : Request) :
    Within Grows (sendType cfg peer req) :=
  Within.get.bind fun _ => (printTmp_grows _ _).bind fun _ => .ite (fun _ => .throw _) fun _ =>
    Within.get.bind fun _ => (pushBlock_grows _ _).bind fun _ => .ite (fun _ => .pure _) fun _ =>
      clientSend_grows cfg peer

theorem sendHeaderLines_grows (cfg : Config) (peer : Peer) (header : List (Text × Text)) :
    Within Grows (sendHeaderLines cfg peer header) := by
  induction header with
  | nil => exact clientSendDirect_grows peer _ _
  | cons line header ih =>
      obtain ⟨key, value⟩ := line
      exact (withQueue_grows _).bind fun _ => (putLine_grows _).bind fun _ =>
        .ite (fun _ => .pure _) fun _ => (clientSend_grows cfg peer).bind fun _ =>
          .ite (fun _ => .pure _) fun _ => ih

theorem sendLength_grows (cfg : Config) (peer : Peer) (req : Request) (size : Nat) :
    Within Grows (sendLength cfg peer req size) :=
  .ite (fun _ => (clientSendDirect_grows peer _ _).bind fun _ => (withQueue_grows _).bind fun _ =>
      .pure _) fun _ => (putLine_grows _).bind fun _ => .ite (fun _ => .pure _) fun _ =>
    (clientSend_grows cfg peer).bind fun _ => (withQueue_grows _).bind fun _ => .pure _

theorem sendHeader_grows (cfg : Config) (peer : Peer) (req : Request) :
    Within Grows (sendHeader cfg peer req) :=
  (withQueue_grows _).bind fun _ => (Within.lift _).bind fun _ => .ite
    (fun _ => (sendLength_grows cfg peer req _).bind fun _ => .ite (fun _ => .pure _) fun _ =>
      (sendType_grows cfg peer req).bind fun _ => .ite (fun _ => .pure _) fun _ =>
        sendHeaderLines_grows cfg peer _)
    fun _ => sendHeaderLines_grows cfg peer _

/-- A line that is shorter than the block is printed and can be queued. -/
theorem Ready.printLine (ready : Ready cfg s []) {line : Bytes} (plain : 0 ∉ line)
    (some : line ≠ [])
    (short : line.length < cfg.chunkSize) :
    ∃ block s', printTmp (ringbufCapacity s.queue) line s =
        .ok (line.length, { s with tmpbuffer := block }) ∧
      pushBlock block line.length { s with tmpbuffer := block } = .ok (0, s') ∧ Ready cfg s' line ∧
      s'.handed = s.handed := by
  have twice : 2 * cfg.chunkSize ≤ cfg.ringbufferSize := Nat.mul_div_le _ 2
  have pos : 0 < line.length := List.length_pos_iff.mpr some
  have capacity_eq : ringbufCapacity s.queue = cfg.ringbufferSize - 1 := ready.capacity_eq
  obtain ⟨block, run, ready', starts⟩ :=
    ready.print plain (show line.length < ringbufCapacity s.queue by omega) short
  obtain ⟨buf, pushed, ready''⟩ := ready'.push pos starts.length_lt.le (by
    rw [List.length_nil]
    omega)
  rw [starts.take_eq] at ready''
  exact ⟨block, _, run, pushed, ready'', rfl⟩

theorem putLine_eq (ready : Ready cfg s []) {line : Bytes} (plain : 0 ∉ line) (some : line ≠ [])
    (short : line.length < cfg.chunkSize) :
    ∃ s', putLine line s = .ok (0, s') ∧ Ready cfg s' line ∧ s'.handed = s.handed := by
  obtain ⟨block, s', run, pushed, ready', handed⟩ := ready.printLine plain some short
  refine ⟨s', ?_, ready', handed⟩
  have whole : ¬ (line.length : Int) < 0 := by omega
  rw [putLine, bind_apply, get_apply, ok_bind, bind_of_ok run, if_neg whole, bind_apply, get_apply,
    ok_bind, Int.toNat_natCast, pushed]

/-- Any other that the queue has room for is written past the end of the block. -/
theorem putLine_overflow (ready : Ready cfg s []) {line : Bytes}
    (long : cfg.chunkSize ≤ line.length) (told : line.length + 1 < cfg.ringbufferSize) :
    putLine line s = .error .overflow := by
  have capacity_eq : ringbufCapacity s.queue = cfg.ringbufferSize - 1 := ready.capacity_eq
  have length_eq := ready.tmp_length
  have whole : line.length < cfg.ringbufferSize - 1 := by omega
  have fault := snprintf_overflow s.tmpbuffer whole (by omega)
  simp only [putLine, printTmp, onTmp, bind_apply, get_apply, ok_bind, capacity_eq, fault,
    error_bind]

theorem headerLine_plain {key value : Bytes} (key_plain : 0 ∉ key) (value_plain : 0 ∉ value) :
    0 ∉ headerLine key value := by
  have no_separator : (0 : Byte) ∉ separator := by decide
  have no_crlf : (0 : Byte) ∉ crlf := by decide
  simp only [headerLine, List.mem_append, key_plain, value_plain, no_separator, no_crlf, or_self,
    not_false_eq_true]

theorem headerLine_ne_nil (key value : Bytes) : headerLine key value ≠ [] := by
  simp [headerLine, crlf]

theorem contentLengthLine_plain (n : Nat) : 0 ∉ contentLengthLine n :=
  headerLine_plain (by decide) (decimal_plain n)

theorem contentLengthLine_length {n : Nat} (small : n < 2 ^ 16) :
    (contentLengthLine n).length ≤ 23 := by
  have digits := (decimal_spec n).2.2.1 5 (by omega) (by decide)
  have text : contentLengthText.length = 14 := rfl
  have colon : separator.length = 2 := rfl
  have ending : crlf.length = 2 := rfl
  simp only [contentLengthLine, headerLine, List.length_append, text, colon, ending]
  omega

/-- The first line, if it is shorter than the block. -/
theorem sendLength_eq (peer : Peer) (ready : Ready cfg s []) (plain : req.isChunked = false)
    {size : Nat} (short : (contentLengthLine size).length < cfg.chunkSize) :
    ∃ ret s', sendLength cfg peer req size s = .ok (ret, s') ∧ Ready cfg s' [] ∧
      s'.handed = s.handed ++ [contentLengthLine size] := by
  obtain ⟨s₂, put, ready₂, handed₂⟩ :=
    putLine_eq ready (contentLengthLine_plain size) (headerLine_ne_nil _ _) short
  obtain ⟨s₃, sent, ready₃, handed₃, -⟩ := ready₂.send peer short
  obtain ⟨buf, cleared, ready₄⟩ := ready₃.clear
  refine ⟨peer.send s₂.handed.length (contentLengthLine size).length, _, ?_, ready₄, ?_⟩
  · rw [sendLength, plain, if_neg Bool.false_ne_true, bind_of_ok put, if_neg (Int.lt_irrefl 0),
      bind_of_ok sent, bind_of_ok cleared, pure_apply]
  · rw [← handed₂]
    exact handed₃

theorem sendType_eq (peer : Peer) (ready : Ready cfg s [])
    (short : (headerLine contentTypeText req.contentType.val).length < cfg.chunkSize) :
    ∃ ret s', sendType cfg peer req s = .ok (ret, s') ∧ Ready cfg s' [] := by
  obtain ⟨block, s₂, run, pushed, ready₂, -⟩ :=
    ready.printLine (headerLine_plain (by decide) req.contentType.property)
      (headerLine_ne_nil _ _) short
  obtain ⟨s₃, sent, ready₃, -⟩ := ready₂.send peer short
  have whole : ¬ ((headerLine contentTypeText req.contentType.val).length : Int) < 0 := by omega
  refine ⟨peer.send s₂.handed.length
    (headerLine contentTypeText req.contentType.val).length, s₃, ?_, ready₃⟩
  rw [sendType, bind_apply, get_apply, ok_bind, bind_of_ok run, if_neg whole, bind_apply, get_apply,
    ok_bind, Int.toNat_natCast, bind_of_ok pushed, if_neg (Int.lt_irrefl 0), sent]

/-- What is handed over first tells the size. -/
theorem sendHeader_first (ready : Ready cfg s q) (plain : req.isChunked = false) {size : Nat}
    (size_eq : payloadSize req = .ok size) (some : size ≠ 0) (small : size < 2 ^ 16) {ret : Int}
    (run : sendHeader cfg peer req s = .ok (ret, s₁)) :
    s.handed ++ [contentLengthLine size] <+: s₁.handed := by
  have line_lt := cfg.line_lt
  rw [lineChunk] at line_lt
  have length_le := contentLengthLine_length small
  obtain ⟨buf, cleared, ready₁⟩ := ready.clear
  rw [sendHeader, bind_of_ok cleared, size_eq, bind_apply, lift_ok, ok_bind, if_pos some] at run
  obtain ⟨ret₁, s₂, first, run⟩ := run_of_bind run
  have told : s.handed ++ [contentLengthLine size] <+: s₂.handed := by
    rcases le_or_gt cfg.chunkSize (contentLengthLine size).length with long | short
    · rw [sendLength, plain, if_neg Bool.false_ne_true, bind_apply,
        putLine_overflow ready₁ long (by omega), error_bind] at first
      cases first
    · obtain ⟨_, s₃, first', -, handed⟩ := sendLength_eq peer ready₁ plain short
      cases first.symm.trans first'
      exact handed ▸ List.prefix_rfl
  have later : Grows s₂ s₁ := by
    split_ifs at run with failed
    · cases run
      exact List.prefix_rfl
    · exact (sendType_grows cfg peer req).bind (fun _ => .ite (fun _ => .pure _) fun _ =>
        sendHeaderLines_grows cfg peer req.header) _ _ _ run
  exact told.trans later

/-- The header lines are shorter than the block. -/
theorem sendHeaderLines_returns (peer : Peer) (ready : Ready cfg s q) {header : List (Text × Text)}
    (short : ∀ line ∈ header, (headerLine line.1.val line.2.val).length < cfg.chunkSize) :
    ∃ ret s', sendHeaderLines cfg peer header s = .ok (ret, s') := by
  induction header generalizing s q with
  | nil => exact ⟨_, _, clientSendDirect_eq (by decide) (by decide)⟩
  | cons line header ih =>
      obtain ⟨key, value⟩ := line
      have this_short := short _ List.mem_cons_self
      obtain ⟨buf, cleared, ready₁⟩ := ready.clear
      obtain ⟨s₂, put, ready₂, -⟩ := putLine_eq ready₁
        (headerLine_plain key.property value.property) (headerLine_ne_nil _ _) this_short
      obtain ⟨s₃, sent, ready₃, -⟩ := ready₂.send peer this_short
      rw [sendHeaderLines, bind_of_ok cleared, bind_of_ok put, if_neg (Int.lt_irrefl 0),
        bind_of_ok sent]
      split_ifs
      · exact ⟨_, _, rfl⟩
      · exact ih ready₃ fun line mem => short line (List.mem_cons_of_mem _ mem)

/-- The header of a payload, if all of its lines are shorter than the block. -/
theorem sendHeader_returns (peer : Peer) (ready : Ready cfg s q) (plain : req.isChunked = false)
    {size : Nat} (size_eq : payloadSize req = .ok size)
    (length_short : (contentLengthLine size).length < cfg.chunkSize)
    (type_short : (headerLine contentTypeText req.contentType.val).length < cfg.chunkSize)
    (short : ∀ line ∈ req.header, (headerLine line.1.val line.2.val).length < cfg.chunkSize) :
    ∃ ret s', sendHeader cfg peer req s = .ok (ret, s') := by
  obtain ⟨buf, cleared, ready₁⟩ := ready.clear
  rw [sendHeader, bind_of_ok cleared, size_eq, bind_apply, lift_ok, ok_bind]
  dsimp only
  split_ifs with some
  · obtain ⟨ret₂, s₂, told, ready₂, -⟩ := sendLength_eq peer ready₁ plain length_short
    obtain ⟨ret₃, s₃, typed, ready₃⟩ := sendType_eq peer ready₂ type_short
    rw [bind_of_ok told]
    split_ifs
    · exact ⟨ret₂, s₂, rfl⟩
    rw [bind_of_ok typed]
    split_ifs
    · exact ⟨ret₃, s₃, rfl⟩
    · exact sendHeaderLines_returns peer ready₃ short
  · exact sendHeaderLines_returns peer ready₁ short

/-- How much of the payload is handed over. -/
theorem sendPayload_eq (cfg : Config) (peer : Peer) (req : Request) (s : Sender)
    (plain : req.isChunked = false)
    (payload : req.payload = some (.nt text)) :
    ∃ ret s', sendPayload cfg peer req s = .ok (ret, s') ∧
      ∃ body : List Bytes, s'.handed = s.handed ++ body ∧
        (body.map List.length).sum = text.val.length % 2 ^ 16 := by
  have starts := nt_starts text
  have lt := starts.length_lt
  have mod_le := Nat.mod_le text.val.length (2 ^ 16)
  rw [sendPayload, payloadSize_nt payload, bind_apply, lift_ok, ok_bind, payload, plain]
  dsimp only
  by_cases none : textSize text.val.length = 0
  · rw [if_pos none]
    refine ⟨-1, s, rfl, [], (List.append_nil _).symm, ?_⟩
    rw [textSize] at none
    split_ifs at none with part
    · exact absurd none part
    · rw [none]
      rfl
  rw [if_neg none, if_neg Bool.false_ne_true]
  by_cases part : text.val.length % 2 ^ 16 ≠ 0
  · have size_eq : textSize text.val.length % 2 ^ 16 = text.val.length % 2 ^ 16 := by
      rw [textSize, if_pos part, Nat.mod_mod]
    rw [clientSendDirect_eq (by rwa [size_eq]) (by omega), size_eq]
    refine ⟨_, _, rfl, [_], rfl, ?_⟩
    rw [List.map_singleton, List.sum_singleton, List.length_take, Nat.min_eq_left (by omega)]
  · have size_eq : textSize text.val.length % 2 ^ 16 = 0 := by
      rw [textSize, if_neg part]
      exact not_not.mp part
    rw [clientSendDirect_string size_eq starts, not_not.mp part]
    exact ⟨_, _, rfl, [_], rfl, rfl⟩

/-- The header, where there is a payload, tells the length of the text, and as many bytes
were handed over. -/
def LengthsAgree (text : Text) (lines body : List Bytes) : Prop :=
  (text.val ≠ [] → lines.head? = some (contentLengthLine text.val.length)) ∧
    (body.map List.length).sum = text.val.length

/-- The length of the payload, the one in the header and the number of bytes that `send` gets are
the same exactly if it fits 16 bits. -/
theorem lengths_agree_iff (ready : Ready cfg s q) (plain : req.isChunked = false)
    (payload : req.payload = some (.nt text)) {ret ret' : Int}
    (header : sendHeader cfg peer req s = .ok (ret, s₁))
    (sent : sendPayload cfg peer req s₁ = .ok (ret', s₂)) :
    (∃ lines body, s₁.handed = s.handed ++ lines ∧ s₂.handed = s₁.handed ++ body ∧
      LengthsAgree text lines body) ↔ text.val.length < 2 ^ 16 := by
  obtain ⟨_, _, sent', body, handed, length_eq⟩ := sendPayload_eq cfg peer req s₁ plain payload
  cases sent.symm.trans sent'
  constructor
  · rintro ⟨lines, body', -, handed', -, agrees⟩
    rw [handed', List.append_right_inj] at handed
    rw [handed, length_eq] at agrees
    rw [← agrees]
    exact Nat.mod_lt _ (by decide)
  · intro small
    rw [Nat.mod_eq_of_lt small] at length_eq
    have told : ∃ lines, s₁.handed = s.handed ++ lines ∧
        (text.val ≠ [] → lines.head? = some (contentLengthLine text.val.length)) := by
      by_cases none : text.val = []
      · obtain ⟨lines, handed₁⟩ := sendHeader_grows cfg peer req _ _ _ header
        exact ⟨lines, handed₁.symm, fun some => absurd none some⟩
      · have pos : text.val.length ≠ 0 := mt List.length_eq_zero_iff.mp none
        have size_eq : payloadSize req = .ok text.val.length := by
          rw [payloadSize_nt payload, textSize, Nat.mod_eq_of_lt small, if_pos pos]
        obtain ⟨lines, handed₁⟩ := sendHeader_first ready plain size_eq pos small header
        rw [List.append_assoc] at handed₁
        exact ⟨_, handed₁.symm, fun _ => rfl⟩
    obtain ⟨lines, handed₁, first⟩ := told
    exact ⟨lines, body, handed₁, handed, first, length_eq⟩

end Lengths

/-- A request with a payload. -/
def post (text : Text) : Request := { Request.bare with payload := some (.nt text) }

/-- Its header is sent. -/
theorem sendHeader_post (text : Text) (small : textSize text.val.length < 2 ^ 16) :
    ∃ ret s', sendHeader .standard .takesAll (post text) (.init .standard) = .ok (ret, s') := by
  have chunk_eq : Config.standard.chunkSize = 512 := rfl
  have length_le := contentLengthLine_length small
  have type_length : (headerLine contentTypeText (post text).contentType.val).length = 16 := rfl
  exact sendHeader_returns .takesAll (Sender.init_ready .standard) rfl
    (payloadSize_nt rfl) (by omega)
    (by omega) (List.forall_mem_nil _)

/-- All three are 2. -/
theorem lengths_agree_two : ∃ ret ret' s₁ s₂,
    sendHeader .standard .takesAll (post ⟨[0x7B, 0x7D], by decide⟩) (.init .standard) =
      .ok (ret, s₁) ∧
      sendPayload .standard .takesAll (post ⟨[0x7B, 0x7D], by decide⟩) s₁ = .ok (ret', s₂) ∧
      ∃ lines body, s₁.handed = (Sender.init .standard).handed ++ lines ∧
        s₂.handed = s₁.handed ++ body ∧ LengthsAgree ⟨[0x7B, 0x7D], by decide⟩ lines body := by
  obtain ⟨ret, s₁, header⟩ := sendHeader_post ⟨[0x7B, 0x7D], by decide⟩ (by decide)
  obtain ⟨ret', s₂, sent, -⟩ :=
    sendPayload_eq .standard .takesAll (post ⟨[0x7B, 0x7D], by decide⟩) s₁ rfl rfl
  exact ⟨ret, ret', s₁, s₂, header, sent,
    (lengths_agree_iff (Sender.init_ready .standard) rfl rfl header sent).mpr (by decide)⟩

/-- A payload of 65541 characters: 5 are sent. -/
theorem lengths_differ : ¬ ∀ (cfg : Config) (peer : Peer) (req : Request) (text : Text)
    (s s₁ s₂ : Sender) (q : Bytes) (ret ret' : Int), Ready cfg s q → req.isChunked = false →
    req.payload = some (.nt text) → sendHeader cfg peer req s = .ok (ret, s₁) →
    sendPayload cfg peer req s₁ = .ok (ret', s₂) →
    ∃ lines body, s₁.handed = s.handed ++ lines ∧ s₂.handed = s₁.handed ++ body ∧
      LengthsAgree text lines body := by
  intro all
  obtain ⟨text, length_eq⟩ : ∃ text : Text, text.val.length = 65541 :=
    ⟨⟨List.replicate 65541 0x78, fun mem => absurd (List.eq_of_mem_replicate mem) (by decide)⟩,
      List.length_replicate⟩
  have small : textSize text.val.length < 2 ^ 16 := by
    rw [length_eq]
    decide
  obtain ⟨ret, s₁, header⟩ := sendHeader_post text small
  obtain ⟨ret', s₂, sent, body, handed, sum_eq⟩ :=
    sendPayload_eq .standard .takesAll (post text) s₁ rfl rfl
  obtain ⟨lines, body', -, handed', -, agrees⟩ :=
    all .standard .takesAll (post text) text _ s₁ s₂ []
    ret ret' (Sender.init_ready .standard) rfl rfl header sent
  rw [handed', List.append_right_inj] at handed
  rw [handed, sum_eq, length_eq] at agrees
  exact absurd agrees (by decide)

end AcnSdk.Http
