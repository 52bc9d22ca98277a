/-
When the request line goes out as it should.

`send_start` prints the line to a scratch buffer of `CHUNK_SIZE` bytes, collects it in the
queue, which is twice as long, and sends it through another scratch buffer. Parameters that
do not fit are left out, what is printed may be cut, and what `send` did not take is not
sent again.

* `sendQuery_cons` — a parameter is queued, left out with all that follow, or written past the end
  of the buffer.
* `sendQuery_eq` — all parameters of a line that fits the buffer are queued.
* `sendStart_faithful_iff` — which requests go out whole or not at all.
-/

import AcnSdk.Http.Send

namespace AcnSdk.Http

open AcnSdk.Lib AcnSdk.Data Prog Ascii

/-! ### The line -/

/-- A parameter behind its mark. -/
def parameterText (mark : Byte) (key value : Text) : Bytes :=
  [mark] ++ key.val ++ [equals] ++ value.val

/-- The parameters in order. -/
def queryText (mark : Byte) : List (Text × Text) → Bytes
  | [] => []
  | (key, value) :: query => parameterText mark key value ++ queryText ampersand query

namespace Request

/-- The request line. -/
def requestLine (req : Request) : Bytes := req.target ++ queryText question req.query ++ httpVers

end Request

/-! ### The parameters -/

section Query

variable {cfg : Config} {s : Sender} {q : Bytes} {mark : Byte}

theorem putParameter_eq (ready : Ready cfg s q) (starts : Starts s.tmpbuffer [mark])
    (key value : Text) :
    if (parameterText mark key value).length < cfg.chunkSize then
      ∃ block, putParameter key value s = .ok ((), { s with tmpbuffer := block }) ∧
        block.length = cfg.chunkSize ∧ Starts block (parameterText mark key value)
    else putParameter key value s = .error .overflow := by
  have length_eq := ready.tmp_length
  have no_equals : (0 : Byte) ∉ [equals] := by decide
  unfold parameterText
  by_cases key_fits : [mark].length + key.val.length < s.tmpbuffer.length
  · obtain ⟨block₁, run₁, same₁, starts₁⟩ := starts.append key.property key_fits
    by_cases equals_fits : ([mark] ++ key.val).length + [equals].length < s.tmpbuffer.length
    · obtain ⟨block₂, run₂, same₂, starts₂⟩ :=
        starts₁.append no_equals (by rwa [same₁])
      by_cases value_fits :
          ([mark] ++ key.val ++ [equals]).length + value.val.length < s.tmpbuffer.length
      · obtain ⟨block₃, run₃, same₃, starts₃⟩ :=
          starts₂.append value.property (by rwa [same₂, same₁])
        rw [if_pos (by rwa [List.length_append, ← length_eq])]
        refine ⟨block₃, ?_, by omega, starts₃⟩
        simp only [putParameter, bind_apply, onTmp, run₁, run₂, run₃, ok_bind]
      · have run₃ := starts₂.append_overflow (s := value.val) (by omega)
        rw [if_neg (by rwa [List.length_append, ← length_eq])]
        simp only [putParameter, bind_apply, onTmp, run₁, run₂, run₃, ok_bind, error_bind]
    · have run₂ := starts₁.append_overflow (s := [equals]) (by omega)
      rw [if_neg (by simp only [List.length_append] at *; omega)]
      simp only [putParameter, bind_apply, onTmp, run₁, run₂, ok_bind, error_bind]
  · have run₁ := starts.append_overflow (s := key.val) (by omega)
    rw [if_neg (by simp only [List.length_append] at *; omega)]
    simp only [putParameter, bind_apply, onTmp, run₁, error_bind]

theorem spare_eq {capacity : Nat} (low : 13 ≤ capacity) (high : capacity < 2 ^ 16) :
    spare capacity = capacity - 13 := by
  have vers : httpVers.length = 11 := rfl
  rw [spare, vers]
  omega

theorem lengthTest_eq {key value : Nat} (small : key + value + 3 < 2 ^ 16) :
    toInt32 (toInt32 key + toInt32 value + 3) = key + value + 3 := by
  rw [toInt32_of_lt (n := (key : Int)) (by omega) (by omega),
    toInt32_of_lt (n := (value : Int)) (by omega) (by omega), toInt32_of_lt (by omega) (by omega)]

/-- The mark of the first parameter. -/
theorem Ready.copy_mark (ready : Ready cfg s q) :
    ∃ block, onTmp (fun queryString => strcpy queryString [question]) s =
        .ok ((), { s with tmpbuffer := block }) ∧
      Ready cfg { s with tmpbuffer := block } q ∧ Starts block [question] := by
  have plain : (0 : Byte) ∉ [question] := by decide
  have line_lt := cfg.line_lt
  obtain ⟨block, copied, same, starts⟩ := strcpy_eq s.tmpbuffer plain (by
    rw [ready.tmp_length, List.length_singleton, Config.chunkSize]
    rw [lineChunk] at line_lt
    omega)
  refine ⟨block, ?_, ready.tmp (same.trans ready.tmp_length), starts⟩
  rw [onTmp, copied]
  rfl

/-- One parameter: queued behind what is there, as it always is if the line so far fits a
buffer, or the end of the line, or of the program. -/
theorem sendQuery_cons (ready : Ready cfg s q) (starts : Starts s.tmpbuffer [mark])
    (room : q.length + 13 < cfg.ringbufferSize) (key value : Text) (query : List (Text × Text)) :
    (∃ buf block, sendQuery ((key, value) :: query) s =
        sendQuery query { s with queue := buf, tmpbuffer := block } ∧
      Ready cfg { s with queue := buf, tmpbuffer := block } (q ++ parameterText mark key value) ∧
      Starts block [ampersand] ∧
      (q ++ parameterText mark key value).length + 13 < cfg.ringbufferSize) ∨
    cfg.chunkSize < q.length + (parameterText mark key value).length + 12 ∧
      (sendQuery ((key, value) :: query) s = .error .overflow ∨
        ∃ block, sendQuery ((key, value) :: query) s = .ok ((), { s with tmpbuffer := block }) ∧
          Ready cfg { s with tmpbuffer := block } q) := by
  have twice : 2 * cfg.chunkSize ≤ cfg.ringbufferSize := Nat.mul_div_le _ 2
  have small := cfg.size_lt
  have length_eq : (parameterText mark key value).length =
      key.val.length + value.val.length + 2 := by
    simp only [parameterText, List.length_append, List.length_singleton]
    omega
  have capacity_eq := ready.capacity_eq
  have put := putParameter_eq ready starts key value
  rw [sendQuery, bind_apply, get_apply, ok_bind]
  dsimp only
  by_cases long : (ringbufCapacity s.queue : Int) <
      toInt32 (toInt32 key.val.length + toInt32 value.val.length + 3)
  · refine Or.inr ⟨?_, Or.inr ⟨s.tmpbuffer, ?_, ready⟩⟩
    · by_contra fits
      rw [lengthTest_eq (by omega)] at long
      omega
    · rw [if_pos long, pure_apply]
  · rw [if_neg long]
    split_ifs at put with fits
    · obtain ⟨block, run, same, begins⟩ := put
      have now := ready.tmp same
      have low : 13 ≤ ringbufCapacity s.queue := by omega
      have spare_eq := spare_eq low (by omega)
      generalize parameterText mark key value = word at *
      by_cases wide : spare (ringbufCapacity s.queue) < (cstr block).length
      · refine Or.inr ⟨?_, Or.inr ⟨block, ?_, now⟩⟩
        · rw [begins.cstr_eq, spare_eq] at wide
          omega
        · rw [bind_of_ok run]
          simp only [bind_apply, get_apply, ok_bind, wide, if_true, pure_apply]
      · have fits' := wide
        rw [begins.cstr_eq, spare_eq] at fits'
        have nonempty : word ≠ [] := by
          rw [← List.length_pos_iff]
          omega
        obtain ⟨buf, pushed, ready'⟩ := now.pushString begins nonempty (by omega)
        have plain : (0 : Byte) ∉ [ampersand] := by decide
        have pos := cfg.chunkSize_pos
        obtain ⟨block', copied, same', starts'⟩ := strcpy_eq block plain (by
          rw [List.length_singleton]
          omega)
        refine Or.inl ⟨buf, block', ?_, ready'.tmp (same'.trans same), starts', ?_⟩
        · rw [bind_of_ok run]
          simp only [bind_apply, get_apply, ok_bind, wide, if_false, pushed, onTmp, copied,
            Int.lt_irrefl]
        · rw [List.length_append]
          omega
    · refine Or.inr ⟨by omega, Or.inl ?_⟩
      rw [bind_apply, put, error_bind]

/-- All parameters of a line that fits a buffer. -/
theorem sendQuery_eq (ready : Ready cfg s q) (starts : Starts s.tmpbuffer [mark])
    {query : List (Text × Text)}
    (fits : q.length + (queryText mark query).length + 12 ≤ cfg.chunkSize) :
    ∃ buf block, sendQuery query s = .ok ((), { s with queue := buf, tmpbuffer := block }) ∧
      Ready cfg { s with queue := buf, tmpbuffer := block } (q ++ queryText mark query) := by
  induction query generalizing s q mark with
  | nil =>
      refine ⟨s.queue, s.tmpbuffer, rfl, ?_⟩
      rw [queryText, List.append_nil]
      exact ready
  | cons parameter query ih =>
      obtain ⟨key, value⟩ := parameter
      have twice : 2 * cfg.chunkSize ≤ cfg.ringbufferSize := Nat.mul_div_le _ 2
      rw [queryText, List.length_append] at fits
      rw [queryText, ← List.append_assoc]
      rcases sendQuery_cons ready starts (by omega) key value query with
        ⟨buf, block, step, ready', starts', -⟩ | ⟨long, -⟩
      · rw [step]
        exact ih ready' starts' (by rw [List.length_append]; omega)
      · omega

/-- Whatever the parameters are, only the queue and the buffer change, and room is left. -/
theorem sendQuery_any (ready : Ready cfg s q) (starts : Starts s.tmpbuffer [mark])
    (room : q.length + 13 < cfg.ringbufferSize) (query : List (Text × Text)) :
    sendQuery query s = .error .overflow ∨
      ∃ buf block q', sendQuery query s = .ok ((), { s with queue := buf, tmpbuffer := block }) ∧
        Ready cfg { s with queue := buf, tmpbuffer := block } (q ++ q') ∧
        (q ++ q').length + 13 < cfg.ringbufferSize := by
  induction query generalizing s q mark with
  | nil =>
      refine Or.inr ⟨s.queue, s.tmpbuffer, [], rfl, ?_⟩
      rw [List.append_nil]
      exact ⟨ready, room⟩
  | cons parameter query ih =>
      obtain ⟨key, value⟩ := parameter
      rcases sendQuery_cons ready starts room key value query with
        ⟨buf, block, step, ready', starts', room'⟩ | ⟨-, fault | ⟨block, stop, ready'⟩⟩
      · rw [step]
        rcases ih ready' starts' room' with fault | ⟨buf', block', q', run, ready'', room''⟩
        · exact Or.inl fault
        · refine Or.inr ⟨buf', block', parameterText mark key value ++ q', run, ?_⟩
          rw [← List.append_assoc]
          exact ⟨ready'', room''⟩
      · exact Or.inl fault
      · refine Or.inr ⟨s.queue, block, [], stop, ?_⟩
        rw [List.append_nil]
        exact ⟨ready', room⟩

theorem putQuery_eq (ready : Ready cfg s q) {query : List (Text × Text)}
    (fits : q.length + (queryText question query).length + 12 ≤ cfg.chunkSize) :
    ∃ buf block, putQuery query s = .ok ((), { s with queue := buf, tmpbuffer := block }) ∧
      Ready cfg { s with queue := buf, tmpbuffer := block } (q ++ queryText question query) := by
  by_cases none : query = []
  · subst none
    refine ⟨s.queue, s.tmpbuffer, rfl, ?_⟩
    rw [queryText, List.append_nil]
    exact ready
  · obtain ⟨block, copied, ready', starts⟩ := ready.copy_mark
    obtain ⟨buf, block', run, ready''⟩ := sendQuery_eq ready' starts fits
    refine ⟨buf, block', ?_, ready''⟩
    rw [putQuery, if_pos none, bind_of_ok copied, run]

theorem putQuery_any (ready : Ready cfg s q) (room : q.length + 13 < cfg.ringbufferSize)
    (query : List (Text × Text)) :
    putQuery query s = .error .overflow ∨
      ∃ buf block q', putQuery query s = .ok ((), { s with queue := buf, tmpbuffer := block }) ∧
        Ready cfg { s with queue := buf, tmpbuffer := block } q' ∧
        q'.length + 13 < cfg.ringbufferSize := by
  by_cases none : query = []
  · subst none
    exact Or.inr ⟨s.queue, s.tmpbuffer, q, rfl, ready, room⟩
  · obtain ⟨block, copied, ready', starts⟩ := ready.copy_mark
    rw [putQuery, if_pos none, bind_of_ok copied]
    rcases sendQuery_any ready' starts room query with
      fault | ⟨buf, block', q', run, ready'', room'⟩
    · exact Or.inl fault
    · exact Or.inr ⟨buf, block', q ++ q', run, ready'', room'⟩

end Query

/-! ### The lines in the queue -/

section Lines

variable {cfg : Config} {peer : Peer} {s : Sender} {req : Request}

theorem target_plain (req : Request) : 0 ∉ req.target := by
  have no_space : (0 : Byte) ≠ space := by decide
  simp only [Request.target, List.mem_append, List.mem_singleton, no_space, req.meth.property,
    req.uri.property, or_self, not_false_eq_true]

theorem hostLine_plain (req : Request) : 0 ∉ req.hostLine := by
  have no_host : (0 : Byte) ∉ hostText := by decide
  have no_colon : (0 : Byte) ≠ colon := by decide
  have no_crlf : (0 : Byte) ∉ crlf := by decide
  simp only [Request.hostLine, List.mem_append, List.mem_singleton, no_host, no_colon, no_crlf,
    decimal_plain, req.host.property, or_self, not_false_eq_true]

theorem httpVers_starts : Starts (httpVers ++ [0]) httpVers := ⟨by decide, [], rfl⟩

theorem requestLine_length (req : Request) : req.requestLine.length =
    req.target.length + (queryText question req.query).length + 11 := by
  have vers : httpVers.length = 11 := rfl
  rw [Request.requestLine, List.length_append, List.length_append, vers]

/-- The method and the URI are longer than the queue. -/
theorem putRequestLine_full (ready : Ready cfg s [])
    (full : cfg.ringbufferSize ≤ req.target.length) :
    ∃ ret s', putRequestLine cfg req s = .ok (ret, s') ∧ ret < 0 ∧ s'.handed = s.handed ∧
      s'.output = s.output := by
  obtain ⟨block, run, ready'⟩ := ready.print_any req.target
  rw [putRequestLine, bind_of_ok run]
  by_cases negative : printed req.target < 0
  · rw [if_pos negative]
    exact ⟨_, _, rfl, negative, rfl, rfl⟩
  · rw [if_neg negative, bind_apply, get_apply, ok_bind]
    have room : cfg.ringbufferSize ≤ ([] : Bytes).length + req.target.length := by
      rwa [List.length_nil, Nat.zero_add]
    rw [printed_of_nonneg negative, bind_of_ok (ready'.push_full block room)]
    exact ⟨-1, _, rfl, by decide, rfl, rfl⟩

/-- A line that fits the buffer goes to the queue. -/
theorem putRequestLine_eq (ready : Ready cfg s []) (fits : req.requestLine.length < cfg.chunkSize) :
    ∃ s', putRequestLine cfg req s = .ok (0, s') ∧ Ready cfg s' req.requestLine ∧
      s'.handed = s.handed ∧ s'.output = s.output := by
  have twice : 2 * cfg.chunkSize ≤ cfg.ringbufferSize := Nat.mul_div_le _ 2
  have length_eq := requestLine_length req
  have vers : httpVers.length = 11 := rfl
  have pos : 0 < req.target.length := by
    simp only [Request.target, List.length_append, List.length_singleton]
    omega
  obtain ⟨block, run, ready₁, starts⟩ := ready.print (target_plain req)
    (show req.target.length < cfg.chunkSize - 1 by omega) (by omega)
  obtain ⟨buf, pushed, ready₂⟩ := ready₁.push pos starts.length_lt.le (by
    rw [List.length_nil]
    omega)
  rw [List.nil_append, starts.take_eq] at ready₂
  have short : req.target.length + (queryText question req.query).length + 12 ≤ cfg.chunkSize := by
    omega
  obtain ⟨buf', block', ran, ready₃⟩ := putQuery_eq ready₂ short
  obtain ⟨buf'', ended, ready₄⟩ := ready₃.pushString httpVers_starts (by decide) (by
    rw [List.length_append]
    omega)
  refine ⟨_, ?_, ready₄, rfl, rfl⟩
  have whole : ¬ (req.target.length : Int) < 0 := by omega
  rw [putRequestLine, bind_of_ok run, if_neg whole, bind_apply, get_apply, ok_bind,
    Int.toNat_natCast, bind_of_ok pushed, if_neg (Int.lt_irrefl 0), bind_of_ok ran]
  exact ended

/-- Any other goes there cut, or the program goes wrong. -/
theorem putRequestLine_any (ready : Ready cfg s [])
    (lt : req.target.length < cfg.ringbufferSize) :
    putRequestLine cfg req s = .error .overflow ∨
      ∃ s' q, putRequestLine cfg req s = .ok (0, s') ∧ Ready cfg s' q ∧ s'.handed = s.handed := by
  have twice : 2 * cfg.chunkSize ≤ cfg.ringbufferSize := Nat.mul_div_le _ 2
  have line_lt := cfg.line_lt
  have small := cfg.size_lt
  have half : cfg.ringbufferSize < 2 * cfg.chunkSize + 2 := by
    rw [Config.chunkSize]
    omega
  have vers : httpVers.length = 11 := rfl
  have pos : 0 < req.target.length := by
    simp only [Request.target, List.length_append, List.length_singleton]
    omega
  rw [lineChunk] at line_lt
  obtain ⟨block, run, ready₁⟩ := ready.print_any req.target
  rw [printed_eq (by omega)] at run
  have whole : ¬ (req.target.length : Int) < 0 := by omega
  rw [putRequestLine, bind_of_ok run, if_neg whole, bind_apply, get_apply, ok_bind,
    Int.toNat_natCast]
  by_cases there : req.target.length ≤ block.length
  · have length_eq : block.length = cfg.chunkSize := ready₁.tmp_length
    obtain ⟨buf, pushed, ready₂⟩ := ready₁.push pos there (by simpa using lt)
    rw [bind_of_ok pushed, if_neg (Int.lt_irrefl 0)]
    rcases putQuery_any ready₂ (by rw [List.nil_append, List.length_take]; omega) req.query with
      fault | ⟨buf', block', q, ran, ready₃, room⟩
    · exact Or.inl (by rw [bind_apply, fault, error_bind])
    · obtain ⟨buf'', ended, ready₄⟩ := ready₃.pushString httpVers_starts (by decide) (by omega)
      rw [bind_of_ok ran]
      exact Or.inr ⟨_, q ++ httpVers, ended, ready₄, rfl⟩
  · refine Or.inl ?_
    rw [bind_apply, ready₁.push_beyond (not_le.mp there) (by simpa using lt), error_bind]

/-- A text longer than the queue is not sent. -/
theorem sendHost_full (peer : Peer) (ready : Ready cfg s [])
    (full : cfg.ringbufferSize ≤ req.hostLine.length) :
    ∃ ret s', sendHost cfg peer req s = .ok (ret, s') ∧ ret < 0 ∧ s'.handed = s.handed ∧
      s'.output = s.output := by
  obtain ⟨block, run, ready'⟩ := ready.print_any req.hostLine
  rw [sendHost, bind_of_ok run]
  by_cases negative : printed req.hostLine < 0
  · rw [if_pos negative]
    exact ⟨_, _, rfl, negative, rfl, rfl⟩
  · rw [if_neg negative, bind_apply, get_apply, ok_bind]
    have room : cfg.ringbufferSize ≤ ([] : Bytes).length + req.hostLine.length := by
      rwa [List.length_nil, Nat.zero_add]
    rw [printed_of_nonneg negative, bind_of_ok (ready'.push_full block room)]
    exact ⟨-1, _, rfl, by decide, rfl, rfl⟩

/-- One that fits the queue and no buffer is read or written past the end of one. -/
theorem sendHost_overflow (ready : Ready cfg s []) (long : cfg.chunkSize ≤ req.hostLine.length)
    (lt : req.hostLine.length < cfg.ringbufferSize) :
    sendHost cfg peer req s = .error .overflow := by
  have small := cfg.size_lt
  have pos := cfg.chunkSize_pos
  obtain ⟨block, run, ready₁⟩ := ready.print_any req.hostLine
  rw [printed_eq (by omega)] at run
  have whole : ¬ (req.hostLine.length : Int) < 0 := by omega
  rw [sendHost, bind_of_ok run, if_neg whole, bind_apply, get_apply, ok_bind, Int.toNat_natCast]
  by_cases there : req.hostLine.length ≤ block.length
  · obtain ⟨buf, pushed, ready₂⟩ := ready₁.push (by omega) there (by simpa using lt)
    rw [bind_of_ok pushed, if_neg (Int.lt_irrefl 0), bind_apply, ready₂.send_overflow, error_bind]
    rw [List.nil_append, List.length_take]
    omega
  · rw [bind_apply, ready₁.push_beyond (not_le.mp there) (by simpa using lt), error_bind]

/-- Any other is sent, but as a whole only if there is room for its terminator. -/
theorem sendHost_eq (peer : Peer) (ready : Ready cfg s [])
    (fits : req.hostLine.length < cfg.chunkSize) :
    let ret := peer.send s.handed.length req.hostLine.length
    ∃ s' text, sendHost cfg peer req s = .ok (min ret 0, s') ∧ s'.handed = s.handed ++ [text] ∧
      s'.output = s.output ++ text.take ret.toNat ∧ text.length = req.hostLine.length ∧
      (text = req.hostLine ↔ req.hostLine.length + 1 < cfg.chunkSize) := by
  intro ret
  have small := cfg.size_lt
  have le : cfg.chunkSize ≤ cfg.ringbufferSize := Nat.div_le_self _ _
  have pos : 0 < req.hostLine.length := by
    simp only [Request.hostLine, List.length_append, List.length_singleton]
    omega
  obtain ⟨block, run, ready₁, whole_iff⟩ :
      ∃ block, printTmp (cfg.chunkSize - 1) req.hostLine s =
          .ok (req.hostLine.length, { s with tmpbuffer := block }) ∧
        Ready cfg { s with tmpbuffer := block } [] ∧
        (block.take req.hostLine.length = req.hostLine ↔
          req.hostLine.length + 1 < cfg.chunkSize) := by
    by_cases room : req.hostLine.length + 1 < cfg.chunkSize
    · obtain ⟨block, run, ready₁, starts⟩ := ready.print (hostLine_plain req)
        (show req.hostLine.length < cfg.chunkSize - 1 by omega) fits
      exact ⟨block, run, ready₁, iff_of_true starts.take_eq room⟩
    · have length_eq := ready.tmp_length
      obtain ⟨block, run, same, cut⟩ := snprintf_cut pos (Nat.le_refl req.hostLine.length)
        (show req.hostLine.length ≤ s.tmpbuffer.length by omega)
      refine ⟨block, ?_, ready.tmp (same.trans length_eq), iff_of_false ?_ room⟩
      · rw [show cfg.chunkSize - 1 = req.hostLine.length by omega, ← printed_eq (by omega)]
        simp only [printTmp, onTmp, bind_apply, run, ok_bind, pure_apply]
      · intro eq
        rw [eq] at cut
        exact hostLine_plain req cut
  have length_eq : block.length = cfg.chunkSize := ready₁.tmp_length
  have taken : (block.take req.hostLine.length).length = req.hostLine.length := by
    rw [List.length_take]
    omega
  obtain ⟨buf, pushed, ready₂⟩ :=
    ready₁.push pos (show req.hostLine.length ≤ block.length by omega) (by
    rw [List.length_nil]
    omega)
  rw [List.nil_append] at ready₂
  obtain ⟨s', sent, -, handed, output⟩ := ready₂.send peer (by omega)
  rw [taken] at sent output
  refine ⟨s', block.take req.hostLine.length, ?_, handed, output, taken, whole_iff⟩
  have whole : ¬ (req.hostLine.length : Int) < 0 := by omega
  rw [sendHost, bind_of_ok run, if_neg whole, bind_apply, get_apply, ok_bind, Int.toNat_natCast,
    bind_of_ok pushed, if_neg (Int.lt_irrefl 0), bind_of_ok sent]
  by_cases negative : ret < 0
  · rw [if_pos negative, min_eq_left negative.le]
    rfl
  · rw [if_neg negative, min_eq_right (not_lt.mp negative)]
    rfl

/-! ### The whole of it -/

/-- Without a fault, either both lines are sent, each with one call that takes all of it, or an
error is returned and of the request line all is sent or nothing. -/
def Faithful (req : Request) (s : Sender) : Except Fault (Int × Sender) → Prop
  | .error _ => False
  | .ok (ret, s') =>
      if ret < 0 then
        (s'.handed = s.handed ∨ s.handed ++ [req.requestLine] <+: s'.handed) ∧
          (s'.output = s.output ∨ s.output ++ req.requestLine <+: s'.output)
      else
        s'.handed = s.handed ++ [req.requestLine, req.hostLine] ∧
          s'.output = s.output ++ (req.requestLine ++ req.hostLine)

/-- The method and the URI are longer than the queue, or the request line is shorter than a buffer
and: `send` fails; it takes nothing of the line or all of it, and the Host line is longer than the
queue, or `send` fails then; or the Host line has room for its terminator too, and `send`
takes all of both. `k` is how often `send` was called before. -/
def GoesOut (cfg : Config) (peer : Peer) (req : Request) (k : Nat) : Prop :=
  let line := req.requestLine.length
  let host := req.hostLine.length
  cfg.ringbufferSize ≤ req.target.length ∨
    line < cfg.chunkSize ∧
      (peer.send k line < 0 ∨
        (peer.send k line = 0 ∨ peer.send k line = line) ∧
          (cfg.ringbufferSize ≤ host ∨ host < cfg.chunkSize ∧ peer.send (k + 1) host < 0) ∨
        peer.send k line = line ∧ host + 1 < cfg.chunkSize ∧ peer.send (k + 1) host = host)

theorem faithful_ok {s' : Sender} {ret : Int} : Faithful req s (.ok (ret, s')) ↔
    if ret < 0 then
      (s'.handed = s.handed ∨ s.handed ++ [req.requestLine] <+: s'.handed) ∧
        (s'.output = s.output ∨ s.output ++ req.requestLine <+: s'.output)
    else
      s'.handed = s.handed ++ [req.requestLine, req.hostLine] ∧
        s'.output = s.output ++ (req.requestLine ++ req.hostLine) := Iff.rfl

theorem Faithful.of_unsent {s' : Sender} {ret : Int} (negative : ret < 0)
    (handed : s'.handed = s.handed) (output : s'.output = s.output) :
    Faithful req s (.ok (ret, s')) := by
  rw [Faithful, if_pos negative]
  exact ⟨Or.inl handed, Or.inl output⟩

/-- If anything was handed over, the request line was the first. -/
theorem Faithful.first_eq {s' : Sender} {ret : Int} (faithful : Faithful req s (.ok (ret, s')))
    {first : Bytes} (sent : s.handed ++ [first] <+: s'.handed) : first = req.requestLine := by
  have line : s.handed ++ [req.requestLine] <+: s'.handed := by
    rw [Faithful] at faithful
    split_ifs at faithful
    · rcases faithful.1 with same | line
      · have := sent.length_le
        rw [same, List.length_append, List.length_singleton] at this
        omega
      · exact line
    · rw [faithful.1]
      exact ⟨[req.hostLine], by simp⟩
  have same := List.prefix_of_prefix_length_le sent line (by simp)
  simpa using same.eq_of_length (by simp)

theorem sendHost_grows (cfg : Config) (peer : Peer) (req : Request) :
    Within Grows (sendHost cfg peer req) :=
  (printTmp_grows _ _).bind fun _ => .ite (fun _ => .pure _) fun _ => Within.get.bind fun _ =>
    (pushBlock_grows _ _).bind fun _ => .ite (fun _ => .pure _) fun _ =>
      (clientSend_grows cfg peer).bind fun _ => .ite (fun _ => .pure _) fun _ => .pure _

/-- A line that a buffer has no room for is not sent faithfully. -/
theorem sendStart_long {q : Bytes} (ready : Ready cfg s q)
    (lt : req.target.length < cfg.ringbufferSize)
    (long : cfg.chunkSize ≤ req.requestLine.length) :
    ¬ Faithful req s (sendStart cfg peer req s) := by
  obtain ⟨buf, cleared, ready₁⟩ := ready.clear
  rw [sendStart, bind_of_ok cleared]
  rcases putRequestLine_any ready₁ lt with fault | ⟨s₂, line, run, ready₂, handed₂⟩
  · rw [bind_apply, fault, error_bind]
    exact id
  rw [bind_of_ok run, if_neg (Int.lt_irrefl 0)]
  rcases le_or_gt cfg.chunkSize line.length with overlong | short
  · rw [bind_apply, ready₂.send_overflow overlong, error_bind]
    exact id
  obtain ⟨s₃, sent, ready₃, handed₃, -⟩ := ready₂.send peer short
  rw [bind_of_ok sent]
  -- another line was handed over first
  have differ : line ≠ req.requestLine := by
    rintro rfl
    omega
  have first : s.handed ++ [line] <+: s₃.handed :=
    ⟨[], by rw [List.append_nil, handed₃, handed₂]⟩
  split_ifs with failed
  · exact fun faithful => differ (faithful.first_eq first)
  · intro faithful
    cases ran : sendHost cfg peer req s₃ with
    | error fault =>
        rw [ran] at faithful
        exact faithful
    | ok result =>
        rw [ran] at faithful
        exact differ (faithful.first_eq (first.trans (sendHost_grows cfg peer req _ _ _ ran)))

/-- A part of the line that goes out is all of it or nothing. -/
theorem output_whole_iff (out : Bytes) {line : Bytes} {ret : Int} (nonneg : 0 ≤ ret)
    (le : ret ≤ line.length) :
    (out ++ line.take ret.toNat = out ∨ out ++ line <+: out ++ line.take ret.toNat) ↔
      ret = 0 ∨ ret = line.length := by
  rw [List.append_right_eq_self, List.prefix_append_right_inj, List.prefix_take_iff,
    List.take_eq_nil_iff]
  constructor
  · rintro ((zero | rfl) | ⟨-, all⟩)
    · exact Or.inl (by omega)
    · exact Or.inl (by rw [List.length_nil] at le; omega)
    · exact Or.inr (by omega)
  · rintro (rfl | rfl)
    · exact Or.inl (Or.inl rfl)
    · exact Or.inr ⟨List.prefix_rfl, by omega⟩

/-- A line that it has room for is sent, and what comes then depends on `send`. -/
theorem sendStart_short {q : Bytes} (ready : Ready cfg s q)
    (short : req.requestLine.length < cfg.chunkSize) :
    Faithful req s (sendStart cfg peer req s) ↔ GoesOut cfg peer req s.handed.length := by
  have le : cfg.chunkSize ≤ cfg.ringbufferSize := Nat.div_le_self _ _
  have target_lt : req.target.length < cfg.ringbufferSize := by
    have := requestLine_length req
    omega
  obtain ⟨buf, cleared, ready₁⟩ := ready.clear
  obtain ⟨s₂, run, ready₂, handed₂, output₂⟩ := putRequestLine_eq ready₁ short
  obtain ⟨s₃, sent, ready₃, handed₃, output₃⟩ := ready₂.send peer short
  have bound := peer.send_le s.handed.length req.requestLine.length
  rw [handed₂] at handed₃ sent
  rw [output₂, handed₂] at output₃
  rw [sendStart, bind_of_ok cleared, bind_of_ok run, if_neg (Int.lt_irrefl 0), bind_of_ok sent]
  have cond : GoesOut cfg peer req s.handed.length ↔ _ :=
    or_iff_right (not_le.mpr target_lt) |>.trans (and_iff_right short)
  rw [cond]
  dsimp only at handed₃ output₃ ⊢
  generalize peer.send s.handed.length req.requestLine.length = ret at *
  by_cases failed : ret < 0
  · rw [if_pos failed, pure_apply, faithful_ok, if_pos failed, handed₃, output₃]
    refine iff_of_true ⟨Or.inr List.prefix_rfl, Or.inl ?_⟩ (Or.inl failed)
    rw [Int.toNat_of_nonpos failed.le, List.take_zero, List.append_nil]
  have whole_iff := output_whole_iff s.output (not_lt.mp failed) bound
  rw [if_neg failed]
  rcases le_or_gt cfg.ringbufferSize req.hostLine.length with full | lt
  · obtain ⟨ret', s₄, ran, negative, handed₄, output₄⟩ := sendHost_full peer ready₃ full
    rw [ran, faithful_ok, if_pos negative, handed₄, output₄, handed₃, output₃, whole_iff,
      and_iff_right (Or.inr List.prefix_rfl)]
    constructor
    · exact fun whole => Or.inr (Or.inl ⟨whole, Or.inl full⟩)
    · rintro (negative | ⟨whole, -⟩ | ⟨-, fits, -⟩)
      · exact absurd negative failed
      · exact whole
      · omega
  rcases le_or_gt cfg.chunkSize req.hostLine.length with long | fits
  · rw [sendHost_overflow ready₃ long lt]
    refine iff_of_false id ?_
    rintro (negative | ⟨-, full | ⟨fits, -⟩⟩ | ⟨-, fits, -⟩) <;> omega
  obtain ⟨s₄, text, ran, handed₄, output₄, length_eq, text_eq_iff⟩ := sendHost_eq peer ready₃ fits
  have count : s₃.handed.length = s.handed.length + 1 := by
    rw [handed₃, List.length_append, List.length_singleton]
  rw [handed₃] at handed₄
  rw [count] at ran output₄
  rw [ran, faithful_ok, handed₄, output₄, output₃]
  have bound' := peer.send_le (s.handed.length + 1) req.hostLine.length
  generalize peer.send (s.handed.length + 1) req.hostLine.length = ret' at *
  by_cases failed' : ret' < 0
  · rw [min_eq_left failed'.le, if_pos failed', Int.toNat_of_nonpos failed'.le, List.take_zero,
      List.append_nil, whole_iff, and_iff_right (Or.inr (List.prefix_append _ _))]
    constructor
    · exact fun whole => Or.inr (Or.inl ⟨whole, Or.inr ⟨fits, failed'⟩⟩)
    · rintro (negative | ⟨whole, -⟩ | ⟨-, -, all⟩)
      · exact absurd negative failed
      · exact whole
      · omega
  · rw [min_eq_right (not_lt.mp failed'), if_neg (Int.lt_irrefl 0), List.append_assoc,
      List.append_right_inj, List.append_assoc, List.append_right_inj]
    constructor
    · intro ⟨same, all⟩
      have text_eq : text = req.hostLine := by simpa using same
      have lengths := congrArg List.length all
      simp only [List.length_append, List.length_take, length_eq] at lengths
      exact Or.inr (Or.inr ⟨by omega, text_eq_iff.mp text_eq, by omega⟩)
    · rintro (negative | ⟨-, full | ⟨-, negative⟩⟩ | ⟨all, room, all'⟩)
      · exact absurd negative failed
      · omega
      · exact absurd negative failed'
      · rw [text_eq_iff.mpr room, all, all', Int.toNat_natCast, Int.toNat_natCast, List.take_length,
          List.take_length]
        exact ⟨rfl, rfl⟩

/-- `send_start` sends the request line and the Host line faithfully exactly if they are short
enough and `send` does not take a part of the request line, or of the Host line. -/
theorem sendStart_faithful_iff {q : Bytes} (ready : Ready cfg s q) :
    Faithful req s (sendStart cfg peer req s) ↔ GoesOut cfg peer req s.handed.length := by
  rcases le_or_gt cfg.ringbufferSize req.target.length with full | lt
  · obtain ⟨buf, cleared, ready'⟩ := ready.clear
    obtain ⟨ret, s', run, negative, handed, output⟩ := putRequestLine_full ready' full
    rw [sendStart, bind_of_ok cleared, bind_of_ok run, if_pos negative]
    exact iff_of_true (.of_unsent negative handed output) (Or.inl full)
  · rcases le_or_gt cfg.chunkSize req.requestLine.length with long | short
    · refine iff_of_false (sendStart_long ready lt long) ?_
      rintro (full | ⟨short, -⟩) <;> omega
    · exact sendStart_short ready short

end Lines

/-- A request with one parameter. -/
def getParameter (value : Text) : Request :=
  { Request.bare with query := [(⟨[0x6B], by decide⟩, value)] }

theorem standard_chunkSize : Config.standard.chunkSize = 512 := rfl

/-- `GET /?k=v`. -/
theorem sendStart_faithful_short : Faithful (getParameter ⟨[0x76], by decide⟩) (.init .standard)
    (sendStart .standard .takesAll (getParameter ⟨[0x76], by decide⟩) (.init .standard)) := by
  have ready := Sender.init_ready .standard
  generalize Sender.init .standard = s at ready ⊢
  refine (sendStart_faithful_iff ready).mpr (Or.inr ⟨?_, Or.inr (Or.inr ⟨rfl, ?_, rfl⟩)⟩)
  · rw [standard_chunkSize]
    decide
  · rw [standard_chunkSize]
    decide

/-- A parameter of 1100 characters is left out, and the line goes out without it. -/
theorem sendStart_unfaithful : ¬ ∀ (cfg : Config) (peer : Peer) (req : Request) (s : Sender)
    (q : Bytes), Ready cfg s q → Faithful req s (sendStart cfg peer req s) := by
  intro all
  obtain ⟨value, length_eq⟩ : ∃ value : Text, value.val.length = 1100 :=
    ⟨⟨List.replicate 1100 0x76, fun mem => absurd (List.eq_of_mem_replicate mem) (by decide)⟩,
      List.length_replicate⟩
  have target_eq : (getParameter value).target.length = 5 := rfl
  have size_eq : Config.standard.ringbufferSize = 1024 := rfl
  have chunk_eq := standard_chunkSize
  have ready := Sender.init_ready .standard
  generalize Sender.init .standard = s at ready
  refine sendStart_long ready (by omega) ?_
    (all .standard .takesAll (getParameter value) s [] ready)
  rw [requestLine_length]
  simp only [getParameter, queryText, parameterText, List.length_append, length_eq]
  omega

end AcnSdk.Http
