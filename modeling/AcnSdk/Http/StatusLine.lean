/-
The status line of a response, and what `receive_response` takes for its code.

The code is read up to `" OK"`, which is in the reason phrase of 200 and of few others, and the
text in front of that goes to eight bytes.

* `receiveResponse_stream` — the segments of the stream do not matter.
* `isStored_iff` — the code is stored exactly if `" OK"` comes early in a line that fits.
-/

import AcnSdk.Http.Message
import AcnSdk.Http.Safety

namespace AcnSdk.Http

open AcnSdk.Lib AcnSdk.Data AcnSdk.Arrow Prog Ascii

/-! ### Only lines are read -/

/-- A source without its pieces of the payload. -/
def Source.lines {σ : Type} (src : Source σ) : Source σ :=
  { src with getPiece := fun _ _ => throw .endless }

theorem waitStatus_lines {σ : Type} (cfg : Config) (src : Source σ) (fuel : Nat) :
    waitStatus cfg src.lines fuel = waitStatus cfg src fuel := by
  induction fuel with
  | zero => rfl
  | succ fuel ih =>
      rw [waitStatus, waitStatus, ih]
      rfl

theorem receiveResponse_lines {σ : Type} (cfg : Config) (src : Source σ) (fuel : Nat)
    (res : Response) : receiveResponse cfg src.lines fuel res =
      receiveResponse cfg src fuel res := by
  rw [receiveResponse, receiveResponse, waitStatus_lines]
  rfl

/-- On every network, the response is what it is on the stream. -/
theorem receiveResponse_stream {cfg : Config} {fails : Bool} {amount : Nat → Nat → Nat}
    {s : Session}
    {stream : Bytes} {fuel : Nat} (res : Response) (arriving : Arriving cfg fails amount s stream)
    (enough : 2 * stream.length + 6 ≤ fuel) (limit : Nat) :
    result (receiveResponse cfg (clientSource cfg fuel) fuel res s) =
      result (receiveResponse cfg (streamSource fails limit) fuel res stream) := by
  have same_lines : ∀ size, 0 < size → Sim (fun _ => False)
      (Fueled fuel (Unread cfg fails false amount)) ((clientSource cfg fuel).waitLine size)
      ((streamSource fails limit).waitLine size)
      fun _ => Fueled fuel (Unread cfg fails false amount) :=
    fun _ pos => client_waitLine (by simp) pos
  have begins : Sim (fun _ => False) (Fueled fuel (Arriving cfg fails amount))
      (clientSource cfg fuel).clear (streamSource fails limit).clear fun _ s t =>
        Fueled fuel (Arriving cfg fails amount) s t ∧
          Fueled fuel (Unread cfg fails false amount) s t := client_begin
  have clears : Sim (fun _ => False) (Fueled fuel (Unread cfg fails false amount))
      (clientSource cfg fuel).clear (streamSource fails limit).clear fun _ _ _ => True :=
        client_clear
  have sim : SourceSim (fun _ => False) cfg (Fueled fuel (Arriving cfg fails amount))
      (Fueled fuel (Unread cfg fails false amount)) (clientSource cfg fuel).lines
      (streamSource fails limit).lines :=
    ⟨same_lines, fun _ _ _ => .throw _, begins, clears⟩
  have ended := (receiveResponse_sim sim fuel res s stream ⟨arriving, enough⟩).result_eq
  rw [receiveResponse_lines, receiveResponse_lines] at ended
  exact ended.resolve_left fun ⟨_, impossible, _⟩ => impossible

/-! ### Status lines -/

/-- `HTTP/1.1 ddd reason`, with lines in front of it that are too short for that. -/
structure StatusLine where
  before : List Bytes
  code : Bytes
  reason : Bytes
  before_short : ∀ line ∈ before,
    splitLine (line ++ crlf) = some (line ++ crlf, []) ∧ line.length < 10
  code_length : code.length = 3
  code_digits : ∀ c ∈ code, isDigit c = true
  reason_plain : Plain reason

namespace StatusLine

/-- What is read up to `" OK"`. -/
def tail (status : StatusLine) : Bytes := status.code ++ space :: status.reason

/-- Without its line end. -/
def line (status : StatusLine) : Bytes := versionText ++ status.tail

/-- The lines on the wire. -/
def text (status : StatusLine) : Bytes :=
  (status.before.map (· ++ crlf)).flatten ++ (status.line ++ crlf)

/-- The client stores the code, whatever comes behind the line and on every network. -/
def IsStored (cfg : Config) (status : StatusLine) : Prop :=
  ∀ rest fails amount s, Arriving cfg fails amount s (status.text ++ rest) →
    ∀ fuel ≥ 2 * (status.text ++ rest).length + 6, ∀ res,
      ∃ res', result (receiveResponse cfg (clientSource cfg fuel) fuel res s) = .ok (0, res') ∧
        res'.httpResponseCode = decimalValue status.code

section

variable {cfg : Config} (status : StatusLine)

theorem length_line : status.line.length = status.reason.length + 13 := by
  simp only [line, tail, versionText, List.length_append, List.length_cons, List.length_nil,
    status.code_length]
  omega

theorem line_plain : Plain status.line := by
  have digits : ∀ c : Byte, isDigit c = false → c ∉ status.code := by
    intro c other mem
    rw [status.code_digits c mem] at other
    cases other
  have code : Plain status.code := ⟨digits cr rfl, digits lf rfl, digits 0 rfl⟩
  have blank : Plain [space] := ⟨by decide, by decide, by decide⟩
  have version : Plain versionText := ⟨by decide, by decide, by decide⟩
  exact version.append (code.append (blank.append status.reason_plain))

/-- The lines in front are skipped. -/
theorem before_steps (rest : Bytes) :
    Steps (shortLine cfg) (status.text ++ rest) (status.before.map (· ++ crlf))
      (status.line ++ crlf ++ rest) := by
  rw [text, List.append_assoc]
  have short := status.before_short
  generalize status.before = before at short ⊢
  induction before with
  | nil => exact .refl _
  | cons line before ih =>
      obtain ⟨⟨ends, few⟩, short⟩ := List.forall_mem_cons.mp short
      have room := cfg.line_lt
      rw [lineChunk] at room
      have first : ∀ t, shortLine cfg (line ++ crlf ++ t) = some (line ++ crlf, t) := by
        intro t
        have length_eq : (line ++ crlf).length = line.length + 2 := List.length_append
        have fits : (line ++ crlf).length < cfg.ringbufferSize := by omega
        have few : (line ++ crlf).length - 2 < 10 := by omega
        rw [shortLine, nextLine, splitLine_append ends t, List.nil_append, Option.filter_some,
          if_pos (decide_eq_true fits), Option.filter_some, if_pos (decide_eq_true few)]
      rw [List.map_cons, List.flatten_cons, List.append_assoc]
      exact .cons (first _) (ih short)

/-- The line is long enough for a status line, and `HTTP/1.1 ` is at its front. -/
theorem statusCode_line : statusCode (status.line ++ crlf) = copyTillToInt status.tail okText := by
  have cut : (status.line ++ crlf).take ((status.line ++ crlf).length - 2) = status.line := by
    rw [List.length_append, show crlf.length = 2 from rfl, Nat.add_sub_cancel, List.take_left]
  have found : strstr versionText status.line = some status.line :=
    strstr_append (List.prefix_append _ _) fun a b split nonempty =>
      absurd (List.append_eq_nil_iff.mp split.symm).2 nonempty
  rw [statusCode, cut, cstr_eq_self status.line_plain.no_nul, found]
  rfl

/-- The result on the stream. -/
theorem receiveResponse_eq {fails : Bool} {limit fuel : Nat} {res : Response} (rest : Bytes)
    (enough : (status.text ++ rest).length < fuel) :
    result (receiveResponse cfg (streamSource fails limit) fuel res (status.text ++ rest)) =
      if status.line.length + 2 < cfg.ringbufferSize then
        (copyTillToInt status.tail okText).map fun code =>
          match code with
          | none => (-1, res)
          | some (code, _) => (0, res.setCode code)
      else .error .overflow := by
  obtain ⟨fuel', enough', skipped⟩ :
    ∃ fuel', _ ∧ waitStatus cfg (streamSource fails limit) fuel _ = _ :=
    waitStatus_steps (status.before_steps rest) enough
  obtain ⟨fuel', rfl⟩ := Nat.exists_eq_add_one_of_ne_zero (Nat.ne_zero_of_lt enough')
  split
  case isTrue fits =>
    have found := nextLine_plain status.line_plain.no_cr fits rest
    have long : ¬ (status.line ++ crlf).length - 2 < 10 := by
      rw [List.length_append, show crlf.length = 2 from rfl, status.length_line]
      omega
    rw [receiveResponse_line (skipped.trans (waitStatus_found found long)), statusCode_line]
    cases copyTillToInt status.tail okText <;> rfl
  case isFalse beyond =>
    have overlong : Overlong cfg.ringbufferSize (status.line ++ crlf ++ rest) := by
      rw [Overlong, splitLine_plain status.line_plain.no_cr]
      simpa [crlf] using beyond
    rw [receiveResponse, bind_apply]
    have clear : (streamSource fails limit).clear (status.text ++ rest) =
        .ok ((), status.text ++ rest) :=
      rfl
    rw [clear, ok_bind, bind_apply, skipped, waitStatus_overlong overlong]
    rfl

/-- A blank is not in the code, so `" OK"` is found behind it. -/
theorem okText_infix_iff :
    okText <:+: status.tail.take 10 ↔ okText <:+: (space :: status.reason).take 7 := by
  have behind : ∀ front t : Bytes, space ∉ front → (okText <:+: front ++ t ↔ okText <:+: t) := by
    intro front t apart
    induction front with
    | nil => rfl
    | cons c front ih =>
        obtain ⟨other, apart⟩ := not_or.mp (fun mem => apart (List.mem_cons.mpr mem))
        rw [List.cons_append, List.infix_cons_iff, ih apart]
        refine or_iff_right fun start => other ?_
        exact (List.cons_prefix_cons.mp start).1
  have no_blank : space ∉ status.code := by
    intro mem
    exact absurd (status.code_digits space mem) (by decide)
  rw [tail, List.take_append, status.code_length,
    List.take_of_length_le (by rw [status.code_length]; decide)]
  exact behind _ _ no_blank

/-- The number of what stands in front of `" OK"`. -/
theorem atoi_tail {v p : Bytes} (split : status.tail = v ++ (okText ++ p)) :
    atoi v = decimalValue status.code := by
  obtain ⟨w, rfl, w_eq⟩ : ∃ w, v = status.code ++ w ∧ ∀ c ∈ w.head?, c = space := by
    rcases List.append_eq_append_iff.mp split with ⟨w, rfl, tail_eq⟩ | ⟨w, code_eq, tail_eq⟩
    · refine ⟨w, rfl, fun c mem => ?_⟩
      cases w with
      | nil => cases mem
      | cons d w =>
          cases mem
          exact (List.cons.inj tail_eq).1.symm
    · cases w with
      | nil => exact ⟨[], by simpa using code_eq.symm, by simp⟩
      | cons d w =>
          obtain ⟨rfl, -⟩ := List.cons.inj tail_eq
          exact absurd (status.code_digits space (by simp [code_eq])) (by decide)
  have number : numberAt 10 (status.code ++ w) = numeralValue 10 status.code := by
    apply numberAt_digits (by decide) (fun c mem => isDigitOf_ten c (status.code_digits c mem))
    · exact List.ne_nil_of_length_eq_add_one status.code_length
    · intro c mem
      rw [w_eq c mem]
      decide
  have small := numeralValue_lt fun c mem => isDigitOf_ten c (status.code_digits c mem)
  rw [status.code_length, numeralValue_ten status.code_digits] at small
  rw [atoi, strtol, number, numeralValue_ten status.code_digits, toLong_of_lt (by omega) (by omega),
    toInt32_of_lt (by omega) (by omega)]

/-- The code that is copied out of the line. -/
theorem copyTillToInt_tail :
    ((∃ n p, copyTillToInt status.tail okText = .ok (some (n, p))) ↔
        okText <:+: (space :: status.reason).take 7) ∧
      ∀ n p, copyTillToInt status.tail okText = .ok (some (n, p)) →
        n = decimalValue status.code := by
  have copied := copyTill_ok_iff status.tail okText (show 0 < 8 by decide)
  rw [show 8 - 1 + okText.length = 10 from rfl, okText_infix_iff] at copied
  rw [← copied, copyTillToInt]
  cases parts : copyTill status.tail okText 8 with
  | error e => exact ⟨by simp [bind, Except.bind], by simp [bind, Except.bind]⟩
  | ok found =>
      cases found with
      | none =>
          exact ⟨by simp [bind, Except.bind, pure, Except.pure],
            by simp [bind, Except.bind, pure, Except.pure]⟩
      | some found =>
          obtain ⟨v, p⟩ := found
          refine ⟨iff_of_true ⟨atoi v, p, rfl⟩ ⟨v, p, rfl⟩, ?_⟩
          intro n p' same
          cases same
          exact status.atoi_tail (copyTill_parts parts).1

end

end StatusLine

/-- The code of a status line is stored exactly if the line fits into its buffer, and `" OK"` is
found in the seven characters behind the code. -/
theorem isStored_iff (cfg : Config) (status : StatusLine) :
    status.IsStored cfg ↔ status.line.length + 2 < cfg.ringbufferSize ∧
      okText <:+: (space :: status.reason).take 7 := by
  obtain ⟨found_iff, number⟩ := status.copyTillToInt_tail
  constructor
  · intro stored
    have arriving := start_arriving cfg (status.text ++ []) true oneByOne
    obtain ⟨res', ok, -⟩ := stored [] true oneByOne _ arriving _ (Nat.le_refl _) .init
    rw [receiveResponse_stream .init arriving (Nat.le_refl _) 0,
      status.receiveResponse_eq [] (by omega)] at ok
    split at ok
    case isFalse => cases ok
    case isTrue fits =>
      refine ⟨fits, found_iff.mp ?_⟩
      cases copied : copyTillToInt status.tail okText with
      | error e =>
          rw [copied] at ok
          cases ok
      | ok code =>
          rw [copied] at ok
          cases code with
          | none => cases ok
          | some code => exact ⟨code.1, code.2, rfl⟩
  · rintro ⟨fits, early⟩ rest fails amount s arriving fuel enough res
    obtain ⟨n, p, copied⟩ := found_iff.mpr early
    obtain rfl := number n p copied
    rw [receiveResponse_stream res arriving enough 0, status.receiveResponse_eq rest (by omega),
      if_pos fits, copied]
    refine ⟨_, rfl, ?_⟩
    have small := numeralValue_lt fun c mem => isDigitOf_ten c (status.code_digits c mem)
    rw [status.code_length, numeralValue_ten status.code_digits] at small
    simp only [Response.setCode]
    omega

/-- `HTTP/1.1 404 Not Found`. -/
def notFound : StatusLine where
  before := []
  code := [0x34, 0x30, 0x34]
  reason := [0x4E, 0x6F, 0x74, 0x20, 0x46, 0x6F, 0x75, 0x6E, 0x64]
  before_short := by simp
  code_length := rfl
  code_digits := List.all_eq_true.mp rfl
  reason_plain := ⟨by decide, by decide, by decide⟩

theorem not_isStored_notFound : ¬ notFound.IsStored .standard := by
  rw [isStored_iff, not_and]
  intro _
  decide

end AcnSdk.Http
