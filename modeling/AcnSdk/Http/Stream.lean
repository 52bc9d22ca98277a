/-
What the client reads from the connection, without the queue and the segments.

`streamSource` offers the lines and pieces of the bytes themselves. `receive_sim` shows
that the client on a ring buffer and a socket does what it does on the stream of bytes,
however they are segmented: each is waited for, read ahead and taken out of the queue in
the same order.
-/

import AcnSdk.Http.Client
import AcnSdk.Lib.Simulation

namespace AcnSdk.Http

open AcnSdk.Lib AcnSdk.Data AcnSdk.Arrow Prog Ascii

/-! ### Lines -/

/-- The first line with its end, and the rest. -/
def splitLine : Bytes → Option (Bytes × Bytes)
  | c :: d :: s =>
      if c = cr ∧ d = lf then some (crlf, s)
      else (splitLine (d :: s)).map fun p => (c :: p.1, p.2)
  | _ => none

theorem splitLine_append {s line rest : Bytes} (found : splitLine s = some (line, rest))
    (t : Bytes) :
    splitLine (s ++ t) = some (line, rest ++ t) := by
  induction s using splitLine.induct generalizing line with
  | case1 c d s ends =>
      obtain ⟨rfl, rfl⟩ := ends
      cases found
      rfl
  | case2 c d s goes_on ih =>
      rw [splitLine, if_neg goes_on] at found
      obtain ⟨⟨line', rest'⟩, found', eq⟩ := Option.map_eq_some_iff.mp found
      cases eq
      have more := ih found'
      rw [List.cons_append, List.cons_append, splitLine, if_neg goes_on,
        ← List.cons_append, more]
      rfl
  | case3 s short =>
      cases s with
      | nil => cases found
      | cons c s =>
          cases s with
          | nil => cases found
          | cons d s => exact absurd rfl (short c d s)

/-- One more character ends a line or does not. -/
theorem splitLine_snoc {s : Bytes} (unfinished : splitLine s = none) (c : Byte) :
    splitLine (s ++ [c]) = if 2 ≤ (s ++ [c]).length ∧ (s ++ [c]).drop ((s ++ [c]).length - 2) = crlf
      then some (s ++ [c], []) else none := by
  induction s using splitLine.induct with
  | case1 c d s ends =>
      rw [splitLine, if_pos ends] at unfinished
      cases unfinished
  | case2 d e s goes_on ih =>
      rw [splitLine, if_neg goes_on, Option.map_eq_none_iff] at unfinished
      rw [List.cons_append, List.cons_append, splitLine, if_neg goes_on, ← List.cons_append,
        ih unfinished]
      have length : (d :: (e :: s ++ [c])).length - 2 = (e :: s ++ [c]).length - 2 + 1 := by
        simp only [List.length_cons, List.length_append, List.length_nil]
        omega
      rw [length, List.drop_succ_cons]
      simp
  | case3 s short =>
      cases s with
      | nil => rfl
      | cons d s =>
          cases s with
          | nil =>
              by_cases ends : d = cr ∧ c = lf
              · obtain ⟨rfl, rfl⟩ := ends
                rfl
              · simp [splitLine, ends, crlf]
          | cons e s => exact absurd rfl (short d e s)

theorem splitLine_eq {s line rest : Bytes} (found : splitLine s = some (line, rest)) :
    s = line ++ rest ∧ 2 ≤ line.length := by
  induction s using splitLine.induct generalizing line with
  | case1 c d s ends =>
      obtain ⟨rfl, rfl⟩ := ends
      cases found
      exact ⟨rfl, Nat.le_refl 2⟩
  | case2 c d s goes_on ih =>
      rw [splitLine, if_neg goes_on] at found
      obtain ⟨⟨line', rest'⟩, found', eq⟩ := Option.map_eq_some_iff.mp found
      cases eq
      obtain ⟨whole, long⟩ := ih found'
      refine ⟨by rw [whole]; rfl, ?_⟩
      simp only [List.length_cons]
      omega
  | case3 s short =>
      cases s with
      | nil => cases found
      | cons c s =>
          cases s with
          | nil => cases found
          | cons d s => exact absurd rfl (short c d s)

/-- A text without a line does not end as a line does. -/
theorem not_ends_of_splitLine {s : Bytes} (unfinished : splitLine s = none) :
    ¬ (2 ≤ s.length ∧ s.drop (s.length - 2) = crlf) := by
  rcases List.eq_nil_or_concat s with rfl | ⟨front, c, rfl⟩
  · simp
  · rw [List.concat_eq_append] at *
    have front_unfinished : splitLine front = none := by
      cases found : splitLine front with
      | none => rfl
      | some p =>
          rw [splitLine_append found] at unfinished
          cases unfinished
    rw [splitLine_snoc front_unfinished] at unfinished
    intro ends
    rw [if_pos ends] at unfinished
    cases unfinished

/-- A line goes on behind a text that has none. -/
theorem splitLine_length {s t line rest : Bytes} (unfinished : splitLine s = none)
    (found : splitLine (s ++ t) = some (line, rest)) : s.length < line.length := by
  induction s using splitLine.induct generalizing line with
  | case1 c d s ends =>
      rw [splitLine, if_pos ends] at unfinished
      cases unfinished
  | case2 c d s goes_on ih =>
      rw [splitLine, if_neg goes_on, Option.map_eq_none_iff] at unfinished
      rw [List.cons_append, List.cons_append, splitLine, if_neg goes_on,
        ← List.cons_append] at found
      obtain ⟨⟨line', rest'⟩, found', eq⟩ := Option.map_eq_some_iff.mp found
      cases eq
      have longer := ih unfinished found'
      simp only [List.length_cons] at longer ⊢
      omega
  | case3 s short =>
      have long := (splitLine_eq found).2
      cases s with
      | nil => exact Nat.lt_of_lt_of_le Nat.two_pos long
      | cons c s =>
          cases s with
          | nil => exact Nat.lt_of_lt_of_le Nat.one_lt_two long
          | cons d s => exact absurd rfl (short c d s)

/-! ### The stream -/

/-- The lines and pieces of the bytes that arrive before `recv` fails or, if it does not, the
peer closes the connection. A piece longer than `limit` does not fit. -/
def streamSource (fails : Bool) (limit : Nat) : Source Bytes where
  waitLine size := fun stream =>
    match splitLine stream with
    | some (line, rest) => if line.length < size then .ok (some line, rest) else .error .overflow
    | none =>
        if stream.length < size then
          if fails then .ok (none, []) else .error .endless
        else .error .overflow
  getPiece needToRead errors := fun stream =>
    if limit < min needToRead stream.length then .error .overflow
    else if needToRead ≤ stream.length then
      .ok (some (stream.take needToRead, errors), stream.drop needToRead)
    else if fails then .ok (none, stream) else .error .endless
  clear := pure ()

/-! ### Receiving into the queue -/

section Recv

variable {cfg : Config} {s : Session} {q : Bytes} {len : Nat}

/-- The bytes that a call returns. -/
def Net.got (net : Net) (len : Nat) : Bytes := net.pending.take (net.grant len)

/-- The network after a call that returns bytes. -/
def Net.after (net : Net) (len : Nat) : Net :=
  { net with pending := net.pending.drop (net.grant len), calls := net.calls + 1 }

theorem Net.got_append (net : Net) (len : Nat) :
    net.got len ++ (net.after len).pending = net.pending :=
  List.take_append_drop _ _

theorem Net.got_length_le (net : Net) (len : Nat) : (net.got len).length ≤ len := by
  rw [got, List.length_take, grant]
  omega

theorem Net.got_ne_nil {net : Net} (nonempty : net.pending ≠ []) (pos : 0 < len) :
    net.got len ≠ [] := by
  intro empty
  rw [got, List.take_eq_nil_iff] at empty
  rcases empty with zero | none
  · rw [grant] at zero
    omega
  · exact nonempty none

/-- What `client_recv` asks for. -/
theorem asked_eq (holds : Holds s.queue q) (room : q.length + len < s.queue.total) :
    min (len % 2 ^ 16) (ringbufCapacity s.queue) = len := by
  have := holds.total_lt
  rw [holds.capacity_eq, Nat.mod_eq_of_lt (by omega)]
  omega

/-- The connection has ended. -/
theorem clientRecv_ended (ended : s.net.pending = []) :
    clientRecv cfg len s =
      .ok (min s.net.ending 0, { s with net := { s.net with calls := s.net.calls + 1 } }) := by
  have negative : ¬ 0 < min s.net.ending 0 := by omega
  simp [clientRecv, Net.recv, ended, negative]

theorem clientRecv_overflow (holds : Holds s.queue q) (room : q.length + len < s.queue.total)
    (nonempty : s.net.pending ≠ []) (beyond : cfg.scratch < (s.net.got len).length) :
    clientRecv cfg len s = .error .overflow := by
  rw [Net.got] at beyond
  simp only [clientRecv, bind_apply, get_apply, ok_bind, asked_eq holds room, Net.recv, nonempty,
    if_false, beyond, if_true, throw_apply]

/-- Bytes arrive in the queue. -/
theorem clientRecv_eq (holds : Holds s.queue q) (room : q.length + len < s.queue.total)
    (pos : 0 < len) (nonempty : s.net.pending ≠ []) (fits : (s.net.got len).length ≤ cfg.scratch) :
    ∃ queue, clientRecv cfg len s = .ok (((s.net.got len).length : Int), ⟨queue, s.net.after len⟩) ∧
      queue.total = s.queue.total ∧ Holds queue (q ++ s.net.got len) := by
  have some_got := Net.got_ne_nil nonempty pos
  have le := s.net.got_length_le len
  obtain ⟨queue, pushed, total, holds'⟩ := holds.push some_got (by omega)
  refine ⟨queue, ?_, total, holds'⟩
  have positive : (0 : Int) < (s.net.got len).length := by
    have := List.length_pos_of_ne_nil some_got
    omega
  rw [Net.got] at *
  simp only [clientRecv, bind_apply, get_apply, ok_bind, asked_eq holds room, Net.recv, nonempty,
    if_false, Nat.not_lt.mpr fits, set_apply, positive, if_true, onQueue, Int.toNat_natCast, pushed,
    Int.lt_irrefl, pure_apply, Net.after]

end Recv

/-! ### Simulation -/

/-- The client has read everything before `stream`: part of it is in the queue. In a `slow` run
nothing is read ahead. -/
structure Unread (cfg : Config) (fails slow : Bool) (amount : Nat → Nat → Nat) (s : Session)
    (stream : Bytes) : Prop where
  queue : ∃ q, Holds s.queue q ∧ q ++ s.net.pending = stream ∧ (slow = true → q = [])
  total_eq : s.queue.total = cfg.ringbufferSize
  ending : s.net.ending < 0 ↔ fails = true
  amount_eq : s.net.amount = amount

section Line

variable (cfg : Config) (size : Nat) {fails slow : Bool} {amount : Nat → Nat → Nat} {s : Session}

variable {q buf : Bytes} {c : Byte} {stream : Bytes} (fuel : Nat)
  (unfinished : ¬ (2 ≤ buf.length ∧ buf.drop (buf.length - 2) = crlf))

include unfinished

/-- The next byte is in the queue. -/
theorem waitLineFrom_pop (holds : Holds s.queue (c :: q)) :
    ∃ queue, Holds queue q ∧ queue.total = s.queue.total ∧
      waitLineFrom cfg size size (fuel + 1) buf s =
        (if size ≤ (buf ++ [c]).length then .error .overflow
          else waitLineFrom cfg size size fuel (buf ++ [c]) ⟨queue, s.net⟩) := by
  obtain ⟨queue, popped, total, holds'⟩ := holds.pop (show 1 ≤ (c :: q).length by simp)
  refine ⟨queue, holds', total, ?_⟩
  rw [waitLineFrom, if_neg unfinished]
  simp only [bind_apply, onQueue, popped, ok_bind, List.take_succ_cons, List.take_zero]
  by_cases beyond : size ≤ (buf ++ [c]).length
  · rw [if_pos beyond, if_pos beyond]
    rfl
  · rw [if_neg beyond, if_neg beyond, if_neg (by omega)]

/-- The queue is empty, and bytes arrive. -/
theorem waitLineFrom_recv (holds : Holds s.queue []) (total : s.queue.total = cfg.ringbufferSize)
    (nonempty : s.net.pending ≠ []) :
    ∃ queue, Holds queue (s.net.got lineChunk) ∧ queue.total = s.queue.total ∧
      waitLineFrom cfg size size (fuel + 1) buf s =
        waitLineFrom cfg size size fuel buf ⟨queue, s.net.after lineChunk⟩ := by
  have line_lt := cfg.line_lt
  have room : ([] : Bytes).length + lineChunk < s.queue.total := by
    rw [total, List.length_nil]
    omega
  have fits : (s.net.got lineChunk).length ≤ cfg.scratch :=
    Nat.le_trans (s.net.got_length_le lineChunk) cfg.line_le
  obtain ⟨queue, received, total', holds'⟩ :=
    clientRecv_eq holds room (by decide) nonempty fits
  refine ⟨queue, holds', total', ?_⟩
  have capacity : lineChunk < ringbufCapacity s.queue := by
    rw [holds.capacity_eq, total, List.length_nil]
    omega
  have positive : ¬ (((s.net.got lineChunk).length : Int) < 0) := by omega
  rw [waitLineFrom, if_neg unfinished]
  simp only [bind_apply, onQueue, holds.pop_short (show ¬ 1 ≤ [].length by decide), ok_bind,
    get_apply,
    capacity, if_true, received, positive, if_false]

/-- The next byte of the stream, from the queue or received first. -/
theorem waitLineFrom_cons (one : slow = true → ∀ i, amount i lineChunk = 1)
    (unread : Unread cfg fails slow amount s (c :: stream)) :
    ∃ s' fuel', fuel ≤ fuel' ∧ Unread cfg fails slow amount s' stream ∧
      waitLineFrom cfg size size (fuel + 2) buf s =
        (if size ≤ (buf ++ [c]).length then .error .overflow
          else waitLineFrom cfg size size fuel' (buf ++ [c]) s') := by
  obtain ⟨⟨q, holds, eq, ahead⟩, total, ending, amounts⟩ := unread
  cases q with
  | cons b q =>
      obtain ⟨rfl, tail⟩ := List.cons.inj eq
      obtain ⟨queue, holds', total', popped⟩ :=
        waitLineFrom_pop cfg size (fuel + 1) unfinished holds
      refine ⟨⟨queue, s.net⟩, fuel + 1, by omega, ⟨⟨q, holds', tail, fun slow => ?_⟩,
        total'.trans total, ending, amounts⟩, popped⟩
      cases ahead slow
  | nil =>
      rw [List.nil_append] at eq
      have nonempty : s.net.pending ≠ [] := by
        rw [eq]
        exact List.cons_ne_nil _ _
      obtain ⟨queue, holds', total', received⟩ :=
        waitLineFrom_recv cfg size (fuel + 1) unfinished holds total nonempty
      -- what arrives starts with the next byte
      have whole := s.net.got_append lineChunk
      obtain ⟨b, rest, got⟩ := List.exists_cons_of_ne_nil
        (Net.got_ne_nil nonempty (show 0 < lineChunk by decide))
      rw [got] at whole holds'
      rw [eq] at whole
      obtain ⟨rfl, tail⟩ := List.cons.inj whole
      obtain ⟨queue', holds'', total'', popped⟩ :=
        waitLineFrom_pop cfg size (s := ⟨queue, s.net.after lineChunk⟩) fuel unfinished holds'
      refine ⟨⟨queue', s.net.after lineChunk⟩, fuel, Nat.le_refl _, ⟨⟨rest, holds'', tail,
        fun is_slow => ?_⟩, total''.trans (total'.trans total), ending, amounts⟩,
        received.trans popped⟩
      have single := congrArg List.length got
      rw [Net.got, List.length_take, Net.grant, amounts, one is_slow, List.length_cons] at single
      exact List.length_eq_zero_iff.mp (by omega)

omit unfinished

theorem waitLineFrom_ended (unread : Unread cfg fails slow amount s [])
    (unfinished : ¬ (2 ≤ buf.length ∧ buf.drop (buf.length - 2) = crlf)) :
    ∃ s', Unread cfg fails slow amount s' [] ∧ waitLineFrom cfg size size (fuel + 1) buf s =
      if fails then .ok (none, s') else waitLineFrom cfg size size fuel buf s' := by
  obtain ⟨⟨q, holds, eq, ahead⟩, total, ending, amounts⟩ := unread
  obtain ⟨rfl, ended⟩ := List.append_eq_nil_iff.mp eq
  have line_lt := cfg.line_lt
  have capacity : lineChunk < ringbufCapacity s.queue := by
    rw [holds.capacity_eq, total, List.length_nil]
    omega
  refine ⟨{ s with net := { s.net with calls := s.net.calls + 1 } },
    ⟨⟨[], holds, eq, ahead⟩, total, ending, amounts⟩, ?_⟩
  rw [waitLineFrom, if_neg unfinished]
  simp only [bind_apply, onQueue, holds.pop_short (show ¬ 1 ≤ [].length by decide), ok_bind,
    get_apply,
    capacity, if_true, clientRecv_ended ended]
  by_cases failed : s.net.ending < 0
  · rw [if_pos (by omega), if_pos (ending.mp failed)]
    rfl
  · rw [if_neg (by omega), if_neg (fun h => failed (ending.mpr h))]

/-- The connection was closed: `wait_line` waits for ever. -/
theorem waitLineFrom_closed (unread : Unread cfg false slow amount s [])
    (unfinished : ¬ (2 ≤ buf.length ∧ buf.drop (buf.length - 2) = crlf)) :
    waitLineFrom cfg size size fuel buf s = .error .endless := by
  induction fuel generalizing s with
  | zero => rfl
  | succ fuel ih =>
      obtain ⟨s', unread', eq⟩ := waitLineFrom_ended cfg size fuel unread unfinished
      rw [eq]
      exact ih unread'

/-- `wait_line` from any point of a line on. -/
theorem waitLineFrom_ends (one : slow = true → ∀ i, amount i lineChunk = 1) (escape : Fault → Prop)
    (limit : Nat) (unread : Unread cfg fails slow amount s stream) (short : buf.length < size)
    (unfinished : splitLine buf = none) (enough : 2 * stream.length + 1 ≤ fuel) :
    Ends escape
      (fun _ s' rest => Unread cfg fails slow amount s' rest ∧ rest.length ≤ stream.length)
      (waitLineFrom cfg size size fuel buf s)
      ((streamSource fails limit).waitLine size (buf ++ stream)) := by
  have open_line := not_ends_of_splitLine unfinished
  induction stream generalizing s buf fuel with
  | nil =>
      obtain ⟨fuel, rfl⟩ : ∃ k, fuel = k + 1 := ⟨fuel - 1, by omega⟩
      rw [List.append_nil]
      simp only [streamSource, unfinished, short, if_true]
      cases fails with
      | true =>
          obtain ⟨s', unread', eq⟩ := waitLineFrom_ended cfg size fuel unread open_line
          rw [eq, if_pos rfl, if_pos rfl]
          exact .ok ⟨unread', Nat.le_refl _⟩
      | false =>
          rw [waitLineFrom_closed cfg size (fuel + 1) unread open_line]
          exact .fault _
  | cons c stream ih =>
      rw [List.length_cons] at enough
      obtain ⟨fuel, rfl⟩ : ∃ k, fuel = k + 2 := ⟨fuel - 2, by omega⟩
      obtain ⟨s', fuel', more, unread', eq⟩ := waitLineFrom_cons cfg size fuel open_line one unread
      have whole : buf ++ c :: stream = buf ++ [c] ++ stream := by simp
      rw [eq, whole]
      by_cases beyond : size ≤ (buf ++ [c]).length
      · have stopped : (streamSource fails limit).waitLine size (buf ++ [c] ++ stream) =
            .error .overflow := by
          rw [List.length_append, List.length_singleton] at beyond
          rw [← whole]
          simp only [streamSource]
          cases found : splitLine (buf ++ c :: stream) with
          | some p =>
              have longer := splitLine_length unfinished found
              exact if_neg (by omega)
          | none =>
              refine if_neg ?_
              rw [List.length_append, List.length_cons]
              omega
        rw [if_pos beyond, stopped]
        exact .fault _
      rw [if_neg beyond]
      by_cases ends : 2 ≤ (buf ++ [c]).length ∧ (buf ++ [c]).drop ((buf ++ [c]).length - 2) = crlf
      · have found : splitLine (buf ++ [c]) = some (buf ++ [c], []) := by
          rw [splitLine_snoc unfinished, if_pos ends]
        obtain ⟨fuel', rfl⟩ : ∃ k, fuel' = k + 1 := ⟨fuel' - 1, by omega⟩
        rw [waitLineFrom, if_pos ends]
        simp only [streamSource, splitLine_append found, List.nil_append, Nat.not_le.mp beyond,
          if_true]
        exact .ok ⟨unread', by simp⟩
      · have still : splitLine (buf ++ [c]) = none := by
          rw [splitLine_snoc unfinished, if_neg ends]
        refine (ih fuel' unread' (by omega) still (by omega) ends).weaken ?_
        rintro b s'' rest ⟨unread'', shorter⟩
        exact ⟨unread'', by rw [List.length_cons]; omega⟩

end Line

section Piece

variable (cfg : Config) {fails slow : Bool} {amount : Nat → Nat → Nat} {s : Session} {q : Bytes}
  {needToRead : Nat} (errors fuel : Nat)

/-- One round of the loop that fills the queue. -/
theorem fillQueue_succ (short : ringbufSize s.queue < needToRead) :
    fillQueue cfg (fuel + 1) needToRead errors s =
      (clientRecv cfg (needToRead - ringbufSize s.queue) s).bind fun r =>
        (if r.1 < 0 then if 2 < errors then pure none
          else fillQueue cfg fuel needToRead (errors + 1)
          else fillQueue cfg fuel needToRead errors : Prog Session (Option Nat)) r.2 := by
  rw [fillQueue]
  simp only [bind_apply, get_apply, ok_bind, if_neg (Nat.not_le.mpr short)]

/-- The connection failed: the loop tries up to four times. -/
theorem fillQueue_failed (short : ringbufSize s.queue < needToRead) (ended : s.net.pending = [])
    (failed : s.net.ending < 0) (enough : 4 - errors ≤ fuel) :
    ∃ s', fillQueue cfg (fuel + 1) needToRead errors s = .ok (none, s') := by
  induction fuel generalizing s errors with
  | zero =>
      rw [fillQueue_succ cfg errors 0 short, clientRecv_ended ended, ok_bind]
      dsimp only
      rw [if_pos (by omega), if_pos (by omega)]
      exact ⟨_, rfl⟩
  | succ fuel ih =>
      rw [fillQueue_succ cfg errors (fuel + 1) short, clientRecv_ended ended, ok_bind]
      dsimp only
      rw [if_pos (by omega)]
      by_cases enough_errors : 2 < errors
      · rw [if_pos enough_errors]
        exact ⟨_, rfl⟩
      · rw [if_neg enough_errors]
        exact ih (errors + 1) short ended failed (by omega)

/-- The connection was closed: the loop goes on for ever. -/
theorem fillQueue_closed (short : ringbufSize s.queue < needToRead) (ended : s.net.pending = [])
    (closed : ¬ s.net.ending < 0) : fillQueue cfg fuel needToRead errors s = .error .endless := by
  induction fuel generalizing s with
  | zero => rfl
  | succ fuel ih =>
      rw [fillQueue_succ cfg errors fuel short, clientRecv_ended ended, ok_bind]
      dsimp only
      rw [if_neg (by omega)]
      exact ih short ended closed

/-- What the loop that fills the queue leads to. -/
inductive Filled (cfg : Config) (fails : Bool) (needToRead errors : Nat) (s : Session) (q : Bytes) :
    Except Fault (Option Nat × Session) → Prop where
  | full {s' : Session} {q' : Bytes} (holds : Holds s'.queue q')
      (eq : q' ++ s'.net.pending = q ++ s.net.pending) (enough : needToRead ≤ q'.length)
      (exact : q.length ≤ needToRead → q'.length = needToRead)
      (total : s'.queue.total = s.queue.total) (ending : s'.net.ending = s.net.ending)
      (amounts : s'.net.amount = s.net.amount) :
      Filled cfg fails needToRead errors s q (.ok (some errors, s'))
  | failed {s' : Session} (short : (q ++ s.net.pending).length < needToRead)
      (failed : fails = true) :
      Filled cfg fails needToRead errors s q (.ok (none, s'))
  | closed (short : (q ++ s.net.pending).length < needToRead) (closed : fails = false) :
      Filled cfg fails needToRead errors s q (.error .endless)

theorem fillQueue_ended (holds : Holds s.queue q) (ending : s.net.ending < 0 ↔ fails = true)
    (short : q.length < needToRead) (ended : s.net.pending = []) (enough : 5 ≤ fuel) :
    Filled cfg fails needToRead errors s q (fillQueue cfg fuel needToRead errors s) := by
  have size : ringbufSize s.queue < needToRead := by rwa [ringbufSize, holds.size_eq]
  have all : (q ++ s.net.pending).length < needToRead := by rwa [ended, List.append_nil]
  obtain ⟨fuel, rfl⟩ : ∃ k, fuel = k + 1 := ⟨fuel - 1, by omega⟩
  cases fails with
  | true =>
      obtain ⟨s', eq⟩ := fillQueue_failed cfg errors fuel size ended (ending.mpr rfl) (by omega)
      rw [eq]
      exact .failed all rfl
  | false =>
      rw [fillQueue_closed cfg errors (fuel + 1) size ended (by simp [ending])]
      exact .closed all rfl

/-- What it leads to after bytes were received. -/
theorem Filled.received {queue : RingBuffer} {len : Nat}
    {result : Except Fault (Option Nat × Session)}
    {cfg : Config} {errors : Nat} (total : queue.total = s.queue.total)
    (le : (q ++ s.net.got len).length ≤ needToRead)
    (filled : Filled cfg fails needToRead errors ⟨queue, s.net.after len⟩
      (q ++ s.net.got len) result) :
    Filled cfg fails needToRead errors s q result := by
  have same : q ++ s.net.got len ++ (s.net.after len).pending = q ++ s.net.pending := by
    rw [List.append_assoc, s.net.got_append]
  cases filled with
  | full holds eq enough exact total' ending amounts =>
      exact .full holds (eq.trans same) enough (fun _ => exact le)
        (total'.trans total) ending amounts
  | failed short failed => exact .failed (by rw [← same]; exact short) failed
  | closed short closed => exact .closed (by rw [← same]; exact short) closed

/-- The loop that fills the queue, as long as no call returns more than fits: because of the
network, or because no more is asked for or on its way. -/
theorem fillQueue_filled {escape : Fault → Prop} (holds : Holds s.queue q)
    (total : s.queue.total = cfg.ringbufferSize) (ending : s.net.ending < 0 ↔ fails = true)
    (need_le : needToRead ≤ cfg.chunkSize)
    (polite : escape .overflow ∨
      (∀ i len, len ≤ needToRead → min len (max 1 (s.net.amount i len)) ≤ cfg.scratch) ∨
      min needToRead (q ++ s.net.pending).length ≤ cfg.scratch)
    (enough : s.net.pending.length + 5 ≤ fuel) :
    (escape .overflow ∧ fillQueue cfg fuel needToRead errors s = .error .overflow) ∨
      Filled cfg fails needToRead errors s q (fillQueue cfg fuel needToRead errors s) := by
  have line_lt := cfg.line_lt
  rw [Config.chunkSize] at need_le
  induction fuel generalizing s q with
  | zero => omega
  | succ fuel ih =>
      by_cases full : needToRead ≤ q.length
      · right
        have size : needToRead ≤ ringbufSize s.queue := by rwa [ringbufSize, holds.size_eq]
        have eq : fillQueue cfg (fuel + 1) needToRead errors s = .ok (some errors, s) := by
          rw [fillQueue]
          simp only [bind_apply, get_apply, ok_bind, if_pos size, pure_apply]
        rw [eq]
        exact .full holds rfl full (fun le => Nat.le_antisymm le full) rfl rfl rfl
      by_cases ended : s.net.pending = []
      · exact .inr (fillQueue_ended cfg errors (fuel + 1) holds ending (by omega) ended (by omega))
      have size : ringbufSize s.queue < needToRead := by
        rw [ringbufSize, holds.size_eq]
        omega
      have room : q.length + (needToRead - q.length) < s.queue.total := by omega
      rw [fillQueue_succ cfg errors fuel size, ringbufSize, holds.size_eq]
      by_cases beyond : cfg.scratch < (s.net.got (needToRead - q.length)).length
      · left
        rw [clientRecv_overflow holds room ended beyond]
        refine ⟨polite.resolve_right fun fits => ?_, rfl⟩
        rw [Net.got, List.length_take, Net.grant] at beyond
        rcases fits with fits | fits
        · have := fits s.net.calls (needToRead - q.length) (by omega)
          omega
        · rw [List.length_append] at fits
          omega
      · obtain ⟨queue, received, total', holds'⟩ :=
          clientRecv_eq holds room (by omega) ended (Nat.not_lt.mp beyond)
        have le := s.net.got_length_le (needToRead - q.length)
        have pos := List.length_pos_of_ne_nil
          (Net.got_ne_nil ended (show 0 < needToRead - q.length by omega))
        have lengths := congrArg List.length (s.net.got_append (needToRead - q.length))
        rw [List.length_append] at lengths
        rw [received, ok_bind]
        dsimp only
        rw [if_neg (by omega)]
        have polite' := polite
        rw [← s.net.got_append (needToRead - q.length), ← List.append_assoc] at polite'
        have rest := ih (s := ⟨queue, s.net.after (needToRead - q.length)⟩) holds'
          (total'.trans total) ending polite' (by dsimp only; omega)
        exact rest.imp_right fun filled =>
          filled.received total' (by rw [List.length_append]; omega)

/-- The piece taken out of a queue that was filled. -/
theorem getPiece_of_filled {escape : Fault → Prop} {limit : Nat} {stream : Bytes}
    (whole : q ++ s.net.pending = stream) (ahead : slow = true → q = [])
    (total : s.queue.total = cfg.ringbufferSize) (ending : s.net.ending < 0 ↔ fails = true)
    (amounts : s.net.amount = amount) (fits : ¬ limit < min needToRead stream.length)
    (filled : Filled cfg fails needToRead errors s q (fillQueue cfg fuel needToRead errors s)) :
    Ends escape (fun b s' rest => b.isSome = true →
        Unread cfg fails slow amount s' rest ∧ rest.length ≤ stream.length)
      (getPiece cfg fuel needToRead errors s)
      ((streamSource fails limit).getPiece needToRead errors stream) := by
  simp only [getPiece, bind_apply, streamSource, if_neg fits]
  generalize fillQueue cfg fuel needToRead errors s = result at filled
  cases filled with
  | @full s' q' holds' eq enough exact total' ending' amounts' =>
      rw [whole] at eq
      obtain ⟨queue, popped, total'', holds''⟩ := holds'.pop enough
      have long : needToRead ≤ stream.length := by
        rw [← eq, List.length_append]
        omega
      have front : q'.take needToRead = stream.take needToRead := by
        rw [← eq, List.take_append_of_le_length enough]
      simp only [ok_bind, onQueue, bind_apply, popped, front]
      rw [if_pos long]
      refine .ok fun _ => ⟨⟨⟨q'.drop needToRead, holds'', ?_, fun slow => ?_⟩,
        total''.trans (total'.trans total), by
          rw [ending']; exact ending, amounts'.trans amounts⟩, ?_⟩
      · rw [← eq, List.drop_append_of_le_length enough]
      · have := exact (by rw [ahead slow]; exact Nat.zero_le _)
        rw [List.drop_of_length_le (by omega)]
      · rw [List.length_drop]
        omega
  | failed short failed =>
      rw [whole] at short
      rw [ok_bind, if_neg (by omega), if_pos failed]
      exact .ok fun some => by cases some
  | closed short closed =>
      rw [whole] at short
      rw [error_bind, if_neg (by omega), closed]
      exact .fault _

/-- Pieces from the queue are pieces of the stream, as long as no call returns more bytes
than fit. -/
theorem getPiece_polite {escape : Fault → Prop} {limit : Nat} {stream : Bytes}
    (unread : Unread cfg fails slow amount s stream) (need_le : needToRead ≤ cfg.chunkSize)
    (polite : escape .overflow ∨
      (∀ i len, len ≤ needToRead → min len (max 1 (amount i len)) ≤ cfg.scratch) ∨
      min needToRead stream.length ≤ cfg.scratch)
    (fits : ¬ limit < min needToRead stream.length) (enough : stream.length + 5 ≤ fuel) :
    Ends escape (fun b s' rest => b.isSome = true →
        Unread cfg fails slow amount s' rest ∧ rest.length ≤ stream.length)
      (getPiece cfg fuel needToRead errors s)
      ((streamSource fails limit).getPiece needToRead errors stream) := by
  obtain ⟨⟨q, holds, whole, ahead⟩, total, ending, amounts⟩ := unread
  have pending_le : s.net.pending.length ≤ stream.length := by
    rw [← whole, List.length_append]
    omega
  rcases fillQueue_filled cfg errors fuel holds total ending need_le (by rwa [amounts, whole])
    (by omega) with ⟨escapes, beyond⟩ | filled
  · simp only [getPiece, bind_apply, beyond, error_bind]
    exact .early escapes _
  · exact getPiece_of_filled cfg errors fuel whole ahead total ending amounts fits filled

/-- If calls with more room than fits return all they can, a piece that does not fit is a
fault. -/
theorem getPiece_greedy {escape : Fault → Prop} {stream : Bytes}
    (greedy : ∀ i len, cfg.scratch < len → len ≤ amount i len)
    (unread : Unread cfg fails true amount s stream) (need_le : needToRead ≤ cfg.chunkSize)
    (enough : stream.length + 6 ≤ fuel) :
    Ends escape (fun b s' rest => b.isSome = true →
        Unread cfg fails true amount s' rest ∧ rest.length ≤ stream.length)
      (getPiece cfg fuel needToRead errors s)
      ((streamSource fails cfg.scratch).getPiece needToRead errors stream) := by
  by_cases small : needToRead ≤ cfg.scratch
  · have fits : min needToRead stream.length ≤ cfg.scratch := by omega
    exact getPiece_polite cfg errors fuel unread need_le (.inr (.inr fits)) (by omega) (by omega)
  obtain ⟨⟨q, holds, whole, ahead⟩, total, ending, amounts⟩ := unread
  obtain rfl := ahead rfl
  rw [List.nil_append] at whole
  obtain ⟨fuel, rfl⟩ : ∃ k, fuel = k + 1 := ⟨fuel - 1, by omega⟩
  have size_eq : ringbufSize s.queue = 0 := holds.size_eq
  have line_lt := cfg.line_lt
  have room : ([] : Bytes).length + needToRead < s.queue.total := by
    rw [total, List.length_nil]
    rw [Config.chunkSize] at need_le
    omega
  by_cases ended : s.net.pending = []
  · have filled : Filled cfg fails needToRead errors s [] _ :=
      fillQueue_ended cfg errors (fuel + 1) holds ending (by rw [List.length_nil]; omega) ended
        (by omega)
    refine getPiece_of_filled cfg errors (fuel + 1) (q := []) whole ahead total ending
      amounts ?_ filled
    rw [← whole, ended, List.length_nil]
    omega
  have got_length : (s.net.got needToRead).length = min needToRead stream.length := by
    have := greedy s.net.calls needToRead (by omega)
    rw [Net.got, List.length_take, Net.grant, amounts, whole]
    omega
  have step := fillQueue_succ cfg errors fuel (s := s)
      (show ringbufSize s.queue < needToRead by omega)
  rw [size_eq, Nat.sub_zero] at step
  by_cases beyond : cfg.scratch < min needToRead stream.length
  · rw [clientRecv_overflow holds room ended (by omega)] at step
    simp only [getPiece, bind_apply, step, error_bind, streamSource, if_pos beyond]
    exact .fault _
  · have fits : (s.net.got needToRead).length ≤ cfg.scratch := by omega
    obtain ⟨queue, received, total', holds'⟩ := clientRecv_eq holds room (by omega) ended fits
    have lengths := congrArg List.length (s.net.got_append needToRead)
    rw [List.length_append, whole] at lengths
    have ended' : (s.net.after needToRead).pending = [] := List.length_eq_zero_iff.mp (by omega)
    have filled : Filled cfg fails needToRead errors s []
        (fillQueue cfg (fuel + 1) needToRead errors s) := by
      have rest : Filled cfg fails needToRead errors ⟨queue, s.net.after needToRead⟩ _ _ :=
        fillQueue_ended cfg errors fuel holds' ending (by rw [List.nil_append]; omega) ended'
          (by omega)
      rw [step, received, ok_bind]
      dsimp only
      rw [if_neg (by omega)]
      exact rest.received total' (by rw [List.nil_append]; omega)
    exact getPiece_of_filled cfg errors (fuel + 1) (q := []) whole ahead total ending amounts
      beyond filled

end Piece

end AcnSdk.Http
