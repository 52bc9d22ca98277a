/-
The wait for a packet, `waitfor`, on a stream of packets.

What is received is told by the stream, not by what the client takes it for: a packet is received
when the reading goes on behind its last byte. The calls keep to the packets as long as they get to
none that is too long for the client, and none breaks off in a fixed header or in a body that is
only read.

* `waitfor_iff` — the wait succeeds if and only if some call takes such a packet.
* `received_iff_mem` — the packets that are received in a wait that ends at a packet boundary.
* `waitfor_packets` — the packets that a wait goes through, if its calls keep to them.
-/

import AcnSdk.Mqtt.FailedReads
import AcnSdk.Mqtt.Handshake

namespace AcnSdk.Mqtt

open AcnSdk.Lib

theorem stream_append (ps qs : List Packet) : stream (ps ++ qs) = stream ps ++ stream qs :=
  List.flatMap_append

/-- Of two ends of a stream, the one with fewer bytes left is an end of the other. -/
theorem suffix_of_length_le {ps qs rs : List Packet} (left : qs <:+ ps) (right : rs <:+ ps)
    (le : (stream qs).length ≤ (stream rs).length) : qs <:+ rs := by
  rcases List.suffix_or_suffix_of_suffix left right with inside | ⟨front, rfl⟩
  · exact inside
  · cases front with
    | nil => exact List.suffix_rfl
    | cons p front =>
        rw [stream_append, stream_cons, Packet.bytes, List.length_append, List.length_append,
          List.length_cons] at le
        omega

namespace Client

open Prog

variable {τ : Type} {env : Env} {w w' : World τ}

/-! ### The wait -/

/-- The calls of `cycle_r` that `waitfor` makes. -/
def waitCalls (env : Env) (packetType : MsgType) : Nat → Prog (World τ) (List (Call τ))
  | 0 => throw .endless
  | fuel + 1 => do
      let gone ← timerIsExpired env .command
      if gone then return []
      else do
        let before ← get
        let rc ← cycleR env
        let after ← get
        if rc ≠ packetType.code ∧ 0 ≤ rc then do
          let cs ← waitCalls env packetType fuel
          return ⟨before, rc, after⟩ :: cs
        else return [⟨before, rc, after⟩]

/-- The wait for a packet succeeds if and only if a call takes one, which is the last call then. -/
theorem waitfor_iff {type : MsgType} {Ahead : World τ → Prop}
    (takes : ∀ {w w' : World τ} {rc : Int}, cycleR env w = .ok (rc, w') →
      (rc = (type.code : Int) ↔ Ahead w))
    {fuel : Nat} {rc₀ rc : Int} (waiting : rc₀ ≠ type.code)
    (run : waitfor env type fuel rc₀ w = .ok (rc, w')) :
    ∃ cs, waitCalls env type fuel w = .ok (cs, w') ∧
      (rc = type.code ↔ ∃ c ∈ cs, Ahead c.before) ∧
      ∀ c ∈ cs, ∀ d ∈ cs, Ahead c.before → Ahead d.before → c = d := by
  induction fuel generalizing w rc₀ with
  | zero => cases run
  | succ fuel ih =>
      rw [waitfor, bind_of_ok (timerIsExpired_eq env .command w)] at run
      rw [waitCalls, bind_of_ok (timerIsExpired_eq env .command w)]
      by_cases gone : w.gone env .command = true
      · rw [if_pos gone] at run ⊢
        cases run
        refine ⟨[], rfl, iff_of_false waiting ?_, List.forall_mem_nil _⟩
        rintro ⟨c, mem, -⟩
        cases mem
      · rw [if_neg gone, bind_apply] at run
        rw [if_neg gone, bind_of_ok (get_apply _)]
        obtain ⟨r, call, run⟩ := ok_of_bind run
        rw [bind_of_ok call, bind_of_ok (get_apply _)]
        have ahead := takes call
        by_cases more : r.1 ≠ type.code ∧ 0 ≤ r.1
        · rw [if_pos more] at run ⊢
          obtain ⟨cs, calls, success_iff, unique⟩ := ih more.1 run
          have not_ahead := mt ahead.mpr more.1
          refine ⟨_, bind_of_ok calls, ?_, ?_⟩
          · rw [success_iff]
            constructor
            · rintro ⟨c, mem, there⟩
              exact ⟨c, List.mem_cons_of_mem _ mem, there⟩
            · rintro ⟨c, mem, there⟩
              rcases List.mem_cons.mp mem with rfl | mem
              · exact absurd there not_ahead
              · exact ⟨c, mem, there⟩
          · intro c mem d mem' there there'
            rcases List.mem_cons.mp mem with rfl | mem
            · exact absurd there not_ahead
            · rcases List.mem_cons.mp mem' with rfl | mem'
              · exact absurd there' not_ahead
              · exact unique c mem d mem' there there'
        · rw [if_neg more] at run ⊢
          cases run
          refine ⟨_, rfl, ahead.trans ?_, ?_⟩
          · constructor
            · exact fun there => ⟨_, List.mem_cons_self, there⟩
            · rintro ⟨c, mem, there⟩
              obtain rfl := List.mem_singleton.mp mem
              exact there
          · intro c mem d mem' _ _
            rw [List.mem_singleton.mp mem, List.mem_singleton.mp mem']

/-- A call that does not fail reads something. -/
theorem cycleR_shorter (room : 8 ≤ w.client.buf.length) {rc : Int}
    (run : cycleR env w = .ok (rc, w')) (pos : 0 ≤ rc) :
    w'.input.length < w.input.length ∧ w'.client.buf.length = w.client.buf.length := by
  rcases cycleR_within_byte (P := fun _ => True) trivial
      (fun _ _ _ message _ len => sendAck_within message len) run with ⟨read, writes⟩ | ⟨failed, -⟩
  · obtain ⟨length, -, input, -⟩ := writes room
    have fits : readResult env w 1 ≤ w.input.length := (readResult_le (by omega)).2
    have le := input.length_le
    rw [World.read, readTakes_of_eq read, List.length_drop] at le
    exact ⟨by omega, length⟩
  · rw [failed] at pos
    exact absurd pos (by decide)

/-- One round more than there are bytes to be read is enough for the wait. -/
theorem waitfor_fuel (type : MsgType) {fuel fuel' : Nat} {rc : Int}
    (room : 8 ≤ w.client.buf.length) (enough : w.input.length < fuel)
    (enough' : w.input.length < fuel') :
    waitfor env type fuel rc w = waitfor env type fuel' rc w := by
  induction fuel generalizing w fuel' rc with
  | zero => cases enough
  | succ fuel ih =>
      obtain ⟨fuel', rfl⟩ := Nat.exists_eq_succ_of_ne_zero (Nat.ne_zero_of_lt enough')
      rw [waitfor, waitfor, bind_of_ok (timerIsExpired_eq env .command w),
        bind_of_ok (timerIsExpired_eq env .command w)]
      by_cases gone : w.gone env .command = true
      · rw [if_pos gone, if_pos gone]
      · rw [if_neg gone, if_neg gone, bind_apply, bind_apply]
        cases call : cycleR env (w.looked env .command) with
        | error e => rfl
        | ok r =>
            rw [ok_bind, ok_bind]
            by_cases more : r.1 ≠ type.code ∧ 0 ≤ r.1
            · obtain ⟨shorter, length⟩ :=
                cycleR_shorter (w := w.looked env .command) room call more.2
              have shorter : r.2.input.length < w.input.length := shorter
              rw [if_pos more, if_pos more]
              exact ih (length.symm ▸ room) (by omega) (by omega)
            · rw [if_neg more, if_neg more]

/-! ### What is received -/

/-- The packet `p` of the stream is read to its end between the two worlds. -/
def Received (ps : List Packet) (p : Packet) (w w' : World τ) : Prop :=
  ∃ rest, p :: rest <:+ ps ∧ (stream (p :: rest)).length ≤ w.input.length ∧
    w'.input.length ≤ (stream rest).length

section

variable {ps taken back : List Packet} {p : Packet} (inside : taken ++ back <:+ ps)
  (input : w.input = stream (taken ++ back))

include inside input

theorem Received.mem (left : (stream back).length ≤ w'.input.length)
    (received : Received ps p w w') : p ∈ taken := by
  obtain ⟨rest, there, begun, read⟩ := received
  rw [input] at begun
  obtain ⟨front, whole⟩ := suffix_of_length_le there inside begun
  obtain ⟨middle, rfl⟩ := suffix_of_length_le ((List.suffix_append _ _).trans inside)
    ((List.suffix_cons _ _).trans there) (left.trans read)
  have same : front ++ p :: middle = taken := by
    refine List.append_cancel_right (?_ : _ ++ back = _ ++ back)
    rw [← whole, List.append_assoc]
    rfl
  rw [← same]
  exact List.mem_append_right _ List.mem_cons_self

theorem received_iff_mem (left : w'.input = stream back) : Received ps p w w' ↔ p ∈ taken := by
  constructor
  · exact Received.mem inside input (Nat.le_of_eq (congrArg List.length left.symm))
  · intro mem
    obtain ⟨front, later, rfl⟩ := List.append_of_mem mem
    rw [List.append_assoc] at inside input
    refine ⟨later ++ back, (List.suffix_append _ _).trans inside, ?_, ?_⟩
    · rw [input, stream_append, List.length_append]
      exact Nat.le_add_left _ _
    · rw [left, stream_append, List.length_append]
      exact Nat.le_add_left _ _

end

theorem not_received_of_same {ps : List Packet} {p : Packet} (same : w'.input = w.input) :
    ¬ Received ps p w w' := by
  rintro ⟨rest, -, begun, read⟩
  rw [same] at read
  rw [stream_cons, Packet.bytes, List.length_append, List.length_cons] at begun
  omega

/-! ### The packets of a wait -/

/-- The packet is the next one of the stream that the call gets to. -/
def Call.Faces (ps : List Packet) (c : Call τ) (p : Packet) (rest : List Packet) : Prop :=
  p :: rest <:+ ps ∧ c.before.input = stream (p :: rest)

theorem Call.Faces.unique {ps rest rest' : List Packet} {c : Call τ} {p q : Packet}
    (one : c.Faces ps p rest) (two : c.Faces ps q rest') : p = q := by
  have length := congrArg List.length (one.2.symm.trans two.2)
  have inside := suffix_of_length_le one.1 two.1 (Nat.le_of_eq length)
  have inside' := suffix_of_length_le two.1 one.1 (Nat.le_of_eq length.symm)
  have same := inside.eq_of_length (Nat.le_antisymm inside.length_le inside'.length_le)
  exact (List.cons.inj same).1

/-- The calls start at a packet boundary. They get to no packet that is too long for the client,
and read on in each packet that they begin. -/
structure Kept (env : Env) (ps : List Packet) (w : World τ) (cs : List (Call τ)) : Prop where
  boundary : AtBoundary ps w.input
  short : ∀ c ∈ cs, ∀ p rest, c.Faces ps p rest → p.body.length ≤ maxMsgLen
  readOn : ∀ c ∈ cs, ∀ p rest, c.Faces ps p rest → ReadOn env p c.before.reads

/-- There is nothing left to be read. -/
theorem cycleR_empty (input : w.input = []) {rc : Int} (run : cycleR env w = .ok (rc, w')) :
    rc = failure := by
  have none : readResult env w 1 ≠ 1 := by
    intro one
    have pos : 0 < readResult env w 1 := by omega
    have le := (readResult_le pos).2
    rw [one, input] at le
    exact absurd le (by decide)
  rw [cycleR, bind_of_ok (mqttread_eq 1)] at run
  dsimp only at run
  rw [if_pos none] at run
  cases run
  rfl

/-- The wait took these packets. It has not gone beyond them, and only the last is one that it
waits for. -/
structure WaitTook (ps : List Packet) (type : MsgType) (Ahead : World τ → Prop)
    (cs : List (Call τ)) (taken back : List Packet) (rc : Int) (w' : World τ) : Prop where
  left : (stream back).length ≤ w'.input.length
  failed : rc ≠ type.code → ∀ p ∈ taken, p.type = type → p.Cycled
  took : rc = type.code → w'.input = stream back ∧ ∃ front p c, taken = front ++ [p] ∧
    (∀ q ∈ front, q.type ≠ type) ∧ p.type = type ∧ c ∈ cs ∧ c.Faces ps p back ∧ Ahead c.before

theorem waitfor_packets {type : MsgType} {Ahead : World τ → Prop}
    (takes : ∀ {w w' : World τ} {rc : Int}, cycleR env w = .ok (rc, w') →
      (rc = (type.code : Int) ↔ Ahead w))
    (network : AllOrNothing env) {ps : List Packet} (wf : ∀ p ∈ ps, p.WellFormed) {fuel : Nat}
    {rc₀ rc : Int} (waiting : rc₀ ≠ type.code) {cs : List (Call τ)} {w₂ : World τ}
    {qs : List Packet} (inside : qs <:+ ps) (input : w.input = stream qs)
    (run : waitfor env type fuel rc₀ w = .ok (rc, w'))
    (record : waitCalls env type fuel w = .ok (cs, w₂))
    (short : ∀ c ∈ cs, ∀ p rest, c.Faces ps p rest → p.body.length ≤ maxMsgLen)
    (readOn : ∀ c ∈ cs, ∀ p rest, c.Faces ps p rest → ReadOn env p c.before.reads) :
    ∃ taken back, qs = taken ++ back ∧ WaitTook ps type Ahead cs taken back rc w' := by
  -- nothing more is taken
  have stops {cs : List (Call τ)} {qs : List Packet} {rc : Int} {w' : World τ}
      (other : rc ≠ type.code) (left : (stream qs).length ≤ w'.input.length) :
      ∃ taken back, qs = taken ++ back ∧ WaitTook ps type Ahead cs taken back rc w' :=
    ⟨[], qs, rfl, left, fun _ => List.forall_mem_nil _, fun same => absurd same other⟩
  have failure_ne : failure ≠ (type.code : Int) := by
    cases type <;> decide
  induction fuel generalizing w rc₀ cs qs with
  | zero => cases run
  | succ fuel ih =>
      rw [waitfor, bind_of_ok (timerIsExpired_eq env .command w)] at run
      rw [waitCalls, bind_of_ok (timerIsExpired_eq env .command w)] at record
      by_cases gone : w.gone env .command = true
      · rw [if_pos gone] at run
        cases run
        exact stops waiting (Nat.le_of_eq (congrArg List.length input.symm))
      · rw [if_neg gone, bind_apply] at run
        rw [if_neg gone, bind_of_ok (get_apply _)] at record
        obtain ⟨⟨rc₁, w₁⟩, call, run⟩ := ok_of_bind run
        rw [bind_of_ok call, bind_of_ok (get_apply _)] at record
        dsimp only at run record
        have input' : (w.looked env .command).input = stream qs := input
        cases qs with
        | nil =>
            obtain rfl := cycleR_empty input' call
            rw [if_neg (fun more => absurd more.2 (by decide))] at run
            cases run
            exact stops failure_ne (Nat.zero_le _)
        | cons p rest =>
            let c : Call τ := ⟨w.looked env .command, rc₁, w₁⟩
            have faces : c.Faces ps p rest := ⟨inside, input'⟩
            have mem : c ∈ cs := by
              split_ifs at record
              · rw [bind_apply] at record
                obtain ⟨r, later, record⟩ := ok_of_bind record
                cases record
                exact List.mem_cons_self
              · cases record
                exact List.mem_cons_self
            rw [stream_cons] at input'
            rcases cycleR_packet network (wf p (inside.mem List.mem_cons_self))
              (short c mem p rest faces) (readOn c mem p rest faces) input' call with
              ⟨rfl, left⟩ | ⟨rfl, left⟩
            · by_cases same : p.type = type
              · rw [if_neg (fun more => more.1 (congrArg (fun t => (t.code : Int)) same))] at run
                cases run
                refine ⟨[p], rest, rfl, ⟨Nat.le_of_eq (congrArg List.length left.symm), ?_, ?_⟩⟩
                · exact fun other => absurd (congrArg (fun t => (t.code : Int)) same) other
                · intro got
                  exact ⟨left, [], p, c, rfl, List.forall_mem_nil _, same, mem, faces,
                    (takes call).mp got⟩
              · have other : (p.type.code : Int) ≠ type.code :=
                  fun eq => same (MsgType.code_inj (Nat.cast_inj.mp eq))
                rw [if_pos ⟨other, Int.natCast_nonneg _⟩] at run record
                rw [bind_apply] at record
                obtain ⟨⟨cs', w₃⟩, later, record⟩ := ok_of_bind record
                cases record
                obtain ⟨taken, back, rfl, took⟩ := ih other
                  ((List.suffix_cons _ _).trans inside) left run later
                  (fun d mem => short d (List.mem_cons_of_mem _ mem))
                  (fun d mem => readOn d (List.mem_cons_of_mem _ mem))
                refine ⟨p :: taken, back, rfl, ⟨took.left, ?_, ?_⟩⟩
                · intro none q mem is_type
                  rcases List.mem_cons.mp mem with rfl | mem
                  · exact absurd is_type same
                  · exact took.failed none q mem is_type
                · intro got
                  obtain ⟨ends, front, q, d, rfl, others, is_type, mem, faces, ahead⟩ :=
                    took.took got
                  refine ⟨ends, p :: front, q, d, rfl, ?_, is_type,
                    List.mem_cons_of_mem _ mem, faces, ahead⟩
                  exact List.forall_mem_cons.mpr ⟨same, others⟩
            · rw [if_neg (fun more => absurd more.2 (by decide))] at run
              cases run
              rcases left with left | ⟨cycled, ⟨front, left⟩⟩
              · refine stops failure_ne (Nat.le_of_eq (congrArg List.length ?_))
                rw [left]
                exact input.symm
              · refine ⟨[p], rest, rfl, ⟨?_, ?_, fun same => absurd same failure_ne⟩⟩
                · rw [← left, List.length_append]
                  exact Nat.le_add_left _ _
                · intro _ q mem _
                  obtain rfl := List.mem_singleton.mp mem
                  exact cycled

end Client

end AcnSdk.Mqtt
