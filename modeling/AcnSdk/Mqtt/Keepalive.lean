/-
`keepalive` in a run, called by itself and by `cycle_r`.

The first call that finds a timer of the connection run out sends a PINGREQ and waits for the
answer with `ping_outstanding`. `cycle_r` has no function for PINGRESP and reads it away, so that
the flag stays set, and the next call that finds a timer run out fails.

* `keepalive_cases` — what a call does.
* `cycleRecord_fst` — the record of a call of `cycle_r` is one of `cycle_r`.
* `keepalive_succeeds_iff` — no call of a run fails if and only if at most one of them finds a
  timer run out, and the network takes its PINGREQ.
-/

import AcnSdk.Mqtt.Frame
import AcnSdk.Mqtt.Wire

namespace AcnSdk.Mqtt.Client

open AcnSdk.Lib Prog

variable {τ : Type} {env : Env} {w w' w'' : World τ}

/-! ### One call -/

/-- `keepalive` finds a timer of the connection run out. -/
def World.runOut (env : Env) (w : World τ) : Bool :=
  w.client.keepAliveInterval != 0 &&
    (w.gone env .lastSent || (w.looked env .lastSent).gone env .lastReceived)

/-- The flag of a PINGREQ that waits for its answer, and the room to send one, are as they were. -/
structure Keeps (w w' : World τ) : Prop where
  outstanding : w'.client.pingOutstanding = w.client.pingOutstanding
  room : w'.client.buf.length = w.client.buf.length

instance : IsPreorder (World τ) Keeps where
  refl := fun _ => ⟨rfl, rfl⟩
  trans := fun _ _ _ one two =>
    ⟨two.outstanding.trans one.outstanding, two.room.trans one.room⟩

theorem Reads.keeps (w w' : World τ) (reads : Reads w w') : Keeps w w' := by
  obtain ⟨readbuf, client⟩ := reads.client
  constructor
  · rw [client]
  · rw [client]

theorem Sends.keeps (w w' : World τ) (sends : Sends w w') : Keeps w w' := by
  obtain ⟨buf, length, client⟩ := sends.client
  constructor
  · rw [client]
  · rw [client, length]

theorem connectionExpired_eq (env : Env) (w : World τ) :
    ∃ w', connectionExpired env w =
        .ok (w.gone env .lastSent || (w.looked env .lastSent).gone env .lastReceived, w') ∧
      w'.client = w.client ∧ w'.output = w.output := by
  rw [connectionExpired, bind_of_ok (timerIsExpired_eq env .lastSent w)]
  cases w.gone env .lastSent with
  | true => exact ⟨_, rfl, rfl, rfl⟩
  | false => exact ⟨_, rfl, rfl, rfl⟩

/-- A packet succeeds if and only if the network takes it as it is. -/
theorem sendPacket_taken {t : Timer} {length : Nat} {rc : Int}
    (fits : length ≤ w.client.buf.length) (run : sendPacket env t length w = .ok (rc, w')) :
    (rc = success ∧ w'.output = w.output ++ w.client.buf.take length) ∨
      (rc = failure ∧ w'.output ≠ w.output ++ w.client.buf.take length) := by
  have whole := run
  rw [sendPacket, bind_apply] at run
  obtain ⟨⟨n, w₁⟩, loop, run⟩ := ok_of_bind run
  by_cases all : n = length
  · rw [if_pos all] at run
    cases run
    exact .inl ⟨rfl, (sendPacket_wrote whole).1⟩
  · rw [if_neg all] at run
    cases run
    refine .inr ⟨rfl, fun taken => all ?_⟩
    obtain ⟨k, total, le, output, -⟩ := sendLoop_wrote loop
    have same := congrArg List.length (List.append_cancel_left (output.symm.trans taken))
    rw [Nat.sub_zero] at le
    rw [List.drop_zero, List.length_take, List.length_take, Nat.min_eq_left fits,
      Nat.min_eq_left le] at same
    rw [total, Nat.zero_add, same]

/-- The network took a PINGREQ between the two worlds. -/
def Pinged (w w' : World τ) : Prop := w'.output = w.output ++ zeroPacket .pingreq

theorem sendPing_cases (room : 2 ≤ w.client.buf.length)
    (idle : w.client.pingOutstanding = false) {rc : Int} (run : sendPing env w = .ok (rc, w')) :
    w'.client.buf.length = w.client.buf.length ∧
      ((rc = success ∧ w'.client.pingOutstanding = true ∧ Pinged w w') ∨
        (rc = failure ∧ w'.client.pingOutstanding = false ∧ ¬ Pinged w w')) := by
  let w₁ : World τ := { w with expired := fun u => if u = .ping then false else w.expired u }
  let w₂ := w₁.filled (zeroPacket .pingreq)
  have count : timerCountdown .ping w = .ok ((), w₁) := rfl
  have serialize := mqttSerializeZero_filled (w := w₁) .pingreq room
  have length : w₂.client.buf.length = w.client.buf.length :=
    length_store (by rw [Nat.zero_add]; exact room)
  have stored : w₂.client.buf.take 2 = zeroPacket .pingreq := rfl
  rw [sendPing, bind_of_ok count, bind_of_ok serialize, if_pos (by decide), bind_apply] at run
  obtain ⟨⟨sent, w₃⟩, send, run⟩ := ok_of_bind run
  obtain ⟨outstanding, same⟩ := Sends.keeps _ _ (sendPacket_sends _ _ _ _ _ send)
  have fits : (2 : Int).toNat ≤ w₂.client.buf.length := length.symm ▸ room
  dsimp only at run
  rcases sendPacket_taken fits send with ⟨done, taken⟩ | ⟨failed, taken⟩
  · rw [if_pos done] at run
    cases run
    exact ⟨same.trans length, .inl ⟨done, rfl, taken⟩⟩
  · rw [if_neg (by rw [failed]; decide)] at run
    cases run
    exact ⟨same.trans length, .inr ⟨failed, outstanding.trans idle, taken⟩⟩

/-- What a call of `keepalive` does. -/
theorem keepalive_cases (room : 2 ≤ w.client.buf.length) {rc : Int}
    (run : keepalive env w = .ok (rc, w')) :
    w'.client.buf.length = w.client.buf.length ∧
      ((w.runOut env = false ∧ rc = success ∧
          w'.client.pingOutstanding = w.client.pingOutstanding) ∨
        (w.runOut env = true ∧ w.client.pingOutstanding = true ∧ rc = failure) ∨
        (w.runOut env = true ∧ w.client.pingOutstanding = false ∧
          ((rc = success ∧ w'.client.pingOutstanding = true ∧ Pinged w w') ∨
            (rc = failure ∧ ¬ Pinged w w')))) := by
  rw [keepalive, bind_of_ok (get_apply w)] at run
  by_cases off : w.client.keepAliveInterval = 0
  · rw [if_pos off] at run
    cases run
    exact ⟨rfl, .inl ⟨by rw [World.runOut, off]; rfl, rfl, rfl⟩⟩
  · obtain ⟨w₁, look, client, output⟩ := connectionExpired_eq env w
    have out : w.runOut env =
        (w.gone env .lastSent || (w.looked env .lastSent).gone env .lastReceived) := by
      rw [World.runOut, bne_iff_ne.mpr off, Bool.true_and]
    rw [if_neg off, bind_of_ok look, ← out] at run
    cases gone : w.runOut env with
    | false =>
        rw [gone] at run
        cases run
        exact ⟨congrArg (·.buf.length) client, .inl ⟨rfl, rfl, congrArg (·.pingOutstanding) client⟩⟩
    | true =>
        rw [gone, if_pos rfl] at run
        cases outstanding : w.client.pingOutstanding with
        | true =>
            rw [outstanding, if_pos rfl] at run
            cases run
            exact ⟨congrArg (·.buf.length) client, .inr (.inl ⟨rfl, rfl, rfl⟩)⟩
        | false =>
            rw [outstanding, if_neg Bool.false_ne_true] at run
            rw [← client] at room outstanding
            obtain ⟨length, sent⟩ := sendPing_cases room outstanding run
            rw [Pinged, output] at sent
            rw [client] at length
            refine ⟨length, .inr (.inr ⟨rfl, rfl, ?_⟩)⟩
            rcases sent with pinged | ⟨failed, -, refused⟩
            · exact .inl pinged
            · exact .inr ⟨failed, refused⟩

/-! ### A run -/

/-- A call of `keepalive`. -/
def keptCall (env : Env) : Prog (World τ) (Call τ) := do
  let before ← get
  let result ← keepalive env
  let after ← get
  return ⟨before, result, after⟩

/-- The end of `cycle_r`, with its call of `keepalive`. -/
def endRecord (env : Env) (packType : Nat) (rc : Int) : Prog (World τ) (Int × List (Call τ)) := do
  let k ← keptCall env
  if k.result ≠ success then return (failure, [k])
  else if rc = success then return ((packType : Int), [k])
  else return (rc, [k])

def bodyRecord (env : Env) (head : MQTTHeader) (remLen : Int) :
    Prog (World τ) (Int × List (Call τ)) :=
  match cycleCollection env head.type with
  | none => do
      drainLoop env (remLen.toNat + 1) remLen
      return ((head.type : Int), [])
  | some cycle => do
      let rc ← cycle head remLen
      endRecord env head.type rc

/-- `cycle_r`, with the calls of `keepalive` that it makes. -/
def cycleRecord (env : Env) : Prog (World τ) (Int × List (Call τ)) := do
  let (rc, s) ← mqttread env 1
  if rc ≠ 1 then return (failure, [])
  else do
    let head := MQTTHeader.ofByte (s.headD 0)
    if head.type < 1 ∨ 15 ≤ head.type then return (failure, [])
    else do
      let (len, remLen) ← decodePacket env
      if len ≤ 0 ∨ maxMsgLen < remLen then return (rc, []) else bodyRecord env head remLen

theorem keptCall_eq (w : World τ) :
    keptCall env w = (keepalive env w).bind fun r => .ok (⟨w, r.1, r.2⟩, r.2) := rfl

theorem endRecord_fst (packType : Nat) (rc : Int) :
    (·.1) <$> endRecord env packType rc = cycleEnd (τ := τ) env packType rc := by
  funext w
  rw [map_apply, endRecord, cycleEnd, bind_apply, bind_apply, keptCall_eq]
  cases keepalive env w with
  | error e => rfl
  | ok r =>
      rw [ok_bind, ok_bind, ok_bind]
      dsimp only
      split_ifs
      · rfl
      · rfl
      · rfl

theorem bodyRecord_fst (head : MQTTHeader) (remLen : Int) :
    (·.1) <$> bodyRecord env head remLen = cycleBody (τ := τ) env head remLen := by
  rw [bodyRecord, cycleBody]
  cases cycleCollection env head.type with
  | none => rw [map_bind]; simp only [map_pure]
  | some cycle => simp only [map_bind, endRecord_fst]

/-- The record of a call is one of `cycle_r`. -/
theorem cycleRecord_fst : (·.1) <$> cycleRecord env = cycleR (τ := τ) env := by
  rw [cycleRecord, cycleR, map_bind]
  congr
  funext r
  obtain ⟨rc, s⟩ := r
  dsimp only
  split_ifs
  · rfl
  · rfl
  · rw [map_bind]
    congr
    funext r
    obtain ⟨len, remLen⟩ := r
    dsimp only
    split_ifs
    · rfl
    · exact bodyRecord_fst _ _

/-- What a run does: a call of `cycle_r`, or one of `keepalive`. -/
inductive Action where
  | cycle | alive
deriving DecidableEq, Repr

/-- A call of a run: of `cycle_r`, or of `keepalive`, which may be one that `cycle_r` makes. -/
inductive Event (τ : Type) where
  | cycle (c : Call τ)
  | kept (k : Call τ)

/-- The calls of an action, in their order. -/
def Action.events (env : Env) : Action → Prog (World τ) (List (Event τ))
  | .cycle => do
      let before ← get
      let (result, ks) ← cycleRecord env
      let after ← get
      return .cycle ⟨before, result, after⟩ :: ks.map .kept
  | .alive => do
      let k ← keptCall env
      return [.kept k]

/-- The calls of a run. -/
def events (env : Env) : List Action → Prog (World τ) (List (Event τ))
  | [] => return []
  | a :: as => do
      let es ← a.events env
      let es' ← events env as
      return es ++ es'

/-- The calls of `keepalive`. -/
def keptCalls (es : List (Event τ)) : List (Call τ) :=
  es.filterMap fun e => match e with
    | .kept k => some k
    | .cycle _ => none

/-- The calls of `keepalive` in a run, where the flag is `outstanding` at first. -/
inductive KeptFrom (env : Env) : Bool → List (Call τ) → Bool → Prop
  | nil (outstanding : Bool) : KeptFrom env outstanding [] outstanding
  | cons {k : Call τ} {ks : List (Call τ)} {outstanding : Bool} :
      2 ≤ k.before.client.buf.length → keepalive env k.before = .ok (k.result, k.after) →
      KeptFrom env k.after.client.pingOutstanding ks outstanding →
      KeptFrom env k.before.client.pingOutstanding (k :: ks) outstanding

theorem KeptFrom.append {a b c : Bool} {ks ks' : List (Call τ)} (one : KeptFrom env a ks b)
    (two : KeptFrom env b ks' c) : KeptFrom env a (ks ++ ks') c := by
  induction one with
  | nil => exact two
  | cons room call _ ih => exact .cons room call (ih two)

/-- The calls that a part of a run makes follow one another with the flag. -/
def Records (env : Env) {β : Type} (ks : β → List (Call τ)) (x : Prog (World τ) β) : Prop :=
  ∀ w b w', 2 ≤ w.client.buf.length → x w = .ok (b, w') →
    KeptFrom env w.client.pingOutstanding (ks b) w'.client.pingOutstanding ∧
      w'.client.buf.length = w.client.buf.length

namespace Records

variable {β γ : Type} {ks : β → List (Call τ)}

theorem pure {b : β} (none : ks b = []) : Records env ks (pure b) := by
  intro w b' w' room run
  cases run
  rw [none]
  exact ⟨.nil _, rfl⟩

theorem ite {p : Prop} [Decidable p] {x y : Prog (World τ) β} (yes : Records env ks x)
    (no : Records env ks y) : Records env ks (if p then x else y) := by
  split
  · exact yes
  · exact no

/-- A part that makes no calls comes first. -/
theorem bind {x : Prog (World τ) γ} {f : γ → Prog (World τ) β} (keeps : Within Keeps x)
    (later : ∀ c, Records env ks (f c)) : Records env ks (x >>= f) := by
  intro w b w' room run
  rw [bind_apply] at run
  obtain ⟨r, first, run⟩ := ok_of_bind run
  obtain ⟨outstanding, length⟩ := keeps w r.1 r.2 first
  obtain ⟨kept, length'⟩ := later r.1 r.2 b w' (length.symm ▸ room) run
  rw [outstanding] at kept
  exact ⟨kept, length'.trans length⟩

end Records

theorem keptCall_records : Records env (fun k => [k]) (keptCall (τ := τ) env) := by
  intro w k w' room run
  rw [keptCall_eq] at run
  obtain ⟨r, call, run⟩ := ok_of_bind run
  cases run
  have one : KeptFrom env w.client.pingOutstanding [⟨w, r.1, r.2⟩] r.2.client.pingOutstanding :=
    .cons (k := ⟨w, r.1, r.2⟩) room call (.nil _)
  exact ⟨one, (keepalive_cases room call).1⟩

theorem endRecord_records (packType : Nat) (rc : Int) :
    Records env (·.2) (endRecord (τ := τ) env packType rc) := by
  intro w b w' room run
  rw [endRecord, bind_apply] at run
  obtain ⟨⟨k, w₁⟩, call, run⟩ := ok_of_bind run
  have kept := keptCall_records w k w₁ room call
  have same : b.2 = [k] ∧ w' = w₁ := by
    dsimp only at run
    split_ifs at run
    · cases run
      exact ⟨rfl, rfl⟩
    · cases run
      exact ⟨rfl, rfl⟩
    · cases run
      exact ⟨rfl, rfl⟩
  dsimp only
  rw [same.1, same.2]
  exact kept

theorem bodyRecord_records (head : MQTTHeader) (remLen : Int) :
    Records env (·.2) (bodyRecord (τ := τ) env head remLen) := by
  rw [bodyRecord]
  cases found : cycleCollection env head.type with
  | none => exact .bind ((drainLoop_reads _ _).mono Reads.keeps) fun _ => .pure rfl
  | some cycle =>
      have within : Within Keeps (cycle head remLen) := cycleCollection_within Reads.keeps found
        (fun _ message _ len => (sendAck_sends message len).mono Sends.keeps) remLen
      exact .bind within fun rc => endRecord_records _ rc

theorem cycleRecord_records : Records env (·.2) (cycleRecord (τ := τ) env) := by
  refine .bind ((mqttread_reads 1).mono Reads.keeps) fun _ => .ite (.pure rfl) (.ite (.pure rfl) ?_)
  exact .bind ((decodeLoop_reads _ _ _ _).mono Reads.keeps) fun _ =>
    .ite (.pure rfl) (bodyRecord_records _ _)

theorem keptCalls_append (es es' : List (Event τ)) :
    keptCalls (es ++ es') = keptCalls es ++ keptCalls es' := List.filterMap_append

theorem keptCalls_map (ks : List (Call τ)) : keptCalls (ks.map .kept) = ks := by
  rw [keptCalls, List.filterMap_map]
  exact List.filterMap_some

theorem action_records (a : Action) : Records env keptCalls (a.events (τ := τ) env) := by
  intro w es w' room run
  cases a with
  | cycle =>
      rw [Action.events, bind_of_ok (get_apply w), bind_apply] at run
      obtain ⟨⟨⟨result, ks⟩, w₁⟩, call, run⟩ := ok_of_bind run
      cases run
      have kept := cycleRecord_records w _ w₁ room call
      rw [keptCalls, List.filterMap_cons_none rfl]
      rw [← keptCalls, keptCalls_map]
      exact kept
  | alive =>
      rw [Action.events, bind_apply] at run
      obtain ⟨⟨k, w₁⟩, call, run⟩ := ok_of_bind run
      cases run
      exact keptCall_records w k w₁ room call

theorem events_records (as : List Action) : Records env keptCalls (events (τ := τ) env as) := by
  induction as with
  | nil => exact .pure rfl
  | cons a as ih =>
      intro w es w' room run
      rw [events, bind_apply] at run
      obtain ⟨⟨es₁, w₁⟩, one, run⟩ := ok_of_bind run
      dsimp only at run
      rw [bind_apply] at run
      obtain ⟨⟨es₂, w₂⟩, two, run⟩ := ok_of_bind run
      cases run
      obtain ⟨kept, length⟩ := action_records a w es₁ w₁ room one
      obtain ⟨kept', length'⟩ := ih w₁ es₂ w₂ (length.symm ▸ room) two
      rw [keptCalls_append]
      exact ⟨kept.append kept', length'.trans length⟩

/-! ### When no call fails -/

/-- The calls that find a timer run out. -/
def runOuts (env : Env) (ks : List (Call τ)) : List (Call τ) :=
  ks.filter fun k => k.before.runOut env

theorem runOuts_out {k : Call τ} (ks : List (Call τ)) (out : k.before.runOut env = true) :
    runOuts env (k :: ks) = k :: runOuts env ks := List.filter_cons_of_pos out

theorem runOuts_calm {k : Call τ} (ks : List (Call τ)) (calm : k.before.runOut env = false) :
    runOuts env (k :: ks) = runOuts env ks :=
  List.filter_cons_of_neg (calm.symm ▸ Bool.false_ne_true)

/-- While a PINGREQ waits, no call may find a timer run out. -/
theorem KeptFrom.waiting_iff {b : Bool} {ks : List (Call τ)} (kept : KeptFrom env true ks b) :
    (∀ k ∈ ks, k.result = success) ↔ runOuts env ks = [] := by
  generalize waiting : true = first at kept
  induction kept with
  | nil => exact iff_of_true (List.forall_mem_nil _) rfl
  | @cons k ks outstanding room call later ih =>
      rw [List.forall_mem_cons]
      obtain ⟨-, ⟨calm, done, same⟩ | ⟨out, -, failed⟩ | ⟨-, idle, -⟩⟩ := keepalive_cases room call
      · rw [runOuts_calm ks calm, ← ih (same.trans waiting.symm).symm]
        exact and_iff_right done
      · rw [runOuts_out ks out]
        exact iff_of_false (fun h => absurd (h.1.symm.trans failed) (by decide))
          (List.cons_ne_nil _ _)
      · rw [idle] at waiting
        cases waiting

theorem KeptFrom.idle_iff {b : Bool} {ks : List (Call τ)} (kept : KeptFrom env false ks b) :
    (∀ k ∈ ks, k.result = success) ↔
      (runOuts env ks).length ≤ 1 ∧ ∀ k ∈ runOuts env ks, Pinged k.before k.after := by
  generalize idle : false = first at kept
  induction kept with
  | nil => exact iff_of_true (List.forall_mem_nil _) ⟨Nat.zero_le 1, List.forall_mem_nil _⟩
  | @cons k ks outstanding room call later ih =>
      rw [List.forall_mem_cons]
      obtain ⟨-, ⟨calm, done, same⟩ | ⟨-, waiting, -⟩ | ⟨out, -, sent⟩⟩ := keepalive_cases room call
      · rw [runOuts_calm ks calm, ← ih (same.trans idle.symm).symm]
        exact and_iff_right done
      · rw [waiting] at idle
        cases idle
      · rw [runOuts_out ks out, List.forall_mem_cons, List.length_cons]
        rcases sent with ⟨done, waiting, pinged⟩ | ⟨failed, refused⟩
        · rw [waiting] at later
          rw [later.waiting_iff]
          constructor
          · rintro ⟨-, none⟩
            rw [none]
            exact ⟨Nat.le_refl 1, pinged, List.forall_mem_nil _⟩
          · rintro ⟨le, -⟩
            exact ⟨done, List.eq_nil_of_length_eq_zero (Nat.le_zero.mp (Nat.le_of_succ_le_succ le))⟩
        · exact iff_of_false (fun h => absurd (h.1.symm.trans failed) (by decide))
            (fun h => refused h.2.1)

/-- No call of `keepalive` in a run fails if and only if at most one of them finds a timer of the
connection run out, and the network takes the PINGREQ that this one sends. -/
theorem keepalive_succeeds_iff {as : List Action} {es : List (Event τ)}
    (room : 2 ≤ w.client.buf.length) (idle : w.client.pingOutstanding = false)
    (run : events env as w = .ok (es, w')) :
    (∀ k ∈ keptCalls es, k.result = success) ↔
      (runOuts env (keptCalls es)).length ≤ 1 ∧
        ∀ k ∈ runOuts env (keptCalls es), Pinged k.before k.after := by
  obtain ⟨kept, -⟩ := events_records as w es w' room run
  rw [idle] at kept
  exact kept.idle_iff

/-- A client that sends a PINGREQ after its first interval. -/
theorem keepalive_succeeds_iff_once :
    ∃ es w', events { calm with elapsed := fun k t => k == 0 && t == .lastSent } [.alive, .alive]
        { receiving [] with client.keepAliveInterval := 10 } = .ok (es, w') ∧
      ((∀ k ∈ keptCalls es, k.result = success) ↔
        (runOuts { calm with elapsed := fun k t => k == 0 && t == .lastSent }
            (keptCalls es)).length ≤ 1 ∧
          ∀ k ∈ runOuts { calm with elapsed := fun k t => k == 0 && t == .lastSent } (keptCalls es),
            Pinged k.before k.after) := by
  have ends : endsWith (fun _ => true)
      (events { calm with elapsed := fun k t => k == 0 && t == .lastSent } [.alive, .alive]
        { receiving [] with client.keepAliveInterval := 10 }) = true := by decide +kernel
  obtain ⟨es, w', run, -⟩ := endsWith_ok ends
  exact ⟨es, w', run, keepalive_succeeds_iff (by decide) rfl run⟩

/-! ### A PINGRESP that is read -/

/-- The call of `cycle_r` takes a PINGRESP. -/
def Call.Pong (c : Call τ) : Prop := c.before.input = zeroPacket .pingresp ++ c.after.input

/-- Each PINGREQ is answered: `cycle_r` takes a PINGRESP before a call of `keepalive` finds a timer
of the connection run out again. -/
def PingsAnswered (env : Env) (es : List (Event τ)) : Prop :=
  ∀ as k bs l cs, es = as ++ .kept k :: bs ++ .kept l :: cs → Pinged k.before k.after →
    l.before.runOut env = true → ∃ c, .cycle c ∈ bs ∧ c.Pong

/-- Two calls of `keepalive`, a PINGRESP between them, and the second one fails. -/
def failsAnswered : List (Event τ) → Bool
  | [.kept _, .cycle c, .kept l] =>
      c.before.input == zeroPacket .pingresp ++ c.after.input && l.result == failure
  | _ => false

theorem failsAnswered_spec {es : List (Event τ)} (fails : failsAnswered es = true) :
    PingsAnswered env es ∧ ∃ k ∈ keptCalls es, k.result = failure := by
  unfold failsAnswered at fails
  split at fails
  · next k c l =>
      rw [Bool.and_eq_true, beq_iff_eq, beq_iff_eq] at fails
      refine ⟨?_, l, by simp [keptCalls], fails.2⟩
      intro as k' bs l' cs shape _ _
      rw [List.append_assoc] at shape
      rcases List.append_eq_cons_iff.mp shape.symm with ⟨-, shape⟩ | ⟨as₁, -, shape⟩
      · cases bs with
        | nil => cases shape
        | cons e bs =>
            obtain ⟨-, shape⟩ := List.cons_eq_cons.mp shape
            obtain ⟨same, -⟩ := List.cons_eq_cons.mp shape
            exact ⟨c, same ▸ List.mem_cons_self, fails.1⟩
      · rcases List.append_eq_cons_iff.mp shape.symm with ⟨-, shape⟩ | ⟨as₂, -, shape⟩
        · cases shape
        · have length := congrArg List.length shape
          simp only [List.length_append, List.length_cons, List.length_nil] at length
          omega
  · cases fails

/-- The PINGREQ is answered, and the next interval fails all the same. -/
theorem keepalive_fails_answered :
    ∃ (w : World Unit) (es : List (Event Unit)) (w' : World Unit),
      w.client.pingOutstanding = false ∧
      events { calm with elapsed := fun k t => (k == 0 || k == 2) && t == .lastSent }
        [.alive, .cycle, .alive] w = .ok (es, w') ∧
      PingsAnswered { calm with elapsed := fun k t => (k == 0 || k == 2) && t == .lastSent } es ∧
      ∃ k ∈ keptCalls es, k.result = failure := by
  have ends : endsWith failsAnswered
      (events { calm with elapsed := fun k t => (k == 0 || k == 2) && t == .lastSent }
        [.alive, .cycle, .alive]
        { receiving [] with
          client.keepAliveInterval := 10
          input := zeroPacket .pingresp }) = true := by decide +kernel
  obtain ⟨es, w', run, fails⟩ := endsWith_ok ends
  exact ⟨_, es, w', rfl, run, failsAnswered_spec fails⟩

end AcnSdk.Mqtt.Client
