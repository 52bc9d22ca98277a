/-
`cycle_publish` reads the payload through one buffer, the topic in front of it.

* `payloadLoop_refines` — the loop passes on what its reads bring as `cyclePublishLoop` does.
* `delivered_payloadReads` — reads that bring something each time bring the whole payload.
-/

import AcnSdk.Mqtt.Client

namespace AcnSdk.Mqtt.Client

open AcnSdk.Lib Prog

variable {τ : Type} {env : Env} {w : World τ}

/-! ### One read -/

/-- The bytes that a read takes. -/
def readBytes (env : Env) (w : World τ) (n : Int) : Bytes := w.input.take (readTakes env w n)

/-- What a read brings: nothing if it fails. -/
def brought (env : Env) (w : World τ) (n : Int) : Bytes := w.input.take (readResult env w n).toNat

/-- The world after a read. -/
def World.read (env : Env) (n : Int) (w : World τ) : World τ :=
  { w with reads := w.reads + 1, input := w.input.drop (readTakes env w n) }

theorem readResult_le {n : Int} (pos : 0 < readResult env w n) :
    readResult env w n ≤ n ∧ readResult env w n ≤ w.input.length := by
  rw [readResult] at pos ⊢
  split at pos
  · omega
  · next r_pos =>
      split at pos
      · next fits => rw [if_neg r_pos, if_pos fits]; exact fits
      · exact absurd pos (by decide)

theorem readTakes_of_pos {n : Int} (pos : 0 < readResult env w n) :
    readTakes env w n = (readResult env w n).toNat := if_pos pos

theorem readTakes_le (env : Env) (w : World τ) (n : Int) : readTakes env w n ≤ n.toNat := by
  by_cases pos : 0 < readResult env w n
  · have := readResult_le pos
    rw [readTakes_of_pos pos]
    omega
  · rw [readTakes, if_neg pos]
    omega

theorem readTakes_of_eq {n : Int} (all : readResult env w n = n) :
    readTakes env w n = n.toNat := by
  rw [readTakes, all]
  split <;> omega

/-- A read of one byte loses none. -/
theorem readTakes_one (failed : readResult env w 1 ≤ 0) : readTakes env w 1 = 0 := by
  rw [readTakes, if_neg (Int.not_lt.mpr failed)]
  exact Nat.min_eq_right (Nat.zero_le _)

theorem readBytes_of_pos {n : Int} (pos : 0 < readResult env w n) :
    readBytes env w n = brought env w n := by
  rw [readBytes, readTakes_of_pos pos, brought]

theorem length_brought {n : Int} : (brought env w n).length = (readResult env w n).toNat := by
  rw [brought, List.length_take]
  by_cases pos : 0 < readResult env w n
  · have := readResult_le pos
    omega
  · omega

theorem mqttread_eq (n : Int) :
    mqttread env n w = .ok ((readResult env w n, readBytes env w n), w.read env n) := rfl

theorem readInto_eq {i : Nat} {n : Int} (fits : i + n.toNat ≤ w.client.readbuf.length) :
    readInto env i n w = .ok (readResult env w n, { w.read env n with
      client.readbuf := store w.client.readbuf i (readBytes env w n) }) := by
  rw [readInto, bind_of_ok (get_apply _), if_pos fits, bind_of_ok (mqttread_eq n)]
  rfl

theorem length_store_readBytes {i : Nat} {n : Int} (fits : i + n.toNat ≤ w.client.readbuf.length) :
    (store w.client.readbuf i (readBytes env w n)).length = w.client.readbuf.length := by
  apply length_store
  have le := readTakes_le env w n
  rw [readBytes, List.length_take]
  omega

/-! ### The loop -/

/-- What the reads of the loop bring. -/
def payloadReads (env : Env) (restBuffer : Nat) : Nat → Nat → World τ → List Bytes
  | 0, _, _ => []
  | fuel + 1, totalLen, w =>
      let n : Int := (min totalLen restBuffer : Nat)
      brought env w n ::
        payloadReads env restBuffer fuel (totalLen - (brought env w n).length) (w.read env n)

theorem payloadReads_congr {restBuffer fuel totalLen : Nat} {w' : World τ}
    (reads : w'.reads = w.reads)
    (input : w'.input = w.input) :
    payloadReads env restBuffer fuel totalLen w' = payloadReads env restBuffer fuel totalLen w := by
  induction fuel generalizing w w' totalLen with
  | zero => rfl
  | succ fuel ih =>
      have result (n : Int) : readResult env w' n = readResult env w n := by
        rw [readResult, readResult, reads, input]
      have bytes (n : Int) : brought env w' n = brought env w n := by
        rw [brought, brought, result, input]
      rw [payloadReads, payloadReads, bytes]
      congr 1
      apply ih
      · simp only [World.read, reads]
      · simp only [World.read, readTakes, result, reads, input]

/-- The callback for the topic in the read buffer. -/
def deliveryOf (w : World τ) (topicLen : Nat) : Option (DeliveryCallback (Prog τ)) :=
  (w.delivery.find? fun r => deliveryeq r.topic (w.client.readbuf.take topicLen)).map (·.callback)

theorem findDelivery_eq (topicLen : Nat) (w : World τ) :
    findDelivery topicLen w = .ok (deliveryOf w topicLen, w) := rfl

/-- One piece is passed on, or not if the message was refused. -/
def passOn (callback : Option (DeliveryCallback (Prog τ))) (msgErr : Int) (s : Bytes) :
    Prog τ (List Int) :=
  if msgErr = 0 then (fun result => [result]) <$> deliveryMessageProcess callback s else pure []

theorem cyclePublishLoop_cons {callback : Option (DeliveryCallback (Prog τ))}
    {restBuffer totalLen : Nat}
    {msgErr : Int} {s : Bytes} {reads : List Bytes} {results : List Int}
    (short : piece restBuffer (totalLen + 1) s = s) (some : s ≠ []) :
    cyclePublishLoop callback restBuffer msgErr (s :: reads) (totalLen + 1) results =
      passOn callback msgErr s >>= fun returned =>
        cyclePublishLoop callback restBuffer msgErr reads (totalLen + 1 - s.length)
          (results ++ returned) := by
  rw [cyclePublishLoop]
  simp only [short]
  rw [if_neg some, passOn]
  split <;> rfl

theorem deliverPiece_eq {topicLen : Nat} (msgErr : Int) {len : Int} {s : Bytes}
    (here : (w.client.readbuf.drop topicLen).take len.toNat = s) :
    deliverPiece topicLen msgErr len w =
      (passOn (deliveryOf w topicLen) msgErr s w.app).bind fun x =>
        .ok ((), { w with app := x.2 }) := by
  subst here
  rw [deliverPiece, passOn]
  split
  · rw [bind_of_ok (get_apply _), bind_of_ok (findDelivery_eq topicLen w), bind_apply, onApp,
      map_apply]
    cases deliveryMessageProcess (deliveryOf w topicLen) _ w.app <;> rfl
  · rfl

/-- The loop passes on what it reads. How it reads does not depend on the callbacks, and no more
than what was passed on is taken from the stream unless a read fails. -/
theorem payloadLoop_refines (env : Env) {topicLen restBuffer fuel : Nat} (msgErr : Int)
    (totalLen : Nat)
    (len : Int) (enough : totalLen < fuel)
    (size : topicLen + restBuffer = w.client.readbuf.length) :
    ∃ reads input readbuf last, readbuf.length = w.client.readbuf.length ∧
      readbuf.take topicLen = w.client.readbuf.take topicLen ∧
      (readWhole restBuffer (payloadReads env restBuffer fuel totalLen w) totalLen = true →
        input = w.input.drop (List.flatten
          (delivered restBuffer (payloadReads env restBuffer fuel totalLen w) totalLen)).length) ∧
      ∀ results app,
        payloadLoop env topicLen restBuffer msgErr fuel totalLen len { w with app := app } =
        (cyclePublishLoop (deliveryOf w topicLen) restBuffer msgErr
            (payloadReads env restBuffer fuel totalLen w) totalLen results app).bind fun x =>
          .ok (if x.1.2 then some last else none, { w with
            reads := reads
            input := input
            client.readbuf := readbuf
            app := x.2 }) := by
  induction fuel generalizing w totalLen len with
  | zero => omega
  | succ fuel ih =>
      cases totalLen with
      | zero =>
          exact ⟨w.reads, w.input, w.client.readbuf, len, rfl, rfl, fun _ => rfl,
            fun results app => rfl⟩
      | succ totalLen =>
          let n : Int := (min (totalLen + 1) restBuffer : Nat)
          let r := readResult env w n
          let s := brought env w n
          let w₁ : World τ := { w.read env n with
            client.readbuf := store w.client.readbuf topicLen (readBytes env w n) }
          have fits : topicLen + n.toNat ≤ w.client.readbuf.length := by omega
          have read (app : τ) : readInto env topicLen n { w with app := app } =
              .ok (r, { w₁ with app := app }) := readInto_eq fits
          have length : w₁.client.readbuf.length = w.client.readbuf.length :=
            length_store_readBytes fits
          have topic : w₁.client.readbuf.take topicLen = w.client.readbuf.take topicLen :=
            take_store (by omega)
          have chunk : (if ((totalLen + 1 : Nat) : Int) < restBuffer
              then ((totalLen + 1 : Nat) : Int) else restBuffer) = n := by
            dsimp only [n]
            split <;> omega
          have s_length : s.length = r.toNat := length_brought
          have short : piece restBuffer (totalLen + 1) s = s := by
            apply List.take_of_length_le
            by_cases pos : 0 < r
            · have := readResult_le pos
              omega
            · omega
          have reads : payloadReads env restBuffer (fuel + 1) (totalLen + 1) w =
              s :: payloadReads env restBuffer fuel (totalLen + 1 - s.length) w₁ := by
            rw [payloadReads]
            exact congrArg (s :: ·) (payloadReads_congr rfl rfl)
          have loop (app : τ) : payloadLoop env topicLen restBuffer msgErr (fuel + 1)
              (totalLen + 1 : Nat) len
              { w with app := app } = (if r ≤ 0 then return none else do
                deliverPiece topicLen msgErr r
                payloadLoop env topicLen restBuffer msgErr fuel ((totalLen + 1 : Nat) - r) r)
                { w₁ with app := app } := by
            rw [payloadLoop, if_neg (by omega), chunk, bind_of_ok (read app)]
          by_cases pos : 0 < r
          · have some : s ≠ [] := by
              intro none
              rw [none, List.length_nil] at s_length
              omega
            have bound := readResult_le pos
            have rest : ((totalLen + 1 : Nat) : Int) - r =
                (totalLen + 1 - s.length : Nat) := by omega
            obtain ⟨reads', input', readbuf, last, length', topic', whole, run⟩ :=
              ih (w := w₁) (totalLen + 1 - s.length) r (by omega) (by rw [length]; exact size)
            have callback : deliveryOf w₁ topicLen = deliveryOf w topicLen := by
              rw [deliveryOf, deliveryOf, topic]
              rfl
            have stored : (w₁.client.readbuf.drop topicLen).take r.toNat = s := by
              rw [← s_length]
              dsimp only [w₁]
              rw [readBytes_of_pos pos]
              exact take_drop_store (by omega)
            have left : w₁.input = w.input.drop s.length := by
              rw [s_length]
              exact congrArg (w.input.drop ·) (readTakes_of_pos pos)
            refine ⟨reads', input', readbuf, last, length'.trans length, topic'.trans topic, ?_, ?_⟩
            · rw [reads, readWhole, delivered]
              simp only [short]
              rw [if_neg some, if_neg some, List.flatten_cons, List.length_append, ← List.drop_drop,
                ← left]
              exact whole
            · intro results app
              have delivers := deliverPiece_eq (w := { w₁ with app := app }) msgErr stored
              have callback' : deliveryOf { w₁ with app := app } topicLen = deliveryOf w topicLen :=
                callback
              rw [callback'] at delivers
              rw [loop, if_neg (by omega), bind_apply, delivers, rest, reads,
                cyclePublishLoop_cons short some, bind_apply]
              cases passOn (deliveryOf w topicLen) msgErr s app with
              | error e => rfl
              | ok x =>
                  simp only [ok_bind]
                  rw [run (results ++ x.1) x.2, callback]
                  rfl
          · have none : s = [] := List.length_eq_zero_iff.mp (by omega)
            refine ⟨w.reads + 1, w₁.input, w₁.client.readbuf, 0, length, topic, ?_, ?_⟩
            · rw [reads, readWhole]
              simp only [short]
              rw [if_pos none]
              exact fun whole => absurd whole Bool.false_ne_true
            · intro results app
              rw [loop, if_pos (by omega), reads, cyclePublishLoop]
              simp only [short]
              rw [if_pos none]
              rfl

/-! ### The whole payload -/

/-- From the read `first` on, a read brings something of what it asks for. -/
def Brings (env : Env) (first : Nat) : Prop :=
  ∀ k n, first ≤ k → 0 < n → 0 < env.read k n ∧ env.read k n ≤ n

theorem brought_ne_nil (brings : Brings env w.reads) {n : Nat} (pos : 0 < n)
    (there : n ≤ w.input.length) :
    brought env w n ≠ [] ∧ (brought env w n).length ≤ n := by
  obtain ⟨some, le⟩ := brings w.reads n (Nat.le_refl _) (by omega)
  have result : readResult env w n = env.read w.reads n := by
    rw [readResult, if_neg (by omega), if_pos (by omega)]
  have length : (brought env w n).length = (env.read w.reads n).toNat := by
    rw [length_brought, result]
  constructor
  · intro none
    rw [none, List.length_nil] at length
    omega
  · omega

/-- Reads that bring something each time bring the whole payload. -/
theorem delivered_payloadReads {restBuffer fuel : Nat} (totalLen : Nat)
    (brings : Brings env w.reads)
    (room : 0 < restBuffer) (enough : totalLen < fuel) (there : totalLen ≤ w.input.length) :
    readWhole restBuffer (payloadReads env restBuffer fuel totalLen w) totalLen = true ∧
      (delivered restBuffer (payloadReads env restBuffer fuel totalLen w) totalLen).flatten =
        w.input.take totalLen := by
  induction fuel generalizing w totalLen with
  | zero => omega
  | succ fuel ih =>
      cases totalLen with
      | zero => exact ⟨rfl, rfl⟩
      | succ totalLen =>
          let n := min (totalLen + 1) restBuffer
          let s := brought env w n
          obtain ⟨some, le⟩ := brought_ne_nil (n := n) brings (by omega) (by omega)
          have pos : 0 < s.length := List.length_pos_iff.mpr some
          have short : piece restBuffer (totalLen + 1) s = s := List.take_of_length_le le
          have front : s = w.input.take s.length := by
            change brought env w n = w.input.take (brought env w n).length
            rw [length_brought]
            rfl
          have brings_some : 0 < readResult env w n := by
            rw [length_brought] at pos
            omega
          have input : (w.read env n).input = w.input.drop s.length := by
            rw [World.read, readTakes_of_pos brings_some, length_brought]
          obtain ⟨whole, flat⟩ := ih (w := w.read env n) (totalLen + 1 - s.length)
            (fun k m later => brings k m (Nat.le_of_succ_le later)) (by omega)
            (by rw [input, List.length_drop]; omega)
          rw [payloadReads, readWhole, delivered]
          change (if piece restBuffer (totalLen + 1) s = [] then _ else _) = true ∧
            List.flatten (if piece restBuffer (totalLen + 1) s = [] then _ else _) = _
          rw [short, if_neg some, if_neg some]
          refine ⟨whole, ?_⟩
          rw [List.flatten_cons, flat, input]
          calc
            s ++ (w.input.drop s.length).take (totalLen + 1 - s.length)
                = w.input.take s.length ++
                    (w.input.drop s.length).take (totalLen + 1 - s.length) := by rw [← front]
            _ = w.input.take (totalLen + 1) := by
              have fits : s.length ≤ totalLen + 1 := Nat.le_trans le (Nat.min_le_left _ _)
              rw [← List.take_add, Nat.add_sub_cancel' fits]

end AcnSdk.Mqtt.Client
