/-
The delivery of a published message, `cycle_publish` of `src/mqtt/client/client.c`.

The payload comes in the pieces that `mqttread` returns, each at most as long as the
read buffer and as what is left of the message; an empty piece is a read that failed.
The callback of the topic is found by `delivery.c`, the same one for every piece, and
is absent if none is registered. `cycle_publish` ignores what the callback returns for
a piece and at the end; here these results are kept.
-/

import AcnSdk.Lib.Bytes

namespace AcnSdk.Mqtt

open AcnSdk.Lib

/-- `arrow_mqtt_delivery_callback_t`. -/
structure DeliveryCallback (m : Type → Type) where
  init : Int → m Int
  process : Bytes → m Int
  done : m Int

/-- What the callback returned: for each piece, and at the end of the message. -/
structure Delivery where
  processed : List Int
  done : Option Int
deriving DecidableEq, Repr

/-- The piece that one `mqttread` returns. -/
def piece (restBuffer totalLen : Nat) (read : Bytes) : Bytes := read.take (min totalLen restBuffer)

/-- The payload as far as it is read, by the reads that come one after the other. -/
def delivered (restBuffer : Nat) : List Bytes → Nat → List Bytes
  | _, 0 => []
  | [], _ + 1 => []
  | read :: reads, totalLen + 1 =>
      let payload := piece restBuffer (totalLen + 1) read
      if payload = [] then []
      else payload :: delivered restBuffer reads (totalLen + 1 - payload.length)

/-- Whether these reads are the whole message. -/
def readWhole (restBuffer : Nat) : List Bytes → Nat → Bool
  | _, 0 => true
  | [], _ + 1 => false
  | read :: reads, totalLen + 1 =>
      let payload := piece restBuffer (totalLen + 1) read
      if payload = [] then false else readWhole restBuffer reads (totalLen + 1 - payload.length)

theorem delivered_ne_nil {restBuffer totalLen : Nat} {reads : List Bytes} {payload : Bytes}
    (mem : payload ∈ delivered restBuffer reads totalLen) : payload ≠ [] := by
  induction reads generalizing totalLen with
  | nil => cases totalLen <;> cases mem
  | cons read reads ih =>
      cases totalLen with
      | zero => cases mem
      | succ totalLen =>
          rw [delivered] at mem
          by_cases empty : piece restBuffer (totalLen + 1) read = []
          · rw [if_pos empty] at mem
            cases mem
          · rw [if_neg empty] at mem
            rcases List.mem_cons.mp mem with rfl | later
            · exact empty
            · exact ih later

section Loop

variable {m : Type → Type} [Monad m] (callback : Option (DeliveryCallback m))

/-- `arrow_mqtt_client_delivery_message_init`. -/
def deliveryMessageInit (payloadlen : Int) : m Int :=
  match callback with
  | some cb => cb.init payloadlen
  | none => return -1

/-- `arrow_mqtt_client_delivery_message_process`. -/
def deliveryMessageProcess (payload : Bytes) : m Int :=
  match callback with
  | some cb => cb.process payload
  | none => return -1

/-- `arrow_mqtt_client_delivery_message_done`. -/
def deliveryMessageDone : m Int :=
  match callback with
  | some cb => cb.done
  | none => return -1

/-- The loop of `cycle_publish`, with the results so far, and whether it read the whole
message. -/
def cyclePublishLoop (restBuffer : Nat) (msgErr : Int) :
    List Bytes → Nat → List Int → m (List Int × Bool)
  | _, 0, results => return (results, true)
  | [], _ + 1, results => return (results, false)
  | read :: reads, totalLen + 1, results => do
      let payload := piece restBuffer (totalLen + 1) read
      if payload = [] then return (results, false)
      else
        let returned ←
          if msgErr = 0 then (fun result => [result]) <$> deliveryMessageProcess callback payload
          else pure []
        cyclePublishLoop restBuffer msgErr reads (totalLen + 1 - payload.length)
          (results ++ returned)

/-- `cycle_publish` from the payload on. -/
def cyclePublish (restBuffer : Nat) (reads : List Bytes) (totalLen : Nat) : m Delivery := do
  let msgErr ← deliveryMessageInit callback totalLen
  let (processed, whole) ← cyclePublishLoop callback restBuffer msgErr reads totalLen []
  if whole && msgErr == 0 then
    let done ← deliveryMessageDone callback
    return ⟨processed, some done⟩
  else return ⟨processed, none⟩

variable [LawfulMonad m]

/-- The loop passes on the pieces in order, whatever the callback returns. -/
theorem cyclePublishLoop_eq (restBuffer : Nat) (reads : List Bytes) (totalLen : Nat)
    (results : List Int) :
    cyclePublishLoop callback restBuffer 0 reads totalLen results = do
      let returned ← (delivered restBuffer reads totalLen).mapM (deliveryMessageProcess callback)
      return (results ++ returned, readWhole restBuffer reads totalLen) := by
  induction reads generalizing totalLen results with
  | nil => cases totalLen <;> simp [cyclePublishLoop, delivered, readWhole]
  | cons read reads ih =>
      cases totalLen with
      | zero => simp [cyclePublishLoop, delivered, readWhole]
      | succ totalLen =>
          rw [cyclePublishLoop, delivered, readWhole]
          by_cases empty : piece restBuffer (totalLen + 1) read = []
          · simp [empty]
          · simp [empty, ih]

/-- A message that is refused at the start is read but not passed on. -/
theorem cyclePublishLoop_refused (restBuffer : Nat) {msgErr : Int} (refused : msgErr ≠ 0)
    (reads : List Bytes) (totalLen : Nat) (results : List Int) :
    cyclePublishLoop callback restBuffer msgErr reads totalLen results =
      return (results, readWhole restBuffer reads totalLen) := by
  induction reads generalizing totalLen with
  | nil => cases totalLen <;> rfl
  | cons read reads ih =>
      cases totalLen with
      | zero => rfl
      | succ totalLen =>
          rw [cyclePublishLoop, readWhole]
          by_cases empty : piece restBuffer (totalLen + 1) read = []
          · simp [empty]
          · simp [empty, refused, ih]

/-- A callback that accepts the message gets every piece, and is told the end of the
message if all of it was read. -/
theorem cyclePublish_eq (restBuffer : Nat) (reads : List Bytes) (totalLen : Nat) :
    cyclePublish callback restBuffer reads totalLen = do
      let msgErr ← deliveryMessageInit callback totalLen
      if msgErr = 0 then
        let processed ← (delivered restBuffer reads totalLen).mapM (deliveryMessageProcess callback)
        if readWhole restBuffer reads totalLen then
          let done ← deliveryMessageDone callback
          return ⟨processed, some done⟩
        else return ⟨processed, none⟩
      else return ⟨[], none⟩ := by
  rw [cyclePublish]
  congr 1
  funext msgErr
  by_cases accepted : msgErr = 0
  · subst accepted
    simp [cyclePublishLoop_eq]
  · simp [accepted, cyclePublishLoop_refused]

end Loop

end AcnSdk.Mqtt
