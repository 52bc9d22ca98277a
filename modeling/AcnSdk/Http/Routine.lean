/-
The settings of the HTTP client during a request, `src/http/routine.c`, and trying a request again.

The client closes its session after a request or keeps it, and sends requests over HTTP or MQTT. A
request that fails may change the first. What becomes of a request is an input.

* `retryRequest_success`, `retryRequest_close` — what repeated requests return and leave behind.

A build with `HTTP_SOCK_KEEP_OPEN`, which never closes sessions, is left out.
-/

import AcnSdk.Lib.Retry

namespace AcnSdk.Http

open AcnSdk.Lib

/-- `api_via_http` and `api_via_mqtt`. -/
inductive Protocol where
  | viaHttp | viaMqtt
deriving DecidableEq, Repr

/-- The members `flags._close` and `protocol` of `http_client_t`. -/
structure HttpSettings where
  close : Bool
  protocol : Protocol
deriving DecidableEq, Repr

namespace HttpSettings

/-- As `http_client_init` sets them. -/
def initial : HttpSettings := ⟨true, .viaHttp⟩

/-- `http_session_close_set`. -/
def closeSet (mode : Bool) (s : HttpSettings) : HttpSettings := { s with close := mode }

/-- `http_session_set_protocol`. -/
def setProtocol (prot : Protocol) (s : HttpSettings) : HttpSettings := { s with protocol := prot }

/-- What the handlers of events begin with: to keep the session, and in a build with
`HTTP_VIA_MQTT` to send over MQTT. -/
def begun (viaMqtt : Bool) (s : HttpSettings) : HttpSettings :=
  if viaMqtt then (s.closeSet false).setProtocol .viaMqtt else s.closeSet false

end HttpSettings

/-- What becomes of a request: what it returns, whether `ssl_connect` fails in `http_client_open`,
and whether the session is open after it. -/
structure RequestAnswer where
  ret : Int
  handshakeFailed : Bool
  sessionOpen : Bool
deriving DecidableEq, Repr

namespace RequestAnswer

/-- `__http_routine`, with what `http_client_open` does to the settings. -/
def request (answer : RequestAnswer) (s : HttpSettings) : HttpSettings × Int :=
  let s := if answer.handshakeFailed then { s with close := true } else s
  (if answer.sessionOpen && answer.ret < 0 then s.closeSet true else s, answer.ret)

/-- The request, if it fails, leaves the client set to close its session. -/
def Closes (answer : RequestAnswer) : Prop :=
  answer.handshakeFailed = true ∨ answer.sessionOpen = true

end RequestAnswer

/-- One of the requests that may be made succeeds. -/
def Answered (maxRetry : Int) (answers : Nat → RequestAnswer) : Prop :=
  ∃ i ≤ maxRetry.toNat, 0 ≤ (answers i).ret

open RequestAnswer

/-- `while ( … < 0 ) { RETRY_UP(retry, …); msleep(ARROW_RETRY_DELAY); }` around a request. -/
def retryRequest (maxRetry : Int) (answers : Nat → RequestAnswer) (s : HttpSettings) :
    Tried HttpSettings :=
  retry request id maxRetry.toNat answers s

theorem request_protocol (answer : RequestAnswer) (s : HttpSettings) :
    (answer.request s).1.protocol = s.protocol := by
  rw [request]
  dsimp only
  split_ifs <;> rfl

theorem request_close_iff {answer : RequestAnswer} (fails : answer.ret < 0) (s : HttpSettings) :
    (answer.request s).1.close = true ↔ s.close = true ∨ answer.Closes := by
  rw [request, Closes, decide_eq_true fails, Bool.and_true]
  dsimp only
  cases answer.sessionOpen with
  | true => simp [HttpSettings.closeSet]
  | false => cases answer.handshakeFailed <;> simp

theorem retryRequest_protocol (maxRetry : Int) (answers : Nat → RequestAnswer) (s : HttpSettings) :
    (retryRequest maxRetry answers s).state.protocol = s.protocol := by
  refine retry_keeps (fun s' : HttpSettings => s'.protocol = s.protocol) ?_ (fun _ kept => kept)
    _ _ rfl
  intro answer s' kept
  rw [request_protocol, kept]

theorem retryRequest_success (maxRetry : Int) (answers : Nat → RequestAnswer) (s : HttpSettings) :
    (retryRequest maxRetry answers s).success = true ↔ Answered maxRetry answers :=
  retry_success_iff RequestAnswer.ret (fun _ _ => rfl) _ _ _

/-- The failures that come before an answer use up retries. -/
theorem retryRequest_attempts {maxRetry : Int} {answers : Nat → RequestAnswer} {s : HttpSettings}
    (success : (retryRequest maxRetry answers s).success = true) :
    ∃ i ≤ maxRetry.toNat, FirstAnswer RequestAnswer.ret answers i ∧
      (retryRequest maxRetry answers s).attempts = i + 1 := by
  have results : ∀ answer s, (request answer s).2 = answer.ret := fun _ _ => rfl
  exact retry_attempts_eq results success

/-- Requests that all fail leave the client set to close its session if it was, or one of them left
it so. -/
theorem retryRequest_close {maxRetry : Int} {answers : Nat → RequestAnswer} {s : HttpSettings}
    (gaveUp : (retryRequest maxRetry answers s).success = false) :
    (retryRequest maxRetry answers s).state.close = true ↔
      s.close = true ∨ ∃ i ≤ maxRetry.toNat, (answers i).Closes :=
  retry_mark_iff (fun s => s.close = true) (fun _ s fails => request_close_iff fails s)
    (fun _ => Iff.rfl) gaveUp

/-- A client that is set to close its session stays so. -/
theorem retryRequest_closed (maxRetry : Int) (answers : Nat → RequestAnswer) {s : HttpSettings}
    (close : s.close = true) : (retryRequest maxRetry answers s).state.close = true := by
  refine retry_keeps (fun s' : HttpSettings => s'.close = true) ?_ (fun _ kept => kept) _ _ close
  intro answer s' kept
  rw [request]
  dsimp only
  split_ifs
  · rfl
  · rfl
  · rfl
  · exact kept

end AcnSdk.Http
