/-
The error paths of a request, `__http_routine` in `src/http/routine.c`.

Opening, exchanging and the processor of the response may fail in any way; what they come to is
an input. The runs are sequences of requests with any settings of the protocol and of the close
flag between them. A build with `HTTP_SOCK_KEEP_OPEN`, which never closes sessions, is left out.

* `httpRoutine_iff` — the requests that use a handler of the table and a response that was
  initialised.
* `httpRoutine_cases` — what such a request does; one over HTTP that fails leaves the socket
  closed.
* `httpRoutine_settings` — it changes the settings of the client as `RequestAnswer.request` does.
* `disciplined_iff` — the runs in which all of this is so.
-/

import AcnSdk.Http.Client
import AcnSdk.Http.Routine

namespace AcnSdk.Http.ErrorDiscipline

/-! ### The client -/

/-- `api_via_http`. -/
def apiViaHttp : BitVec 32 := 0

/-- `api_via_mqtt`. -/
def apiViaMqtt : BitVec 32 := 1

/-- `http_client_t`, of whose `queue` and `request` it is kept whether they are not `NULL`.
`sockets` is a record of how often `socket` was called. -/
structure Client where
  sock : Int
  close : Bool
  cipher : Bool
  queue : Bool
  request : Bool
  protocol : BitVec 32
  sockets : Nat
deriving DecidableEq, Repr

/-- As `http_client_init` leaves it. -/
def Client.initial : Client := ⟨-1, true, false, true, false, apiViaHttp, 0⟩

/-- What the system, the server and the caller make of a request. -/
structure Call where
  socket : Int
  resolved : Bool
  connect : Int
  isCipher : Bool
  sslConnect : Int
  connectDone : Int
  exchange : Response → Int × Response
  proc : Option (Response → Int)

/-- All that it takes to open a connection succeeds. -/
structure Call.Connects (call : Call) : Prop where
  socket : 0 ≤ call.socket
  resolved : call.resolved = true
  connect : 0 ≤ call.connect
  sslConnect : call.isCipher = true → 0 ≤ call.sslConnect
  connectDone : 0 ≤ call.connectDone

/-- `http_session_is_open`. -/
def Client.sessionIsOpen (cli : Client) : Bool := decide (0 ≤ cli.sock)

/-- `http_session_close_set`. -/
def Client.sessionCloseSet (mode : Bool) (cli : Client) : Client := { cli with close := mode }

/-- `http_session_set_protocol`. -/
def Client.sessionSetProtocol (prot : Int) (cli : Client) : Client :=
  { cli with protocol := BitVec.ofInt 32 prot }

/-- `default_http_client_close`. -/
def defaultHttpClientClose (cli : Client) : Int × Client :=
  let cli := { cli with request := false }
  if cli.protocol ≠ apiViaHttp then (-1, cli)
  else if cli.sock < 0 then (-1, cli)
  else if !cli.close then (1, cli)
  else (0, { cli with cipher := false, sock := -1 })

/-- `default_http_client_open` from the call of `socket` on. -/
def openConnection (call : Call) (cli : Client) : Int × Client :=
  let cli := { cli with sockets := cli.sockets + 1 }
  if call.socket < 0 then (call.socket, cli)
  else
    let cli := { cli with sock := call.socket }
    if !call.resolved then (-1, cli)
    else if call.connect < 0 then (-1, { cli with sock := -1 })
    else
      let cli := { cli with cipher := cli.cipher || call.isCipher }
      if call.isCipher ∧ call.sslConnect < 0 then
        (-1, (defaultHttpClientClose { cli with close := true }).2)
      else if call.connectDone < 0 then (-1, (defaultHttpClientClose cli).2)
      else (0, cli)

/-- `default_http_client_open`. -/
def defaultHttpClientOpen (call : Call) (cli : Client) : Int × Client :=
  let cli := { cli with request := true }
  if cli.protocol ≠ apiViaHttp then (-1, cli)
  else if !cli.queue then (-1, cli)
  else if cli.sock < 0 then openConnection call cli
  else (0, cli)

/-- `default_http_client_do`, and `http_mqtt_client_do`, which begins in the same way. A response
that is not initialised is `none`. -/
def clientDo (call : Call) (cli : Client) (response : Option Response) : Int × Option Response :=
  if !cli.request then (-1, response)
  else ((call.exchange Response.init).1, some (call.exchange Response.init).2)

/-- `http_mqtt_client_open`. -/
def httpMqttClientOpen (_call : Call) (cli : Client) : Int × Client :=
  let cli := { cli with request := true }
  if cli.protocol ≠ apiViaMqtt then (-1, cli) else (0, cli)

/-- `http_mqtt_client_close`. -/
def httpMqttClientClose (cli : Client) : Int × Client := (0, cli)

/-! ### The routine -/

/-- `protocol_handler_t`. -/
structure ProtocolHandler where
  clientOpen : Call → Client → Int × Client
  clientClose : Client → Int × Client
  clientDo : Call → Client → Option Response → Int × Option Response

def httpHandler : ProtocolHandler := ⟨defaultHttpClientOpen, defaultHttpClientClose, clientDo⟩

def mqttHandler : ProtocolHandler := ⟨httpMqttClientOpen, httpMqttClientClose, clientDo⟩

/-- `client_protocols`, with or without `HTTP_VIA_MQTT`. -/
def clientProtocols (viaMqtt : Bool) : List ProtocolHandler :=
  if viaMqtt then [httpHandler, mqttHandler] else [httpHandler]

/-- What a request must not do: take a handler from beyond the table, or use a response that was
not initialised. -/
inductive Misuse where
  | beyondTable | uninitialised
deriving DecidableEq, Repr

/-- What is returned for a response, by the processor if there is one. -/
def processed (call : Call) (ret : Int) (response : Response) : Int :=
  match call.proc with
  | some proc => proc response
  | none => if response.httpResponseCode ≠ 200 then -1 else ret

/-- The part of `__http_routine` behind the first test of `ret`. -/
def answer (call : Call) (ret : Int) : Option Response → Except Misuse Int
  | none => .error .uninitialised
  | some response => .ok (processed call ret response)

/-- `http_response_free`. -/
def httpResponseFree : Option Response → Except Misuse Unit
  | none => .error .uninitialised
  | some _ => .ok ()

/-- The end of `__http_routine`, after the response was released. -/
def httpError (ph : ProtocolHandler) (ret : Int) (cli : Client) : Int × Client :=
  if cli.sessionIsOpen ∧ ret < 0 then (ret, (ph.clientClose (cli.sessionCloseSet true)).2)
  else (ret, cli)

/-- `__http_routine` with the handler `ph`. -/
def handleRequest (ph : ProtocolHandler) (call : Call) (cli : Client) :
    Except Misuse (Int × Client) := do
  let opened := ph.clientOpen call cli
  let done := if 0 ≤ opened.1 then ph.clientDo call opened.2 none else (opened.1, none)
  let closed := (ph.clientClose opened.2).2
  let ret ← if done.1 < 0 then .ok done.1 else answer call done.1 done.2
  httpResponseFree done.2
  return httpError ph ret closed

/-- `__http_routine`. -/
def httpRoutine (viaMqtt : Bool) (call : Call) (cli : Client) : Except Misuse (Int × Client) :=
  if (clientProtocols viaMqtt).length < cli.protocol.toNat then .ok (-2, cli)
  else
    match (clientProtocols viaMqtt)[cli.protocol.toNat]? with
    | none => .error .beyondTable
    | some ph => handleRequest ph call cli

/-! ### Runs -/

inductive Step where
  | request (call : Call)
  | setProtocol (prot : Int)
  | closeSet (mode : Bool)

/-- Every request uses a handler of the table and an initialised response, one over HTTP that
returns a negative value leaves the socket closed, and the next one over HTTP opens a new
connection. `failed` says whether the last request over HTTP returned a negative value. -/
def Disciplined (viaMqtt : Bool) : Bool → List Step → Client → Prop
  | _, [], _ => True
  | failed, .request call :: steps, cli =>
      ∃ ret cli', httpRoutine viaMqtt call cli = .ok (ret, cli') ∧
        (cli.protocol = apiViaHttp →
          (ret < 0 → cli'.sock < 0) ∧ (failed = true → cli'.sockets = cli.sockets + 1)) ∧
        Disciplined viaMqtt (if cli.protocol = apiViaHttp then decide (ret < 0) else failed)
          steps cli'
  | failed, .setProtocol prot :: steps, cli =>
      Disciplined viaMqtt failed steps (cli.sessionSetProtocol prot)
  | failed, .closeSet mode :: steps, cli =>
      Disciplined viaMqtt failed steps (cli.sessionCloseSet mode)

/-- The protocol is not the first one beyond the table, and a request over HTTP has a queue and
finds its session open or can open one. -/
structure Meets (viaMqtt : Bool) (call : Call) (cli : Client) : Prop where
  protocol : cli.protocol.toNat ≠ (clientProtocols viaMqtt).length
  queue : cli.protocol = apiViaHttp → cli.queue = true
  session : cli.protocol = apiViaHttp → 0 ≤ cli.sock ∨ call.Connects

/-- Every request is made in a state in which it meets the condition. -/
def AllMeet (viaMqtt : Bool) : List Step → Client → Prop
  | [], _ => True
  | .request call :: steps, cli =>
      Meets viaMqtt call cli ∧
        ∀ ret cli', httpRoutine viaMqtt call cli = .ok (ret, cli') → AllMeet viaMqtt steps cli'
  | .setProtocol prot :: steps, cli => AllMeet viaMqtt steps (cli.sessionSetProtocol prot)
  | .closeSet mode :: steps, cli => AllMeet viaMqtt steps (cli.sessionCloseSet mode)

/-! ### Opening and closing -/

section

variable {call : Call} {cli : Client}

/-- A connection that is opened is one that all calls succeeded for. -/
theorem openConnection_eq (connects : call.Connects) : openConnection call cli =
    (0, { cli with
      sockets := cli.sockets + 1
      sock := call.socket
      cipher := cli.cipher || call.isCipher }) := by
  have secured : ¬ (call.isCipher = true ∧ call.sslConnect < 0) := fun failed =>
    Int.not_lt.mpr (connects.sslConnect failed.1) failed.2
  simp only [openConnection, Int.not_lt.mpr connects.socket, connects.resolved,
    Int.not_lt.mpr connects.connect, secured, Int.not_lt.mpr connects.connectDone]
  rfl

theorem connects_of_openConnection (opens : 0 ≤ (openConnection call cli).1) : call.Connects := by
  unfold openConnection at opens
  dsimp only at opens
  split at opens
  case isTrue failed => exact absurd opens (Int.not_le.mpr failed)
  case isFalse socket =>
  split at opens
  case isTrue => cases opens
  case isFalse resolved =>
  split at opens
  case isTrue => cases opens
  case isFalse connect =>
  split at opens
  case isTrue => cases opens
  case isFalse secured =>
  split at opens
  case isTrue => cases opens
  case isFalse connectDone =>
  constructor
  · exact Int.not_lt.mp socket
  · simpa using resolved
  · exact Int.not_lt.mp connect
  · intro cipher
    exact Int.not_lt.mp fun failed => secured ⟨cipher, failed⟩
  · exact Int.not_lt.mp connectDone

/-- What `http_client_open` comes to when it succeeds. -/
theorem open_cases (opens : 0 ≤ (defaultHttpClientOpen call cli).1) :
    cli.protocol = apiViaHttp ∧ cli.queue = true ∧
      (0 ≤ cli.sock ∧ defaultHttpClientOpen call cli = (0, { cli with request := true }) ∨
        cli.sock < 0 ∧ call.Connects ∧
          defaultHttpClientOpen call cli = openConnection call { cli with request := true }) := by
  unfold defaultHttpClientOpen at opens ⊢
  dsimp only at opens ⊢
  split at opens
  case isTrue => cases opens
  case isFalse http =>
  split at opens
  case isTrue => cases opens
  case isFalse queue =>
  refine ⟨not_not.mp http, by simpa using queue, ?_⟩
  rw [if_neg http, if_neg queue]
  split at opens
  case isTrue closed =>
    rw [if_pos closed]
    exact .inr ⟨closed, connects_of_openConnection opens, rfl⟩
  case isFalse opened =>
    rw [if_neg opened]
    exact .inl ⟨Int.not_lt.mp opened, rfl⟩

/-- The protocol and the close flag, as in the requests that are tried again. -/
def Client.settings (cli : Client) : HttpSettings :=
  ⟨cli.close, if cli.protocol = apiViaHttp then .viaHttp else .viaMqtt⟩

/-- A client that was opened keeps its settings and has its request, and `socket` was called if it
had no session. -/
structure Opened (cli cli' : Client) : Prop where
  protocol : cli'.protocol = cli.protocol
  settings : cli'.settings = cli.settings
  request : cli'.request = true
  sockets : cli.sock < 0 → cli'.sockets = cli.sockets + 1

theorem opened (opens : 0 ≤ (defaultHttpClientOpen call cli).1) :
    Opened cli (defaultHttpClientOpen call cli).2 := by
  obtain ⟨-, -, ⟨opened, eq⟩ | ⟨-, connects, eq⟩⟩ := open_cases opens
  · rw [eq]
    exact ⟨rfl, rfl, rfl, fun closed => absurd closed (Int.not_lt.mpr opened)⟩
  · rw [eq, openConnection_eq connects]
    exact ⟨rfl, rfl, rfl, fun _ => rfl⟩

theorem open_iff (http : cli.protocol = apiViaHttp) :
    0 ≤ (defaultHttpClientOpen call cli).1 ↔
      cli.queue = true ∧ (0 ≤ cli.sock ∨ call.Connects) := by
  constructor
  · intro opens
    obtain ⟨-, queue, ⟨opened, -⟩ | ⟨-, connects, -⟩⟩ := open_cases opens
    · exact ⟨queue, .inl opened⟩
    · exact ⟨queue, .inr connects⟩
  · rintro ⟨queue, session⟩
    unfold defaultHttpClientOpen
    dsimp only
    rw [if_neg (not_not.mpr http), if_neg (by simp [queue])]
    split
    case isTrue closed =>
      rw [openConnection_eq (session.resolve_left (Int.not_le.mpr closed))]
    case isFalse => exact Int.le_refl 0

/-- A session that is set to be closed is closed. -/
theorem close_closes (http : cli.protocol = apiViaHttp) (close : cli.close = true) :
    (defaultHttpClientClose cli).2.sock < 0 := by
  unfold defaultHttpClientClose
  dsimp only
  rw [if_neg (not_not.mpr http)]
  split
  case isTrue closed => exact closed
  case isFalse =>
    rw [if_neg (by simp [close])]
    exact Int.negSucc_lt_zero 0

/-- Closing changes nothing but the socket and what belongs to it. -/
theorem close_eq (cli : Client) : ∃ cipher sock, (defaultHttpClientClose cli).2 =
    { cli with request := false, cipher := cipher, sock := sock } := by
  unfold defaultHttpClientClose
  dsimp only
  split
  case isTrue => exact ⟨_, _, rfl⟩
  case isFalse =>
  split
  case isTrue => exact ⟨_, _, rfl⟩
  case isFalse =>
  split
  case isTrue => exact ⟨_, _, rfl⟩
  case isFalse => exact ⟨_, _, rfl⟩

theorem clientDo_eq (request : cli.request = true) (response : Option Response) :
    clientDo call cli response =
      ((call.exchange Response.init).1, some (call.exchange Response.init).2) := by
  unfold clientDo
  rw [request]
  rfl

/-! ### One request -/

/-- A handler that opens leaves its request with the client, so that exchanging initialises the
response. -/
def ProtocolHandler.Prepares (ph : ProtocolHandler) : Prop :=
  ∀ call cli, 0 ≤ (ph.clientOpen call cli).1 →
    ph.clientDo call (ph.clientOpen call cli).2 none =
      ((call.exchange Response.init).1, some (call.exchange Response.init).2)

theorem httpHandler_prepares : httpHandler.Prepares := by
  intro call cli opens
  exact clientDo_eq (opened opens).request none

theorem mqttOpen_iff (call : Call) (cli : Client) :
    0 ≤ (httpMqttClientOpen call cli).1 ↔ cli.protocol = apiViaMqtt := by
  unfold httpMqttClientOpen
  dsimp only
  split
  case isTrue other => exact ⟨fun opens => (by cases opens), fun mqtt => absurd mqtt other⟩
  case isFalse mqtt => exact ⟨fun _ => not_not.mp mqtt, fun _ => Int.le_refl 0⟩

theorem mqttOpen_eq (call : Call) (cli : Client) :
    (httpMqttClientOpen call cli).2 = { cli with request := true } := by
  unfold httpMqttClientOpen
  dsimp only
  split
  case isTrue => rfl
  case isFalse => rfl

theorem mqttHandler_prepares : mqttHandler.Prepares := by
  intro call cli _
  refine clientDo_eq ?_ none
  exact congrArg Client.request (mqttOpen_eq call cli)

variable {ph : ProtocolHandler}

/-- If opening fails, the response is released as it is. -/
theorem handleRequest_fails (fails : (ph.clientOpen call cli).1 < 0) :
    handleRequest ph call cli = .error .uninitialised := by
  unfold handleRequest
  dsimp only
  rw [if_neg (Int.not_le.mpr fails), if_pos fails]
  rfl

/-- The value that a request returns whose connection was opened. -/
def answered (call : Call) : Int :=
  let exchanged := call.exchange Response.init
  if exchanged.1 < 0 then exchanged.1 else processed call exchanged.1 exchanged.2

theorem handleRequest_opens (prepares : ph.Prepares) (opens : 0 ≤ (ph.clientOpen call cli).1) :
    handleRequest ph call cli =
      .ok (httpError ph (answered call) (ph.clientClose (ph.clientOpen call cli).2).2) := by
  unfold handleRequest answered
  dsimp only
  rw [if_pos opens, prepares call cli opens]
  split
  case isTrue => rfl
  case isFalse => rfl

theorem handleRequest_iff (prepares : ph.Prepares) :
    (∃ r, handleRequest ph call cli = .ok r) ↔ 0 ≤ (ph.clientOpen call cli).1 := by
  constructor
  · rintro ⟨r, run⟩
    refine Int.not_lt.mp fun fails => ?_
    rw [handleRequest_fails fails] at run
    cases run
  · intro opens
    exact ⟨_, handleRequest_opens prepares opens⟩

theorem handleRequest_ok (prepares : ph.Prepares) {r : Int × Client}
    (run : handleRequest ph call cli = .ok r) : 0 ≤ (ph.clientOpen call cli).1 ∧
      r = httpError ph (answered call) (ph.clientClose (ph.clientOpen call cli).2).2 := by
  have opens := (handleRequest_iff prepares).mp ⟨r, run⟩
  rw [handleRequest_opens prepares opens] at run
  cases run
  exact ⟨opens, rfl⟩

theorem httpError_ret (ret : Int) (cli : Client) : (httpError ph ret cli).1 = ret := by
  unfold httpError
  split
  case isTrue => rfl
  case isFalse => rfl

/-- After a request over HTTP that failed the socket is closed, whatever the close flag was. -/
theorem httpError_closes {ret : Int} (http : cli.protocol = apiViaHttp) (fails : ret < 0) :
    (httpError httpHandler ret cli).2.sock < 0 := by
  unfold httpError
  split
  case isTrue => exact close_closes http rfl
  case isFalse kept => simpa [Client.sessionIsOpen, fails] using kept

theorem httpError_sockets (ret : Int) (cli : Client) :
    (httpError httpHandler ret cli).2.sockets = cli.sockets := by
  unfold httpError
  split
  case isTrue =>
    obtain ⟨_, _, eq⟩ := close_eq (cli.sessionCloseSet true)
    have kept := congrArg Client.sockets eq
    exact kept
  case isFalse => rfl

theorem httpRequest_ok (http : cli.protocol = apiViaHttp) {ret : Int} {cli' : Client}
    (run : handleRequest httpHandler call cli = .ok (ret, cli')) :
    (ret < 0 → cli'.sock < 0) ∧ (cli.sock < 0 → cli'.sockets = cli.sockets + 1) := by
  obtain ⟨opens, ends⟩ := handleRequest_ok httpHandler_prepares run
  have session := opened opens
  obtain ⟨_, _, closed_eq⟩ := close_eq (defaultHttpClientOpen call cli).2
  obtain ⟨rfl, rfl⟩ := Prod.mk.inj (ends.trans (Prod.mk.eta).symm)
  rw [httpError_ret]
  constructor
  · have protocol := (congrArg Client.protocol closed_eq).trans session.protocol
    exact httpError_closes (protocol.trans http)
  · intro closed
    rw [httpError_sockets]
    exact (congrArg Client.sockets closed_eq).trans (session.sockets closed)

/-- What a request does to the settings of the client is what the requests that are tried again
are taken to do. -/
theorem handleRequest_settings (prepares : ph.Prepares)
    (opens : 0 ≤ (ph.clientOpen call cli).1 → (ph.clientOpen call cli).2.settings = cli.settings)
    (closes : ∀ cli, (ph.clientClose cli).2.settings = cli.settings) {ret : Int} {cli' : Client}
    (run : handleRequest ph call cli = .ok (ret, cli')) : ∃ sessionOpen,
      RequestAnswer.request ⟨ret, false, sessionOpen⟩ cli.settings = (cli'.settings, ret) := by
  obtain ⟨opened, ends⟩ := handleRequest_ok prepares run
  have before : (ph.clientClose (ph.clientOpen call cli).2).2.settings = cli.settings :=
    (closes _).trans (opens opened)
  generalize (ph.clientClose (ph.clientOpen call cli).2).2 = closed at before ends
  refine ⟨closed.sessionIsOpen, ?_⟩
  unfold httpError at ends
  split at ends
  case isTrue fails =>
    cases ends
    rw [closes, RequestAnswer.request, ← before, fails.1, decide_eq_true fails.2]
    rfl
  case isFalse succeeds =>
    cases ends
    rw [RequestAnswer.request, ← before]
    simp only [Bool.and_eq_true, decide_eq_true_eq]
    rw [if_neg succeeds]
    rfl

theorem mqttRequest_ok {ret : Int} {cli' : Client}
    (run : handleRequest mqttHandler call cli = .ok (ret, cli')) : cli'.sock = cli.sock := by
  obtain ⟨-, ends⟩ := handleRequest_ok mqttHandler_prepares run
  have kept : (httpMqttClientOpen call cli).2.sock = cli.sock := by
    rw [mqttOpen_eq]
  unfold httpError at ends
  split at ends
  case isTrue =>
    cases ends
    exact kept
  case isFalse =>
    cases ends
    exact kept

end

/-! ### The routine and its runs -/

section

variable {viaMqtt : Bool} {call : Call} {cli cli' : Client} {ret : Int}

theorem clientProtocols_cases {p : Nat} {ph : ProtocolHandler}
    (found : (clientProtocols viaMqtt)[p]? = some ph) :
    p = 0 ∧ ph = httpHandler ∨ p = 1 ∧ ph = mqttHandler := by
  obtain ⟨bound, rfl⟩ := List.getElem?_eq_some_iff.mp found
  cases viaMqtt with
  | false =>
      cases Nat.lt_one_iff.mp bound
      exact .inl ⟨rfl, rfl⟩
  | true =>
      match p, bound with
      | 0, _ => exact .inl ⟨rfl, rfl⟩
      | 1, _ => exact .inr ⟨rfl, rfl⟩

theorem http_of_toNat (zero : cli.protocol.toNat = 0) : cli.protocol = apiViaHttp :=
  BitVec.eq_of_toNat_eq zero

theorem mqtt_of_toNat (one : cli.protocol.toNat = 1) : cli.protocol = apiViaMqtt :=
  BitVec.eq_of_toNat_eq one

theorem mqtt_ne_http (mqtt : cli.protocol = apiViaMqtt) : cli.protocol ≠ apiViaHttp := by
  rw [mqtt]
  decide

/-- The protocol is refused, is the first one beyond the table, or has its handler. -/
theorem httpRoutine_eq (viaMqtt : Bool) (call : Call) (cli : Client) :
    cli.protocol ≠ apiViaHttp ∧ (clientProtocols viaMqtt).length < cli.protocol.toNat ∧
        httpRoutine viaMqtt call cli = .ok (-2, cli) ∨
      cli.protocol.toNat = (clientProtocols viaMqtt).length ∧
        httpRoutine viaMqtt call cli = .error .beyondTable ∨
      cli.protocol.toNat < (clientProtocols viaMqtt).length ∧
        (cli.protocol = apiViaHttp ∧
            httpRoutine viaMqtt call cli = handleRequest httpHandler call cli ∨
          cli.protocol = apiViaMqtt ∧
            httpRoutine viaMqtt call cli = handleRequest mqttHandler call cli) := by
  unfold httpRoutine
  split
  case isTrue unknown =>
    refine .inl ⟨?_, unknown, rfl⟩
    rintro http
    rw [http] at unknown
    exact Nat.not_lt_zero _ unknown
  case isFalse known =>
  cases found : (clientProtocols viaMqtt)[cli.protocol.toNat]? with
  | none =>
      have beyond := List.getElem?_eq_none_iff.mp found
      exact .inr (.inl ⟨Nat.le_antisymm (Nat.le_of_not_lt known) beyond, rfl⟩)
  | some ph =>
      refine .inr (.inr ⟨(List.getElem?_eq_some_iff.mp found).1, ?_⟩)
      obtain ⟨zero, rfl⟩ | ⟨one, rfl⟩ := clientProtocols_cases found
      · exact .inl ⟨http_of_toNat zero, rfl⟩
      · exact .inr ⟨mqtt_of_toNat one, rfl⟩

/-- The requests that use a handler of the table and a response that was initialised. -/
theorem httpRoutine_iff :
    (∃ r, httpRoutine viaMqtt call cli = .ok r) ↔ Meets viaMqtt call cli := by
  obtain ⟨other, unknown, eq⟩ | ⟨beyond, eq⟩ | ⟨within, ⟨http, eq⟩ | ⟨mqtt, eq⟩⟩ :=
    httpRoutine_eq viaMqtt call cli
  · refine iff_of_true ⟨_, eq⟩ ⟨Nat.ne_of_gt unknown, fun http => ?_, fun http => ?_⟩
    · exact absurd http other
    · exact absurd http other
  · refine iff_of_false ?_ fun meets => meets.protocol beyond
    rintro ⟨r, run⟩
    rw [eq] at run
    cases run
  · rw [eq]
    refine (handleRequest_iff httpHandler_prepares).trans ((open_iff http).trans ?_)
    constructor
    · intro able
      exact ⟨Nat.ne_of_lt within, fun _ => able.1, fun _ => able.2⟩
    · intro meets
      exact ⟨meets.queue http, meets.session http⟩
  · have other := mqtt_ne_http mqtt
    rw [eq]
    refine (handleRequest_iff mqttHandler_prepares).trans ((mqttOpen_iff call cli).trans ?_)
    refine iff_of_true mqtt ⟨Nat.ne_of_lt within, fun http => ?_, fun http => ?_⟩
    · exact absurd http other
    · exact absurd http other

/-- A request is one of an unknown protocol, one over HTTP that opens a connection unless it has
one and closes it if it fails, or one over MQTT that leaves the socket alone. -/
theorem httpRoutine_cases (run : httpRoutine viaMqtt call cli = .ok (ret, cli')) :
    cli.protocol ≠ apiViaHttp ∧ cli'.sock = cli.sock ∨
      cli.protocol = apiViaHttp ∧ (ret < 0 → cli'.sock < 0) ∧
        (cli.sock < 0 → cli'.sockets = cli.sockets + 1) := by
  obtain ⟨other, -, eq⟩ | ⟨-, eq⟩ | ⟨-, ⟨http, eq⟩ | ⟨mqtt, eq⟩⟩ := httpRoutine_eq viaMqtt call cli
  · rw [eq] at run
    cases run
    exact .inl ⟨other, rfl⟩
  · rw [eq] at run
    cases run
  · exact .inr ⟨http, httpRequest_ok http (eq ▸ run)⟩
  · exact .inl ⟨mqtt_ne_http mqtt, mqttRequest_ok (eq ▸ run)⟩

theorem httpRoutine_settings (run : httpRoutine viaMqtt call cli = .ok (ret, cli')) :
    ∃ sessionOpen,
      RequestAnswer.request ⟨ret, false, sessionOpen⟩ cli.settings = (cli'.settings, ret) := by
  obtain ⟨-, -, eq⟩ | ⟨-, eq⟩ | ⟨-, ⟨-, eq⟩ | ⟨-, eq⟩⟩ := httpRoutine_eq viaMqtt call cli
  · rw [eq] at run
    cases run
    exact ⟨false, rfl⟩
  · rw [eq] at run
    cases run
  · refine handleRequest_settings httpHandler_prepares
      (fun opens => (opened opens).settings) (fun cli => ?_) (eq ▸ run)
    obtain ⟨_, _, closed⟩ := close_eq cli
    have kept := congrArg Client.settings closed
    exact kept
  · refine handleRequest_settings mqttHandler_prepares (fun _ => ?_) (fun _ => rfl) (eq ▸ run)
    have kept := congrArg Client.settings (mqttOpen_eq call cli)
    exact kept

/-- A failed request over HTTP is followed by states with a closed socket. -/
theorem disciplined_iff_of_closed (steps : List Step) (failed : Bool)
    (closed : failed = true → cli.sock < 0) :
    Disciplined viaMqtt failed steps cli ↔ AllMeet viaMqtt steps cli := by
  induction steps generalizing failed cli with
  | nil => exact Iff.rfl
  | cons step steps ih =>
      cases step with
      | setProtocol prot => exact ih failed closed
      | closeSet mode => exact ih failed closed
      | request call =>
          have later : ∀ ret cli', httpRoutine viaMqtt call cli = .ok (ret, cli') →
              (Disciplined viaMqtt (if cli.protocol = apiViaHttp then decide (ret < 0) else failed)
                steps cli' ↔ AllMeet viaMqtt steps cli') := by
            intro ret cli' run
            refine ih _ fun failed' => ?_
            obtain ⟨other, kept⟩ | ⟨http, closes, -⟩ := httpRoutine_cases run
            · rw [if_neg other] at failed'
              rw [kept]
              exact closed failed'
            · rw [if_pos http] at failed'
              exact closes (of_decide_eq_true failed')
          constructor
          · rintro ⟨ret, cli', run, -, rest⟩
            refine ⟨httpRoutine_iff.mp ⟨_, run⟩, fun ret' cli'' run' => ?_⟩
            rw [run] at run'
            cases run'
            exact (later ret cli' run).mp rest
          · rintro ⟨meets, rest⟩
            obtain ⟨r, run⟩ := httpRoutine_iff.mpr meets
            refine ⟨r.1, r.2, run, fun http => ?_, (later r.1 r.2 run).mpr (rest r.1 r.2 run)⟩
            obtain ⟨other, -⟩ | ⟨-, closes, opens⟩ := httpRoutine_cases run
            · exact absurd http other
            · exact ⟨closes, fun before => opens (closed before)⟩

/-- The runs in which every request is handled properly, from any state of the client. -/
theorem disciplined_iff (viaMqtt : Bool) (steps : List Step) (cli : Client) :
    Disciplined viaMqtt false steps cli ↔ AllMeet viaMqtt steps cli :=
  disciplined_iff_of_closed steps false fun failed => (by cases failed)

/-- The connection is refused, or the protocol is the first one beyond the table. -/
theorem not_disciplined_refused :
    ¬ Disciplined false false
        [.request ⟨3, true, -1, false, 0, 0, fun res => (0, res), none⟩] .initial ∧
      ¬ Disciplined false false
        [.setProtocol 1, .request ⟨3, true, 0, false, 0, 0, fun res => (0, res), none⟩]
        .initial := by
  constructor
  · rintro ⟨ret, cli', run, -⟩
    cases run
  · rintro ⟨ret, cli', run, -⟩
    cases run

end

end AcnSdk.Http.ErrorDiscipline
