/-
The handler of software releases, `src/arrow/software_release.c`.

It downloads an image with a digest over the pieces that come in, and reports to the cloud what has
become of it. The registered callbacks, the requests and the network answer as they like. A
download over the network is that of the HTTP client, over any source of bytes.

* `handed_eq` — the state of the digest after a download.
-/

import AcnSdk.Http.Client
import AcnSdk.Http.Routine
import AcnSdk.Json.Node
import AcnSdk.Lib.CString
import AcnSdk.Lib.Hex
import AcnSdk.Lib.Simulation
import AcnSdk.Ssl.Md5

namespace AcnSdk.Arrow

open AcnSdk.Lib AcnSdk.Http AcnSdk.Json AcnSdk.Ssl

/-- `enum arrow_ota_result`. -/
inductive FwResult where
  | success | md5sum
deriving DecidableEq, Repr

/-- `enum arrow_ota_init`. -/
inductive FwChunk where
  | first | next
deriving DecidableEq, Repr

/-- The registered functions `__download_init`, `__payload` and `__download`. What the second one
returns may depend on the pieces it got before. -/
structure DownloadCallbacks where
  init : Option (Bytes → Int)
  payload : Option (List Bytes → Bytes → FwChunk → Int)
  complete : Option (FwResult → Int)

/-- `__download_init` of the checksum, if it is registered. -/
def DownloadCallbacks.initResult (callbacks : DownloadCallbacks) (checksum : Bytes) : Int :=
  match callbacks.init with
  | none => 0
  | some init => init checksum

/-- What a download meets: the client and its network, what `http_client_open` returns, whether
`ssl_connect` fails in it, and whether the session is open in the end. -/
structure Download (σ : Type) where
  cfg : Http.Config
  src : Source σ
  send : Prog σ Int
  fuel : Nat
  session : σ
  opened : Int
  handshakeFailed : Bool
  sessionOpen : Bool

/-- An event with all that its handler meets. -/
structure ReleaseEvent (σ ν : Type) where
  parameters : JsonNode ν
  callbacks : DownloadCallbacks
  received : Nat → RequestAnswer
  download : Download σ
  failed : Nat → RequestAnswer
  succeeded : Nat → RequestAnswer

/-- What a download leaves: its result, the state of the digest, and the response. -/
structure Downloaded where
  ret : Int
  md5 : Md5
  response : Option Response

/-- What the handler leaves. `success` is that it has gone on to report a success, and `rebooted`
that it has come to `reboot`. -/
structure ReleaseOutcome where
  ret : Int
  settings : HttpSettings
  md5 : Md5
  response : Option Response
  success : Bool
  rebooted : Bool

/-- `"softwareReleaseTransHid"` -/
abbrev softwareReleaseTransHidText : Bytes :=
  [0x73, 0x6F, 0x66, 0x74, 0x77, 0x61, 0x72, 0x65, 0x52, 0x65, 0x6C, 0x65, 0x61, 0x73, 0x65, 0x54,
    0x72, 0x61, 0x6E, 0x73, 0x48, 0x69, 0x64]

/-- `"tempToken"` -/
abbrev tempTokenText : Bytes := [0x74, 0x65, 0x6D, 0x70, 0x54, 0x6F, 0x6B, 0x65, 0x6E]

/-- `"fromSoftwareVersion"` -/
abbrev fromSoftwareVersionText : Bytes :=
  [0x66, 0x72, 0x6F, 0x6D, 0x53, 0x6F, 0x66, 0x74, 0x77, 0x61, 0x72, 0x65, 0x56, 0x65, 0x72, 0x73,
    0x69, 0x6F, 0x6E]

/-- `"toSoftwareVersion"` -/
abbrev toSoftwareVersionText : Bytes :=
  [0x74, 0x6F, 0x53, 0x6F, 0x66, 0x74, 0x77, 0x61, 0x72, 0x65, 0x56, 0x65, 0x72, 0x73, 0x69, 0x6F,
    0x6E]

/-- `"md5checksum"` -/
abbrev md5checksumText : Bytes :=
  [0x6D, 0x64, 0x35, 0x63, 0x68, 0x65, 0x63, 0x6B, 0x73, 0x75, 0x6D]

/-- The text of a member, if it is there and a string. -/
def stringMember {ν : Type} (node : JsonNode ν) (name : Bytes) : Option Bytes :=
  (node.jsonFindMember name).bind JsonNode.stringValue

/-! ### The digest -/

section Digest

variable (callbacks : DownloadCallbacks)

/-- `arrow_software_release_payload_handler`, after the given pieces. -/
def payloadHandler (pieces : List Bytes) (piece : Bytes) (md5 : Md5) : Md5 × Int :=
  match callbacks.payload with
  | none => (md5, -1)
  | some payload =>
      if pieces.length = 0 then (wcMd5Update wcInitMd5 piece, payload pieces piece .first)
      else (wcMd5Update md5 piece, payload pieces piece .next)

/-- The state of the digest after more pieces. -/
def handed (before : List Bytes) (md5 : Md5) : List Bytes → Md5
  | [] => md5
  | piece :: pieces =>
      handed (before ++ [piece]) (payloadHandler callbacks before piece md5).1 pieces

/-- `_software_releases_download_proc`. -/
def downloadProc (checksum : Bytes) (res : Response) (md5 : Md5) : Md5 × Int :=
  if res.httpResponseCode ≠ 200 then (md5, -1)
  else
    match callbacks.complete with
    | none => (md5, -1)
    | some complete =>
        let hash := wcMd5Final md5
        (wcInitMd5, if strncmp (hexEncode hash) checksum (2 * hash.length) = 0 then
          complete .success else complete .md5sum)

variable {callbacks}

theorem handed_none (registered : callbacks.payload = none) (before : List Bytes) (md5 : Md5)
    (pieces : List Bytes) : handed callbacks before md5 pieces = md5 := by
  induction pieces generalizing before with
  | nil => rfl
  | cons piece pieces ih =>
      have same : (payloadHandler callbacks before piece md5).1 = md5 := by
        rw [payloadHandler, registered]
      rw [handed, same, ih]

/-- The first piece starts the digest anew. Without a piece it stays as it was. -/
theorem handed_eq {payload : List Bytes → Bytes → FwChunk → Int}
    (registered : callbacks.payload = some payload) (md5 : Md5) (pieces : List Bytes) :
    handed callbacks [] md5 pieces =
      if pieces = [] then md5 else pieces.foldl wcMd5Update wcInitMd5 := by
  have later : ∀ pieces before md5, before ≠ [] →
      handed callbacks before md5 pieces = pieces.foldl wcMd5Update md5 := by
    intro pieces
    induction pieces with
    | nil => exact fun _ _ _ => rfl
    | cons piece pieces ih =>
        intro before md5 some
        rw [handed, payloadHandler, registered, ih _ _ (by simp)]
        dsimp only
        rw [if_neg (fun none => some (List.eq_nil_of_length_eq_zero none)), List.foldl_cons]
  cases pieces with
  | nil => rfl
  | cons piece pieces =>
      rw [handed, payloadHandler, registered, later _ _ _ (by simp), if_neg (List.cons_ne_nil _ _),
        List.foldl_cons]
      rfl

end Digest

/-! ### The handler -/

section Handler

variable {σ ν : Type} (ev : ReleaseEvent σ ν)

/-- What the client makes of the response to the download. -/
def ReleaseEvent.client (md5 : Md5) : Except Fault (Int × Response) :=
  result (defaultHttpClientDo ev.download.cfg ev.download.src
    (fun pieces piece => (payloadHandler ev.callbacks pieces piece md5).2) ev.download.send
    ev.download.fuel ev.download.session)

/-- `arrow_software_release_download`, without the settings of the client. -/
def arrowSoftwareReleaseDownload (checksum : Bytes) (md5 : Md5) : Except Fault Downloaded :=
  if ev.download.opened < 0 then .ok ⟨ev.download.opened, md5, none⟩
  else do
    let (ret, res) ← ev.client md5
    let md5 := handed ev.callbacks [] md5 res.pieces
    if ret < 0 then return ⟨ret, md5, some res⟩
    else
      let (md5, ret) := downloadProc ev.callbacks checksum res md5
      return ⟨ret, md5, some res⟩

/-- The members that are asked for after the first answer. All have to be there. -/
def ReleaseEvent.checksum : Option Bytes := do
  let _ ← stringMember ev.parameters tempTokenText
  let _ ← stringMember ev.parameters fromSoftwareVersionText
  let _ ← stringMember ev.parameters toSoftwareVersionText
  stringMember ev.parameters md5checksumText

variable (maxRetry : Int)

/-- The part of the handler after the label `software_release_done`. -/
def softwareReleaseDone (done : Downloaded) (s : HttpSettings) : ReleaseOutcome :=
  let s := s.closeSet true
  if done.ret < 0 then
    let tried := retryRequest maxRetry ev.failed s
    if tried.success then
      ⟨done.ret, tried.state.setProtocol .viaHttp, done.md5, done.response, false, false⟩
    else ⟨-2, tried.state, done.md5, done.response, false, false⟩
  else
    let tried := retryRequest maxRetry ev.succeeded s
    if tried.success then
      ⟨done.ret, tried.state.setProtocol .viaHttp, done.md5, done.response, true, true⟩
    else ⟨-2, tried.state, done.md5, done.response, true, false⟩

/-- The part of the handler between the first answer and that label. -/
def releaseBody (md5 : Md5) (s : HttpSettings) : Except Fault (Downloaded × HttpSettings) :=
  match ev.checksum with
  | none => .ok (⟨-1, md5, none⟩, s)
  | some checksum =>
      if ev.callbacks.initResult checksum < 0 then
        .ok (⟨ev.callbacks.initResult checksum, md5, none⟩, s)
      else do
        let done ← arrowSoftwareReleaseDownload ev checksum md5
        let answer : RequestAnswer :=
          ⟨done.ret, ev.download.handshakeFailed, ev.download.sessionOpen⟩
        return (done, (answer.request (s.setProtocol .viaHttp)).1)

/-- `ev_DeviceSoftwareRelease`. `viaMqtt` is the build with `HTTP_VIA_MQTT`. -/
def evDeviceSoftwareRelease (viaMqtt : Bool) (md5 : Md5) (s : HttpSettings) :
    Except Fault ReleaseOutcome :=
  match stringMember ev.parameters softwareReleaseTransHidText with
  | none => .ok ⟨-1, s, md5, none, false, false⟩
  | some _ =>
      let tried := retryRequest maxRetry ev.received (s.begun viaMqtt)
      if tried.success then do
        let (done, s) ← releaseBody ev md5 tried.state
        return softwareReleaseDone ev maxRetry done s
      else .ok ⟨-2, tried.state, md5, none, false, false⟩

end Handler

end AcnSdk.Arrow
