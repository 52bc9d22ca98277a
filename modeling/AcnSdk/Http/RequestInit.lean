/-
How a request begins, `http_request_init` of `src/http/request.c`, and what it leaves for
`http_request_close`.

The request is a variable of its caller, so a member has no value before it is set. Two early
returns mark the request as corrupt with members that are not set yet, and the scheme is only
compared up to the length of what stands in its place.

* `meets_iff` — everything is in its place exactly if the URL is well-formed and short enough.
-/

import AcnSdk.Http.Client

namespace AcnSdk.Http

open AcnSdk.Lib AcnSdk.Arrow Prog Ascii

/-! ### The request -/

/-- A member of a structure without initial values. -/
inductive Member (α : Type) where
  | unset
  | set (value : α)
deriving DecidableEq, Repr

/-- The functions that take the payload of a response. -/
inductive PayloadHandler where
  | defaultSetPayloadHandler | defaultAddPayloadHandler
deriving DecidableEq, Repr

/-- `http_request_t`. A property is its value, `NULL` or a string, and a map its pairs. -/
structure HttpRequest where
  meth : Member (Option Bytes)
  scheme : Member (Option Bytes)
  host : Member (Option Bytes)
  uri : Member (Option Bytes)
  port : Member Nat
  isCorrupt : Member Int
  isCipher : Member Int
  isChunked : Member Int
  header : Member (List (Bytes × Bytes))
  contentType : Member (Option Bytes × Option Bytes)
  query : Member (List (Bytes × Bytes))
  payload : Member (Option Bytes)
  pSetHandler : Member PayloadHandler
  pAddHandler : Member PayloadHandler
deriving DecidableEq, Repr

/-- `http_request_t request;` -/
def HttpRequest.declared : HttpRequest :=
  ⟨.unset, .unset, .unset, .unset, .unset, .unset, .unset, .unset, .unset, .unset, .unset, .unset,
    .unset, .unset⟩

/-! ### Names -/

/-- `cmp_n_##type`: the first name that agrees in `n` characters. -/
def cmpN (names : List Bytes) (str : Bytes) (n : Nat) : Int :=
  match names.findIdx? fun name => strncmp str name n == 0 with
  | some i => i
  | none => -1

/-- `get_##type`. -/
def getName (names : List Bytes) (i : Int) : Option Bytes :=
  if 0 ≤ i then names[i.toNat]? else none

/-- `enum METH`. -/
inductive Meth where
  | get | post | put | delete | head
deriving DecidableEq, Repr

/-- `METH_str`. -/
def methStr : List Bytes :=
  [[0x47, 0x45, 0x54], [0x50, 0x4F, 0x53, 0x54], [0x50, 0x55, 0x54],
    [0x44, 0x45, 0x4C, 0x45, 0x54, 0x45], [0x48, 0x45, 0x41, 0x44]]

/-- `"http"`. -/
def httpText : Bytes := [0x68, 0x74, 0x74, 0x70]

/-- `"https"`. -/
def httpsText : Bytes := [0x68, 0x74, 0x74, 0x70, 0x73]

/-- `Scheme_str`. -/
def schemeStr : List Bytes := [httpText, httpsText]

/-- The number of a method. -/
def Meth.toInt : Meth → Int
  | get => 0
  | post => 1
  | put => 2
  | delete => 3
  | head => 4

/-- `cmp_n_Scheme`. The length is an `int` that becomes a `size_t`. -/
def cmpNScheme (str : Bytes) (n : Int) : Int := cmpN schemeStr str (n % 2 ^ 64).toNat

/-- `get_METH`. -/
def getMETH (meth : Int) : Option Bytes := getName methStr meth

/-- `get_Scheme`. -/
def getScheme (sch : Int) : Option Bytes := getName schemeStr sch

/-- `p_const` measures its string, so it is not `NULL`. -/
def pConst : Option Bytes → Except Fault Bytes
  | some value => .ok value
  | none => .error .nullPointer

/-! ### The beginning -/

/-- `"://"`. -/
def schemeEnd : Bytes := [colon, slash, slash]

/-- `static_host`. -/
def staticHostSize : Nat := 256

namespace HttpRequest

/-- The first members that are set. -/
def begun (meth : Bytes) : HttpRequest :=
  { declared with
    isCorrupt := .set 0
    meth := .set (some meth)
    scheme := .set none
    host := .set none
    uri := .set none
    payload := .set none }

/-- What an early return leaves. -/
def corrupt (req : HttpRequest) : HttpRequest := { req with isCorrupt := .set 1 }

/-- The last members that are set. The port has 16 bits. -/
def finished (req : HttpRequest) (port : Int) (uri : Bytes) : HttpRequest :=
  { req with
    port := .set (port % 2 ^ 16).toNat
    uri := .set (some uri)
    header := .set []
    query := .set []
    isChunked := .set 0
    payload := .set none
    contentType := .set (none, none)
    pSetHandler := .set .defaultSetPayloadHandler
    pAddHandler := .set .defaultAddPayloadHandler }

end HttpRequest

section

variable (cfg : Config) (isStatic : Bool)

/-- `http_request_init` behind the host. The URI begins with the slash that ends the port. -/
def initPort (req : HttpRequest) (portStart : Bytes) : Except Fault HttpRequest := do
  match ← copyTillToInt portStart [slash] with
  | none => return req.corrupt
  | some (port, path) =>
      if isStatic ∧ cfg.chunkSize ≤ (slash :: path).length then throw .overflow
      else return req.finished port (slash :: path)

/-- `http_request_init` behind the scheme. -/
def initHost (req : HttpRequest) (hostStart : Bytes) : Except Fault HttpRequest :=
  match strstr [colon] hostStart with
  | none => return req.corrupt
  | some hostEnd =>
      let host := hostStart.take (hostStart.length - hostEnd.length)
      if isStatic ∧ staticHostSize ≤ host.length then throw .overflow
      else initPort cfg isStatic { req with host := .set (some host) } (hostEnd.drop 1)

/-- `http_request_init`. `isStatic` stands for `STATIC_HTTP_CLIENT`, with which host and URI go to
buffers of a fixed size. -/
def httpRequestInit (meth : Meth) (url : Bytes) : Except Fault HttpRequest := do
  let req := HttpRequest.begun (← pConst (getMETH meth.toInt))
  match strstr schemeEnd url with
  | none => return req.corrupt
  | some schEnd =>
      let sch := cmpNScheme url (toInt32 (url.length - schEnd.length))
      let scheme ← pConst (getScheme sch)
      initHost cfg isStatic { req with scheme := .set (some scheme), isCipher := .set sch }
        (schEnd.drop schemeEnd.length)

end

/-- The members that `http_request_close` releases have values. -/
structure HttpRequest.Closable (req : HttpRequest) : Prop where
  meth : req.meth ≠ .unset
  scheme : req.scheme ≠ .unset
  host : req.host ≠ .unset
  uri : req.uri ≠ .unset
  payload : req.payload ≠ .unset
  header : req.header ≠ .unset
  query : req.query ≠ .unset
  contentType : req.contentType ≠ .unset

/-! ### URLs -/

/-- `enum Scheme`. -/
inductive Scheme where
  | http | https
deriving DecidableEq, Repr

/-- The name of a scheme. -/
def Scheme.text : Scheme → Bytes
  | http => httpText
  | https => httpsText

/-- `scheme://host:port/path`. -/
structure Url where
  scheme : Scheme
  host : Bytes
  port : Bytes
  path : Bytes
  host_nonempty : host ≠ []
  host_plain : colon ∉ host ∧ slash ∉ host
  port_nonempty : port ≠ []
  port_digits : ∀ c ∈ port, isDigit c = true
  port_le : decimalValue port ≤ 65535

namespace Url

def text (u : Url) : Bytes :=
  u.scheme.text ++ (schemeEnd ++ (u.host ++ ([colon] ++ (u.port ++ ([slash] ++ u.path)))))

/-- The request has the components of the URL. -/
structure Fills (u : Url) (req : HttpRequest) : Prop where
  scheme : req.scheme = .set (some u.scheme.text)
  host : req.host = .set (some u.host)
  port : req.port = .set (decimalValue u.port)
  uri : req.uri = .set (some (slash :: u.path))
  isCipher : req.isCipher = .set (if u.scheme = .https then 1 else 0)

/-- The components fit into their buffers. -/
structure Fits (cfg : Config) (isStatic : Bool) (u : Url) : Prop where
  port : u.port.length < 8
  host : isStatic = true → u.host.length < staticHostSize
  uri : isStatic = true → u.path.length + 1 < cfg.chunkSize

end Url

/-- The request has the components of its URL or is marked as corrupt, and can be closed. -/
def Meets (cfg : Config) (isStatic : Bool) (meth : Meth) (url : Bytes) : Prop :=
  ∃ req, httpRequestInit cfg isStatic meth url = .ok req ∧
    ((∃ u : Url, u.text = url ∧ u.Fills req) ∨ req.isCorrupt = .set 1) ∧ req.Closable

/-! ### Well-formed URLs -/

section

variable {cfg : Config} {isStatic : Bool} {meth : Meth}

theorem getMETH_toInt (meth : Meth) : ∃ name, getMETH meth.toInt = some name := by
  cases meth <;> exact ⟨_, rfl⟩

/-- The scheme that is found for its name. -/
theorem cmpNScheme_text (scheme : Scheme) (rest : Bytes) :
    cmpNScheme (scheme.text ++ rest) (toInt32 scheme.text.length) =
      if scheme = .https then 1 else 0 := by
  cases scheme <;> rfl

theorem getScheme_index (scheme : Scheme) :
    getScheme (if scheme = .https then 1 else 0) = some scheme.text := by
  cases scheme <;> rfl

namespace Url

variable (u : Url)

/-- What stands behind the host. -/
def portText : Bytes := u.port ++ ([slash] ++ u.path)

/-- What stands behind the scheme. -/
def hostText : Bytes := u.host ++ ([colon] ++ u.portText)

theorem atoi_port : atoi u.port = decimalValue u.port := by
  have small := u.port_le
  rw [atoi, strtol, numberAt_decimal u.port_digits u.port_nonempty,
    toLong_of_lt (by omega) (by omega), toInt32_of_lt (by omega) (by omega)]

theorem copyTillToInt_port : copyTillToInt u.portText [slash] =
    if 8 ≤ u.port.length then .error .overflow else .ok (some (decimalValue u.port, u.path)) := by
  have no_slash : slash ∉ u.port := fun mem => absurd (u.port_digits slash mem) (by decide)
  rw [copyTillToInt, portText]
  split
  case isTrue long =>
    rw [copyTill_overflow (not_prefix_of_not_mem no_slash) long]
    rfl
  case isFalse short =>
    rw [copyTill_eq (not_prefix_of_not_mem no_slash) (Nat.not_le.mp short), ← u.atoi_port]
    rfl

theorem initPort_eq (req : HttpRequest) : initPort cfg isStatic req u.portText =
    if 8 ≤ u.port.length ∨ isStatic = true ∧ cfg.chunkSize ≤ u.path.length + 1 then .error .overflow
    else .ok (req.finished (decimalValue u.port) (slash :: u.path)) := by
  rw [initPort, u.copyTillToInt_port]
  by_cases long : 8 ≤ u.port.length
  · rw [if_pos long, if_pos (.inl long)]
    rfl
  · simp only [false_or, long]
    rfl

theorem initHost_eq (req : HttpRequest) : initHost cfg isStatic req u.hostText =
    if isStatic = true ∧ staticHostSize ≤ u.host.length then .error .overflow
    else initPort cfg isStatic { req with host := .set (some u.host) } u.portText := by
  have found : strstr [colon] u.hostText = some ([colon] ++ u.portText) :=
    strstr_append (List.prefix_append _ _) (not_prefix_of_not_mem u.host_plain.1)
  have front : u.hostText.take (u.hostText.length - ([colon] ++ u.portText).length) = u.host := by
    rw [hostText, List.length_append, Nat.add_sub_cancel, List.take_left]
  rw [initHost, found]
  dsimp only
  rw [front]
  rfl

/-- The request of a well-formed URL. -/
def request (name : Bytes) : HttpRequest :=
  { HttpRequest.begun name with
    scheme := .set (some u.scheme.text)
    isCipher := .set (if u.scheme = Scheme.https then 1 else 0)
    host := .set (some u.host) }.finished (decimalValue u.port) (slash :: u.path)

theorem request_fills (name : Bytes) : u.Fills (u.request name) := by
  refine ⟨rfl, rfl, ?_, rfl, rfl⟩
  have small := u.port_le
  have port : ((decimalValue u.port : Int) % 2 ^ 16).toNat = decimalValue u.port := by omega
  rw [request, HttpRequest.finished, port]

theorem request_closable (name : Bytes) : (u.request name).Closable := by
  constructor <;> exact fun unset => by cases unset

theorem httpRequestInit_eq {name : Bytes} (named : getMETH meth.toInt = some name) :
    httpRequestInit cfg isStatic meth u.text =
      initHost cfg isStatic { HttpRequest.begun name with
        scheme := .set (some u.scheme.text)
        isCipher := .set (if u.scheme = Scheme.https then 1 else 0) } u.hostText := by
  have no_colon : colon ∉ u.scheme.text := by cases u.scheme <;> decide
  have found : strstr schemeEnd u.text = some (schemeEnd ++ u.hostText) :=
    strstr_append (List.prefix_append _ _) (not_prefix_of_not_mem no_colon)
  have front : (u.text.length : Int) - (schemeEnd ++ u.hostText).length = u.scheme.text.length := by
    have whole : u.text.length = u.scheme.text.length + (schemeEnd ++ u.hostText).length :=
      List.length_append
    omega
  have sch : cmpNScheme u.text (toInt32 u.scheme.text.length) = _ := cmpNScheme_text u.scheme _
  rw [httpRequestInit, named, found]
  simp only [pConst, front, sch, getScheme_index, List.drop_left]
  rfl

end Url

/-! ### Other URLs -/

theorem initPort_corrupt {req req' : HttpRequest} {portStart : Bytes}
    (run : initPort cfg isStatic req portStart = .ok req') (sound : req.isCorrupt = .set 0)
    (corrupt : req'.isCorrupt = .set 1) : req' = req.corrupt := by
  obtain ⟨copied, -, run⟩ := ok_of_bind run
  cases copied with
  | none =>
      cases run
      rfl
  | some parts =>
      dsimp only at run
      split at run
      · cases run
      · cases run
        exact absurd (sound.symm.trans corrupt) (by decide)

/-- Without a port and a path, there are members that have no value. -/
theorem not_closable_of_corrupt {url : Bytes} {req : HttpRequest}
    (run : httpRequestInit cfg isStatic meth url = .ok req) (corrupt : req.isCorrupt = .set 1) :
    ¬ req.Closable := by
  suffices unset : req.header = .unset from fun closable => closable.header unset
  obtain ⟨name, -, run⟩ := ok_of_bind run
  split at run
  · cases run
    rfl
  · obtain ⟨scheme, -, run⟩ := ok_of_bind run
    rw [initHost] at run
    split at run
    · cases run
      rfl
    · dsimp only at run
      split at run
      · cases run
      · rw [initPort_corrupt run rfl corrupt]
        rfl

end

/-- A request has its components in place, or is corrupt, and can be closed in both cases, exactly
if the URL is well-formed and its components fit into their buffers. -/
theorem meets_iff (cfg : Config) (isStatic : Bool) (meth : Meth) (url : Bytes) :
    Meets cfg isStatic meth url ↔ ∃ u : Url, u.text = url ∧ u.Fits cfg isStatic := by
  obtain ⟨name, named⟩ := getMETH_toInt meth
  constructor
  · rintro ⟨req, run, filled | corrupt, closable⟩
    · obtain ⟨u, rfl, -⟩ := filled
      refine ⟨u, rfl, ?_⟩
      rw [u.httpRequestInit_eq named, u.initHost_eq] at run
      split at run
      case isTrue => cases run
      case isFalse host =>
        rw [u.initPort_eq] at run
        split at run
        case isTrue => cases run
        case isFalse rest =>
          rw [not_or] at rest
          exact ⟨Nat.not_le.mp rest.1, fun static => Nat.not_le.mp fun long => host ⟨static, long⟩,
            fun static => Nat.not_le.mp fun long => rest.2 ⟨static, long⟩⟩
    · exact absurd closable (not_closable_of_corrupt run corrupt)
  · rintro ⟨u, rfl, fits⟩
    have host : ¬ (isStatic = true ∧ staticHostSize ≤ u.host.length) := fun long =>
      Nat.not_le.mpr (fits.host long.1) long.2
    have rest : ¬ (8 ≤ u.port.length ∨ isStatic = true ∧ cfg.chunkSize ≤ u.path.length + 1) :=
      not_or.mpr ⟨Nat.not_le.mpr fits.port, fun long => Nat.not_le.mpr (fits.uri long.1) long.2⟩
    refine ⟨u.request name, ?_, .inl ⟨u, rfl, u.request_fills name⟩, u.request_closable name⟩
    rw [u.httpRequestInit_eq named, u.initHost_eq, if_neg host, u.initPort_eq, if_neg rest]
    rfl

/-- `http//h:80/` is corrupt and cannot be closed. -/
theorem not_meets_slashes : ¬ Meets .standard false .get
    [0x68, 0x74, 0x74, 0x70, 0x2F, 0x2F, 0x68, 0x3A, 0x38, 0x30, 0x2F] := by
  rintro ⟨req, run, -, closable⟩
  obtain rfl : (HttpRequest.begun [0x47, 0x45, 0x54]).corrupt = req := Except.ok.inj run
  exact closable.header rfl

end AcnSdk.Http
