/-
A request in memory, `src/http/request.c`, with the heap that its members are on.

The texts of a request are properties, and its headers and its query are two property maps. Some of
the texts are blocks of the request and some are the caller's own. Whether there is memory for the
node of a header or a parameter is told with the call; that there is none for a text is left out, as
for properties. Host and URI are on the heap, as they are without `STATIC_HTTP_CLIENT`.

* `HttpRequest`, and the functions that make, change and close it.
* `Call`, `Call.meant` — what is done with a request, and what is meant by it.
-/

import AcnSdk.Data.PropertyMapRuns
import AcnSdk.Http.RequestInit
import AcnSdk.Http.Send
import AcnSdk.Json.PointerDecode
import AcnSdk.Json.PointerOwned

namespace AcnSdk.Http.Memory

open AcnSdk.Lib AcnSdk.Arrow Prog Heap Ascii
open AcnSdk.Data hiding propertyFree propertyMove
open AcnSdk.Json.Pointers (propertyFree propertyMove releases released pJson)

/-! ### The source -/

/-- `http_request_t`. -/
structure HttpRequest where
  meth : Property
  scheme : Property
  host : Property
  uri : Property
  port : Nat
  isCorrupt : Int
  isCipher : Int
  isChunked : Int
  header : Option Addr
  contentKey : Property
  contentValue : Property
  query : Option Addr
  payload : Property
  pSetHandler : Option PayloadHandler
  pAddHandler : Option PayloadHandler
deriving DecidableEq, Repr

/-- A request of zeros. -/
def HttpRequest.zero : HttpRequest :=
  ⟨.init, .init, .init, .init, 0, 0, 0, 0, none, .init, .init, none, .init, none, none⟩

section

variable (literal : Bytes → Addr)

/-- `p_const` of a literal. -/
def literalConst (s : Bytes) : Property := .const (literal s) s.length

/-- `http_request_init`. An early return marks the request as corrupt, and it cannot be closed
then. The URI is copied from the middle of the URL. -/
def httpRequestInit (meth : Meth) (url : Addr) : Prog MapHeap (Option HttpRequest) := do
  let text ← onBytes (stringAt url)
  let name ← lift (pConst (getMETH meth.toInt))
  let meth ← onBytes (propertyCopy (literalConst literal name))
  match strstr schemeEnd text with
  | none => return none
  | some schEnd => do
      let sch := cmpNScheme text (toInt32 (text.length - schEnd.length))
      let scheme ← lift (pConst (getScheme sch))
      let scheme ← onBytes (propertyCopy (literalConst literal scheme))
      let hostStart := schEnd.drop schemeEnd.length
      match strstr [colon] hostStart with
      | none => return none
      | some hostEnd => do
          let host := hostStart.take (hostStart.length - hostEnd.length)
          let dynamicHost ← onBytes (alloc (host ++ [0]))
          match ← lift (copyTillToInt (hostEnd.drop 1) [slash]) with
          | none => return none
          | some (port, path) => do
              let uri := slash :: path
              let copy ← onBytes (alloc (uri ++ [0]))
              return some { HttpRequest.zero with
                meth, scheme
                host := .heap dynamicHost host.length
                uri := .heap copy uri.length
                port := (port % 2 ^ 16).toNat
                isCipher := sch
                pSetHandler := some .defaultSetPayloadHandler
                pAddHandler := some .defaultAddPayloadHandler }

/-- `http_request_set_content_type`. What was there is not freed. -/
def httpRequestSetContentType (req : HttpRequest) (value : Property) : HttpRequest :=
  { req with contentKey := literalConst literal contentTypeText, contentValue := value }

end

/-- `http_request_close`. -/
def httpRequestClose (req : HttpRequest) : Prog MapHeap HttpRequest := do
  let _ ← onBytes (propertyFree req.meth)
  let _ ← onBytes (propertyFree req.scheme)
  let _ ← onBytes (propertyFree req.host)
  let _ ← onBytes (propertyFree req.uri)
  let _ ← onBytes (propertyFree req.payload)
  let _ ← propertyMapClear req.header
  let _ ← propertyMapClear req.query
  let _ ← onBytes (propertyFree req.contentValue)
  let _ ← onBytes (propertyFree req.contentKey)
  return .zero

/-- `http_request_add_header`. Nobody is told that there was no memory. -/
def httpRequestAddHeader (granted : Bool) (req : HttpRequest) (key value : Property) :
    Prog MapHeap HttpRequest := do
  let (_, header) ← propertyMapAdd granted req.header key value
  return { req with header }

/-- `http_request_set_header`. -/
def httpRequestSetHeader (req : HttpRequest) (key value : Property) : Prog MapHeap Unit := do
  let _ ← propertyMapAssign req.header key value

/-- `http_request_find_header`, without a place for the value. -/
def httpRequestFindHeader (req : HttpRequest) (key : Property) : Prog MapHeap Int := do
  match ← propertyMapFind req.header key with
  | none => return -1
  | some _ => return 0

/-- `http_request_add_query`. -/
def httpRequestAddQuery (granted : Bool) (req : HttpRequest) (key value : Property) :
    Prog MapHeap HttpRequest := do
  let (_, query) ← propertyMapAdd granted req.query key value
  return { req with query }

/-- `http_request_set_payload`. What was there is not freed. -/
def httpRequestSetPayload (req : HttpRequest) (payload : Property) :
    Prog MapHeap HttpRequest := do
  let (moved, _) ← onBytes (propertyMove req.payload payload)
  return { req with payload := moved }

/-- `find_by_t`, without the links of its list. -/
structure FindBy where
  key : Int
  value : Property

/-- `find_by_name`. -/
def findByName : List Bytes :=
  [[0x75, 0x73, 0x65, 0x72, 0x48, 0x69, 0x64], [0x75, 0x69, 0x64], [0x74, 0x79, 0x70, 0x65],
    [0x67, 0x61, 0x74, 0x65, 0x77, 0x61, 0x79, 0x48, 0x69, 0x64],
    [0x63, 0x72, 0x65, 0x61, 0x74, 0x65, 0x64, 0x42, 0x65, 0x66, 0x6F, 0x72, 0x65],
    [0x63, 0x72, 0x65, 0x61, 0x74, 0x65, 0x64, 0x41, 0x66, 0x74, 0x65, 0x72],
    [0x75, 0x70, 0x64, 0x61, 0x74, 0x65, 0x64, 0x42, 0x65, 0x66, 0x6F, 0x72, 0x65],
    [0x75, 0x70, 0x64, 0x61, 0x74, 0x65, 0x64, 0x41, 0x66, 0x74, 0x65, 0x72],
    [0x65, 0x6E, 0x61, 0x62, 0x6C, 0x65, 0x64], [0x5F, 0x70, 0x61, 0x67, 0x65],
    [0x5F, 0x73, 0x69, 0x7A, 0x65],
    [0x63, 0x72, 0x65, 0x61, 0x74, 0x65, 0x64, 0x44, 0x61, 0x74, 0x65, 0x46, 0x72, 0x6F, 0x6D],
    [0x63, 0x72, 0x65, 0x61, 0x74, 0x65, 0x64, 0x44, 0x61, 0x74, 0x65, 0x54, 0x6F],
    [0x73, 0x6F, 0x72, 0x74, 0x46, 0x69, 0x65, 0x6C, 0x64],
    [0x73, 0x6F, 0x72, 0x74, 0x44, 0x69, 0x72, 0x65, 0x63, 0x74, 0x69, 0x6F, 0x6E],
    [0x73, 0x74, 0x61, 0x74, 0x75, 0x73, 0x65, 0x73],
    [0x73, 0x79, 0x73, 0x74, 0x65, 0x6D, 0x4E, 0x61, 0x6D, 0x65, 0x73],
    [0x66, 0x72, 0x6F, 0x6D, 0x54, 0x69, 0x6D, 0x65, 0x73, 0x74, 0x61, 0x6D, 0x70],
    [0x74, 0x6F, 0x54, 0x69, 0x6D, 0x65, 0x73, 0x74, 0x61, 0x6D, 0x70],
    [0x74, 0x65, 0x6C, 0x65, 0x6D, 0x65, 0x74, 0x72, 0x79, 0x4E, 0x61, 0x6D, 0x65, 0x73],
    [0x6F, 0x73, 0x4E, 0x61, 0x6D, 0x65, 0x73]]

/-- `get_find_by_name`. A negative number is in front of the array. -/
def getFindByName (num : Int) : Except Fault (Option Bytes) :=
  if num < findByName.length then
    if 0 ≤ num then .ok findByName[num.toNat]? else .error .overflow
  else .ok none

/-- `find_by_validate_key`, of a node that is not NULL. -/
def findByValidateKey (fb : FindBy) : Int := if fb.key < findByName.length then 0 else -1

/-- `http_request_set_findby`. With each parameter comes whether there is memory for it. -/
def httpRequestSetFindby (literal : Bytes → Addr) :
    HttpRequest → List (FindBy × Bool) → Prog MapHeap HttpRequest
  | req, [] => return req
  | req, (tmp, granted) :: fb =>
      if findByValidateKey tmp = 0 then do
        let name ← lift (getFindByName tmp.key)
        let name ← lift (pConst name)
        let req ← httpRequestAddQuery granted req (literalConst literal name) tmp.value
        httpRequestSetFindby literal req fb
      else httpRequestSetFindby literal req fb

/-! ### What a request stands for -/

/-- A text of a request, and whether it is a block of its own. -/
structure Held where
  text : Bytes
  own : Bool
deriving DecidableEq, Repr

/-- The parts of a request, and how many blocks were lost. -/
structure Meaning where
  meth : Bytes
  scheme : Bytes
  host : Bytes
  uri : Bytes
  port : Nat
  isCipher : Int
  header : List Entry
  query : List Entry
  contentType : Option Held
  payload : Option Held
  lost : Nat

/-- How many blocks are lost with a text that is replaced. -/
def lostWith (held : Option Held) : Nat := (held.elim false Held.own).toNat

/-- A property that is handed over to a request. Its text stays the caller's own, or is a block that
was made for the request. -/
inductive Gift where
  | lent (arg : Arg)
  | heap (text : Bytes)
  | json (text : Bytes)

/-- The property, with the block made. -/
def Gift.make : Gift → HeapM Bytes Property
  | lent arg => return arg.property
  | heap text => do return .heap (← alloc (text ++ [0])) text.length
  | json text => do return pJson (← alloc (text ++ [0])) text.length

/-- A parameter: its number, its value, and whether there is memory for its node. -/
structure Param where
  num : Int
  value : Arg
  granted : Bool

/-- The node of `find_by_t` that stands for it. -/
def Param.findBy (f : Param) : FindBy × Bool := (⟨f.num, f.value.property⟩, f.granted)

/-- What is done with a request before it is sent. -/
inductive Call where
  | addHeader (key value : Arg) (granted : Bool)
  | setHeader (key value : Arg)
  | findHeader (key : Arg)
  | addQuery (key value : Arg) (granted : Bool)
  | setFindby (fb : List Param)
  | setContentType (value : Gift)
  | setPayload (payload : Gift)

/-- It is done. Only `http_request_find_header` says how it went. -/
def Call.run (literal : Bytes → Addr) (req : HttpRequest) :
    Call → Prog MapHeap (Int × HttpRequest)
  | addHeader key value granted => do
      return (0, ← httpRequestAddHeader granted req key.property value.property)
  | setHeader key value => do
      httpRequestSetHeader req key.property value.property
      return (0, req)
  | findHeader key => do return (← httpRequestFindHeader req key.property, req)
  | addQuery key value granted => do
      return (0, ← httpRequestAddQuery granted req key.property value.property)
  | setFindby fb => do return (0, ← httpRequestSetFindby literal req (fb.map Param.findBy))
  | setContentType value => do
      let value ← onBytes value.make
      return (0, httpRequestSetContentType literal req value)
  | setPayload payload => do
      let payload ← onBytes payload.make
      return (0, ← httpRequestSetPayload req payload)

namespace Meaning

/-- An operation on the headers. -/
def onHeader (m : Meaning) (op : MapOp) : Meaning :=
  { m with header := (op.meant ⟨m.header, m.lost⟩).2.entries
           lost := (op.meant ⟨m.header, m.lost⟩).2.lost }

/-- An operation on the query. -/
def onQuery (m : Meaning) (op : MapOp) : Meaning :=
  { m with query := (op.meant ⟨m.query, m.lost⟩).2.entries
           lost := (op.meant ⟨m.query, m.lost⟩).2.lost }

end Meaning

/-- The text of a gift in the place of a content type, which is not copied. -/
def Gift.kept : Gift → Held
  | lent arg => ⟨arg.text, false⟩
  | heap text => ⟨text, true⟩
  | json text => ⟨text, true⟩

/-- The text of a gift in the place of a payload. What is on the stack is copied. -/
def Gift.moved : Gift → Held
  | lent arg => ⟨arg.text, arg.property.tag = stackTag⟩
  | heap text => ⟨text, true⟩
  | json text => ⟨text, true⟩

/-- A parameter as an entry of the query. A number behind the last name is passed over. -/
def findbyMeant (m : Meaning) (f : Param) : Meaning :=
  if f.num < findByName.length ∧ f.granted then
    { m with query := m.query ++
        [⟨findByName.getD f.num.toNat [], f.value.text, false, decide f.value.property.Copied⟩] }
  else m

/-- What is meant by a call. -/
def Call.meant (m : Meaning) : Call → Int × Meaning
  | addHeader key value granted => (0, m.onHeader (.add key value granted))
  | setHeader key value => (0, m.onHeader (.assign key value))
  | findHeader key => (if (m.header.find? (Entry.Has key.text)).isSome then 0 else -1, m)
  | addQuery key value granted => (0, m.onQuery (.add key value granted))
  | setFindby fb => (0, fb.foldl findbyMeant m)
  | setContentType value =>
      (0, { m with contentType := some value.kept, lost := m.lost + lostWith m.contentType })
  | setPayload payload =>
      (0, { m with payload := some payload.moved, lost := m.lost + lostWith m.payload })

/-- The request of a URL. -/
def Meaning.begun (u : Url) (name : Bytes) : Meaning where
  meth := name
  scheme := u.scheme.text
  host := u.host
  uri := slash :: u.path
  port := decimalValue u.port
  isCipher := if u.scheme = .https then 1 else 0
  header := []
  query := []
  contentType := none
  payload := none
  lost := 0

end AcnSdk.Http.Memory
