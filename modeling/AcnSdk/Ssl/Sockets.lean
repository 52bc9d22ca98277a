/-
TLS sessions by their sockets, `src/ssl/ssl.c`, with what it uses of the TLS library.

A session has a node in the list of sockets, a method, a context and an object of the library. The
object counts as a user of its context, and with the last user the context goes, and its method.
The library is initialised as often as a first session is begun, also where that fails. Its mutexes
can be locked. What goes over the wire is a list of calls of the callbacks, with any answers.
-/

import AcnSdk.Data.OwnedList

namespace AcnSdk.Ssl

open AcnSdk.Lib AcnSdk.Data Prog Heap

/-! ### Memory -/

/-- `socket_ssl_t`. -/
structure SocketSsl where
  method : Option Addr
  ctx : Option Addr
  ssl : Option Addr
  socket : Int
  next : Option Addr
deriving DecidableEq, Repr

/-- Its `node`. -/
def socketLink : Link SocketSsl where
  next := SocketSsl.next
  setNext p s := { s with next := p }
  next_setNext _ _ := rfl

/-- `WOLFSSL_CTX`. -/
structure WolfsslCtx where
  method : Addr
  refCount : Int
deriving DecidableEq, Repr

/-- `WOLFSSL`. The pointers for the callbacks are to the object itself where they are not set. -/
structure Wolfssl where
  ctx : Option Addr
  ioReadCtx : Option Addr
  ioWriteCtx : Option Addr
deriving DecidableEq, Repr

/-- `recv` and `send`. -/
inductive Syscall where
  | recv | send
deriving DecidableEq, Repr

/-- The memory, the counter of the library, and the system calls that were made: which, on which
socket, and for how many bytes. -/
structure Tls where
  nodes : Heap SocketSsl
  methods : Heap Unit
  ctxs : Heap WolfsslCtx
  ssls : Heap Wolfssl
  initRefCount : Nat
  sock : Option Addr
  calls : List (Syscall × Int × Int)

section

variable {β : Type}

def onNodes (x : HeapM SocketSsl β) : Prog Tls β :=
  fun w => (x w.nodes).bind fun r => .ok (r.1, { w with nodes := r.2 })

def onMethods (x : HeapM Unit β) : Prog Tls β :=
  fun w => (x w.methods).bind fun r => .ok (r.1, { w with methods := r.2 })

def onCtxs (x : HeapM WolfsslCtx β) : Prog Tls β :=
  fun w => (x w.ctxs).bind fun r => .ok (r.1, { w with ctxs := r.2 })

def onSsls (x : HeapM Wolfssl β) : Prog Tls β :=
  fun w => (x w.ssls).bind fun r => .ok (r.1, { w with ssls := r.2 })

variable {w : Tls} {b : β}

theorem onNodes_ok {x : HeapM SocketSsl β} {h : Heap SocketSsl} (run : x w.nodes = .ok (b, h)) :
    onNodes x w = .ok (b, { w with nodes := h }) := by
  rw [onNodes, run]
  rfl

theorem onMethods_ok {x : HeapM Unit β} {h : Heap Unit} (run : x w.methods = .ok (b, h)) :
    onMethods x w = .ok (b, { w with methods := h }) := by
  rw [onMethods, run]
  rfl

theorem onCtxs_ok {x : HeapM WolfsslCtx β} {h : Heap WolfsslCtx} (run : x w.ctxs = .ok (b, h)) :
    onCtxs x w = .ok (b, { w with ctxs := h }) := by
  rw [onCtxs, run]
  rfl

theorem onSsls_ok {x : HeapM Wolfssl β} {h : Heap Wolfssl} (run : x w.ssls = .ok (b, h)) :
    onSsls x w = .ok (b, { w with ssls := h }) := by
  rw [onSsls, run]
  rfl

end

/-! ### The library -/

/-- `SSL_SUCCESS`. -/
def sslSuccess : Int := 1

/-- `WC_INIT_E`. -/
def wcInitE : Int := -228

/-- `wolfSSL_Init`. `ok` says whether it can be done for the first time. -/
def wolfSSLInit (ok : Bool) : Prog Tls Int := do
  if (← get).initRefCount = 0 ∧ ok = false then return wcInitE
  else do
    modify fun w => { w with initRefCount := w.initRefCount + 1 }
    return sslSuccess

/-- `wolfSSL_Cleanup`. -/
def wolfSSLCleanup : Prog Tls Unit :=
  modify fun w => { w with initRefCount := w.initRefCount - 1 }

/-- What happens on the way to a session: whether the library can be initialised by `ssl_connect`
and else by `wolfSSL_CTX_new`, and what there is memory for. -/
structure Attempt where
  firstInit : Bool
  secondInit : Bool
  node : Bool
  method : Bool
  ctx : Bool
  initCtx : Bool
deriving DecidableEq, Repr

/-- How `wolfSSL_new` ends: there is no memory for the object, `InitSSL` fails before or after the
object has its context, or it is made. -/
inductive NewSsl where
  | noMemory | beforeCtx | afterCtx | made
deriving DecidableEq, Repr

/-- `wolfTLSv1_2_client_method`. -/
def wolfTLSv12ClientMethod (ok : Bool) : Prog Tls (Option Addr) :=
  if ok then some <$> onMethods (alloc ()) else return none

/-- `FreeSSL_Ctx`. -/
def freeSSLCtx (ctx : Option Addr) : Prog Tls Unit := do
  let c ← onCtxs (deref ctx)
  onCtxs (update c fun x => { x with refCount := x.refCount - 1 })
  let x ← onCtxs (read c)
  if x.refCount = 0 then do
    onMethods (free x.method)
    onCtxs (free c)

/-- `wolfSSL_CTX_free`. -/
def wolfSSLCTXFree (ctx : Option Addr) : Prog Tls Unit :=
  if ctx = none then return () else freeSSLCtx ctx

/-- `wolfSSL_CTX_new` behind its look at the counter. -/
def wolfSSLCTXNewReady (a : Attempt) (method : Option Addr) : Prog Tls (Option Addr) :=
  match method with
  | none => return none
  | some method =>
      if a.ctx then do
        let ctx ← onCtxs (alloc ⟨method, 1⟩)
        if a.initCtx then return some ctx
        else do
          wolfSSLCTXFree (some ctx)
          return none
      else do
        onMethods (free method)
        return none

/-- `wolfSSL_CTX_new`. -/
def wolfSSLCTXNew (a : Attempt) (method : Option Addr) : Prog Tls (Option Addr) := do
  if (← get).initRefCount = 0 then do
    let ret ← wolfSSLInit a.secondInit
    if ret = sslSuccess then wolfSSLCTXNewReady a method else return none
  else wolfSSLCTXNewReady a method

/-- `FreeSSL`. -/
def freeSSL (ssl : Addr) : Prog Tls Unit := do
  let x ← onSsls (read ssl)
  freeSSLCtx x.ctx
  onSsls (free ssl)

/-- `wolfSSL_free`. -/
def wolfSSLFree : Option Addr → Prog Tls Unit
  | none => return ()
  | some ssl => freeSSL ssl

/-- `SetSSL_CTX` for a new object. -/
def setSSLCTX (ssl ctx : Addr) : Prog Tls Unit := do
  onCtxs (update ctx fun x => { x with refCount := x.refCount + 1 })
  onSsls (update ssl fun x => { x with ctx := some ctx })

/-- `wolfSSL_new`. -/
def wolfSSLNew (o : NewSsl) (ctx : Addr) : Prog Tls (Option Addr) :=
  match o with
  | .noMemory => return none
  | .beforeCtx => do
      let ssl ← onSsls (alloc ⟨none, none, none⟩)
      freeSSL ssl
      return none
  | .afterCtx => do
      let ssl ← onSsls (alloc ⟨none, none, none⟩)
      setSSLCTX ssl ctx
      freeSSL ssl
      return none
  | .made => do
      let ssl ← onSsls (alloc ⟨none, none, none⟩)
      setSSLCTX ssl ctx
      return some ssl

/-! ### Callbacks -/

/-- What `recv_ssl` and `send_ssl` have in common. `got` is what the system call returns. -/
def transferSsl (call : Syscall) (sz got : Int) (vp : Option Addr) : Prog Tls Int := do
  if sz < 0 then return sz
  else do
    let s ← onNodes (do read (← deref vp))
    modify fun w => { w with calls := w.calls ++ [(call, s.socket, sz)] }
    return if got ≤ 0 then -2 else got

/-- `recv_ssl`. -/
def recvSsl : Int → Int → Option Addr → Prog Tls Int := transferSsl .recv

/-- `send_ssl`. -/
def sendSsl : Int → Int → Option Addr → Prog Tls Int := transferSsl .send

/-- A callback that the library calls, with the size that it asks for and the answer of the system.
-/
structure Io where
  call : Syscall
  sz : Int
  got : Int
deriving DecidableEq, Repr

/-- What the library does with an object: it calls callbacks, and returns something. -/
structure Exchange where
  ios : List Io
  ret : Int
deriving DecidableEq, Repr

/-- It is called with the pointer of the object. -/
def callback (x : Wolfssl) (io : Io) : Prog Tls Int :=
  match io.call with
  | .recv => recvSsl io.sz io.got x.ioReadCtx
  | .send => sendSsl io.sz io.got x.ioWriteCtx

/-- The callbacks are called one after the other. -/
def callbacks (ssl : Addr) : List Io → Prog Tls Unit
  | [] => return ()
  | io :: ios => do
      let x ← onSsls (read ssl)
      let _ ← callback x io
      callbacks ssl ios

/-- `wolfSSL_connect`, `wolfSSL_read`, `wolfSSL_write` and `wolfSSL_shutdown`. -/
def exchange (ssl : Option Addr) (e : Exchange) : Prog Tls Int := do
  callbacks (← onSsls (deref ssl)) e.ios
  return e.ret

/-! ### Sessions -/

/-- `sockeq`. -/
def sockeq (data : Int) (s : SocketSsl) : Int := if s.socket = data then 0 else -1

/-- `linked_list_find_node` with `sockeq`. -/
def findSocket (sock : Int) : Prog Tls (Option Addr) := do
  onNodes (findNode socketLink (sockeq sock) (← get).sock)

/-- The label `ssl_connect_error_sock`. -/
def sslConnectErrorSock (s : Addr) : Prog Tls Int := do
  onNodes (free s)
  return -1

/-- The label `ssl_connect_error_ctx`. -/
def sslConnectErrorCtx (s : Addr) : Prog Tls Int := do
  wolfSSLCTXFree (← onNodes (read s)).ctx
  sslConnectErrorSock s

/-- The label `ssl_connect_error_ssl`. -/
def sslConnectErrorSsl (s : Addr) : Prog Tls Int := do
  wolfSSLFree (← onNodes (read s)).ssl
  sslConnectErrorCtx s

/-- `ssl_connect` with a session. -/
def sslConnectDone (s : Addr) : Prog Tls Int := do
  let sock ← onNodes (addNodeLast socketLink (← get).sock s)
  modify fun w => { w with sock }
  return 0

/-- `ssl_connect` with an object. -/
def sslHandshake (handshake : Exchange) (s ssl : Addr) : Prog Tls Int := do
  onSsls (update ssl fun x => { x with ioReadCtx := some s })
  onSsls (update ssl fun x => { x with ioWriteCtx := some s })
  let err ← exchange (some ssl) handshake
  if err ≠ sslSuccess then sslConnectErrorSsl s else sslConnectDone s

/-- `ssl_connect` with a context. -/
def sslNew (o : NewSsl) (handshake : Exchange) (s ctx : Addr) : Prog Tls Int := do
  let ssl ← wolfSSLNew o ctx
  onNodes (update s fun x => { x with ssl })
  match ssl with
  | none => sslConnectErrorCtx s
  | some ssl => sslHandshake handshake s ssl

/-- `ssl_connect` with a node. -/
def sslSetup (a : Attempt) (o : NewSsl) (handshake : Exchange) (s : Addr) : Prog Tls Int := do
  let method ← wolfTLSv12ClientMethod a.method
  onNodes (update s fun x => { x with method })
  let ctx ← wolfSSLCTXNew a method
  onNodes (update s fun x => { x with ctx })
  match ctx with
  | none => sslConnectErrorSock s
  | some ctx => sslNew o handshake s ctx

/-- `if ( !__sock ) wolfSSL_Init();` -/
def sslConnectInit (ok : Bool) : Prog Tls Unit := do
  if (← get).sock = none then do
    let _ ← wolfSSLInit ok
    return ()
  else return ()

/-- `ssl_connect`. -/
def sslConnect (sock : Int) (a : Attempt) (o : NewSsl) (handshake : Exchange) : Prog Tls Int := do
  sslConnectInit a.firstInit
  let s ← onNodes (if a.node then alloc ⟨none, none, none, 0, none⟩ else throw .nullPointer)
  onNodes (update s fun x => { x with socket := sock })
  sslSetup a o handshake s

/-- What `ssl_recv` and `ssl_send` have in common. -/
def sslTransfer (sock : Int) (e : Exchange) : Prog Tls Int := do
  match ← findSocket sock with
  | none => return -1
  | some s => exchange (← onNodes (read s)).ssl e

/-- `ssl_recv`. -/
def sslRecv : Int → Exchange → Prog Tls Int := sslTransfer

/-- `ssl_send`. -/
def sslSend : Int → Exchange → Prog Tls Int := sslTransfer

/-- `ssl_close`, with what `wolfSSL_shutdown` does. -/
def sslClose (sock : Int) (shutdown : Exchange) : Prog Tls Int := do
  match ← findSocket sock with
  | none => return 0
  | some s => do
      let _ ← exchange (← onNodes (read s)).ssl shutdown
      wolfSSLFree (← onNodes (read s)).ssl
      wolfSSLCTXFree (← onNodes (read s)).ctx
      let sock ← onNodes (delNode socketLink (← get).sock s)
      modify fun w => { w with sock }
      onNodes (free s)
      if sock = none then wolfSSLCleanup
      return 0

end AcnSdk.Ssl
