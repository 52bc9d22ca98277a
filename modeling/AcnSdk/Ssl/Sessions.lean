/-
The calls of `src/ssl/ssl.c`, and what is meant by them.

* `Call.meant` — what a call does with the list of sessions.
* `Holds` — the sessions have all that was made, but for methods that were lost.
* `sslSetup_left`, `sslNew_left` — a session that fails leaves nothing but a lost method.
-/

import AcnSdk.Ssl.Sockets

namespace AcnSdk.Ssl

open AcnSdk.Lib AcnSdk.Data Prog Heap

/-! ### What is meant -/

/-- A call, with all that the library and the system do in it. -/
inductive Call where
  | connect (sock : Int) (a : Attempt) (o : NewSsl) (handshake : Exchange)
  | recv (sock : Int) (e : Exchange)
  | send (sock : Int) (e : Exchange)
  | close (sock : Int) (shutdown : Exchange)

/-- It is made. -/
def Call.run : Call → Prog Tls Int
  | connect sock a o handshake => sslConnect sock a o handshake
  | recv sock e => sslRecv sock e
  | send sock e => sslSend sock e
  | close sock shutdown => sslClose sock shutdown

/-- The sockets with a session in the order in which they were connected, how often the library was
initialised for a session that failed, how many methods were lost, and the system calls. -/
structure Sessions where
  opened : List Int
  stranded : Nat
  lost : Nat
  calls : List (Syscall × Int × Int)
deriving DecidableEq, Repr

/-- The system calls that are made for callbacks. -/
def onWire (sock : Int) (ios : List Io) : List (Syscall × Int × Int) :=
  (ios.filter fun io => 0 ≤ io.sz).map fun io => (io.call, sock, io.sz)

namespace Sessions

variable (m : Sessions)

/-- How often the library is initialised. -/
def inits : Nat := m.stranded + if m.opened = [] then 0 else 1

/-- A session failed. The library was initialised for it if it was the first one. -/
def failed : Sessions := { m with stranded := m.stranded + if m.opened = [] then 1 else 0 }

/-- An exchange over a socket. -/
def wire (sock : Int) (e : Exchange) : Sessions := { m with calls := m.calls ++ onWire sock e.ios }

/-- What comes of a session with a context. -/
def newSsl (sock : Int) (handshake : Exchange) : NewSsl → Option (Int × Sessions)
  | .beforeCtx => none
  | .noMemory | .afterCtx => some (-1, m.failed)
  | .made =>
      if handshake.ret = sslSuccess then
        some (0, { m.wire sock handshake with opened := m.opened ++ [sock] })
      else some (-1, (m.wire sock handshake).failed)

/-- What is meant by connecting. There is no answer where a NULL pointer is followed. -/
def connect (sock : Int) (a : Attempt) (o : NewSsl) (handshake : Exchange) :
    Option (Int × Sessions) :=
  if a.node = false then none
  else if m.inits = 0 ∧ a.firstInit = false ∧ a.secondInit = false then
    some (-1, { m with lost := m.lost + a.method.toNat })
  else if a.method = false ∨ a.ctx = false ∨ a.initCtx = false then some (-1, m.failed)
  else m.newSsl sock handshake o

/-- What is meant by receiving or sending. -/
def transfer (sock : Int) (e : Exchange) : Int × Sessions :=
  if sock ∈ m.opened then (e.ret, m.wire sock e) else (-1, m)

/-- What is meant by closing. -/
def close (sock : Int) (shutdown : Exchange) : Int × Sessions :=
  if sock ∈ m.opened then (0, { m.wire sock shutdown with opened := m.opened.erase sock })
  else (0, m)

end Sessions

/-- What is meant by a call. -/
def Call.meant (m : Sessions) : Call → Option (Int × Sessions)
  | connect sock a o handshake => m.connect sock a o handshake
  | recv sock e | send sock e => some (m.transfer sock e)
  | close sock shutdown => some (m.close sock shutdown)

/-! ### What there is in memory -/

/-- What belongs to a session. -/
structure Session where
  node : Addr
  method : Addr
  ctx : Addr
  ssl : Addr
  socket : Int

/-- The list has these sessions. Nothing else was made but what belongs to them, and these methods.
-/
structure Holds (w₀ w : Tls) (sessions : List Session) (lost : List Addr) : Prop where
  list : OwnedList socketLink w₀.nodes w.nodes w.sock (sessions.map Session.node)
  node : ∀ s ∈ sessions, ∃ next,
    w.nodes.cells s.node = some ⟨some s.method, some s.ctx, some s.ssl, s.socket, next⟩
  ctx : ∀ s ∈ sessions, w.ctxs.cells s.ctx = some ⟨s.method, 2⟩
  ssl : ∀ s ∈ sessions, w.ssls.cells s.ssl = some ⟨some s.ctx, some s.node, some s.node⟩
  methods : Grown w₀.methods w.methods (sessions.map Session.method ++ lost)
  ctxs : Grown w₀.ctxs w.ctxs (sessions.map Session.ctx)
  ssls : Grown w₀.ssls w.ssls (sessions.map Session.ssl)

/-- The memory is what it is to be. -/
structure Represents (w₀ w : Tls) (m : Sessions) : Prop where
  holds : ∃ sessions lost, Holds w₀ w sessions lost ∧ sessions.map Session.socket = m.opened ∧
    lost.length = m.lost
  inits : w.initRefCount = m.inits
  calls : w.calls = m.calls

/-! ### The library -/

section

variable {w : Tls} {c m o s : Addr} {x : SocketSsl}

theorem freeSSLCtx_used (cell : w.ctxs.cells c = some ⟨m, 2⟩) :
    freeSSLCtx (some c) w = .ok ((), { w with ctxs := w.ctxs.set c ⟨m, 1⟩ }) := by
  have less : onCtxs (update c fun x => { x with refCount := x.refCount - 1 }) w =
      .ok ((), { w with ctxs := w.ctxs.set c ⟨m, 1⟩ }) := onCtxs_ok (update_eq cell _)
  have look : onCtxs (read c) { w with ctxs := w.ctxs.set c ⟨m, 1⟩ } =
      .ok (⟨m, 1⟩, { w with ctxs := w.ctxs.set c ⟨m, 1⟩ }) := onCtxs_ok (read_eq (if_pos rfl))
  rw [freeSSLCtx, bind_of_ok (onCtxs_ok (deref_some c _)), bind_of_ok less, bind_of_ok look]
  rfl

/-- The last user of a context releases it with its method. -/
theorem freeSSLCtx_last (cell : w.ctxs.cells c = some ⟨m, 1⟩)
    (live : w.methods.cells m = some ()) :
    freeSSLCtx (some c) w =
      .ok ((), { w with methods := w.methods.erase m, ctxs := w.ctxs.erase c }) := by
  let w₁ : Tls := { w with ctxs := w.ctxs.set c ⟨m, 0⟩ }
  have less : onCtxs (update c fun x => { x with refCount := x.refCount - 1 }) w = .ok ((), w₁) :=
    onCtxs_ok (update_eq cell _)
  have look : onCtxs (read c) w₁ = .ok (⟨m, 0⟩, w₁) := onCtxs_ok (read_eq (if_pos rfl))
  have method : onMethods (free m) w₁ = .ok ((), { w₁ with methods := w.methods.erase m }) :=
    onMethods_ok (free_eq live)
  have ctx : onCtxs (free c) { w₁ with methods := w.methods.erase m } =
      .ok ((), { w with methods := w.methods.erase m, ctxs := w.ctxs.erase c }) := by
    rw [← set_erase w.ctxs c ⟨m, 0⟩]
    exact onCtxs_ok (free_eq (if_pos rfl))
  rw [freeSSLCtx, bind_of_ok (onCtxs_ok (deref_some c _)), bind_of_ok less, bind_of_ok look]
  dsimp only
  rw [if_pos rfl, bind_of_ok method, ctx]

theorem freeSSL_eq {r q : Option Addr} (ssl : w.ssls.cells o = some ⟨some c, r, q⟩)
    (cell : w.ctxs.cells c = some ⟨m, 2⟩) :
    freeSSL o w = .ok ((), { w with ctxs := w.ctxs.set c ⟨m, 1⟩, ssls := w.ssls.erase o }) := by
  have gone : onSsls (free o) { w with ctxs := w.ctxs.set c ⟨m, 1⟩ } =
      .ok ((), { w with ctxs := w.ctxs.set c ⟨m, 1⟩, ssls := w.ssls.erase o }) :=
    onSsls_ok (free_eq ssl)
  rw [freeSSL, bind_of_ok (onSsls_ok (read_eq ssl)), bind_of_ok (freeSSLCtx_used cell), gone]

/-! ### Labels -/

theorem sslConnectErrorSock_eq (node : w.nodes.cells s = some x) :
    sslConnectErrorSock s w = .ok (-1, { w with nodes := w.nodes.erase s }) := by
  rw [sslConnectErrorSock, bind_of_ok (onNodes_ok (free_eq node))]
  rfl

theorem sslConnectErrorCtx_eq (node : w.nodes.cells s = some x) (ctx : x.ctx = some c)
    (cell : w.ctxs.cells c = some ⟨m, 1⟩) (live : w.methods.cells m = some ()) :
    sslConnectErrorCtx s w = .ok (-1, { w with
      nodes := w.nodes.erase s, methods := w.methods.erase m, ctxs := w.ctxs.erase c }) := by
  have released : wolfSSLCTXFree x.ctx w =
      .ok ((), { w with methods := w.methods.erase m, ctxs := w.ctxs.erase c }) := by
    rw [wolfSSLCTXFree, ctx, if_neg (Option.some_ne_none c), freeSSLCtx_last cell live]
  rw [sslConnectErrorCtx, bind_of_ok (onNodes_ok (read_eq node)), bind_of_ok released]
  exact sslConnectErrorSock_eq (w := { w with
    methods := w.methods.erase m, ctxs := w.ctxs.erase c }) node

theorem sslConnectErrorSsl_eq {r q : Option Addr} (node : w.nodes.cells s = some x)
    (ssl : x.ssl = some o) (ctx : x.ctx = some c)
    (object : w.ssls.cells o = some ⟨some c, r, q⟩) (cell : w.ctxs.cells c = some ⟨m, 2⟩)
    (live : w.methods.cells m = some ()) :
    sslConnectErrorSsl s w = .ok (-1, { w with
      nodes := w.nodes.erase s, methods := w.methods.erase m, ctxs := w.ctxs.erase c,
      ssls := w.ssls.erase o }) := by
  have released : wolfSSLFree x.ssl w =
      .ok ((), { w with ctxs := w.ctxs.set c ⟨m, 1⟩, ssls := w.ssls.erase o }) := by
    rw [ssl, wolfSSLFree, freeSSL_eq object cell]
  rw [sslConnectErrorSsl, bind_of_ok (onNodes_ok (read_eq node)), bind_of_ok released,
    ← set_erase w.ctxs c ⟨m, 1⟩]
  exact sslConnectErrorCtx_eq (w := { w with
    ctxs := w.ctxs.set c ⟨m, 1⟩, ssls := w.ssls.erase o }) node ctx (if_pos rfl) live

/-! ### Callbacks -/

/-- A callback of a session is about its socket. -/
theorem transferSsl_eq (node : w.nodes.cells s = some x) (call : Syscall) (sz got : Int) :
    ∃ ret, transferSsl call sz got (some s) w =
      .ok (ret, { w with calls := w.calls ++ onWire x.socket [⟨call, sz, got⟩] }) := by
  rw [onWire, List.filter_singleton]
  by_cases negative : sz < 0
  · refine ⟨sz, ?_⟩
    rw [transferSsl, if_pos negative, decide_eq_false (Int.not_le.mpr negative), cond_false,
      List.map_nil, List.append_nil]
    rfl
  · have found : onNodes (do read (← deref (some s))) w = .ok (x, w) := onNodes_ok (read_eq node)
    refine ⟨if got ≤ 0 then -2 else got, ?_⟩
    rw [transferSsl, if_neg negative, bind_of_ok found, decide_eq_true (Int.not_lt.mp negative)]
    rfl

theorem callbacks_eq {c : Option Addr} (object : w.ssls.cells o = some ⟨c, some s, some s⟩)
    (node : w.nodes.cells s = some x) (ios : List Io) :
    callbacks o ios w = .ok ((), { w with calls := w.calls ++ onWire x.socket ios }) := by
  induction ios generalizing w with
  | nil =>
      rw [onWire, List.filter_nil, List.map_nil, List.append_nil]
      rfl
  | cons io ios ih =>
      obtain ⟨ret, one⟩ := transferSsl_eq node io.call io.sz io.got
      have called : callback ⟨c, some s, some s⟩ io w =
          .ok (ret, { w with calls := w.calls ++ onWire x.socket [io] }) := by
        obtain ⟨call, sz, got⟩ := io
        cases call <;> exact one
      have whole : onWire x.socket (io :: ios) = onWire x.socket [io] ++ onWire x.socket ios := by
        rw [onWire, onWire, onWire, ← List.map_append, ← List.filter_append, List.singleton_append]
      rw [callbacks, bind_of_ok (onSsls_ok (read_eq object)), bind_of_ok called, whole,
        ← List.append_assoc]
      exact ih (w := { w with calls := w.calls ++ onWire x.socket [io] }) object node

theorem exchange_eq {c : Option Addr} (object : w.ssls.cells o = some ⟨c, some s, some s⟩)
    (node : w.nodes.cells s = some x) (e : Exchange) :
    exchange (some o) e w =
      .ok (e.ret, { w with calls := w.calls ++ onWire x.socket e.ios }) := by
  rw [exchange, bind_of_ok (onSsls_ok (deref_some o _)),
    bind_of_ok (callbacks_eq object node e.ios)]
  rfl

end

/-! ### Beginning a session -/

section

variable {w : Tls} {a : Attempt} {sock : Int}

theorem wolfSSLInit_eq (ok : Bool) (w : Tls) : wolfSSLInit ok w =
    if w.initRefCount = 0 ∧ ok = false then .ok (wcInitE, w)
    else .ok (sslSuccess, { w with initRefCount := w.initRefCount + 1 }) := by
  by_cases fails : w.initRefCount = 0 ∧ ok = false
  · rw [if_pos fails, wolfSSLInit, bind_of_ok (get_apply w), if_pos fails]
    rfl
  · rw [if_neg fails, wolfSSLInit, bind_of_ok (get_apply w), if_neg fails]
    rfl

theorem wolfSSLCTXNew_eq (method : Option Addr) (w : Tls) : wolfSSLCTXNew a method w =
    if w.initRefCount = 0 ∧ a.secondInit = false then .ok (none, w)
    else wolfSSLCTXNewReady a method
      { w with initRefCount := if w.initRefCount = 0 then 1 else w.initRefCount } := by
  have init := wolfSSLInit_eq a.secondInit w
  rw [wolfSSLCTXNew, bind_of_ok (get_apply w)]
  by_cases none : w.initRefCount = 0
  · rw [if_pos none]
    by_cases fails : a.secondInit = false
    · rw [if_pos ⟨none, fails⟩] at init ⊢
      rw [bind_of_ok init]
      rfl
    · rw [if_neg fun both => fails both.2] at init ⊢
      rw [bind_of_ok init, if_pos rfl, if_pos none, none]
  · rw [if_neg none, if_neg fun both => none both.1, if_neg none]

/-- What is left of a session that fails: nothing, or a method that was lost. -/
structure Left (w w' : Tls) (lost : List Addr) : Prop where
  nodes : Grown w.nodes w'.nodes []
  methods : Grown w.methods w'.methods lost
  ctxs : Grown w.ctxs w'.ctxs []
  ssls : Grown w.ssls w'.ssls []
  sock : w'.sock = w.sock

/-- Nothing lies where something is made. -/
structure Tls.Fresh (w : Tls) : Prop where
  nodes : w.nodes.Fresh
  methods : w.methods.Fresh
  ctxs : w.ctxs.Fresh
  ssls : w.ssls.Fresh

/-- An object gets its context, which is used once more. -/
theorem setSSLCTX_eq {c m : Addr} (cell : w.ctxs.cells c = some ⟨m, 1⟩) :
    setSSLCTX w.ssls.brk c { w with ssls := w.ssls.push ⟨none, none, none⟩ } = .ok ((), { w with
      ctxs := w.ctxs.set c ⟨m, 2⟩, ssls := w.ssls.push ⟨some c, none, none⟩ }) := by
  let w₁ : Tls := { w with ssls := w.ssls.push ⟨none, none, none⟩ }
  let w₂ : Tls := { w₁ with ctxs := w.ctxs.set c ⟨m, 2⟩ }
  have more : onCtxs (update c fun x => { x with refCount := x.refCount + 1 }) w₁ = .ok ((), w₂) :=
    onCtxs_ok (update_eq cell _)
  have known : onSsls (update w.ssls.brk fun x => { x with ctx := some c }) w₂ =
      .ok ((), { w₂ with ssls := w.ssls.push ⟨some c, none, none⟩ }) :=
    onSsls_ok (update_push w.ssls _ _)
  rw [setSSLCTX, bind_of_ok more, known]

theorem wolfSSLNew_made {c m : Addr} (cell : w.ctxs.cells c = some ⟨m, 1⟩) :
    wolfSSLNew .made c w = .ok (some w.ssls.brk,
      { w with ctxs := w.ctxs.set c ⟨m, 2⟩, ssls := w.ssls.push ⟨some c, none, none⟩ }) := by
  have made : onSsls (alloc ⟨none, none, none⟩) w =
      .ok (w.ssls.brk, { w with ssls := w.ssls.push ⟨none, none, none⟩ }) := rfl
  rw [wolfSSLNew, bind_of_ok made, bind_of_ok (setSSLCTX_eq cell)]
  rfl

/-- An object that failed with its context leaves the context as it was. -/
theorem wolfSSLNew_afterCtx {c m : Addr} (cell : w.ctxs.cells c = some ⟨m, 1⟩) :
    wolfSSLNew .afterCtx c w = .ok (none, { w with
      ssls := (w.ssls.push ⟨some c, none, none⟩).erase w.ssls.brk }) := by
  have made : onSsls (alloc ⟨none, none, none⟩) w =
      .ok (w.ssls.brk, { w with ssls := w.ssls.push ⟨none, none, none⟩ }) := rfl
  let w₁ : Tls := { w with
    ctxs := w.ctxs.set c ⟨m, 2⟩, ssls := w.ssls.push ⟨some c, none, none⟩ }
  have released := freeSSL_eq (w := w₁) (o := w.ssls.brk) (if_pos rfl) (if_pos rfl)
  have back : (w.ctxs.set c ⟨m, 2⟩).set c ⟨m, 1⟩ = w.ctxs := by
    rw [set_set, set_self cell]
  rw [back] at released
  rw [wolfSSLNew, bind_of_ok made, bind_of_ok (setSSLCTX_eq cell), bind_of_ok released]
  rfl

/-- An object that has no context yet cannot be released. -/
theorem wolfSSLNew_beforeCtx (c : Addr) (w : Tls) :
    wolfSSLNew .beforeCtx c w = .error .nullPointer := by
  have object : (w.ssls.push ⟨none, none, none⟩).cells w.ssls.brk = some ⟨none, none, none⟩ :=
    if_pos rfl
  have released : freeSSL w.ssls.brk { w with ssls := w.ssls.push ⟨none, none, none⟩ } =
      .error .nullPointer := by
    rw [freeSSL, bind_of_ok (onSsls_ok (read_eq object))]
    rfl
  have made : onSsls (alloc ⟨none, none, none⟩) w =
      .ok (w.ssls.brk, { w with ssls := w.ssls.push ⟨none, none, none⟩ }) := rfl
  rw [wolfSSLNew, bind_of_ok made, bind_apply, released]
  rfl

/-- A node that has its method and, except for its object, all that belongs to it. -/
def nodeWithCtx (w : Tls) (sock : Int) : SocketSsl :=
  ⟨some w.methods.brk, some w.ctxs.brk, none, sock, none⟩

/-- What there is then. -/
def withCtx (w : Tls) (sock : Int) : Tls :=
  { w with
    nodes := w.nodes.push (nodeWithCtx w sock)
    methods := w.methods.push ()
    ctxs := w.ctxs.push ⟨w.methods.brk, 1⟩ }

/-- An object that is not made leaves nothing. -/
theorem sslNew_left (sock : Int) (fresh : w.Fresh) {o : NewSsl}
    (fails : o = .noMemory ∨ o = .afterCtx) (handshake : Exchange) :
    ∃ w', sslNew o handshake w.nodes.brk w.ctxs.brk (withCtx w sock) = .ok (-1, w') ∧
      Left w w' [] ∧ w'.initRefCount = w.initRefCount ∧ w'.calls = w.calls := by
  obtain ⟨S, new, ssls⟩ : ∃ S, wolfSSLNew o w.ctxs.brk (withCtx w sock) =
      .ok (none, { withCtx w sock with ssls := S }) ∧ Grown w.ssls S [] := by
    rcases fails with rfl | rfl
    · exact ⟨w.ssls, rfl, .refl fresh.ssls⟩
    · exact ⟨_, wolfSSLNew_afterCtx (if_pos rfl), .push_erase fresh.ssls _⟩
  let w₁ : Tls := { withCtx w sock with ssls := S }
  have same : onNodes (update w.nodes.brk fun x => { x with ssl := none }) w₁ = .ok ((), w₁) :=
    onNodes_ok (update_push w.nodes _ _)
  have released := sslConnectErrorCtx_eq (w := w₁) (x := nodeWithCtx w sock) (if_pos rfl) rfl
    (if_pos rfl) (if_pos rfl)
  refine ⟨_, (bind_of_ok new).trans ((bind_of_ok same).trans released),
    ⟨.push_erase fresh.nodes _, .push_erase fresh.methods _, .push_erase fresh.ctxs _, ssls, rfl⟩,
    rfl, rfl⟩

/-- What there is when the object is made: all that belongs to the session. -/
def withSsl (w : Tls) (sock : Int) (i : Option Addr) : Tls :=
  { w with
    nodes := w.nodes.push { nodeWithCtx w sock with ssl := some w.ssls.brk }
    methods := w.methods.push ()
    ctxs := w.ctxs.push ⟨w.methods.brk, 2⟩
    ssls := w.ssls.push ⟨some w.ctxs.brk, i, i⟩ }

/-- With an object, the outcome is that of the handshake. -/
theorem sslNew_made (sock : Int) (handshake : Exchange) :
    sslNew .made handshake w.nodes.brk w.ctxs.brk (withCtx w sock) =
      (if handshake.ret ≠ sslSuccess then sslConnectErrorSsl w.nodes.brk
        else sslConnectDone w.nodes.brk) { withSsl w sock (some w.nodes.brk) with
          calls := w.calls ++ onWire sock handshake.ios } := by
  have new : wolfSSLNew .made w.ctxs.brk (withCtx w sock) =
      .ok (some w.ssls.brk, { withSsl w sock none with nodes := (withCtx w sock).nodes }) := by
    have counted : (withCtx w sock).ctxs.set w.ctxs.brk ⟨w.methods.brk, 2⟩ =
        w.ctxs.push ⟨w.methods.brk, 2⟩ := push_set _ _ _
    rw [wolfSSLNew_made (m := w.methods.brk) (if_pos rfl), counted]
    rfl
  have known : onNodes (update w.nodes.brk fun x => { x with ssl := some w.ssls.brk })
      { withSsl w sock none with nodes := (withCtx w sock).nodes } =
        .ok ((), withSsl w sock none) :=
    onNodes_ok (update_push w.nodes _ _)
  let w₁ : Tls := { withSsl w sock none with
    ssls := w.ssls.push ⟨some w.ctxs.brk, some w.nodes.brk, none⟩ }
  have reads : onSsls (update w.ssls.brk fun x => { x with ioReadCtx := some w.nodes.brk })
      (withSsl w sock none) = .ok ((), w₁) := onSsls_ok (update_push w.ssls _ _)
  have writes : onSsls (update w.ssls.brk fun x => { x with ioWriteCtx := some w.nodes.brk }) w₁ =
      .ok ((), withSsl w sock (some w.nodes.brk)) := onSsls_ok (update_push w.ssls _ _)
  have exchanged := exchange_eq (w := withSsl w sock (some w.nodes.brk)) (o := w.ssls.brk)
    (s := w.nodes.brk) (c := some w.ctxs.brk)
    (x := { nodeWithCtx w sock with ssl := some w.ssls.brk }) (if_pos rfl) (if_pos rfl) handshake
  rw [sslNew, bind_of_ok new, bind_of_ok known]
  dsimp only
  rw [sslHandshake, bind_of_ok reads, bind_of_ok writes, bind_of_ok exchanged]
  rfl

/-- A handshake that fails leaves nothing. -/
theorem sslNew_refused (sock : Int) (fresh : w.Fresh) {handshake : Exchange}
    (fails : handshake.ret ≠ sslSuccess) :
    ∃ w', sslNew .made handshake w.nodes.brk w.ctxs.brk (withCtx w sock) = .ok (-1, w') ∧
      Left w w' [] ∧ w'.initRefCount = w.initRefCount ∧
      w'.calls = w.calls ++ onWire sock handshake.ios := by
  have released := sslConnectErrorSsl_eq (w := { withSsl w sock (some w.nodes.brk) with
    calls := w.calls ++ onWire sock handshake.ios })
    (x := { nodeWithCtx w sock with ssl := some w.ssls.brk }) (if_pos rfl) rfl rfl (if_pos rfl)
    (if_pos rfl) (if_pos rfl)
  rw [sslNew_made, if_pos fails]
  exact ⟨_, released, ⟨.push_erase fresh.nodes _, .push_erase fresh.methods _,
    .push_erase fresh.ctxs _, .push_erase fresh.ssls _, rfl⟩, rfl, rfl⟩

/-- What `wolfTLSv1_2_client_method` makes. -/
def methodOf (w : Tls) (ok : Bool) : Option Addr := if ok then some w.methods.brk else none

/-- The methods then. -/
def methodsWith (w : Tls) (ok : Bool) : Heap Unit := if ok then w.methods.push () else w.methods

theorem wolfTLSv12ClientMethod_eq (ok : Bool) (w : Tls) : wolfTLSv12ClientMethod ok w =
    .ok (methodOf w ok, { w with methods := methodsWith w ok }) := by
  cases ok <;> rfl

/-- Without a context, there is nothing left. -/
theorem wolfSSLCTXNewReady_left (fresh : w.Fresh)
    (fails : a.method = false ∨ a.ctx = false ∨ a.initCtx = false) (N : Heap SocketSsl) (k : Nat) :
    ∃ M C, wolfSSLCTXNewReady a (methodOf w a.method) { w with
        nodes := N, methods := methodsWith w a.method, initRefCount := k } =
      .ok (none, { w with nodes := N, methods := M, ctxs := C, initRefCount := k }) ∧
      Grown w.methods M [] ∧ Grown w.ctxs C [] := by
  cases method : a.method with
  | false => exact ⟨w.methods, w.ctxs, rfl, .refl fresh.methods, .refl fresh.ctxs⟩
  | true =>
      let w₁ : Tls := { w with nodes := N, methods := w.methods.push (), initRefCount := k }
      cases ctx : a.ctx with
      | false =>
          have released : onMethods (free w.methods.brk) w₁ =
              .ok ((), { w₁ with methods := (w.methods.push ()).erase w.methods.brk }) :=
            onMethods_ok (free_eq (if_pos rfl))
          refine ⟨(w.methods.push ()).erase w.methods.brk, w.ctxs, ?_,
            .push_erase fresh.methods (), .refl fresh.ctxs⟩
          rw [methodOf, if_pos rfl, wolfSSLCTXNewReady, ctx, if_neg Bool.false_ne_true]
          exact bind_of_ok released
      | true =>
          have bad : a.initCtx = false := by
            rcases fails with no | no | no
            · exact absurd (method.symm.trans no) Bool.true_eq_false_eq_False
            · exact absurd (ctx.symm.trans no) Bool.true_eq_false_eq_False
            · exact no
          let w₂ : Tls := { w₁ with ctxs := w.ctxs.push ⟨w.methods.brk, 1⟩ }
          have made : onCtxs (alloc ⟨w.methods.brk, 1⟩) w₁ = .ok (w.ctxs.brk, w₂) := rfl
          have released := freeSSLCtx_last (w := w₂) (c := w.ctxs.brk) (m := w.methods.brk)
            (if_pos rfl) (if_pos rfl)
          refine ⟨(w.methods.push ()).erase w.methods.brk,
            (w.ctxs.push ⟨w.methods.brk, 1⟩).erase w.ctxs.brk, ?_,
            .push_erase fresh.methods (), .push_erase fresh.ctxs _⟩
          rw [methodOf, if_pos rfl, wolfSSLCTXNewReady, ctx, if_pos rfl]
          refine (bind_of_ok made).trans ?_
          rw [bad, if_neg Bool.false_ne_true, wolfSSLCTXFree, if_neg (Option.some_ne_none _)]
          exact bind_of_ok released

/-- A session that does not get a context leaves nothing, except that a method is lost where the
library cannot be initialised. -/
theorem sslSetup_left (sock : Int) (fresh : w.Fresh) (o : NewSsl) (handshake : Exchange)
    (fails : w.initRefCount = 0 ∧ a.secondInit = false ∨
      a.method = false ∨ a.ctx = false ∨ a.initCtx = false) :
    ∃ w' lost, sslSetup a o handshake w.nodes.brk
        { w with nodes := w.nodes.push ⟨none, none, none, sock, none⟩ } = .ok (-1, w') ∧
      Left w w' lost ∧ w'.calls = w.calls ∧
      if w.initRefCount = 0 ∧ a.secondInit = false then
        lost.length = a.method.toNat ∧ w'.initRefCount = 0
      else lost = [] ∧ w'.initRefCount = if w.initRefCount = 0 then 1 else w.initRefCount := by
  let N₁ := w.nodes.push ⟨methodOf w a.method, none, none, sock, none⟩
  let w₁ : Tls := { w with nodes := N₁, methods := methodsWith w a.method }
  have method := wolfTLSv12ClientMethod_eq a.method
    { w with nodes := w.nodes.push ⟨none, none, none, sock, none⟩ }
  have known : onNodes (update w.nodes.brk fun x => { x with method := methodOf w a.method })
      { w₁ with nodes := w.nodes.push ⟨none, none, none, sock, none⟩ } = .ok ((), w₁) :=
    onNodes_ok (update_push w.nodes _ _)
  suffices new : ∃ M C k lost, wolfSSLCTXNew a (methodOf w a.method) w₁ =
        .ok (none, { w with nodes := N₁, methods := M, ctxs := C, initRefCount := k }) ∧
      Grown w.methods M lost ∧ Grown w.ctxs C [] ∧
      if w.initRefCount = 0 ∧ a.secondInit = false then lost.length = a.method.toNat ∧ k = 0
      else lost = [] ∧ k = if w.initRefCount = 0 then 1 else w.initRefCount by
    obtain ⟨M, C, k, lost, new, methods, ctxs, count⟩ := new
    let w₂ : Tls := { w with nodes := N₁, methods := M, ctxs := C, initRefCount := k }
    have same : onNodes (update w.nodes.brk fun x => { x with ctx := none }) w₂ = .ok ((), w₂) :=
      onNodes_ok (update_push w.nodes _ _)
    have released := sslConnectErrorSock_eq (w := w₂) (s := w.nodes.brk)
      (x := ⟨methodOf w a.method, none, none, sock, none⟩) (if_pos rfl)
    exact ⟨_, lost, (bind_of_ok method).trans ((bind_of_ok known).trans ((bind_of_ok new).trans
      ((bind_of_ok same).trans released))),
      ⟨.push_erase fresh.nodes _, methods, ctxs, .refl fresh.ssls, rfl⟩, rfl, count⟩
  rw [wolfSSLCTXNew_eq]
  by_cases dead : w.initRefCount = 0 ∧ a.secondInit = false
  · refine ⟨methodsWith w a.method, w.ctxs, w.initRefCount, (methodOf w a.method).toList, ?_, ?_,
      .refl fresh.ctxs, ?_⟩
    · exact if_pos dead
    · rw [methodsWith, methodOf]
      cases a.method with
      | false => exact .refl fresh.methods
      | true => exact (Lib.Grown.refl fresh.methods).push ()
    · rw [if_pos dead, methodOf]
      refine ⟨?_, dead.1⟩
      cases a.method <;> rfl
  · obtain ⟨M, C, new, methods, ctxs⟩ := wolfSSLCTXNewReady_left fresh
      (fails.resolve_left dead) N₁ (if w.initRefCount = 0 then 1 else w.initRefCount)
    refine ⟨M, C, _, [], (if_neg dead).trans new, methods, ctxs, ?_⟩
    rw [if_neg dead]
    exact ⟨rfl, rfl⟩

/-- With a context, the outcome is that of making the object. -/
theorem sslSetup_withCtx (sock : Int) (o : NewSsl) (handshake : Exchange)
    (ready : ¬ (w.initRefCount = 0 ∧ a.secondInit = false)) (method : a.method = true)
    (ctx : a.ctx = true) (initCtx : a.initCtx = true) :
    sslSetup a o handshake w.nodes.brk
        { w with nodes := w.nodes.push ⟨none, none, none, sock, none⟩ } =
      sslNew o handshake w.nodes.brk w.ctxs.brk (withCtx { w with
        initRefCount := if w.initRefCount = 0 then 1 else w.initRefCount } sock) := by
  let w₁ : Tls := { w with
    nodes := w.nodes.push ⟨some w.methods.brk, none, none, sock, none⟩
    methods := w.methods.push () }
  have made : wolfTLSv12ClientMethod a.method
      { w with nodes := w.nodes.push ⟨none, none, none, sock, none⟩ } =
      .ok (some w.methods.brk, { w₁ with
        nodes := w.nodes.push ⟨none, none, none, sock, none⟩ }) := by
    rw [method]
    rfl
  have known : onNodes (update w.nodes.brk fun x => { x with method := some w.methods.brk })
      { w₁ with nodes := w.nodes.push ⟨none, none, none, sock, none⟩ } = .ok ((), w₁) :=
    onNodes_ok (update_push w.nodes _ _)
  let w₂ : Tls := { w₁ with
    ctxs := w.ctxs.push ⟨w.methods.brk, 1⟩
    initRefCount := if w.initRefCount = 0 then 1 else w.initRefCount }
  have new : wolfSSLCTXNew a (some w.methods.brk) w₁ = .ok (some w.ctxs.brk, w₂) := by
    rw [wolfSSLCTXNew_eq, if_neg ready, wolfSSLCTXNewReady, ctx, if_pos rfl, initCtx]
    rfl
  have known' : onNodes (update w.nodes.brk fun x => { x with ctx := some w.ctxs.brk }) w₂ =
      .ok ((), { w₂ with nodes := w.nodes.push (nodeWithCtx w sock) }) :=
    onNodes_ok (update_push w.nodes _ _)
  rw [sslSetup, bind_of_ok made, bind_of_ok known, bind_of_ok new, bind_of_ok known']
  rfl

end

end AcnSdk.Ssl
