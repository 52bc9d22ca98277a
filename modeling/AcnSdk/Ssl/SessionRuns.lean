/-
What is left of sessions after any run of the calls of `src/ssl/ssl.c`.

* `Represents.left` — a session that fails leaves the others as they are.
* `Call.represents` — a call does what is meant by it, or follows a NULL pointer.
* `sslCalls_meant` — so does every run.
-/

import AcnSdk.Ssl.Sessions
import Mathlib.Data.List.Find

namespace AcnSdk.Ssl

open AcnSdk.Lib AcnSdk.Data Prog Heap

section

variable {w₀ w w' : Tls} {m m' : Sessions} {sessions : List Session} {lost lost' : List Addr}
  {sock : Int}

theorem Holds.fresh (holds : Holds w₀ w sessions lost) : w.Fresh :=
  ⟨holds.list.nodes.fresh, holds.methods.fresh, holds.ctxs.fresh, holds.ssls.fresh⟩

/-- Sessions stay as they are where nothing was made but lost methods. -/
theorem Holds.left {k : Nat} (holds : Holds w₀ w sessions lost)
    (left : Left { w with initRefCount := k } w' lost') : Holds w₀ w' sessions (lost ++ lost') where
  list := by
    rw [left.sock]
    exact holds.list.same left.nodes.fresh fun a => left.nodes.outside List.not_mem_nil
  node s there := by
    obtain ⟨next, cell⟩ := holds.node s there
    exact ⟨next, left.nodes.kept _ _ cell⟩
  ctx s there := left.ctxs.kept _ _ (holds.ctx s there)
  ssl s there := left.ssls.kept _ _ (holds.ssl s there)
  methods := by
    rw [← List.append_assoc]
    exact holds.methods.trans left.methods
  ctxs := by
    rw [← List.append_nil (sessions.map Session.ctx)]
    exact holds.ctxs.trans left.ctxs
  ssls := by
    rw [← List.append_nil (sessions.map Session.ssl)]
    exact holds.ssls.trans left.ssls

/-- A session that fails leaves the others as they are. -/
theorem Represents.left {k : Nat} (rep : Represents w₀ w m)
    (left : Left { w with initRefCount := k } w' lost') (opened : m'.opened = m.opened)
    (lost : m'.lost = m.lost + lost'.length) (inits : w'.initRefCount = m'.inits)
    (calls : w'.calls = m'.calls) : Represents w₀ w' m' where
  holds := by
    obtain ⟨sessions, before, holds, sockets, count⟩ := rep.holds
    refine ⟨sessions, before ++ lost', holds.left left, sockets.trans opened.symm, ?_⟩
    rw [List.length_append, count, lost]
  inits := inits
  calls := calls

theorem Represents.sock_eq_none_iff (rep : Represents w₀ w m) : w.sock = none ↔ m.opened = [] := by
  obtain ⟨sessions, lost, holds, sockets, -⟩ := rep.holds
  rw [holds.list.walk.start_eq, ← sockets]
  cases sessions with
  | nil => exact iff_of_true rfl rfl
  | cons s sessions => exact iff_of_false (Option.some_ne_none _) (List.cons_ne_nil _ _)

/-! ### Connecting -/

/-- The library is initialised for the first session. -/
theorem sslConnectInit_eq (rep : Represents w₀ w m) (ok : Bool) :
    sslConnectInit ok w = .ok ((), { w with
      initRefCount := if m.inits = 0 ∧ ok = false then 0 else m.stranded + 1 }) := by
  have count := rep.inits
  rw [sslConnectInit, bind_of_ok (get_apply w)]
  by_cases first : w.sock = none
  · have inits : m.inits = m.stranded := by
      rw [Sessions.inits, if_pos (rep.sock_eq_none_iff.mp first), Nat.add_zero]
    have init := wolfSSLInit_eq ok w
    rw [if_pos first]
    by_cases fails : w.initRefCount = 0 ∧ ok = false
    · rw [if_pos fails] at init
      rw [← count, if_pos fails, bind_of_ok init, ← fails.1]
      rfl
    · rw [if_neg fails] at init
      rw [← count, if_neg fails, bind_of_ok init, count, inits]
      rfl
  · have inits : m.inits = m.stranded + 1 := by
      rw [Sessions.inits, if_neg fun none => first (rep.sock_eq_none_iff.mpr none)]
    have up : ¬ (m.inits = 0 ∧ ok = false) := by omega
    rw [if_neg first, if_neg up, ← inits, ← count]
    rfl

theorem failed_inits (m : Sessions) : m.failed.inits = m.stranded + 1 := by
  rw [Sessions.inits, Sessions.failed]
  dsimp only
  split_ifs
  · rfl
  · rfl

/-- A session is added. -/
theorem Represents.connected (rep : Represents w₀ w m) (sock : Int) (k : Nat)
    (inits : k = m.stranded + 1) (calls : List (Syscall × Int × Int)) :
    ∃ w', sslConnectDone w.nodes.brk { withSsl { w with initRefCount := k } sock
          (some w.nodes.brk) with calls := calls } = .ok (0, w') ∧
      Represents w₀ w' { m with opened := m.opened ++ [sock], calls := calls } := by
  obtain ⟨sessions, lost, holds, sockets, count⟩ := rep.holds
  let s : Session := ⟨w.nodes.brk, w.methods.brk, w.ctxs.brk, w.ssls.brk, sock⟩
  let x : SocketSsl := { nodeWithCtx w sock with ssl := some w.ssls.brk }
  obtain ⟨root', n', add, list, relinked⟩ := holds.list.add x
  let w₁ : Tls := { withSsl { w with initRefCount := k } sock (some w.nodes.brk) with
    calls := calls }
  have added : onNodes (addNodeLast socketLink w.sock w.nodes.brk) w₁ =
      .ok (root', { w₁ with nodes := n' }) := onNodes_ok add
  have run : sslConnectDone w.nodes.brk w₁ = .ok (0, { w₁ with nodes := n', sock := root' }) := by
    rw [sslConnectDone, bind_of_ok (get_apply w₁)]
    exact bind_of_ok added
  have keeps : ∀ {a y}, (w.nodes.push x).cells a = some y → ∃ next,
      n'.cells a = some ⟨y.method, y.ctx, y.ssl, y.socket, next⟩ := by
    intro a y cell
    obtain ⟨⟨method, ctx, ssl, socket, next⟩, cell', same⟩ :=
      relinked.keeps (fun x => (x.method, x.ctx, x.ssl, x.socket)) (fun _ _ => rfl) cell
    cases same
    exact ⟨next, cell'⟩
  refine ⟨_, run, ⟨sessions ++ [s], lost, ⟨?_, ?_, ?_, ?_, ?_, ?_, ?_⟩, ?_, count⟩, ?_, rfl⟩
  · rw [List.map_append]
    exact list
  · refine List.forall_mem_append.mpr ⟨fun t there => ?_, List.forall_mem_singleton.mpr ?_⟩
    · obtain ⟨next, cell⟩ := holds.node t there
      exact keeps (holds.fresh.nodes.push_cells cell _)
    · exact keeps (if_pos rfl)
  · refine List.forall_mem_append.mpr ⟨fun t there => ?_, List.forall_mem_singleton.mpr ?_⟩
    · exact holds.fresh.ctxs.push_cells (holds.ctx t there) _
    · exact if_pos rfl
  · refine List.forall_mem_append.mpr ⟨fun t there => ?_, List.forall_mem_singleton.mpr ?_⟩
    · exact holds.fresh.ssls.push_cells (holds.ssl t there) _
    · exact if_pos rfl
  · refine (holds.methods.push ()).perm ?_
    rw [List.map_append, List.append_assoc]
    exact List.perm_middle.symm
  · rw [List.map_append]
    exact (holds.ctxs.push _).perm (List.perm_append_singleton _ _).symm
  · rw [List.map_append]
    exact (holds.ssls.push _).perm (List.perm_append_singleton _ _).symm
  · rw [List.map_append, sockets]
    rfl
  · rw [Sessions.inits, if_neg (List.append_ne_nil_of_right_ne_nil _ (List.cons_ne_nil _ _))]
    exact inits

/-- The outcome of a call is what is meant by it: it follows a NULL pointer, or it returns this and
the memory is what it is to be. -/
def Meets (w₀ : Tls) (run : Except Fault (Int × Tls)) : Option (Int × Sessions) → Prop
  | none => run = .error .nullPointer
  | some (ret, m) => ∃ w', run = .ok (ret, w') ∧ Represents w₀ w' m

theorem Represents.fresh (rep : Represents w₀ w m) (k : Nat) :
    Tls.Fresh { w with initRefCount := k } := by
  obtain ⟨_, _, holds, -⟩ := rep.holds
  exact ⟨holds.fresh.nodes, holds.fresh.methods, holds.fresh.ctxs, holds.fresh.ssls⟩

/-- `ssl_connect` with a context. -/
theorem sslNew_meets (rep : Represents w₀ w m) (o : NewSsl) (handshake : Exchange) {k : Nat}
    (up : k = m.stranded + 1) :
    Meets w₀ (sslNew o handshake w.nodes.brk w.ctxs.brk
      (withCtx { w with initRefCount := k } sock)) (m.newSsl sock handshake o) := by
  let w₁ : Tls := { w with initRefCount := k }
  have inits : w₁.initRefCount = m.failed.inits := up.trans (failed_inits m).symm
  have unmade : ∀ {o}, o = NewSsl.noMemory ∨ o = NewSsl.afterCtx → ∃ w',
      sslNew o handshake w.nodes.brk w.ctxs.brk (withCtx w₁ sock) = .ok (-1, w') ∧
        Represents w₀ w' m.failed := by
    intro o fails
    obtain ⟨w', run, left, count, calls⟩ := sslNew_left sock (rep.fresh k) fails handshake
    exact ⟨w', run, rep.left left rfl rfl (count.trans inits) (calls.trans rep.calls)⟩
  cases o with
  | noMemory => exact unmade (.inl rfl)
  | beforeCtx =>
      have fault := wolfSSLNew_beforeCtx w.ctxs.brk (withCtx w₁ sock)
      rw [sslNew, bind_apply]
      exact congrArg (Except.bind · _) fault
  | afterCtx => exact unmade (.inr rfl)
  | made =>
      rw [Sessions.newSsl]
      by_cases done : handshake.ret = sslSuccess
      · have run := sslNew_made (w := w₁) sock handshake
        rw [if_neg (not_not_intro done)] at run
        obtain ⟨w', connected, rep'⟩ := rep.connected sock k up
          (w.calls ++ onWire sock handshake.ios)
        rw [rep.calls] at rep'
        rw [if_pos done]
        exact ⟨w', run.trans connected, rep'⟩
      · obtain ⟨w', run, left, count, calls⟩ := sslNew_refused sock (rep.fresh k) done
        rw [if_neg done]
        refine ⟨w', run, rep.left left rfl rfl (count.trans inits) ?_⟩
        rw [calls]
        exact congrArg (· ++ _) rep.calls

/-- `ssl_connect` behind the initialisation. -/
theorem sslSetup_meets (rep : Represents w₀ w m) (a : Attempt) (o : NewSsl) (handshake : Exchange)
    (node : a.node = true) {k : Nat}
    (begun : k = if m.inits = 0 ∧ a.firstInit = false then 0 else m.stranded + 1) :
    Meets w₀ (sslSetup a o handshake w.nodes.brk { w with
      initRefCount := k, nodes := w.nodes.push ⟨none, none, none, sock, none⟩ })
      (m.connect sock a o handshake) := by
  have dead_iff : (k = 0 ∧ a.secondInit = false) ↔
      m.inits = 0 ∧ a.firstInit = false ∧ a.secondInit = false := by
    rw [begun, ← and_assoc]
    refine and_congr_left fun _ => ?_
    by_cases down : m.inits = 0 ∧ a.firstInit = false
    · rw [if_pos down]
      exact iff_of_true rfl down
    · rw [if_neg down]
      exact iff_of_false (Nat.succ_ne_zero _) down
  have up : (if k = 0 then 1 else k) = m.stranded + 1 := by
    by_cases down : m.inits = 0 ∧ a.firstInit = false
    · have none : m.stranded = 0 := by
        have zero := down.1
        rw [Sessions.inits] at zero
        omega
      rw [begun, if_pos down, if_pos rfl, none]
    · rw [begun, if_neg down, if_neg (Nat.succ_ne_zero _)]
  rw [Sessions.connect, if_neg (by rw [node]; decide)]
  by_cases dead : k = 0 ∧ a.secondInit = false
  · obtain ⟨w', lost, run, left, calls, count⟩ :=
      sslSetup_left sock (rep.fresh k) o handshake (.inl dead)
    rw [if_pos dead] at count
    rw [if_pos (dead_iff.mp dead)]
    refine ⟨w', run, rep.left left rfl ?_ ?_ (calls.trans rep.calls)⟩
    · exact congrArg (m.lost + ·) count.1.symm
    · rw [count.2]
      exact (dead_iff.mp dead).1.symm
  · rw [if_neg fun down => dead (dead_iff.mpr down)]
    by_cases short : a.method = false ∨ a.ctx = false ∨ a.initCtx = false
    · obtain ⟨w', lost, run, left, calls, count⟩ :=
        sslSetup_left sock (rep.fresh k) o handshake (.inr short)
      rw [if_neg dead] at count
      obtain ⟨rfl, count⟩ := count
      rw [if_pos short]
      exact ⟨w', run, rep.left left rfl rfl (count.trans (up.trans (failed_inits m).symm))
        (calls.trans rep.calls)⟩
    · rw [if_neg short]
      simp only [not_or, Bool.not_eq_false] at short
      obtain ⟨method, ctx, initCtx⟩ := short
      have run := sslSetup_withCtx (w := { w with initRefCount := k }) sock o handshake
        dead method ctx initCtx
      exact run ▸ sslNew_meets rep o handshake up

theorem sslConnect_meets (rep : Represents w₀ w m) (a : Attempt) (o : NewSsl)
    (handshake : Exchange) :
    Meets w₀ (sslConnect sock a o handshake w) (m.connect sock a o handshake) := by
  have begun := sslConnectInit_eq rep a.firstInit
  rw [sslConnect, bind_of_ok begun]
  cases node : a.node with
  | false =>
      rw [Sessions.connect, if_pos node]
      rfl
  | true =>
      let w₁ : Tls := { w with
        initRefCount := if m.inits = 0 ∧ a.firstInit = false then 0 else m.stranded + 1 }
      have made : onNodes (if true = true then alloc ⟨none, none, none, 0, none⟩
          else throw .nullPointer) w₁ = .ok (w.nodes.brk, { w₁ with
            nodes := w.nodes.push ⟨none, none, none, 0, none⟩ }) := rfl
      have known : onNodes (update w.nodes.brk fun x => { x with socket := sock }) { w₁ with
          nodes := w.nodes.push ⟨none, none, none, 0, none⟩ } = .ok ((), { w₁ with
            nodes := w.nodes.push ⟨none, none, none, sock, none⟩ }) :=
        onNodes_ok (update_push w.nodes _ _)
      rw [bind_of_ok made, bind_of_ok known]
      exact sslSetup_meets rep a o handshake node rfl

/-! ### Using a session -/

/-- A search finds the oldest session of a socket. -/
theorem findSocket_eq (holds : Holds w₀ w sessions lost) (sock : Int) :
    findSocket sock w =
      .ok ((sessions.find? fun s => s.socket = sock).map Session.node, w) := by
  have same : (sessions.map Session.node).find? (Matches (sockeq sock) w.nodes) =
      (sessions.find? fun s => s.socket = sock).map Session.node := by
    rw [List.find?_map]
    refine congrArg (Option.map _) (List.find?_congr fun s there => ?_)
    obtain ⟨next, cell⟩ := holds.node s there
    rw [Function.comp_apply, Matches, cell, Option.any_some, sockeq]
    by_cases here : s.socket = sock
    · rw [if_pos here, decide_eq_true here]
      rfl
    · rw [if_neg here, decide_eq_false here]
      rfl
  rw [findSocket, bind_of_ok (get_apply w)]
  exact onNodes_ok ((holds.list.find (sockeq sock)).trans (by rw [same]))

/-- What a search comes to, with the sessions before the one that it finds. -/
theorem find_session (sessions : List Session) (sock : Int) :
    (sock ∉ sessions.map Session.socket ∧ (sessions.find? fun s => s.socket = sock) = none) ∨
      ∃ l s r, sessions = l ++ s :: r ∧ (sessions.find? fun s => s.socket = sock) = some s ∧
        s.socket = sock ∧ sock ∉ l.map Session.socket := by
  cases found : sessions.find? fun s => s.socket = sock with
  | none =>
      refine .inl ⟨fun there => ?_, rfl⟩
      obtain ⟨s, among, same⟩ := List.mem_map.mp there
      exact List.find?_eq_none.mp found s among (decide_eq_true same)
  | some s =>
      obtain ⟨here, l, r, split, before⟩ := List.find?_eq_some_iff_append.mp found
      refine .inr ⟨l, s, r, split, rfl, of_decide_eq_true here, fun there => ?_⟩
      obtain ⟨t, among, same⟩ := List.mem_map.mp there
      have other := before t among
      rw [decide_eq_true same] at other
      cases other

/-- What the library does in a session goes over its socket. -/
theorem Holds.exchange (holds : Holds w₀ w sessions lost) {s : Session} (there : s ∈ sessions)
    (e : Exchange) :
    ∃ x, w.nodes.cells s.node = some x ∧ x.ssl = some s.ssl ∧ x.ctx = some s.ctx ∧
      Ssl.exchange x.ssl e w =
        .ok (e.ret, { w with calls := w.calls ++ onWire s.socket e.ios }) := by
  obtain ⟨next, cell⟩ := holds.node s there
  exact ⟨_, cell, rfl, rfl, exchange_eq (holds.ssl s there) cell e⟩

theorem sslTransfer_meets (rep : Represents w₀ w m) (e : Exchange) :
    Meets w₀ (sslTransfer sock e w) (some (m.transfer sock e)) := by
  obtain ⟨sessions, lost, holds, sockets, count⟩ := rep.holds
  have find := findSocket_eq holds sock
  rw [Sessions.transfer, ← sockets, sslTransfer]
  obtain ⟨absent, none⟩ | ⟨l, s, r, rfl, found, rfl, -⟩ := find_session sessions sock
  · rw [none] at find
    rw [if_neg absent, bind_of_ok find]
    exact ⟨w, rfl, rep⟩
  · have there : s ∈ l ++ s :: r := List.mem_append_right l List.mem_cons_self
    obtain ⟨x, cell, -, -, run⟩ := holds.exchange there e
    rw [found] at find
    rw [if_pos (List.mem_map_of_mem there), bind_of_ok find]
    dsimp only [Option.map_some]
    rw [bind_of_ok (onNodes_ok (read_eq cell)), run]
    refine ⟨_, rfl, ⟨⟨l ++ s :: r, lost, ?_, sockets, count⟩, rep.inits, ?_⟩⟩
    · exact ⟨holds.list, holds.node, holds.ctx, holds.ssl, holds.methods, holds.ctxs, holds.ssls⟩
    · exact congrArg (· ++ _) rep.calls

/-! ### Closing -/

/-- A session is the only one with what belongs to it. -/
theorem ne_of_nodup {β : Type} {f : Session → β} {l r : List Session} {s t : Session}
    (nodup : ((l ++ s :: r).map f).Nodup) (there : t ∈ l ++ r) : f t ≠ f s := by
  rw [List.map_append, List.map_cons] at nodup
  intro same
  refine (List.nodup_middle.mp nodup).notMem ?_
  rw [← List.map_append, ← same]
  exact List.mem_map_of_mem there

/-- What is left when a session is taken out of the list and all that belongs to it is released. -/
theorem Holds.close {l r : List Session} {s : Session} {root' : Option Addr} {n' : Heap SocketSsl}
    (holds : Holds w₀ w (l ++ s :: r) lost)
    (list : OwnedList socketLink w₀.nodes (n'.erase s.node) root' ((l ++ r).map Session.node))
    (relinked : Relinked socketLink w.nodes n' (l.map Session.node ++ s.node :: r.map Session.node))
    (k : Nat) (calls : List (Syscall × Int × Int)) :
    Holds w₀ ⟨n'.erase s.node, w.methods.erase s.method, w.ctxs.erase s.ctx, w.ssls.erase s.ssl, k,
      root', calls⟩ (l ++ r) lost := by
  have among : ∀ t ∈ l ++ r, t ∈ l ++ s :: r := fun t there =>
    (List.Sublist.append_left (List.sublist_cons_self s r) l).mem there
  have middle {β : Type} (f : Session → β) :
      ((l ++ s :: r).map f).Perm (f s :: (l ++ r).map f) := by
    rw [List.map_append, List.map_append, List.map_cons]
    exact List.perm_middle
  have methods : Grown w₀.methods w.methods
      (s.method :: ((l ++ r).map Session.method ++ lost)) :=
    holds.methods.perm ((middle Session.method).append_right lost)
  have ctxs := holds.ctxs.perm (middle Session.ctx)
  have ssls := holds.ssls.perm (middle Session.ssl)
  refine ⟨list, fun t there => ?_, fun t there => ?_, fun t there => ?_, methods.erase, ctxs.erase,
    ssls.erase⟩
  · have distinct := holds.list.nodes.distinct
    obtain ⟨next, before⟩ := holds.node t (among t there)
    obtain ⟨⟨method, ctx, ssl, socket, next'⟩, after, same⟩ :=
      relinked.keeps (fun x => (x.method, x.ctx, x.ssl, x.socket)) (fun _ _ => rfl) before
    cases same
    exact ⟨next', (if_neg (ne_of_nodup distinct there)).trans after⟩
  · exact (if_neg (ne_of_nodup holds.ctxs.distinct there)).trans (holds.ctx t (among t there))
  · exact (if_neg (ne_of_nodup holds.ssls.distinct there)).trans (holds.ssl t (among t there))

theorem sslClose_meets (rep : Represents w₀ w m) (shutdown : Exchange) :
    Meets w₀ (sslClose sock shutdown w) (some (m.close sock shutdown)) := by
  obtain ⟨sessions, lost, holds, sockets, count⟩ := rep.holds
  have find := findSocket_eq holds sock
  rw [Sessions.close, ← sockets, sslClose]
  obtain ⟨absent, none⟩ | ⟨l, s, r, rfl, found, rfl, before⟩ := find_session sessions sock
  · rw [none] at find
    rw [if_neg absent, bind_of_ok find]
    exact ⟨w, rfl, rep⟩
  · have there : s ∈ l ++ s :: r := List.mem_append_right l List.mem_cons_self
    obtain ⟨x, cell, ssl, ctx, run⟩ := holds.exchange there shutdown
    obtain ⟨y, live⟩ := holds.methods.cell
      (List.mem_append_left lost (List.mem_map_of_mem (f := Session.method) there))
    have list := holds.list
    rw [List.map_append, List.map_cons] at list
    obtain ⟨root', n', unlink, ⟨z, cell'⟩, list', relinked⟩ := list.del
    rw [← List.map_append] at list'
    let w₁ : Tls := { w with calls := w.calls ++ onWire s.socket shutdown.ios }
    let w₂ : Tls := { w₁ with ctxs := w.ctxs.set s.ctx ⟨s.method, 1⟩, ssls := w.ssls.erase s.ssl }
    let w₃ : Tls := { w₂ with methods := w.methods.erase s.method, ctxs := w.ctxs.erase s.ctx }
    let w₄ : Tls := { w₃ with nodes := n'.erase s.node, sock := root' }
    have step₁ : wolfSSLFree x.ssl w₁ = .ok ((), w₂) := by
      rw [ssl]
      exact freeSSL_eq (w := w₁) (holds.ssl s there) (holds.ctx s there)
    have step₂ : wolfSSLCTXFree x.ctx w₂ = .ok ((), w₃) := by
      rw [ctx, wolfSSLCTXFree, if_neg (Option.some_ne_none _),
        freeSSLCtx_last (w := w₂) (if_pos rfl) live, set_erase]
    have step₃ : onNodes (delNode socketLink w.sock s.node) w₃ =
        .ok (root', { w₃ with nodes := n' }) := onNodes_ok unlink
    have step₄ : onNodes (free s.node) { w₃ with nodes := n', sock := root' } = .ok ((), w₄) :=
      onNodes_ok (free_eq cell')
    have erased : ((l ++ s :: r).map Session.socket).erase s.socket =
        (l ++ r).map Session.socket := by
      rw [List.map_append, List.map_append, List.map_cons, List.erase_append_right _ before,
        List.erase_cons_head]
    have inits : w.initRefCount = m.stranded + 1 := by
      rw [rep.inits, Sessions.inits, if_neg]
      rw [← sockets]
      exact List.ne_nil_of_mem (List.mem_map_of_mem there)
    have closed := holds.close list' relinked
    rw [found] at find
    rw [if_pos (List.mem_map_of_mem there), erased, bind_of_ok find]
    dsimp only [Option.map_some]
    have look : ∀ w' : Tls, w'.nodes = w.nodes → onNodes (read s.node) w' = .ok (x, w') := by
      intro w' same
      exact onNodes_ok (read_eq (same ▸ cell))
    rw [bind_of_ok (look w rfl), bind_of_ok run, bind_of_ok (look w₁ rfl), bind_of_ok step₁,
      bind_of_ok (look w₂ rfl), bind_of_ok step₂, bind_of_ok (get_apply w₃), bind_of_ok step₃,
      bind_of_ok (modify_apply _ _), bind_of_ok step₄]
    have last : root' = none ↔ (l ++ r).map Session.socket = [] := by
      rw [list'.walk.start_eq]
      cases l ++ r with
      | nil => exact iff_of_true rfl rfl
      | cons t ts => exact iff_of_false (Option.some_ne_none _) (List.cons_ne_nil _ _)
    by_cases empty : root' = none
    · rw [if_pos empty]
      refine ⟨_, rfl, ⟨l ++ r, lost, closed _ _, rfl, count⟩, ?_, congrArg (· ++ _) rep.calls⟩
      rw [Sessions.inits, if_pos (last.mp empty)]
      exact congrArg (· - 1) inits
    · rw [if_neg empty]
      refine ⟨_, rfl, ⟨l ++ r, lost, closed _ _, rfl, count⟩, ?_, congrArg (· ++ _) rep.calls⟩
      rw [Sessions.inits, if_neg fun none => empty (last.mpr none)]
      exact inits

end

/-! ### Runs -/

/-- A call does what is meant by it, or follows a NULL pointer. -/
theorem Call.represents {w₀ w : Tls} {m : Sessions} (rep : Represents w₀ w m) (call : Call) :
    Meets w₀ (call.run w) (call.meant m) := by
  cases call with
  | connect sock a o handshake => exact sslConnect_meets rep a o handshake
  | recv sock e => exact sslTransfer_meets rep e
  | send sock e => exact sslTransfer_meets rep e
  | close sock shutdown => exact sslClose_meets rep shutdown

/-- Calls one after the other, with what they return. -/
def sslCalls : List Call → Prog Tls (List Int)
  | [] => return []
  | call :: calls => do
      let ret ← call.run
      let rets ← sslCalls calls
      return ret :: rets

/-- What is meant by them. -/
def sslCallsMeant (m : Sessions) : List Call → Option (List Int × Sessions)
  | [] => some ([], m)
  | call :: calls => do
      let (ret, m) ← call.meant m
      let (rets, m) ← sslCallsMeant m calls
      return (ret :: rets, m)

theorem sslCalls_represents {w₀ w : Tls} {m : Sessions} (rep : Represents w₀ w m)
    (calls : List Call) :
    match sslCallsMeant m calls with
    | none => sslCalls calls w = .error .nullPointer
    | some (rets, m') => ∃ w', sslCalls calls w = .ok (rets, w') ∧ Represents w₀ w' m' := by
  induction calls generalizing w m with
  | nil => exact ⟨w, rfl, rep⟩
  | cons call calls ih =>
      have meets := call.represents rep
      rw [sslCallsMeant, sslCalls]
      cases meant : call.meant m with
      | none =>
          rw [meant] at meets
          rw [bind_apply, meets]
          rfl
      | some r =>
          obtain ⟨ret, m₁⟩ := r
          rw [meant] at meets
          obtain ⟨w₁, run, rep₁⟩ := meets
          rw [bind_of_ok run]
          have rest := ih rep₁
          dsimp only [Option.bind_eq_bind, Option.bind_some]
          cases whole : sslCallsMeant m₁ calls with
          | none =>
              rw [whole] at rest
              rw [bind_apply, rest]
              rfl
          | some r =>
              obtain ⟨rets, m'⟩ := r
              rw [whole] at rest
              obtain ⟨w', run', rep'⟩ := rest
              rw [bind_of_ok run']
              exact ⟨w', rfl, rep'⟩

/-- Where nothing was called yet. -/
theorem represents_start {N : Heap SocketSsl} {M : Heap Unit} {C : Heap WolfsslCtx}
    {S : Heap Wolfssl} (nodes : N.Fresh) (methods : M.Fresh) (ctxs : C.Fresh) (ssls : S.Fresh) :
    Represents ⟨N, M, C, S, 0, none, []⟩ ⟨N, M, C, S, 0, none, []⟩ ⟨[], 0, 0, []⟩ :=
  ⟨⟨[], [], ⟨.nil nodes, nofun, nofun, nofun, .refl methods, .refl ctxs, .refl ssls⟩, rfl, rfl⟩,
    rfl, rfl⟩

/-- Any run of calls, with anything that the library, the system and the peer do in them, follows a
NULL pointer where it is said to, and otherwise returns what is meant by it. Of all that was made
there is then left what belongs to the sessions that are open, each with its own, and the methods
that were lost; all system calls were on the sockets of the sessions that they are for; and the
library is initialised once for the sessions that are open, and once for each session that failed
when there was none. -/
theorem sslCalls_meant {N : Heap SocketSsl} {M : Heap Unit} {C : Heap WolfsslCtx}
    {S : Heap Wolfssl} (nodes : N.Fresh) (methods : M.Fresh) (ctxs : C.Fresh) (ssls : S.Fresh)
    (calls : List Call) :
    match sslCallsMeant ⟨[], 0, 0, []⟩ calls with
    | none => sslCalls calls ⟨N, M, C, S, 0, none, []⟩ = .error .nullPointer
    | some (rets, m) => ∃ w', sslCalls calls ⟨N, M, C, S, 0, none, []⟩ = .ok (rets, w') ∧
        Represents ⟨N, M, C, S, 0, none, []⟩ w' m :=
  sslCalls_represents (represents_start nodes methods ctxs ssls) calls

/-- There is memory for everything, and the library can be initialised. -/
def Attempt.fine : Attempt := ⟨true, true, true, true, true, true⟩

/-- The first session is refused, the second one reads eight bytes and is closed: all that was made
is released, but the library stays initialised. -/
theorem sslCalls_meant_refused :
    ∃ w', sslCalls [.connect 3 .fine .made ⟨[⟨.send, 9, 9⟩], -1⟩,
        .connect 4 .fine .made ⟨[], 1⟩, .recv 4 ⟨[⟨.recv, 8, 8⟩], 8⟩, .close 4 ⟨[], 1⟩]
        ⟨⟨fun _ => none, 0⟩, ⟨fun _ => none, 0⟩, ⟨fun _ => none, 0⟩, ⟨fun _ => none, 0⟩, 0,
          none, []⟩ =
          .ok ([-1, 0, 8, 0], w') ∧
      (∃ lost, Holds ⟨⟨fun _ => none, 0⟩, ⟨fun _ => none, 0⟩, ⟨fun _ => none, 0⟩,
        ⟨fun _ => none, 0⟩, 0, none, []⟩ w' [] lost ∧ lost = []) ∧
      w'.initRefCount = 1 ∧ w'.calls = [(.send, 3, 9), (.recv, 4, 8)] := by
  obtain ⟨w', run, ⟨sessions, lost, holds, sockets, count⟩, inits, calls⟩ := sslCalls_meant
    (show Heap.Fresh ⟨fun _ => none, 0⟩ from fun _ _ => rfl)
    (show Heap.Fresh ⟨fun _ => none, 0⟩ from fun _ _ => rfl)
    (show Heap.Fresh ⟨fun _ => none, 0⟩ from fun _ _ => rfl)
    (show Heap.Fresh ⟨fun _ => none, 0⟩ from fun _ _ => rfl)
    [.connect 3 .fine .made ⟨[⟨.send, 9, 9⟩], -1⟩, .connect 4 .fine .made ⟨[], 1⟩,
      .recv 4 ⟨[⟨.recv, 8, 8⟩], 8⟩, .close 4 ⟨[], 1⟩]
  obtain rfl : sessions = [] := List.map_eq_nil_iff.mp sockets
  exact ⟨w', run, ⟨lost, holds, List.length_eq_zero_iff.mp count⟩, inits, calls⟩

end AcnSdk.Ssl
