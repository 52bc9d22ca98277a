/-
What a request in memory holds from `http_request_init` to `http_request_close`.

* `Represents.call` — a call does to the request what is meant by it.
* `Represents.close` — closing releases all that a request holds.
* `requestCalls_meant` — any calls on a new request leave the texts and the entries that are meant,
  and what is left when it is closed is only what was replaced.
-/

import AcnSdk.Data.PropertyMapFrame
import AcnSdk.Http.RequestMemory

namespace AcnSdk.Http.Memory

open AcnSdk.Lib AcnSdk.Arrow Prog Heap Ascii
open AcnSdk.Data hiding propertyFree propertyMove
open AcnSdk.Json.Pointers (propertyFree propertyMove releases released pJson propertyFree_live)

/-! ### The heap of a request -/

/-- The block that a property owns. -/
abbrev own (p : Property) : List Addr := (releases p).toList

/-- The property is the text, or zeros where there is none. -/
def Shown (h : Heap Bytes) (p : Property) : Option Held → Prop
  | none => p = .init
  | some t => Contains h p t.text ∧ p.isRaw = false ∧ (releases p).isSome = t.own

/-- The members of a request are its parts. -/
structure Shows (h : Heap Bytes) (req : HttpRequest) (m : Meaning) : Prop where
  meth : Shown h req.meth (some ⟨m.meth, false⟩)
  scheme : Shown h req.scheme (some ⟨m.scheme, false⟩)
  host : Shown h req.host (some ⟨m.host, true⟩)
  uri : Shown h req.uri (some ⟨m.uri, true⟩)
  payload : Shown h req.payload m.payload
  contentValue : Shown h req.contentValue m.contentType
  contentKey : Shown h req.contentKey (m.contentType.map fun _ => ⟨contentTypeText, false⟩)
  port : req.port = m.port
  isCipher : req.isCipher = m.isCipher
  isCorrupt : req.isCorrupt = 0
  isChunked : req.isChunked = 0

/-- The blocks of the texts that are no entries, in the order in which they are released. -/
def HttpRequest.texts (req : HttpRequest) : List Addr :=
  own req.meth ++ (own req.scheme ++ (own req.host ++ (own req.uri ++ (own req.payload ++
    (own req.contentValue ++ own req.contentKey)))))

/-- The request is its parts, the maps have these nodes, and nothing else was made but what belongs
to them and what was lost. -/
structure Holds (N₀ : Heap PropertyMap) (h₀ : Heap Bytes) (h : MapHeap) (req : HttpRequest)
    (m : Meaning) (hdr qry : List Slot) (lost : List Addr) : Prop where
  shows : Shows h.bytes req m
  header : MapNodes h.nodes req.header hdr
  query : MapNodes h.nodes req.query qry
  headerKeeps : ∀ s ∈ hdr, s.Keeps h.bytes
  queryKeeps : ∀ s ∈ qry, s.Keeps h.bytes
  nodes : Grown N₀ h.nodes (qry.map Slot.addr ++ hdr.map Slot.addr)
  blocks : Grown h₀ h.bytes
    (req.texts ++ qry.flatMap Slot.owned ++ lost ++ hdr.flatMap Slot.owned)
  headerEntries : hdr.map Slot.entry = m.header
  queryEntries : qry.map Slot.entry = m.query
  count : lost.length = m.lost

/-- The request has these parts, and so many blocks were lost. -/
def Represents (N₀ : Heap PropertyMap) (h₀ : Heap Bytes) (h : MapHeap) (req : HttpRequest)
    (m : Meaning) : Prop :=
  ∃ hdr qry lost, Holds N₀ h₀ h req m hdr qry lost

/-- The literals of the program. -/
def literals : List Bytes := methStr ++ schemeStr ++ contentTypeText :: findByName

/-- They are where they are said to be. -/
def Literals (h₀ : Heap Bytes) (literal : Bytes → Addr) : Prop :=
  ∀ s ∈ literals, ∃ rest, h₀.cells (literal s) = some (s ++ 0 :: rest)

/-- The caller's text is there, or there is one to make a block of. -/
def Gift.Given (h₀ : Heap Bytes) : Gift → Prop
  | lent arg => arg.Given h₀ ∧ releases arg.property = none
  | heap text => 0 ∉ text
  | json text => 0 ∉ text

/-- The text has a terminator. -/
def Gift.Terminated : Gift → Prop
  | lent arg => arg.property.isRaw = false
  | _ => True

/-- What a call is given is there. A content type is not copied, and so it needs its terminator. A
parameter is no number in front of the names. -/
def Call.Given (h₀ : Heap Bytes) : Call → Prop
  | addHeader key value _ => key.Given h₀ ∧ value.Given h₀
  | setHeader key value => key.Read h₀ ∧ value.Given h₀
  | findHeader key => key.Read h₀
  | addQuery key value _ => key.Given h₀ ∧ value.Given h₀
  | setFindby fb => ∀ f ∈ fb, 0 ≤ f.num ∧ f.value.Given h₀
  | setContentType value => value.Given h₀ ∧ value.Terminated
  | setPayload payload => payload.Given h₀

section

variable {N₀ : Heap PropertyMap} {h₀ b b' : Heap Bytes} {h h' : MapHeap} {req : HttpRequest}
  {m : Meaning} {hdr qry : List Slot} {lost blocks : List Addr} {p : Property}
  {held : Option Held} {literal : Bytes → Addr}

/-! ### Texts -/

theorem Shown.mono (shown : Shown b p held)
    (kept : ∀ a x, b.cells a = some x → b'.cells a = some x) : Shown b' p held := by
  cases held with
  | none => exact shown
  | some t => exact ⟨shown.1.mono kept, shown.2⟩

theorem Shows.mono (shows : Shows b req m)
    (kept : ∀ a x, b.cells a = some x → b'.cells a = some x) : Shows b' req m :=
  ⟨shows.meth.mono kept, shows.scheme.mono kept, shows.host.mono kept, shows.uri.mono kept,
    shows.payload.mono kept, shows.contentValue.mono kept, shows.contentKey.mono kept, shows.port,
    shows.isCipher, shows.isCorrupt, shows.isChunked⟩

theorem Shown.keyed (shown : Shown b p held) : p = .init ∨ p.value ≠ none := by
  cases held with
  | none => exact .inl shown
  | some t =>
      obtain ⟨⟨-, a, -, value, -⟩, -⟩ := shown
      refine .inr ?_
      rw [value]
      exact Option.some_ne_none a

/-- The block of a text is lost with it. -/
theorem Shown.length_own (shown : Shown b p held) : (own p).length = lostWith held := by
  have each (o : Option Addr) : o.toList.length = o.isSome.toNat := by cases o <;> rfl
  cases held with
  | none =>
      cases shown
      rfl
  | some t =>
      rw [each, shown.2.2]
      rfl

theorem shown_literal (there : Literals h₀ literal) {s : Bytes} (known : s ∈ literals) :
    Shown h₀ (literalConst literal s) (some ⟨s, false⟩) := by
  have plain : ∀ s ∈ literals, 0 ∉ s := by decide
  obtain ⟨rest, cell⟩ := there s known
  exact ⟨⟨plain s known, literal s, 0 :: rest, rfl, cell, rfl⟩, rfl, rfl⟩

/-- A property is released, with the block that it owns. -/
theorem propertyFree_own (keyed : p = .init ∨ p.value ≠ none)
    (grown : Grown h₀ b (own p ++ blocks)) :
    ∃ b', propertyFree p b = .ok (.init, b') ∧ Grown h₀ b' blocks := by
  refine ⟨released b p, propertyFree_live keyed fun a owned => ?_, ?_⟩
  · exact grown.cell (List.mem_append_left blocks (Option.mem_toList.mpr owned))
  · rw [released]
    cases owned : releases p with
    | none =>
        rw [own, owned] at grown
        exact grown
    | some a =>
        rw [own, owned] at grown
        exact grown.erase

/-! ### Gifts -/

/-- A block that is made and handed over. -/
theorem shown_push {s : Bytes} (plain : 0 ∉ s) (tag n : Nat) :
    Contains (b.push (s ++ [0])) ⟨some b.brk, tag, false, true, n⟩ s :=
  ⟨plain, b.brk, [0], rfl, if_pos rfl, rfl⟩

/-- A gift as it is. -/
theorem Gift.make_eq (grown : Grown h₀ b blocks) {g : Gift} (given : g.Given h₀)
    (terminated : g.Terminated) :
    ∃ p b', g.make b = .ok (p, b') ∧ Shown b' p (some g.kept) ∧ Grown h₀ b' (own p ++ blocks) ∧
      ∀ a x, b.cells a = some x → b'.cells a = some x := by
  cases g with
  | lent arg =>
      obtain ⟨⟨-, contains⟩, weak⟩ := given
      refine ⟨arg.property, b, rfl, ⟨contains.mono grown.kept, terminated, ?_⟩, ?_,
        fun _ _ cell => cell⟩
      · rw [weak]
        rfl
      · rw [own, weak]
        exact grown
  | heap text =>
      exact ⟨.heap b.brk text.length, _, rfl, ⟨shown_push given _ _, rfl, rfl⟩, grown.push _,
        fun a x cell => grown.fresh.push_cells cell _⟩
  | json text =>
      exact ⟨pJson b.brk text.length, _, rfl, ⟨shown_push given _ _, rfl, rfl⟩, grown.push _,
        fun a x cell => grown.fresh.push_cells cell _⟩

/-- A text that stays the caller's own, unless it is on the stack: then it is copied. -/
theorem move_lent {t : Bytes} (usable : p.Usable) (contains : Contains b p t)
    (weak : releases p = none) (grown : Grown h₀ b blocks) (old : Property) :
    ∃ p' b', propertyMove old p b = .ok ((p', .init), b') ∧
      Shown b' p' (some ⟨t, p.tag = stackTag⟩) ∧ Grown h₀ b' (own p' ++ blocks) ∧
      ∀ a x, b.cells a = some x → b'.cells a = some x := by
  obtain ⟨value, tag, isRaw, isOwner, size⟩ := p
  by_cases stack : tag = stackTag
  · subst stack
    have copy := dynmcCopy_grown (p := ⟨value, stackTag, isRaw, true, size⟩) rfl
      ⟨contains.plain, contains.block⟩
    refine ⟨⟨some b.brk, dynamicTag, false, true, size⟩, b.push (t ++ [0]), ?_,
      ⟨shown_push contains.plain _ _, rfl, rfl⟩, grown.push _,
      fun a x cell => grown.fresh.push_cells cell _⟩
    have moved : Data.propertyMove old ⟨value, stackTag, isRaw, isOwner, size⟩ b =
        .ok ((⟨some b.brk, dynamicTag, false, true, size⟩, .init), b.push (t ++ [0])) := by
      rw [Data.propertyMove, if_neg (show ¬ stackTag = constTag by decide),
        if_neg (show ¬ stackTag = dynamicTag by decide), if_pos rfl, stackCopy, bind_apply,
        bind_apply, copy]
      rfl
    exact moved
  · have weak_owner : ¬ (isOwner = true ∧ tag = dynamicTag) := by
      rintro ⟨rfl, rfl⟩
      obtain ⟨-, a, -, rfl, -⟩ := contains
      cases weak
    have text : isRaw = false := Bool.eq_false_of_not_eq_true fun raw =>
      (usable.raw raw).elim (fun both => weak_owner both.symm) stack
    subst text
    rw [decide_eq_false stack]
    rcases usable.known with rfl | rfl | tag
    · refine ⟨⟨value, constTag, false, true, size⟩, b, ?_,
        ⟨⟨contains.plain, contains.block⟩, rfl, rfl⟩, grown, fun _ _ cell => cell⟩
      cases isOwner <;> rfl
    · obtain rfl : isOwner = false :=
        Bool.eq_false_of_not_eq_true fun owner => weak_owner ⟨owner, rfl⟩
      exact ⟨⟨value, dynamicTag, false, false, size⟩, b, rfl, ⟨contains, rfl, rfl⟩, grown,
        fun _ _ cell => cell⟩
    · exact absurd tag stack

/-- A gift that is moved to where it is kept. -/
theorem Gift.move_eq (grown : Grown h₀ b blocks) {g : Gift} (given : g.Given h₀) (old : Property) :
    ∃ p b' p' b'', g.make b = .ok (p, b') ∧ propertyMove old p b' = .ok ((p', .init), b'') ∧
      Shown b'' p' (some g.moved) ∧ Grown h₀ b'' (own p' ++ blocks) ∧
      ∀ a x, b.cells a = some x → b''.cells a = some x := by
  cases g with
  | lent arg =>
      obtain ⟨⟨usable, contains⟩, weak⟩ := given
      replace contains := contains.mono grown.kept
      obtain ⟨p', b', move, shown, grown', kept⟩ := move_lent usable contains weak grown old
      exact ⟨arg.property, b, p', b', rfl, move, shown, grown', kept⟩
  | heap text =>
      exact ⟨.heap b.brk text.length, _, .heap b.brk text.length, _, rfl, rfl,
        ⟨shown_push given _ _, rfl, rfl⟩, grown.push _,
        fun a x cell => grown.fresh.push_cells cell _⟩
  | json text =>
      exact ⟨pJson b.brk text.length, _, pJson b.brk text.length, _, rfl, rfl,
        ⟨shown_push given _ _, rfl, rfl⟩, grown.push _,
        fun a x cell => grown.fresh.push_cells cell _⟩

/-! ### Calls -/

theorem Holds.besideHeader (holds : Holds N₀ h₀ h req m hdr qry lost) :
    Beside N₀ h₀ h req.header hdr (qry.map Slot.addr)
      (req.texts ++ qry.flatMap Slot.owned ++ lost) :=
  ⟨holds.header, holds.headerKeeps, holds.nodes, holds.blocks⟩

theorem Holds.besideQuery (holds : Holds N₀ h₀ h req m hdr qry lost) :
    Beside N₀ h₀ h req.query qry (hdr.map Slot.addr)
      (req.texts ++ hdr.flatMap Slot.owned ++ lost) := by
  refine ⟨holds.query, holds.queryKeeps, holds.nodes.perm List.perm_append_comm,
    holds.blocks.perm (List.perm_iff_count.mpr fun a => ?_)⟩
  simp only [List.count_append]
  omega

theorem Meaning.onHeader_eq (m : Meaning) (op : MapOp) :
    m.onHeader op = { m with
      header := (op.meant ⟨m.header, 0⟩).2.entries
      lost := m.lost + (op.meant ⟨m.header, 0⟩).2.lost } := by
  have before := MapOp.meant_lost ⟨m.header, m.lost⟩ op
  rw [Meaning.onHeader, before]

theorem Meaning.onQuery_eq (m : Meaning) (op : MapOp) :
    m.onQuery op = { m with
      query := (op.meant ⟨m.query, 0⟩).2.entries
      lost := m.lost + (op.meant ⟨m.query, 0⟩).2.lost } := by
  have before := MapOp.meant_lost ⟨m.query, m.lost⟩ op
  rw [Meaning.onQuery, before]

/-- An operation on the headers. -/
theorem Holds.onHeader (holds : Holds N₀ h₀ h req m hdr qry lost) {op : MapOp}
    (given : op.Given h₀) (other : op ≠ .clear) :
    ∃ root h', op.run req.header h = .ok (((op.meant ⟨m.header, m.lost⟩).1, root), h') ∧
      Represents N₀ h₀ h' { req with header := root } (m.onHeader op) := by
  obtain ⟨root, h', hdr', lost', run, beside, entries, count, same, kept⟩ :=
    holds.besideHeader.op given other
  rw [holds.headerEntries] at run entries count
  refine ⟨root, h', ?_, hdr', qry, lost ++ lost', ?_⟩
  · rw [MapOp.meant_lost]
    exact run
  · rw [Meaning.onHeader_eq]
    exact {
      shows := { holds.shows.mono kept with }
      header := beside.map
      query := holds.query.same same
      headerKeeps := beside.keeps
      queryKeeps := fun s there => (holds.queryKeeps s there).mono kept
      nodes := beside.nodes
      blocks := by
        refine beside.blocks.perm (List.perm_iff_count.mpr fun a => ?_)
        simp only [List.count_append, HttpRequest.texts]
        omega
      headerEntries := entries
      queryEntries := holds.queryEntries
      count := by rw [List.length_append, holds.count, count] }

/-- An operation on the query. -/
theorem Holds.onQuery (holds : Holds N₀ h₀ h req m hdr qry lost) {op : MapOp}
    (given : op.Given h₀) (other : op ≠ .clear) :
    ∃ root h', op.run req.query h = .ok (((op.meant ⟨m.query, m.lost⟩).1, root), h') ∧
      Represents N₀ h₀ h' { req with query := root } (m.onQuery op) := by
  obtain ⟨root, h', qry', lost', run, beside, entries, count, same, kept⟩ :=
    holds.besideQuery.op given other
  rw [holds.queryEntries] at run entries count
  refine ⟨root, h', ?_, hdr, qry', lost ++ lost', ?_⟩
  · rw [MapOp.meant_lost]
    exact run
  · rw [Meaning.onQuery_eq]
    exact {
      shows := { holds.shows.mono kept with }
      header := holds.header.same same
      query := beside.map
      headerKeeps := fun s there => (holds.headerKeeps s there).mono kept
      queryKeeps := beside.keeps
      nodes := beside.nodes.perm List.perm_append_comm
      blocks := by
        refine beside.blocks.perm (List.perm_iff_count.mpr fun a => ?_)
        simp only [List.count_append, HttpRequest.texts]
        omega
      headerEntries := holds.headerEntries
      queryEntries := entries
      count := by rw [List.length_append, holds.count, count] }

theorem Holds.addQuery (holds : Holds N₀ h₀ h req m hdr qry lost) {key value : Arg}
    (key_given : key.Given h₀) (value_given : value.Given h₀) (granted : Bool) :
    ∃ req' h', httpRequestAddQuery granted req key.property value.property h = .ok (req', h') ∧
      Represents N₀ h₀ h' req' (m.onQuery (.add key value granted)) := by
  let op : MapOp := .add key value granted
  have given : op.Given h₀ := ⟨key_given, value_given⟩
  obtain ⟨root, h', run, represents⟩ := holds.onQuery given nofun
  replace run : propertyMapAdd granted req.query key.property value.property h =
      .ok ((_, root), h') := run
  refine ⟨{ req with query := root }, h', ?_, represents⟩
  rw [httpRequestAddQuery, bind_of_ok run]
  rfl

/-- The name of a parameter. -/
theorem getFindByName_eq {num : Int} (le : 0 ≤ num) (lt : num < findByName.length) :
    getFindByName num = .ok (some (findByName.getD num.toNat [])) ∧
      findByName.getD num.toNat [] ∈ literals := by
  have small : num.toNat < findByName.length := by omega
  have name : findByName.getD num.toNat [] = findByName[num.toNat] := by
    rw [List.getD_eq_getElem?_getD, List.getElem?_eq_getElem small, Option.getD_some]
  rw [name, getFindByName, if_pos lt, if_pos le, List.getElem?_eq_getElem small]
  exact ⟨rfl, List.mem_append_right _ (List.mem_cons_of_mem _ (List.getElem_mem small))⟩

/-- `http_request_set_findby` adds one entry for each parameter that has a name. -/
theorem Represents.setFindby (there : Literals h₀ literal) {fb : List Param}
    (represents : Represents N₀ h₀ h req m) (given : ∀ f ∈ fb, 0 ≤ f.num ∧ f.value.Given h₀) :
    ∃ req' h', httpRequestSetFindby literal req (fb.map Param.findBy) h = .ok (req', h') ∧
      Represents N₀ h₀ h' req' (fb.foldl findbyMeant m) := by
  induction fb generalizing req m h with
  | nil => exact ⟨req, h, rfl, represents⟩
  | cons f fb ih =>
      obtain ⟨le, value⟩ := given f List.mem_cons_self
      replace given := fun g among => given g (List.mem_cons_of_mem f among)
      rw [List.map_cons, Param.findBy, httpRequestSetFindby, List.foldl_cons]
      by_cases lt : f.num < findByName.length
      · obtain ⟨named, known⟩ := getFindByName_eq le lt
        obtain ⟨contains, raw, -⟩ := shown_literal there known
        let name := findByName.getD f.num.toNat []
        let key : Arg := ⟨literalConst literal name, name⟩
        have key_given : key.Given h₀ := ⟨⟨.inl rfl, fun raw => by cases raw⟩, contains⟩
        obtain ⟨hdr, qry, lost, holds⟩ := represents
        obtain ⟨req₁, h₁, add, represents₁⟩ := holds.addQuery key_given value f.granted
        obtain ⟨req', h', rest, represents'⟩ := ih represents₁ given
        have valid : findByValidateKey ⟨f.num, f.value.property⟩ = 0 := if_pos lt
        refine ⟨req', h', ?_, ?_⟩
        · have found : lift (getFindByName f.num) h = .ok (some name, h) := by
            rw [named]
            rfl
          have constant : lift (pConst (some name)) h = .ok (name, h) := rfl
          rw [if_pos valid, bind_of_ok found, bind_of_ok constant]
          exact (bind_of_ok add).trans rest
        · have meant : findbyMeant m f = m.onQuery (.add key f.value f.granted) := by
            rw [findbyMeant, Meaning.onQuery, MapOp.meant]
            cases f.granted with
            | false => simp
            | true =>
                rw [if_pos ⟨lt, rfl⟩]
                rfl
          rw [meant]
          exact represents'
      · have meant : findbyMeant m f = m := if_neg fun both => lt both.1
        have beyond : findByValidateKey ⟨f.num, f.value.property⟩ = -1 := if_neg lt
        rw [beyond, if_neg (by decide), meant]
        exact ih represents given

/-- Other texts, with the maps as they are. The blocks in `gone` are lost. -/
theorem Holds.withTexts (holds : Holds N₀ h₀ h req m hdr qry lost) {bytes : Heap Bytes}
    {req' : HttpRequest} {m' : Meaning} (gone : List Addr) (shows : Shows bytes req' m')
    (roots : req'.header = req.header ∧ req'.query = req.query)
    (entries : m'.header = m.header ∧ m'.query = m.query)
    (kept : ∀ a x, h.bytes.cells a = some x → bytes.cells a = some x)
    (blocks : Grown h₀ bytes
      (req'.texts ++ gone ++ (qry.flatMap Slot.owned ++ lost ++ hdr.flatMap Slot.owned)))
    (count : m.lost + gone.length = m'.lost) :
    Represents N₀ h₀ ⟨h.nodes, bytes⟩ req' m' := by
  refine ⟨hdr, qry, lost ++ gone, ?_⟩
  exact {
    shows := shows
    header := roots.1 ▸ holds.header
    query := roots.2 ▸ holds.query
    headerKeeps := fun s among => (holds.headerKeeps s among).mono kept
    queryKeeps := fun s among => (holds.queryKeeps s among).mono kept
    nodes := holds.nodes
    blocks := by
      refine blocks.perm (List.perm_iff_count.mpr fun a => ?_)
      simp only [List.count_append]
      omega
    headerEntries := holds.headerEntries.trans entries.1.symm
    queryEntries := holds.queryEntries.trans entries.2.symm
    count := by rw [List.length_append, holds.count, count] }

/-- Another content type. -/
theorem Holds.setContentType (holds : Holds N₀ h₀ h req m hdr qry lost)
    (there : Literals h₀ literal)
    {bytes : Heap Bytes} {t : Held} (shown : Shown bytes p (some t))
    (grown : Grown h₀ bytes
      (own p ++ (req.texts ++ qry.flatMap Slot.owned ++ lost ++ hdr.flatMap Slot.owned)))
    (kept : ∀ a x, h.bytes.cells a = some x → bytes.cells a = some x) :
    Represents N₀ h₀ ⟨h.nodes, bytes⟩ (httpRequestSetContentType literal req p)
      { m with contentType := some t, lost := m.lost + lostWith m.contentType } := by
  have key := shown_literal there (show contentTypeText ∈ literals by decide)
  have none : own (literalConst literal contentTypeText) = [] := rfl
  -- the key is a literal, so nothing is lost with it
  have no_key : own req.contentKey = [] := by
    refine List.length_eq_zero_iff.mp (holds.shows.contentKey.length_own.trans ?_)
    cases m.contentType <;> rfl
  have shows : Shows bytes (httpRequestSetContentType literal req p)
      { m with contentType := some t, lost := m.lost + lostWith m.contentType } :=
    { holds.shows.mono kept with
      contentValue := shown
      contentKey := key.mono grown.kept }
  refine holds.withTexts (own req.contentValue) shows ⟨rfl, rfl⟩ ⟨rfl, rfl⟩ kept
    (grown.perm (List.perm_iff_count.mpr fun a => ?_)) ?_
  · simp only [HttpRequest.texts, httpRequestSetContentType, List.count_append, no_key, none]
    omega
  · rw [holds.shows.contentValue.length_own]

/-- Another payload. -/
theorem Holds.setPayload (holds : Holds N₀ h₀ h req m hdr qry lost) {bytes : Heap Bytes} {t : Held}
    (shown : Shown bytes p (some t))
    (grown : Grown h₀ bytes
      (own p ++ (req.texts ++ qry.flatMap Slot.owned ++ lost ++ hdr.flatMap Slot.owned)))
    (kept : ∀ a x, h.bytes.cells a = some x → bytes.cells a = some x) :
    Represents N₀ h₀ ⟨h.nodes, bytes⟩ { req with payload := p }
      { m with payload := some t, lost := m.lost + lostWith m.payload } := by
  have shows : Shows bytes { req with payload := p }
      { m with payload := some t, lost := m.lost + lostWith m.payload } :=
    { holds.shows.mono kept with payload := shown }
  refine holds.withTexts (own req.payload) shows ⟨rfl, rfl⟩ ⟨rfl, rfl⟩ kept
    (grown.perm (List.perm_iff_count.mpr fun a => ?_)) ?_
  · simp only [HttpRequest.texts, List.count_append]
    omega
  · rw [holds.shows.payload.length_own]

/-- A call does to the request what is meant by it. -/
theorem Represents.call (there : Literals h₀ literal) {c : Call}
    (represents : Represents N₀ h₀ h req m) (given : c.Given h₀) :
    ∃ req' h', c.run literal req h = .ok (((c.meant m).1, req'), h') ∧
      Represents N₀ h₀ h' req' (c.meant m).2 := by
  obtain ⟨hdr, qry, lost, holds⟩ := represents
  cases c with
  | addHeader key value granted =>
      let op : MapOp := .add key value granted
      have given : op.Given h₀ := given
      obtain ⟨root, h', run, represents'⟩ := holds.onHeader given nofun
      replace run : propertyMapAdd granted req.header key.property value.property h =
          .ok ((_, root), h') := run
      refine ⟨{ req with header := root }, h', ?_, represents'⟩
      have add : httpRequestAddHeader granted req key.property value.property h =
          .ok ({ req with header := root }, h') := by
        rw [httpRequestAddHeader, bind_of_ok run]
        rfl
      rw [Call.run, bind_of_ok add]
      rfl
  | setHeader key value =>
      let op : MapOp := .assign key value
      have given : op.Given h₀ := given
      obtain ⟨root, h', run, represents'⟩ := holds.onHeader given nofun
      -- the root stays, and nobody is told whether the key was found
      obtain ⟨⟨rc, h₁⟩, assign, rest⟩ := ok_of_bind run
      obtain ⟨pair, rfl⟩ := Prod.mk.inj (Except.ok.inj rest)
      obtain ⟨-, rfl⟩ := Prod.mk.inj pair
      refine ⟨req, h₁, ?_, represents'⟩
      have set : httpRequestSetHeader req key.property value.property h = .ok ((), h₁) := by
        rw [httpRequestSetHeader, bind_of_ok assign]
        rfl
      rw [Call.run, bind_of_ok set]
      rfl
  | findHeader key =>
      have find := holds.besideHeader.find given
      have same := find_entry hdr key.text
      rw [holds.headerEntries] at same
      refine ⟨req, h, ?_, hdr, qry, lost, holds⟩
      rw [Call.run, Call.meant, same, bind_apply, httpRequestFindHeader, bind_of_ok find]
      cases hdr.find? fun s => s.entry.Has key.text <;> rfl
  | addQuery key value granted =>
      obtain ⟨req', h', run, represents'⟩ := holds.addQuery given.1 given.2 granted
      refine ⟨req', h', ?_, represents'⟩
      rw [Call.run, bind_of_ok run]
      rfl
  | setFindby fb =>
      obtain ⟨req', h', run, represents'⟩ :=
        Represents.setFindby there ⟨hdr, qry, lost, holds⟩ given
      refine ⟨req', h', ?_, represents'⟩
      rw [Call.run, bind_of_ok run]
      rfl
  | setContentType value =>
      obtain ⟨p, bytes, made, shown, grown, kept⟩ := Gift.make_eq holds.blocks given.1 given.2
      refine ⟨httpRequestSetContentType literal req p, ⟨h.nodes, bytes⟩, ?_,
        holds.setContentType there shown grown kept⟩
      rw [Call.run, bind_of_ok (onBytes_ok made)]
      rfl
  | setPayload payload =>
      obtain ⟨p, b₁, p', b₂, made, moved, shown, grown, kept⟩ :=
        Gift.move_eq holds.blocks given req.payload
      refine ⟨{ req with payload := p' }, ⟨h.nodes, b₂⟩, ?_, holds.setPayload shown grown kept⟩
      have set : httpRequestSetPayload req p ⟨h.nodes, b₁⟩ =
          .ok ({ req with payload := p' }, ⟨h.nodes, b₂⟩) := by
        rw [httpRequestSetPayload, bind_of_ok (onBytes_ok moved)]
        rfl
      rw [Call.run, bind_of_ok (onBytes_ok made), bind_of_ok set]
      rfl

/-! ### From the beginning to the end -/

/-- Host and URI are parts of the URL. -/
theorem mem_text {u : Url} {c : Byte} (among : c ∈ u.host ∨ c ∈ slash :: u.path) : c ∈ u.text := by
  refine List.mem_append_right _ (List.mem_append_right _ ?_)
  rcases among with host | uri
  · exact List.mem_append_left _ host
  · exact List.mem_append_right _ (List.mem_append_right _ (List.mem_append_right _ uri))

/-- `http_request_init` of a well-formed URL. -/
theorem httpRequestInit_represents (nodes : N₀.Fresh) (bytes : h₀.Fresh)
    (there : Literals h₀ literal) {u : Url} {url : Addr} {rest : Bytes} (short : u.port.length < 8)
    (plain : 0 ∉ u.text) (cell : h₀.cells url = some (u.text ++ 0 :: rest)) {meth : Meth}
    {name : Bytes} (named : getMETH meth.toInt = some name) :
    ∃ req h, httpRequestInit literal meth url ⟨N₀, h₀⟩ = .ok (some req, h) ∧
      Represents N₀ h₀ h req (.begun u name) := by
  have no_colon : colon ∉ u.scheme.text := by cases u.scheme <;> decide
  have found : strstr schemeEnd u.text = some (schemeEnd ++ u.hostText) :=
    strstr_append (List.prefix_append _ _) (not_prefix_of_not_mem no_colon)
  have front : (u.text.length : Int) - (schemeEnd ++ u.hostText).length = u.scheme.text.length := by
    have whole : u.text.length = u.scheme.text.length + (schemeEnd ++ u.hostText).length :=
      List.length_append
    omega
  have sch : cmpNScheme u.text (toInt32 u.scheme.text.length) = _ := cmpNScheme_text u.scheme _
  have found' : strstr [colon] u.hostText = some ([colon] ++ u.portText) :=
    strstr_append (List.prefix_append _ _) (not_prefix_of_not_mem u.host_plain.1)
  have host : u.hostText.take (u.hostText.length - ([colon] ++ u.portText).length) = u.host := by
    rw [Url.hostText, List.length_append, Nat.add_sub_cancel, List.take_left]
  have port := u.copyTillToInt_port
  rw [if_neg (Nat.not_le.mpr short)] at port
  let b₁ := h₀.push (u.host ++ [0])
  let b₂ := b₁.push (slash :: u.path ++ [0])
  let req : HttpRequest := { HttpRequest.zero with
    meth := literalConst literal name
    scheme := literalConst literal u.scheme.text
    host := .heap h₀.brk u.host.length
    uri := .heap b₁.brk (slash :: u.path).length
    port := ((decimalValue u.port : Int) % 2 ^ 16).toNat
    isCipher := if u.scheme = .https then 1 else 0
    pSetHandler := some .defaultSetPayloadHandler
    pAddHandler := some .defaultAddPayloadHandler }
  have step₁ : onBytes (stringAt url) ⟨N₀, h₀⟩ = .ok (u.text, ⟨N₀, h₀⟩) :=
    onBytes_ok (stringAt_eq cell plain)
  have step₂ : lift (pConst (getMETH meth.toInt)) (⟨N₀, h₀⟩ : MapHeap) = .ok (name, ⟨N₀, h₀⟩) := by
    rw [named]
    rfl
  have constant (s : Bytes) : onBytes (propertyCopy (literalConst literal s)) ⟨N₀, h₀⟩ =
      .ok (literalConst literal s, ⟨N₀, h₀⟩) := rfl
  have step₃ : lift (pConst (getScheme (if u.scheme = .https then 1 else 0)))
      (⟨N₀, h₀⟩ : MapHeap) = .ok (u.scheme.text, ⟨N₀, h₀⟩) := by
    rw [getScheme_index]
    rfl
  have step₄ : onBytes (alloc (u.host ++ [0])) ⟨N₀, h₀⟩ = .ok (h₀.brk, ⟨N₀, b₁⟩) := rfl
  have step₅ : lift (copyTillToInt u.portText [slash]) (⟨N₀, b₁⟩ : MapHeap) =
      .ok (some (decimalValue u.port, u.path), ⟨N₀, b₁⟩) := by
    rw [port]
    rfl
  have step₆ : onBytes (alloc (slash :: u.path ++ [0])) ⟨N₀, b₁⟩ = .ok (b₁.brk, ⟨N₀, b₂⟩) := rfl
  refine ⟨req, ⟨N₀, b₂⟩, ?_, ?_⟩
  · rw [httpRequestInit, bind_of_ok step₁, bind_of_ok step₂, bind_of_ok (constant name), found]
    dsimp only
    rw [front, sch, bind_of_ok step₃, bind_of_ok (constant u.scheme.text), List.drop_left, found']
    dsimp only
    rw [host, bind_of_ok step₄, show ([colon] ++ u.portText).drop 1 = u.portText from rfl,
      bind_of_ok step₅]
    dsimp only
    rw [bind_of_ok step₆]
    rfl
  · have kept₂ : ∀ a x, b₁.cells a = some x → b₂.cells a = some x := fun a x cell =>
      (bytes.push _).push_cells cell _
    have kept : ∀ a x, h₀.cells a = some x → b₂.cells a = some x := fun a x cell =>
      kept₂ a x (bytes.push_cells cell _)
    have meth_known : name ∈ literals := by
      cases meth <;> cases named <;> decide
    have scheme_known : ∀ s : Scheme, s.text ∈ literals := by
      intro s
      cases s <;> decide
    have plain_host : 0 ∉ u.host := fun among => plain (mem_text (.inl among))
    have plain_uri : 0 ∉ slash :: u.path := fun among => plain (mem_text (.inr among))
    have small := u.port_le
    have grown : Grown h₀ b₂ [b₁.brk, h₀.brk] := ((Grown.refl bytes).push _).push _
    refine ⟨[], [], [], ?_⟩
    exact {
      shows := {
        meth := (shown_literal there meth_known).mono kept
        scheme := (shown_literal there (scheme_known u.scheme)).mono kept
        host := ⟨(shown_push plain_host _ _).mono kept₂, rfl, rfl⟩
        uri := ⟨shown_push plain_uri _ _, rfl, rfl⟩
        payload := rfl
        contentValue := rfl
        contentKey := rfl
        port := by
          change ((decimalValue u.port : Int) % 2 ^ 16).toNat = decimalValue u.port
          omega
        isCipher := rfl
        isCorrupt := rfl
        isChunked := rfl }
      header := ⟨rfl, List.forall_mem_nil _⟩
      query := ⟨rfl, List.forall_mem_nil _⟩
      headerKeeps := List.forall_mem_nil _
      queryKeeps := List.forall_mem_nil _
      nodes := .refl nodes
      blocks := grown.perm (.swap _ _ _)
      headerEntries := rfl
      queryEntries := rfl
      count := rfl }

/-- `http_request_close` releases all that a request holds. -/
theorem Represents.close (represents : Represents N₀ h₀ h req m) :
    ∃ h' lost, httpRequestClose req h = .ok (.zero, h') ∧ Grown N₀ h'.nodes [] ∧
      Grown h₀ h'.bytes lost ∧ lost.length = m.lost := by
  obtain ⟨hdr, qry, lost, holds⟩ := represents
  have shows := holds.shows
  have blocks : Grown h₀ h.bytes (own req.meth ++ (own req.scheme ++ (own req.host ++
      (own req.uri ++ (own req.payload ++ (own req.contentValue ++ (own req.contentKey ++ lost) ++
        qry.flatMap Slot.owned ++ hdr.flatMap Slot.owned)))))) := by
    refine holds.blocks.perm (List.perm_iff_count.mpr fun a => ?_)
    simp only [HttpRequest.texts, List.count_append]
    omega
  obtain ⟨b₁, free₁, grown₁⟩ := propertyFree_own shows.meth.keyed blocks
  obtain ⟨b₂, free₂, grown₂⟩ := propertyFree_own shows.scheme.keyed grown₁
  obtain ⟨b₃, free₃, grown₃⟩ := propertyFree_own shows.host.keyed grown₂
  obtain ⟨b₄, free₄, grown₄⟩ := propertyFree_own shows.uri.keyed grown₃
  obtain ⟨b₅, free₅, grown₅⟩ := propertyFree_own shows.payload.keyed grown₄
  -- the maps need their nodes and what these own, but not their texts
  obtain ⟨rc, h₆, clear₆, nodes₆, grown₆, same⟩ := clear_beside (h := ⟨h.nodes, b₅⟩) holds.header
    (fun s among => (holds.headerKeeps s among).values) holds.nodes grown₅
  have nodes : Grown N₀ h₆.nodes ([] ++ qry.map Slot.addr) := nodes₆
  obtain ⟨rc', h₇, clear₇, nodes₇, grown₇, -⟩ := clear_beside (holds.query.same same)
    (fun s among => (holds.queryKeeps s among).values) nodes grown₆
  obtain ⟨b₈, free₈, grown₈⟩ := propertyFree_own shows.contentValue.keyed grown₇
  obtain ⟨b₉, free₉, grown₉⟩ := propertyFree_own shows.contentKey.keyed grown₈
  refine ⟨⟨h₇.nodes, b₉⟩, lost, ?_, nodes₇, grown₉, holds.count⟩
  have end₈ : onBytes (propertyFree req.contentValue) h₇ = .ok (.init, ⟨h₇.nodes, b₈⟩) :=
    onBytes_ok free₈
  have end₉ : onBytes (propertyFree req.contentKey) ⟨h₇.nodes, b₈⟩ = .ok (.init, ⟨h₇.nodes, b₉⟩) :=
    onBytes_ok free₉
  rw [httpRequestClose, bind_of_ok (onBytes_ok free₁), bind_of_ok (onBytes_ok free₂),
    bind_of_ok (onBytes_ok free₃), bind_of_ok (onBytes_ok free₄), bind_of_ok (onBytes_ok free₅),
    bind_of_ok clear₆, bind_of_ok clear₇, bind_of_ok end₈, bind_of_ok end₉]
  rfl

/-- Calls one after the other: what they return, and the request. -/
def requestCalls (literal : Bytes → Addr) :
    HttpRequest → List Call → Prog MapHeap (List Int × HttpRequest)
  | req, [] => return ([], req)
  | req, c :: cs => do
      let (rc, req) ← c.run literal req
      let (rcs, req) ← requestCalls literal req cs
      return (rc :: rcs, req)

/-- What is meant by them. -/
def callsMeant : Meaning → List Call → List Int × Meaning
  | m, [] => ([], m)
  | m, c :: cs =>
      let rest := callsMeant (c.meant m).2 cs
      ((c.meant m).1 :: rest.1, rest.2)

theorem requestCalls_represents (there : Literals h₀ literal) {cs : List Call}
    (represents : Represents N₀ h₀ h req m) (given : ∀ c ∈ cs, c.Given h₀) :
    ∃ req' h', requestCalls literal req cs h = .ok (((callsMeant m cs).1, req'), h') ∧
      Represents N₀ h₀ h' req' (callsMeant m cs).2 := by
  induction cs generalizing h req m with
  | nil => exact ⟨req, h, rfl, represents⟩
  | cons c cs ih =>
      obtain ⟨req₁, h₁, run, represents₁⟩ := represents.call there (given c List.mem_cons_self)
      obtain ⟨req', h', rest, represents'⟩ :=
        ih represents₁ fun d among => given d (List.mem_cons_of_mem c among)
      refine ⟨req', h', ?_, represents'⟩
      rw [requestCalls, bind_of_ok run]
      dsimp only
      rw [bind_of_ok rest]
      rfl

/-- A new request, and calls on it. -/
def newRequest (literal : Bytes → Addr) (meth : Meth) (url : Addr) (cs : List Call) :
    Prog MapHeap (Option (List Int × HttpRequest)) := do
  match ← httpRequestInit literal meth url with
  | none => return none
  | some req => return some (← requestCalls literal req cs)

/-- The map from `root` on has these entries, in their order. -/
def Lists (h : MapHeap) (root : Option Addr) (entries : List Entry) : Prop :=
  ∃ slots, MapNodes h.nodes root slots ∧ (∀ s ∈ slots, s.Keeps h.bytes) ∧
    slots.map Slot.entry = entries

/-- From `http_request_init` of a well-formed URL on, any calls return what is meant by them, and
the request then has the texts, the headers and the query that are meant, in their order. When it is
closed, its nodes are gone, and of all blocks that were made only those are left that were lost with
a header value, a content type or a payload that was replaced. -/
theorem requestCalls_meant (nodes : N₀.Fresh) (bytes : h₀.Fresh) (there : Literals h₀ literal)
    {u : Url} {url : Addr} {rest : Bytes} (short : u.port.length < 8) (plain : 0 ∉ u.text)
    (cell : h₀.cells url = some (u.text ++ 0 :: rest)) {meth : Meth} {name : Bytes}
    (named : getMETH meth.toInt = some name) (cs : List Call) (given : ∀ c ∈ cs, c.Given h₀) :
    ∃ req h, newRequest literal meth url cs ⟨N₀, h₀⟩ =
        .ok (some ((callsMeant (.begun u name) cs).1, req), h) ∧
      Shows h.bytes req (callsMeant (.begun u name) cs).2 ∧
      Lists h req.header (callsMeant (.begun u name) cs).2.header ∧
      Lists h req.query (callsMeant (.begun u name) cs).2.query ∧
      ∃ h' lost, httpRequestClose req h = .ok (.zero, h') ∧ Grown N₀ h'.nodes [] ∧
        Grown h₀ h'.bytes lost ∧ lost.length = (callsMeant (.begun u name) cs).2.lost := by
  obtain ⟨req₁, h₁, begun, represents₁⟩ :=
    httpRequestInit_represents nodes bytes there short plain cell named
  obtain ⟨req, h, run, represents⟩ := requestCalls_represents there represents₁ given
  obtain ⟨hdr, qry, lost, holds⟩ := represents
  refine ⟨req, h, ?_, holds.shows, ⟨hdr, holds.header, holds.headerKeeps, holds.headerEntries⟩,
    ⟨qry, holds.query, holds.queryKeeps, holds.queryEntries⟩,
    Represents.close ⟨hdr, qry, lost, holds⟩⟩
  rw [newRequest, bind_of_ok begun]
  dsimp only
  rw [bind_of_ok run]
  rfl

end

/-- `http://h:80/` -/
def bareUrl : Url where
  scheme := .http
  host := [0x68]
  port := [0x38, 0x30]
  path := []
  host_nonempty := by decide
  host_plain := by decide
  port_nonempty := by decide
  port_digits := List.forall_mem_cons.mpr ⟨by decide, List.forall_mem_singleton.mpr (by decide)⟩
  port_le := by decide

/-- The URL, and the literals behind it. -/
def literalHeap : Heap Bytes where
  cells
    | 0 => some (bareUrl.text ++ [0])
    | a + 1 => literals[a]?.map (· ++ [0])
  brk := literals.length + 1

/-- Where each literal is. -/
def literalAt (s : Bytes) : Addr := literals.idxOf s + 1

theorem literals_literalAt : Literals literalHeap literalAt := fun _ among =>
  ⟨[], congrArg (Option.map (· ++ [0])) (List.getElem?_idxOf among)⟩

/-- A header is refused once and then gets another value, and so does the payload: two blocks are
lost. -/
theorem requestCalls_meant_lost :
    ∃ req h, newRequest literalAt .get 0
        [.addHeader ⟨literalConst literalAt contentTypeText, contentTypeText⟩
            ⟨.stack (literalAt httpText) 4, httpText⟩ false,
          .addHeader ⟨literalConst literalAt contentTypeText, contentTypeText⟩
            ⟨.stack (literalAt httpText) 4, httpText⟩ true,
          .setHeader ⟨literalConst literalAt contentTypeText, contentTypeText⟩
            ⟨literalConst literalAt httpsText, httpsText⟩,
          .setPayload (.heap [0x7B, 0x7D]),
          .findHeader ⟨.stack (literalAt httpText) 4, httpText⟩,
          .setPayload (.lent ⟨literalConst literalAt httpText, httpText⟩)]
        ⟨⟨fun _ => none, 0⟩, literalHeap⟩ = .ok (some ([0, 0, 0, 0, -1, 0], req), h) ∧
      Lists h req.header [⟨contentTypeText, httpsText, false, false⟩] ∧
      ∃ h' lost, httpRequestClose req h = .ok (.zero, h') ∧ Grown literalHeap h'.bytes lost ∧
        lost.length = 2 := by
  have there := literals_literalAt
  have fresh : literalHeap.Fresh := by
    intro a beyond
    cases a with
    | zero => exact absurd beyond (by decide)
    | succ a =>
        exact congrArg (Option.map (· ++ [0]))
          (List.getElem?_eq_none (Nat.le_of_succ_le_succ beyond))
  have constant : ∀ s ∈ literals, Arg.Given literalHeap ⟨literalConst literalAt s, s⟩ :=
    fun s among => ⟨⟨.inl rfl, nofun⟩, (shown_literal there among).1⟩
  have block : ∀ s ∈ literals, ∃ rest, literalHeap.cells (literalAt s) = some (s ++ 0 :: rest) :=
    there
  obtain ⟨http, https, contentType⟩ : httpText ∈ literals ∧ httpsText ∈ literals ∧
      contentTypeText ∈ literals := by decide
  obtain ⟨rest, cell⟩ := block httpText http
  obtain ⟨rest', cell'⟩ := block contentTypeText contentType
  have stack : Arg.Given literalHeap ⟨.stack (literalAt httpText) 4, httpText⟩ :=
    ⟨⟨.inr (.inr rfl), nofun⟩, by decide, literalAt httpText, 0 :: rest, rfl, cell, rfl⟩
  have read : Arg.Read literalHeap ⟨.stack (literalAt httpText) 4, httpText⟩ :=
    ⟨by decide, literalAt httpText, rest, rfl, cell⟩
  have key : Arg.Read literalHeap ⟨literalConst literalAt contentTypeText, contentTypeText⟩ :=
    ⟨by decide, literalAt contentTypeText, rest', rfl, cell'⟩
  have empty : (⟨fun _ => none, 0⟩ : Heap PropertyMap).Fresh := fun _ _ => rfl
  have short : bareUrl.port.length < 8 := by decide
  have plain : 0 ∉ bareUrl.text := by decide
  have url : literalHeap.cells 0 = some (bareUrl.text ++ 0 :: []) := rfl
  have named : getMETH Meth.get.toInt = some [0x47, 0x45, 0x54] := rfl
  obtain ⟨req, h, run, -, header, -, h', lost, close, -, grown, count⟩ :=
    requestCalls_meant empty fresh there short plain url named
      [.addHeader _ _ false, .addHeader _ _ true, .setHeader _ _, .setPayload (.heap [0x7B, 0x7D]),
        .findHeader _, .setPayload (.lent _)]
      (List.forall_mem_cons.mpr ⟨⟨constant _ contentType, stack⟩,
        List.forall_mem_cons.mpr ⟨⟨constant _ contentType, stack⟩,
        List.forall_mem_cons.mpr ⟨⟨key, constant _ https⟩,
        List.forall_mem_cons.mpr ⟨show 0 ∉ _ by decide,
        List.forall_mem_cons.mpr ⟨read,
        List.forall_mem_singleton.mpr ⟨constant _ http, rfl⟩⟩⟩⟩⟩⟩)
  exact ⟨req, h, run, header, h', lost, close, grown, count⟩

end AcnSdk.Http.Memory
