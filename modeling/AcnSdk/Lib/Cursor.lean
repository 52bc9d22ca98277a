/-
Cursors into a block.

A writer puts items to a block one behind the other, and a reader takes them one behind the
other. Both are a fault past the end of the block. A reader also knows where the data ends, which
need not be where the block ends.

* `Writes p s` — `p` puts exactly `s`, and is a fault if the block has no room for it.
* `Reads p s b` — where `s` comes next, `p` takes exactly `s` and makes `b` of it.
* `Writes.bind`, `Writes.forM`, `Reads.bind` — both are composed along `++`.
* `untilEnd_reads` — a loop that reads items to the end of the data.
-/

import AcnSdk.Lib.Memory

namespace AcnSdk.Lib

variable {α β γ : Type}

/-! ### Writers -/

/-- A block, and where the next item is put. -/
structure Out (α : Type) where
  block : List α
  ptr : Nat
  within : ptr ≤ block.length

/-- The front of a block. -/
def Out.front (block : List α) : Out α := ⟨block, 0, Nat.zero_le _⟩

/-- The items were put. -/
def Out.after (o : Out α) (s : List α) (fits : o.ptr + s.length ≤ o.block.length) : Out α where
  block := store o.block o.ptr s
  ptr := o.ptr + s.length
  within := by rwa [length_store fits]

/-- Items are put, and the cursor is behind them. -/
def put (s : List α) : Prog (Out α) Unit := do
  let o ← get
  if fits : o.ptr + s.length ≤ o.block.length then set (o.after s fits) else throw .overflow

/-- The program puts these items. -/
def Writes (p : Prog (Out α) Unit) (s : List α) : Prop :=
  ∀ o, p o =
    if fits : o.ptr + s.length ≤ o.block.length then .ok ((), o.after s fits)
    else .error .overflow

/-- Items put behind items. -/
theorem store_append {l s t : List α} {i : Nat} (fits : i + s.length ≤ l.length) :
    store (store l i s) (i + s.length) t = store l i (s ++ t) := by
  have front : (l.take i ++ s).length = i + s.length := by
    rw [List.length_append, List.length_take]
    omega
  rw [store, store, List.take_left' front, List.drop_append, front,
    List.drop_eq_nil_of_le (by omega), List.nil_append, List.drop_drop, store, List.length_append]
  simp only [List.append_assoc]
  congr 4
  omega

theorem writes_put (s : List α) : Writes (put s) s := by
  intro o
  rw [put, Prog.bind_of_ok (Prog.get_apply o)]
  split_ifs <;> rfl

theorem writes_nothing : Writes (pure () : Prog (Out α) Unit) [] := by
  intro o
  have same : store o.block o.ptr [] = o.block := by simp [store]
  rw [dif_pos (show o.ptr + ([] : List α).length ≤ o.block.length from o.within)]
  obtain ⟨block, ptr, within⟩ := o
  simp only [Prog.pure_apply, Out.after, List.length_nil, Nat.add_zero, same]

theorem Writes.bind {p : Prog (Out α) Unit} {q : Unit → Prog (Out α) Unit} {s t : List α}
    (first : Writes p s) (next : Writes (q ()) t) : Writes (p >>= q) (s ++ t) := by
  intro o
  rw [Prog.bind_apply, first o]
  by_cases fits : o.ptr + s.length ≤ o.block.length
  · have block : (o.after s fits).block.length = o.block.length := length_store fits
    have ptr : (o.after s fits).ptr = o.ptr + s.length := rfl
    rw [dif_pos fits, Prog.ok_bind, next]
    by_cases whole : o.ptr + (s ++ t).length ≤ o.block.length
    · rw [dif_pos whole, dif_pos (by rwa [block, ptr, Nat.add_assoc, ← List.length_append])]
      simp only [Out.after, store_append fits, List.length_append, Nat.add_assoc]
    · rw [dif_neg whole, dif_neg (by rwa [block, ptr, Nat.add_assoc, ← List.length_append])]
  · rw [dif_neg fits, dif_neg (by rw [List.length_append]; omega)]
    rfl

/-- A writer for each item of a list. -/
theorem Writes.forM {write : β → Prog (Out α) Unit} {bytes : β → List α}
    (one : ∀ b, Writes (write b) (bytes b)) :
    ∀ l : List β, Writes (l.forM write) (l.flatMap bytes)
  | [] => writes_nothing
  | b :: l => by
      exact (one b).bind (Writes.forM one l)

/-- A writer that may be left out. -/
def putIf (c : Prop) [Decidable c] (p : Prog (Out α) Unit) : Prog (Out α) Unit :=
  if c then p else pure ()

theorem Writes.putIf {p : Prog (Out α) Unit} {s : List α} (writes : Writes p s) (c : Prop)
    [Decidable c] : Writes (putIf c p) (if c then s else []) := by
  rw [Lib.putIf]
  split_ifs
  · exact writes
  · exact writes_nothing

/-- What is at the front of the block then. -/
theorem Writes.front {p : Prog (Out α) Unit} {s : List α} (writes : Writes p s) {block : List α}
    (fits : s.length ≤ block.length) :
    ∃ o, p (.front block) = .ok ((), o) ∧ o.ptr = s.length ∧
      o.block = s ++ block.drop s.length := by
  have room : (Out.front block).ptr + s.length ≤ (Out.front block).block.length := by
    rwa [Out.front, Nat.zero_add]
  refine ⟨_, (writes _).trans (dif_pos room), Nat.zero_add _, ?_⟩
  simp [Out.after, Out.front, store]

theorem Writes.front_overflow {p : Prog (Out α) Unit} {s : List α} (writes : Writes p s)
    {block : List α} (full : block.length < s.length) :
    p (.front block) = .error .overflow := by
  refine (writes _).trans (dif_neg ?_)
  change ¬ 0 + s.length ≤ block.length
  omega

/-! ### Readers -/

/-- A block, where the next item is taken, and where the data ends. -/
structure In (α : Type) where
  block : List α
  cur : Nat
  enddata : Nat
deriving DecidableEq, Repr

/-- The cursor is moved on. -/
def In.skip (i : In α) (n : Nat) : In α := { i with cur := i.cur + n }

@[simp] theorem In.skip_block (i : In α) (n : Nat) : (i.skip n).block = i.block := rfl

@[simp] theorem In.skip_cur (i : In α) (n : Nat) : (i.skip n).cur = i.cur + n := rfl

@[simp] theorem In.skip_enddata (i : In α) (n : Nat) : (i.skip n).enddata = i.enddata := rfl

theorem In.skip_skip (i : In α) (n m : Nat) : (i.skip n).skip m = i.skip (n + m) := by
  simp only [In.skip, Nat.add_assoc]

/-- The items come next, and the data does not end before them. -/
structure In.Next (i : In α) (s : List α) : Prop where
  ahead : s <+: i.block.drop i.cur
  inside : i.cur + s.length ≤ i.enddata

theorem In.Next.left {i : In α} {s t : List α} (next : i.Next (s ++ t)) : i.Next s := by
  obtain ⟨ahead, inside⟩ := next
  rw [List.length_append] at inside
  exact ⟨(List.prefix_append s t).trans ahead, by omega⟩

theorem In.Next.right {i : In α} {s t : List α} (next : i.Next (s ++ t)) :
    (i.skip s.length).Next t := by
  obtain ⟨⟨rest, ahead⟩, inside⟩ := next
  rw [List.length_append] at inside
  refine ⟨⟨rest, ?_⟩, by rw [In.skip_cur, In.skip_enddata]; omega⟩
  rw [In.skip_block, In.skip_cur, ← List.drop_drop, ← ahead, List.append_assoc, List.drop_left]

/-- `n` items are taken. -/
def takeItems (n : Nat) : Prog (In α) (List α) := do
  let i ← get
  let s ← Prog.lift (copyFrom i.block i.cur n)
  set (i.skip n)
  return s

/-- The program takes these items and makes this of them. -/
def Reads (p : Prog (In α) β) (s : List α) (b : β) : Prop :=
  ∀ i, i.Next s → p i = .ok (b, i.skip s.length)

theorem In.Next.fits {i : In α} {s : List α} (next : i.Next s) (pos : 0 < s.length) :
    i.cur + s.length ≤ i.block.length := by
  have := next.ahead.length_le
  rw [List.length_drop] at this
  omega

theorem In.Next.taken {i : In α} {s : List α} (next : i.Next s) :
    (i.block.drop i.cur).take s.length = s := (List.prefix_iff_eq_take.mp next.ahead).symm

theorem takeItems_next {i : In α} {s : List α} (next : i.Next s) (within : i.cur ≤ i.block.length) :
    takeItems s.length i = .ok (s, i.skip s.length) := by
  have fits : i.cur + s.length ≤ i.block.length := by
    have := next.ahead.length_le
    rw [List.length_drop] at this
    omega
  rw [takeItems, Prog.bind_of_ok (Prog.get_apply i), copyFrom_eq fits, next.taken]
  rfl

theorem reads_takeItems {s : List α} (pos : 0 < s.length) : Reads (takeItems s.length) s s :=
  fun i next => takeItems_next next (by have := next.fits pos; omega)

theorem reads_nothing (b : β) : Reads (α := α) (pure b) [] b := fun _ _ => rfl

theorem Reads.bind {p : Prog (In α) β} {q : β → Prog (In α) γ} {s t : List α} {b : β} {c : γ}
    (first : Reads p s b) (next : Reads (q b) t c) : Reads (p >>= q) (s ++ t) c := by
  intro i ahead
  rw [Prog.bind_of_ok (first i ahead.left), next _ ahead.right, In.skip_skip, List.length_append]

/-- Nothing is read behind. -/
theorem Reads.last {p : Prog (In α) β} {q : β → Prog (In α) γ} {s : List α} {b : β} {c : γ}
    (reads : Reads p s b) (done : q b = pure c) : Reads (p >>= q) s c := by
  intro i next
  rw [Prog.bind_of_ok (reads i next), done]
  rfl

/-! ### Reading to the end of the data -/

/-- Where these items are all that is left of the data, the program makes this of them. -/
def Finishes (p : Prog (In α) β) (s : List α) (b : β) : Prop :=
  ∀ i, i.Next s → i.cur + s.length = i.enddata → ∃ i', p i = .ok (b, i')

theorem Reads.bind_finishes {p : Prog (In α) β} {q : β → Prog (In α) γ} {s t : List α} {b : β}
    {c : γ} (first : Reads p s b) (rest : Finishes (q b) t c) : Finishes (p >>= q) (s ++ t) c := by
  intro i next last
  rw [List.length_append] at last
  obtain ⟨i', run⟩ := rest _ next.right (by rw [In.skip_cur, In.skip_enddata]; omega)
  exact ⟨i', by rw [Prog.bind_of_ok (first i next.left), run]⟩

/-- Items are read to the end of the data, for an array that has room for `capacity` of them. -/
def untilEnd (capacity : Nat) (item : Prog (In α) (Option β)) :
    Nat → List β → Prog (In α) (Option (List β))
  | 0, _ => throw .endless
  | fuel + 1, done => do
      let i ← get
      if i.cur < i.enddata then
        if done.length < capacity then do
          match ← item with
          | none => return none
          | some b => untilEnd capacity item fuel (done ++ [b])
        else throw .overflow
      else return some done

section UntilEnd

variable {item : Prog (In α) (Option β)} {encode : γ → List α} {value : γ → β} {capacity : Nat}

/-- The loop reads items that fill the rest of the data. -/
theorem untilEnd_reads {l : List γ} (reads : ∀ c ∈ l, Reads item (encode c) (some (value c)))
    (pos : ∀ c ∈ l, 0 < (encode c).length) {fuel : Nat} {done : List β} {i : In α}
    (next : i.Next (l.flatMap encode)) (last : i.cur + (l.flatMap encode).length = i.enddata)
    (room : done.length + l.length ≤ capacity) (enough : l.length < fuel) :
    untilEnd capacity item fuel done i =
      .ok (some (done ++ l.map value), i.skip (l.flatMap encode).length) := by
  have some_fuel := Nat.exists_eq_succ_of_ne_zero
      (Nat.ne_of_gt (Nat.lt_of_le_of_lt (Nat.zero_le _) enough))
  induction l generalizing fuel done i with
  | nil =>
      obtain ⟨fuel, rfl⟩ := some_fuel
      have stop : ¬ i.cur < i.enddata := by
        rw [List.flatMap_nil, List.length_nil, Nat.add_zero] at last
        omega
      rw [untilEnd, Prog.bind_of_ok (Prog.get_apply i), if_neg stop, List.map_nil, List.append_nil]
      rfl
  | cons c l ih =>
      obtain ⟨fuel, rfl⟩ := some_fuel
      rw [List.flatMap_cons] at next last ⊢
      rw [List.length_cons] at room enough
      have some_left := pos c List.mem_cons_self
      rw [List.length_append] at last
      have more : i.cur < i.enddata := by omega
      have here : done.length < capacity := by omega
      rw [untilEnd, Prog.bind_of_ok (Prog.get_apply i), if_pos more, if_pos here,
        Prog.bind_of_ok (reads c List.mem_cons_self i next.left)]
      dsimp only
      rw [ih (fun b there => reads b (List.mem_cons_of_mem _ there))
        (fun b there => pos b (List.mem_cons_of_mem _ there)) next.right
        (by rw [In.skip_cur, In.skip_enddata]; omega)
        (by rw [List.length_append, List.length_singleton]; omega) (by omega)
        (Nat.exists_eq_succ_of_ne_zero (by omega)),
        In.skip_skip, List.length_append, List.append_assoc, List.singleton_append, List.map_cons]

/-- There are no more items than what they take. -/
theorem length_le_flatMap {l : List γ} (pos : ∀ c ∈ l, 0 < (encode c).length) :
    l.length ≤ (l.flatMap encode).length := by
  induction l with
  | nil => exact Nat.le_refl 0
  | cons c l ih =>
      have := pos c List.mem_cons_self
      have := ih fun b there => pos b (List.mem_cons_of_mem _ there)
      rw [List.flatMap_cons, List.length_append, List.length_cons]
      omega

end UntilEnd

end AcnSdk.Lib
