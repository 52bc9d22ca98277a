/-
The streaming decoder as a stack machine.

A `Stack` is what the chain of parse machines stands for: the mode of the last
machine and, from the inside out, the open containers of the machines before it.
A machine that is complete but not yet deleted stands for nothing: its tree is in
its parent already. `Stack.step` is what one byte does, `none` being a rejection.

`Stack.step_cases` says once what an accepted byte can do. `Represents` says when
the machines on the heap stand for a stack.
-/

import AcnSdk.Json.Decode

namespace AcnSdk.Json

open AcnSdk.Lib AcnSdk.Data Ascii

/-! ### The stack machine -/

/-- The states inside `true` and `false`. -/
inductive Literal where
  | falseA | falseL | falseS | falseE | trueR | trueU | trueE
deriving DecidableEq, Repr

namespace Literal

/-- The character a state waits for. -/
def sym : Literal → Byte
  | falseA => 0x61
  | falseL => 0x6C
  | falseS => 0x73
  | falseE => 0x65
  | trueR => 0x72
  | trueU => 0x75
  | trueE => 0x65

/-- The state after that character, or the value. -/
def next : Literal → Literal ⊕ Bool
  | falseA => .inl falseL
  | falseL => .inl falseS
  | falseS => .inl falseE
  | falseE => .inr false
  | trueR => .inl trueU
  | trueU => .inl trueE
  | trueE => .inr true

/-- The function of a state. -/
def fn : Literal → JpmFn
  | falseA => .boolFalseA
  | falseL => .boolFalseL
  | falseS => .boolFalseS
  | falseE => .boolFalseE
  | trueR => .boolTrueR
  | trueU => .boolTrueU
  | trueE => .boolTrueE

end Literal

variable {ν : Type}

/-- The last machine of a chain: its state with the data that the state has. -/
inductive Mode (ν : Type) where
  | valueInit (key : Option Bytes)
  | valueEnd (key : Option Bytes) (node : JsonNode ν)
  | stringBody (key : Option Bytes) (buffer : Bytes)
  | stringEscape (key : Option Bytes) (buffer : Bytes)
  | numberBody (key : Option Bytes) (buffer : Bytes)
  | literal (key : Option Bytes) (state : Literal)
  | keyInit
  | keyBody (buffer : Bytes)
  | keyEnd (key : Bytes)

/-- A machine with a machine after it: its key and its container so far. -/
structure Open (ν : Type) where
  key : Option Bytes
  kind : Container
  children : List (JsonNode ν)

namespace Open

/-- The container so far. -/
def node (o : Open ν) : JsonNode ν := .container none o.kind o.children

/-- The container with one more child. -/
def attach (o : Open ν) (key : Option Bytes) (node : JsonNode ν) : Open ν :=
  { o with children := o.children ++ [match o.kind with
      | .array => node
      | .object => node.withKey key] }

/-- The state in which the next child starts. -/
def childMode (o : Open ν) : Mode ν :=
  match o.kind with
  | .array => .valueInit none
  | .object => .keyInit

end Open

structure Stack (ν : Type) where
  mode : Mode ν
  below : List (Open ν)

namespace Stack

/-- The stack of a decoder just initialised. -/
def init : Stack ν := ⟨.valueInit none, []⟩

/-- A byte after a value. -/
def stepValueEnd (key : Option Bytes) (node : JsonNode ν) (below : List (Open ν)) (byte : Byte) :
    Option (Stack ν) :=
  if isSpace byte then some ⟨.valueEnd key node, below⟩
  else
    match below with
    | [] => none
    | o :: below =>
        if byte = rbrace ∨ byte = rbrack then
          some ⟨.valueEnd o.key (o.attach key node).node, below⟩
        else if byte = comma then some ⟨o.childMode, o.attach key node :: below⟩
        else none

variable (libc : Libc ν)

/-- A byte inside a number. -/
def stepNumberBody (key : Option Bytes) (buffer : Bytes) (below : List (Open ν)) (byte : Byte) :
    Option (Stack ν) :=
  if isDigit byte || byte == dot then some ⟨.numberBody key (buffer ++ [byte]), below⟩
  else stepValueEnd key (.scalar none (.number (libc.strtod (cstr buffer)))) below byte

/-- A byte before a value. -/
def stepValueInit (key : Option Bytes) (below : List (Open ν)) (byte : Byte) : Option (Stack ν) :=
  if isSpace byte then some ⟨.valueInit key, below⟩
  else if byte = lbrace then some ⟨.keyInit, ⟨key, .object, []⟩ :: below⟩
  else if byte = dquote then some ⟨.stringBody key [], below⟩
  else if byte = 0x66 then some ⟨.literal key .falseA, below⟩
  else if byte = 0x74 then some ⟨.literal key .trueR, below⟩
  else if byte = lbrack then some ⟨.valueInit none, ⟨key, .array, []⟩ :: below⟩
  else stepNumberBody libc key [] below byte

/-- What one byte does. -/
def step (st : Stack ν) (byte : Byte) : Option (Stack ν) :=
  match st.mode with
  | .valueInit key => stepValueInit libc key st.below byte
  | .valueEnd key node => stepValueEnd key node st.below byte
  | .stringBody key buffer =>
      if byte = bslash then some ⟨.stringEscape key buffer, st.below⟩
      else if byte = dquote then
        some ⟨.valueEnd key (.scalar none (.string (cstr buffer))), st.below⟩
      else some ⟨.stringBody key (buffer ++ [byte]), st.below⟩
  | .stringEscape key buffer => some ⟨.stringBody key (buffer ++ [escapeByte byte]), st.below⟩
  | .numberBody key buffer => stepNumberBody libc key buffer st.below byte
  | .literal key state =>
      if byte = state.sym then
        match state.next with
        | .inl state => some ⟨.literal key state, st.below⟩
        | .inr b => some ⟨.valueEnd key (.scalar none (.bool b)), st.below⟩
      else none
  | .keyInit =>
      if isSpace byte then some st
      else if byte = dquote then some ⟨.keyBody [], st.below⟩
      else none
  | .keyBody buffer =>
      if byte = dquote then some ⟨.keyEnd (cstr buffer), st.below⟩
      else some ⟨.keyBody (buffer ++ [byte]), st.below⟩
  | .keyEnd key =>
      if isSpace byte then some st
      else if byte = colon then some ⟨.valueInit (some key), st.below⟩
      else none

/-- What a sequence of bytes does. -/
def run (st : Stack ν) : Bytes → Option (Stack ν)
  | [] => some st
  | byte :: rest => (step libc st byte).bind fun st => run st rest

@[simp] theorem run_nil (st : Stack ν) : run libc st [] = some st := rfl

theorem run_cons (st : Stack ν) (byte : Byte) (rest : Bytes) :
    run libc st (byte :: rest) = (step libc st byte).bind fun st => run libc st rest := rfl

theorem run_append (st : Stack ν) (s t : Bytes) :
    run libc st (s ++ t) = (run libc st s).bind fun st => run libc st t := by
  induction s generalizing st with
  | nil => rfl
  | cons byte s ih =>
      rw [List.cons_append, run_cons, run_cons, Option.bind_assoc]
      congr 1
      funext st
      exact ih st

/-- The tree that `json_decode_finish` returns: that of the first machine. -/
def root (st : Stack ν) : Option (JsonNode ν) :=
  match st.below.getLast? with
  | some o => some o.node
  | none =>
      match st.mode with
      | .valueEnd _ node => some node
      | _ => none

end Stack

/-! ### What a byte can do -/

/-- The machine has a key, or is about to read one. -/
def Mode.keyed : Mode ν → Bool
  | .valueInit key => key.isSome
  | .valueEnd key _ => key.isSome
  | .stringBody key _ => key.isSome
  | .stringEscape key _ => key.isSome
  | .numberBody key _ => key.isSome
  | .literal key _ => key.isSome
  | .keyInit => true
  | .keyBody _ => true
  | .keyEnd _ => true

/-- The key of the value that a machine is reading, once it has been read. -/
def Mode.key? : Mode ν → Option (Option Bytes)
  | .valueInit key => some key
  | .valueEnd key _ => some key
  | .stringBody key _ => some key
  | .stringEscape key _ => some key
  | .numberBody key _ => some key
  | .literal key _ => some key
  | .keyInit => none
  | .keyBody _ => none
  | .keyEnd key => some (some key)

/-- A move inside one value and its key. -/
structure Inner (mode mode' : Mode ν) : Prop where
  keyed_eq : mode'.keyed = mode.keyed
  key_eq : ∀ key, mode.key? = some key → mode'.key? = some key
  value_eq : ∀ key node, mode = .valueEnd key node → mode' = mode

theorem Inner.rfl {mode : Mode ν} : Inner mode mode :=
  ⟨Eq.refl _, fun _ h => h, fun _ _ _ => Eq.refl _⟩

/-- The digits a machine has read, if it is at a number: an absent value is read as a
number without digits. -/
def Mode.Digits (mode : Mode ν) (key : Option Bytes) (buffer : Bytes) : Prop :=
  mode = .numberBody key buffer ∨ mode = .valueInit key ∧ buffer = []

/-- The machine has a whole value: a number ends with the byte after it. -/
def Mode.EndsWith (libc : Libc ν) (mode : Mode ν) (key : Option Bytes) (node : JsonNode ν) : Prop :=
  mode = .valueEnd key node ∨
    ∃ buffer, mode.Digits key buffer ∧ node = .scalar none (.number (libc.strtod (cstr buffer)))

/-- From a number the machine only goes on to more digits or to the end of the value. -/
theorem Mode.Digits.inner {mode mode' : Mode ν} {key : Option Bytes} {buffer : Bytes}
    (digits : mode.Digits key buffer) (keyed : mode'.keyed = key.isSome)
    (key? : mode'.key? = some key) : Inner mode mode' := by
  rcases digits with rfl | ⟨rfl, -⟩
  · refine ⟨keyed, ?_, fun _ _ h => by cases h⟩
    rintro _ ⟨⟩
    exact key?
  · refine ⟨keyed, ?_, fun _ _ h => by cases h⟩
    rintro _ ⟨⟩
    exact key?

namespace Stack

variable {libc : Libc ν}

/-- What an accepted byte can do: move inside a value, open a container, or end a
value and with it its container or go on to the next child. -/
def Moves (libc : Libc ν) (st st' : Stack ν) : Prop :=
  (∃ mode, st' = ⟨mode, st.below⟩ ∧ Inner st.mode mode) ∨
    (∃ key kind, st.mode = .valueInit key ∧
      st' = ⟨(Open.mk key kind []).childMode, ⟨key, kind, []⟩ :: st.below⟩) ∨
    ∃ key node o rest, st.mode.EndsWith libc key node ∧ st.below = o :: rest ∧
      (st' = ⟨.valueEnd o.key (o.attach key node).node, rest⟩ ∨
        st' = ⟨o.childMode, o.attach key node :: rest⟩)

theorem stepValueEnd_moves {mode : Mode ν} {key : Option Bytes} {node : JsonNode ν}
    {below : List (Open ν)} {byte : Byte} {st' : Stack ν} (ends : mode.EndsWith libc key node)
    (inner : Inner mode (.valueEnd key node))
    (step : stepValueEnd key node below byte = some st') : Moves libc ⟨mode, below⟩ st' := by
  rw [stepValueEnd.eq_def] at step
  split at step
  · cases step
    exact .inl ⟨_, rfl, inner⟩
  cases below with
  | nil => cases step
  | cons o rest =>
      simp only at step
      split at step
      · cases step
        exact .inr (.inr ⟨key, node, o, rest, ends, rfl, .inl rfl⟩)
      split at step
      · cases step
        exact .inr (.inr ⟨key, node, o, rest, ends, rfl, .inr rfl⟩)
      · cases step

theorem stepNumberBody_moves {mode : Mode ν} {key : Option Bytes} {buffer : Bytes}
    {below : List (Open ν)} {byte : Byte} {st' : Stack ν} (digits : mode.Digits key buffer)
    (step : stepNumberBody libc key buffer below byte = some st') :
    Moves libc ⟨mode, below⟩ st' := by
  unfold stepNumberBody at step
  split at step
  · cases step
    exact .inl ⟨_, rfl, digits.inner rfl rfl⟩
  · exact stepValueEnd_moves (.inr ⟨buffer, digits, rfl⟩) (digits.inner rfl rfl) step

theorem stepValueInit_moves {key : Option Bytes} {below : List (Open ν)} {byte : Byte}
    {st' : Stack ν} (step : stepValueInit libc key below byte = some st') :
    Moves libc ⟨.valueInit key, below⟩ st' := by
  have inner : ∀ mode : Mode ν, mode.keyed = key.isSome → mode.key? = some key →
      Inner (.valueInit key) mode :=
    fun mode => Mode.Digits.inner (.inr ⟨rfl, rfl⟩)
  unfold stepValueInit at step
  split at step
  · cases step
    exact .inl ⟨_, rfl, .rfl⟩
  split at step
  · cases step
    exact .inr (.inl ⟨key, .object, rfl, rfl⟩)
  split at step
  · cases step
    exact .inl ⟨_, rfl, inner _ rfl rfl⟩
  split at step
  · cases step
    exact .inl ⟨_, rfl, inner _ rfl rfl⟩
  split at step
  · cases step
    exact .inl ⟨_, rfl, inner _ rfl rfl⟩
  split at step
  · cases step
    exact .inr (.inl ⟨key, .array, rfl, rfl⟩)
  · exact stepNumberBody_moves (.inr ⟨rfl, rfl⟩) step

/-- One case for each kind of move. -/
theorem step_cases {st st' : Stack ν} {byte : Byte} (step : st.step libc byte = some st') :
    Moves libc st st' := by
  obtain ⟨mode, below⟩ := st
  cases mode with
  | valueInit key => exact stepValueInit_moves step
  | valueEnd key node => exact stepValueEnd_moves (.inl rfl) .rfl step
  | numberBody key buffer => exact stepNumberBody_moves (.inl rfl) step
  | stringBody key buffer =>
      simp only [Stack.step] at step
      refine .inl ?_
      split at step
      · cases step
        exact ⟨_, rfl, rfl, fun _ h => h, fun _ _ h => by cases h⟩
      split at step
      · cases step
        exact ⟨_, rfl, rfl, fun _ h => h, fun _ _ h => by cases h⟩
      · cases step
        exact ⟨_, rfl, rfl, fun _ h => h, fun _ _ h => by cases h⟩
  | stringEscape key buffer =>
      cases step
      exact .inl ⟨_, rfl, rfl, fun _ h => h, fun _ _ h => by cases h⟩
  | literal key state =>
      simp only [Stack.step] at step
      refine .inl ?_
      split at step
      · split at step
        · cases step
          exact ⟨_, rfl, rfl, fun _ h => h, fun _ _ h => by cases h⟩
        · cases step
          exact ⟨_, rfl, rfl, fun _ h => h, fun _ _ h => by cases h⟩
      · cases step
  | keyInit =>
      simp only [Stack.step] at step
      refine .inl ?_
      split at step
      · cases step
        exact ⟨_, rfl, .rfl⟩
      split at step
      · cases step
        exact ⟨_, rfl, rfl, (fun _ h => by cases h), fun _ _ h => by cases h⟩
      · cases step
  | keyBody buffer =>
      simp only [Stack.step] at step
      refine .inl ?_
      split at step
      · cases step
        exact ⟨_, rfl, rfl, (fun _ h => by cases h), fun _ _ h => by cases h⟩
      · cases step
        exact ⟨_, rfl, rfl, (fun _ h => by cases h), fun _ _ h => by cases h⟩
  | keyEnd key =>
      simp only [Stack.step] at step
      refine .inl ?_
      split at step
      · cases step
        exact ⟨_, rfl, .rfl⟩
      split at step
      · cases step
        exact ⟨_, rfl, rfl, fun _ h => h, fun _ _ h => by cases h⟩
      · cases step

end Stack

/-! ### Machines that stand for a stack -/

/-- The record of a machine in a mode. -/
def Mode.jpm (mode : Mode ν) (p next : Option Addr) : Jpm ν :=
  match mode with
  | .valueInit key => ⟨p, false, some .valueInit, none, key, none, next⟩
  | .valueEnd key node => ⟨p, false, some .valueEnd, none, key, some (mk node), next⟩
  | .stringBody key buffer => ⟨p, false, some .stringBody, some buffer, key, none, next⟩
  | .stringEscape key buffer => ⟨p, false, some .stringEscape, some buffer, key, none, next⟩
  | .numberBody key buffer => ⟨p, false, some .numberBody, some buffer, key, none, next⟩
  | .literal key state => ⟨p, false, some state.fn, none, key, none, next⟩
  | .keyInit => ⟨p, false, some .keyInit, none, none, none, next⟩
  | .keyBody buffer => ⟨p, false, some .keyBody, some buffer, none, none, next⟩
  | .keyEnd key => ⟨p, false, some .keyEnd, none, some key, none, next⟩

/-- The record of a machine with an open container. -/
def Open.jpm (o : Open ν) (p next : Option Addr) : Jpm ν := (Mode.valueEnd o.key o.node).jpm p next

@[simp] theorem Mode.jpm_p (mode : Mode ν) (p next : Option Addr) : (mode.jpm p next).p = p := by
  cases mode <;> rfl

@[simp] theorem Mode.jpm_next (mode : Mode ν) (p next : Option Addr) :
    (mode.jpm p next).next = next := by
  cases mode <;> rfl

@[simp] theorem Mode.jpm_complete (mode : Mode ν) (p next : Option Addr) :
    (mode.jpm p next).complete = false := by
  cases mode <;> rfl

section Represents

variable (sm : Addr)

/-- The machines between the machine at `sm` and the one at `t`, whose parent pointer
is `p`, are those of the open containers `below`, at `addrs`, from the inside out. -/
inductive Chain (h : Heap (Jpm ν)) : Option Addr → Addr → List (Open ν) → List Addr → Prop where
  | first : Chain h none sm [] []
  | next {p : Option Addr} {a t : Addr} {o : Open ν} {below : List (Open ν)} {addrs : List Addr}
      (cell : h.cells a = some (o.jpm p (some t))) (chain : Chain h p a below addrs) :
      Chain h (some a) t (o :: below) (a :: addrs)

/-- A machine that is complete and waits for its deletion. -/
structure Done (m : Jpm ν) (p : Addr) : Prop where
  complete : m.complete = true
  next : m.next = none
  parent : m.p = some p
  key : m.key = none

/-- The heap represents the stack, with its last busy machine at `t`: after it there
is nothing, or a complete machine if its container has just got its last child. -/
structure RepresentsAt (h : Heap (Jpm ν)) (st : Stack ν) (p : Option Addr) (t : Addr)
    (addrs : List Addr) (done : Option Addr) : Prop where
  chain : Chain sm h p t st.below addrs
  cell : h.cells t = some (st.mode.jpm p done)
  distinct : (t :: addrs).Nodup
  live : ∀ a ∈ t :: addrs, a < h.brk
  done : ∀ c, done = some c → c ∉ t :: addrs ∧ c < h.brk ∧
    (∃ m, h.cells c = some m ∧ Done m t) ∧ ∃ key kind children,
      st.mode = .valueEnd key (.container none kind children)

/-- The machines reachable from the one at `sm` stand for the stack. -/
def Represents (h : Heap (Jpm ν)) (st : Stack ν) : Prop :=
  ∃ p t addrs done, RepresentsAt sm h st p t addrs done

end Represents

end AcnSdk.Json
