import IrohBlobs.StateMachine

/-!
# An actor that batches transactions

An actor reads commands from a channel and handles them in transactions: a command that reads starts a read transaction,
which also serves the commands that follow as long as they only read, and a command that writes starts a write
transaction, which serves all commands that follow except those for the top level.  A batch ends by its filter, by a
limit on its length, by a timeout, or when there are no more commands.

The handlers are parameters.  The actor is compared with the execution of the commands one at a time (`execAll`), each
in a transaction of its own: it has handled a prefix of the commands, in their order, with the same replies, and what
it sees of the database is what the execution of this prefix has left (`Inv`).
-/

/-! ### A receiver that allows to push back a message -/

/-- A receiver with room for one message that was pushed back.  `recv` are the messages that come from the channel. -/
structure PeekableReceiver (α : Type) where
  msg : Option α
  recv : List α

namespace PeekableReceiver

variable {α β : Type}

/-- All messages that were not received yet. -/
def pending (r : PeekableReceiver α) : List α := r.msg.toList ++ r.recv

/-- Receive the next message.  There is none only if the sender is dropped. -/
def next (r : PeekableReceiver α) : Option (α × PeekableReceiver α) :=
  match r.msg with
  | some msg => some (msg, { r with msg := none })
  | none =>
    match r.recv with
    | msg :: recv => some (msg, ⟨none, recv⟩)
    | [] => none

/-- Receive the next message, but only if it passes the filter.  The timeout may win against the message. -/
def extract (f : α → Except α β) (timeout : Bool) (r : PeekableReceiver α) : Option β × PeekableReceiver α :=
  if timeout then (none, r)
  else
    match r.next with
    | none => (none, r)
    | some (msg, r) =>
      match f msg with
      | .ok u => (some u, r)
      | .error msg => (none, { r with msg := some msg })

/-- Push back a message.  It is lost if there is no room for it. -/
def pushBack (r : PeekableReceiver α) (msg : α) : PeekableReceiver α :=
  match r.msg with
  | none => { r with msg := some msg }
  | some _ => r

variable {r r' : PeekableReceiver α} {msg : α}

theorem next_eq_some (h : r.next = some (msg, r')) : r.pending = msg :: r'.pending ∧ r'.msg = none := by
  unfold next at h
  cases hm : r.msg with
  | some m =>
    rw [hm] at h
    cases h
    exact ⟨by simp [pending, hm], rfl⟩
  | none =>
    cases hr : r.recv with
    | nil =>
      rw [hm, hr] at h
      cases h
    | cons m recv =>
      rw [hm, hr] at h
      cases h
      exact ⟨by simp [pending, hm, hr], rfl⟩

theorem next_eq_none (h : r.next = none) : r.pending = [] := by
  unfold next at h
  cases hm : r.msg with
  | some m =>
    rw [hm] at h
    cases h
  | none =>
    cases hr : r.recv with
    | nil => simp [pending, hm, hr]
    | cons m recv =>
      rw [hm, hr] at h
      cases h

/-- A message that was just received can be pushed back. -/
theorem pending_pushBack (h : r.msg = none) (msg : α) : (r.pushBack msg).pending = msg :: r.pending := by
  unfold pushBack
  rw [h]
  simp [pending, h]

/-- A filter that returns the messages it does not pass. -/
def Faithful (f : α → Except α β) (embed : β → α) : Prop :=
  ∀ msg, (∃ u, f msg = .ok u ∧ embed u = msg) ∨ f msg = .error msg

/-- Extracting takes the next message, or leaves everything pending. -/
theorem extract_cases {f : α → Except α β} {embed : β → α} (hf : Faithful f embed) (timeout : Bool)
    (r : PeekableReceiver α) :
    (∃ u r', r.extract f timeout = (some u, r') ∧ r.pending = embed u :: r'.pending) ∨
      ∃ r', r.extract f timeout = (none, r') ∧ r'.pending = r.pending ∧
        (timeout = true ∨ r.pending = [] ∨ ∃ msg rest, r.pending = msg :: rest ∧ f msg = .error msg) := by
  unfold extract
  by_cases ht : timeout = true
  · rw [if_pos ht]
    exact Or.inr ⟨r, rfl, rfl, Or.inl ht⟩
  · rw [if_neg ht]
    cases hn : r.next with
    | none => exact Or.inr ⟨r, rfl, rfl, Or.inr (Or.inl (next_eq_none hn))⟩
    | some x =>
      obtain ⟨msg, r'⟩ := x
      obtain ⟨hpending, hmsg⟩ := next_eq_some hn
      rcases hf msg with ⟨u, hu, hembed⟩ | herr
      · simp only [hu]
        exact Or.inl ⟨u, r', rfl, by rw [hpending, hembed]⟩
      · simp only [herr]
        refine Or.inr ⟨_, rfl, ?_, Or.inr (Or.inr ⟨msg, _, hpending, herr⟩)⟩
        rw [hpending]
        simp [pending, hmsg]

end PeekableReceiver

namespace BatchedActor

variable {σ π R W T ρ E : Type}

/-! ### Commands and handlers -/

inductive Command (R W T : Type)
  | readOnly (cmd : R)
  | readWrite (cmd : W)
  | topLevel (cmd : T)

inductive NonTopLevelCommand (R W : Type)
  | readOnly (cmd : R)
  | readWrite (cmd : W)

namespace Command

def nonTopLevel : Command R W T → Except (Command R W T) (NonTopLevelCommand R W)
  | .readOnly cmd => .ok (.readOnly cmd)
  | .readWrite cmd => .ok (.readWrite cmd)
  | .topLevel cmd => .error (.topLevel cmd)

def readOnly? : Command R W T → Except (Command R W T) R
  | .readOnly cmd => .ok cmd
  | .readWrite cmd => .error (.readWrite cmd)
  | .topLevel cmd => .error (.topLevel cmd)

def ofNonTopLevel : NonTopLevelCommand R W → Command R W T
  | .readOnly cmd => .readOnly cmd
  | .readWrite cmd => .readWrite cmd

theorem nonTopLevel_faithful : PeekableReceiver.Faithful (nonTopLevel : Command R W T → _) ofNonTopLevel := by
  intro cmd
  cases cmd with
  | readOnly cmd => exact Or.inl ⟨.readOnly cmd, rfl, rfl⟩
  | readWrite cmd => exact Or.inl ⟨.readWrite cmd, rfl, rfl⟩
  | topLevel cmd => exact Or.inr rfl

theorem readOnly?_faithful : PeekableReceiver.Faithful (readOnly? : Command R W T → _) .readOnly := by
  intro cmd
  cases cmd with
  | readOnly cmd => exact Or.inl ⟨cmd, rfl, rfl⟩
  | readWrite cmd => exact Or.inr rfl
  | topLevel cmd => exact Or.inr rfl

end Command

/-- The handlers of the commands.  They work on the database `σ` and on what the actor keeps outside of it, `π`.  A
command for the top level may stop the actor. -/
structure Handlers (σ π R W T ρ E : Type) where
  handleReadonly : π → σ → R → Except E (π × ρ)
  handleReadwrite : π → σ → W → Except E (π × σ × ρ)
  handleToplevel : σ → T → ρ × Bool

/-! ### The commands one at a time -/

inductive Ending (E : Type)
  | shutdown
  | failed (e : E)
  deriving DecidableEq

/-- The state of an execution of commands one at a time. -/
structure Serial (σ π ρ E : Type) where
  db : σ
  kept : π
  replies : List ρ
  ended : Option (Ending E)

namespace Handlers

/-- Execute a command in a transaction of its own.  A failed transaction changes nothing. -/
def exec (h : Handlers σ π R W T ρ E) (s : Serial σ π ρ E) (cmd : Command R W T) : Serial σ π ρ E :=
  match s.ended with
  | some _ => s
  | none =>
    match cmd with
    | .readOnly cmd =>
      match h.handleReadonly s.kept s.db cmd with
      | .ok (kept, reply) => { s with kept, replies := s.replies ++ [reply] }
      | .error e => { s with ended := some (.failed e) }
    | .readWrite cmd =>
      match h.handleReadwrite s.kept s.db cmd with
      | .ok (kept, db, reply) => { s with kept, db, replies := s.replies ++ [reply] }
      | .error e => { s with ended := some (.failed e) }
    | .topLevel cmd =>
      let (reply, stop) := h.handleToplevel s.db cmd
      { s with replies := s.replies ++ [reply], ended := if stop then some .shutdown else none }

def execAll (h : Handlers σ π R W T ρ E) (db : σ) (kept : π) (cmds : List (Command R W T)) : Serial σ π ρ E :=
  cmds.foldl h.exec ⟨db, kept, [], none⟩

variable {h : Handlers σ π R W T ρ E} {db : σ} {kept : π}

theorem execAll_concat (cmds : List (Command R W T)) (cmd : Command R W T) :
    h.execAll db kept (cmds ++ [cmd]) = h.exec (h.execAll db kept cmds) cmd := by
  unfold execAll
  rw [List.foldl_append]
  rfl

theorem exec_of_ended {s : Serial σ π ρ E} {e : Ending E} (he : s.ended = some e) (cmd : Command R W T) :
    h.exec s cmd = s := by
  unfold exec
  rw [he]

/-- Nothing is executed after the end. -/
theorem execAll_append_of_ended {cmds : List (Command R W T)} {e : Ending E}
    (he : (h.execAll db kept cmds).ended = some e) (rest : List (Command R W T)) :
    h.execAll db kept (cmds ++ rest) = h.execAll db kept cmds := by
  induction rest using List.reverseRecOn with
  | nil => rw [List.append_nil]
  | append_singleton rest cmd ih =>
    rw [← List.append_assoc, execAll_concat, ih, exec_of_ended he]

end Handlers

/-! ### The actor -/

/-- The limits on the length of a batch. -/
structure BatchOptions where
  maxReadBatch : Nat
  maxWriteBatch : Nat

/-- Where the actor is in its loop: at the top, inside a read or a write transaction with the number of commands it has
served, or at the end. -/
inductive Phase (σ E : Type)
  | idle
  | reading (n : Nat) (tables : σ)
  | writing (n : Nat) (tables : σ)
  | ended (ending : Option (Ending E))

/-- `handled` are the commands that were given to a handler. -/
structure Actor (σ π R W T ρ E : Type) where
  cmds : PeekableReceiver (Command R W T)
  db : σ
  kept : π
  phase : Phase σ E
  handled : List (Command R W T)
  replies : List ρ

def start (db : σ) (kept : π) (cmds : List (Command R W T)) : Actor σ π R W T ρ E :=
  ⟨⟨none, cmds⟩, db, kept, .idle, [], []⟩

variable (h : Handlers σ π R W T ρ E)

/-- The top of the loop.  A command that starts a transaction is pushed back. -/
def receive (a : Actor σ π R W T ρ E) : Actor σ π R W T ρ E :=
  match a.cmds.next with
  | none => { a with phase := .ended none }
  | some (cmd, cmds) =>
    match cmd with
    | .topLevel t =>
      let (reply, stop) := h.handleToplevel a.db t
      { a with
        cmds
        handled := a.handled ++ [cmd]
        replies := a.replies ++ [reply]
        phase := if stop then .ended (some .shutdown) else .idle }
    | .readOnly _ => { a with cmds := cmds.pushBack cmd, phase := .reading 0 a.db }
    | .readWrite _ => { a with cmds := cmds.pushBack cmd, phase := .writing 0 a.db }

/-- A command that was handled in a read transaction. -/
def afterReadonly (options : BatchOptions) (a : Actor σ π R W T ρ E) (n : Nat) (tables : σ) (cmd : Command R W T) :
    Except E (π × ρ) → Actor σ π R W T ρ E
  | .error e => { a with handled := a.handled ++ [cmd], phase := .ended (some (.failed e)) }
  | .ok (kept, reply) =>
    { a with
      kept
      handled := a.handled ++ [cmd]
      replies := a.replies ++ [reply]
      phase := if options.maxReadBatch ≤ n + 1 then .idle else .reading (n + 1) tables }

/-- A command that was handled in a write transaction.  The transaction is committed at the end of the batch, and
dropped if a command fails. -/
def afterReadwrite (options : BatchOptions) (a : Actor σ π R W T ρ E) (n : Nat) (cmd : Command R W T) :
    Except E (π × σ × ρ) → Actor σ π R W T ρ E
  | .error e => { a with handled := a.handled ++ [cmd], phase := .ended (some (.failed e)) }
  | .ok (kept, tables, reply) =>
    let a := { a with kept, handled := a.handled ++ [cmd], replies := a.replies ++ [reply] }
    if options.maxWriteBatch ≤ n + 1 then { a with db := tables, phase := .idle }
    else { a with phase := .writing (n + 1) tables }

def handleNonToplevel (kept : π) (tables : σ) : NonTopLevelCommand R W → Except E (π × σ × ρ)
  | .readOnly cmd =>
    match h.handleReadonly kept tables cmd with
    | .ok (kept, reply) => .ok (kept, tables, reply)
    | .error e => .error e
  | .readWrite cmd => h.handleReadwrite kept tables cmd

/-- One step of `Actor::run`.  The flag says whether a timeout wins against the next message. -/
def step (options : BatchOptions) (a : Actor σ π R W T ρ E) (timeout : Bool) : Option (Actor σ π R W T ρ E) :=
  match a.phase with
  | .ended _ => none
  | .idle => some (receive h a)
  | .reading n tables =>
    match a.cmds.extract Command.readOnly? timeout with
    | (none, cmds) => some { a with cmds, phase := .idle }
    | (some cmd, cmds) =>
      some (afterReadonly options { a with cmds } n tables (.readOnly cmd) (h.handleReadonly a.kept tables cmd))
  | .writing n tables =>
    match a.cmds.extract Command.nonTopLevel timeout with
    | (none, cmds) => some { a with cmds, db := tables, phase := .idle }
    | (some cmd, cmds) =>
      some (afterReadwrite options { a with cmds } n (.ofNonTopLevel cmd) (handleNonToplevel h a.kept tables cmd))

/-! ### The invariant -/

/-- What the phase says about the database, next to the execution of the handled commands one at a time. -/
def PhaseInv (db : σ) (s : Serial σ π ρ E) (pending : List (Command R W T)) : Phase σ E → Prop
  | .idle => db = s.db ∧ s.ended = none
  | .reading _ tables => db = s.db ∧ tables = s.db ∧ s.ended = none
  | .writing _ tables => tables = s.db ∧ s.ended = none
  | .ended none => db = s.db ∧ s.ended = none ∧ pending = []
  | .ended (some .shutdown) => db = s.db ∧ s.ended = some .shutdown
  | .ended (some (.failed e)) => s.ended = some (.failed e)

/-- The actor has handled a prefix of the commands, as if they were executed one at a time. -/
structure Inv (db : σ) (kept : π) (cmds : List (Command R W T)) (a : Actor σ π R W T ρ E) : Prop where
  order : a.handled ++ a.cmds.pending = cmds
  kept_eq : a.kept = (h.execAll db kept a.handled).kept
  replies_eq : a.replies = (h.execAll db kept a.handled).replies
  committed : ∃ before, before <+: a.handled ∧ a.db = (h.execAll db kept before).db
  phase : PhaseInv a.db (h.execAll db kept a.handled) a.cmds.pending a.phase

variable {h} {options : BatchOptions} {db : σ} {kept : π} {cmds : List (Command R W T)} {a a' : Actor σ π R W T ρ E}

theorem inv_start : Inv h db kept cmds (start db kept cmds) where
  order := rfl
  kept_eq := rfl
  replies_eq := rfl
  committed := ⟨[], List.prefix_rfl, rfl⟩
  phase := ⟨rfl, rfl⟩

private theorem order_concat {handled rest rest' : List (Command R W T)} {cmd : Command R W T}
    (h : handled ++ rest = cmds) (hrest : rest = cmd :: rest') : (handled ++ [cmd]) ++ rest' = cmds := by
  rw [← h, hrest, List.append_assoc]
  rfl

/-- The top of the loop. -/
theorem Inv.receive (hinv : Inv h db kept cmds a) (hphase : a.phase = .idle) : Inv h db kept cmds (receive h a) := by
  have hp := hinv.phase
  rw [hphase] at hp
  obtain ⟨hdb, hended⟩ := hp
  unfold BatchedActor.receive
  cases hn : a.cmds.next with
  | none =>
    have hpending := PeekableReceiver.next_eq_none hn
    exact ⟨hinv.order, hinv.kept_eq, hinv.replies_eq, hinv.committed, hdb, hended, hpending⟩
  | some x =>
    obtain ⟨cmd, r⟩ := x
    obtain ⟨hpending, hmsg⟩ := PeekableReceiver.next_eq_some hn
    have hback : (r.pushBack cmd).pending = a.cmds.pending := by
      rw [hpending]
      exact PeekableReceiver.pending_pushBack hmsg cmd
    cases cmd with
    | topLevel t =>
      have hexec : h.exec (h.execAll db kept a.handled) (.topLevel t) = { h.execAll db kept a.handled with
          replies := (h.execAll db kept a.handled).replies ++ [(h.handleToplevel a.db t).1]
          ended := if (h.handleToplevel a.db t).2 then some .shutdown else none } := by
        rw [hdb]
        unfold Handlers.exec
        rw [hended]
      refine ⟨order_concat hinv.order hpending, ?_, ?_, ?_, ?_⟩
      · rw [Handlers.execAll_concat, hexec]
        exact hinv.kept_eq
      · rw [Handlers.execAll_concat, hexec]
        exact congrArg (· ++ [_]) hinv.replies_eq
      · obtain ⟨before, hbefore, heq⟩ := hinv.committed
        exact ⟨before, hbefore.trans (List.prefix_append _ _), heq⟩
      · simp only [Handlers.execAll_concat, hexec]
        split
        · exact ⟨hdb, rfl⟩
        · exact ⟨hdb, rfl⟩
    | readOnly c =>
      exact ⟨by simp only [hback]; exact hinv.order, hinv.kept_eq, hinv.replies_eq, hinv.committed, hdb, hdb, hended⟩
    | readWrite c =>
      exact ⟨by simp only [hback]; exact hinv.order, hinv.kept_eq, hinv.replies_eq, hinv.committed, hdb, hended⟩

/-- Executing a command of a write transaction alone. -/
theorem exec_nonTopLevel {s : Serial σ π ρ E} (hs : s.ended = none) (cmd : NonTopLevelCommand R W) :
    h.exec s (.ofNonTopLevel cmd) = match handleNonToplevel h s.kept s.db cmd with
      | .ok (kept, db, reply) => ⟨db, kept, s.replies ++ [reply], none⟩
      | .error e => { s with ended := some (.failed e) } := by
  unfold Handlers.exec
  rw [hs]
  cases cmd with
  | readOnly cmd =>
    simp only [Command.ofNonTopLevel, handleNonToplevel]
    cases h.handleReadonly s.kept s.db cmd with
    | ok x => rfl
    | error e => rfl
  | readWrite cmd =>
    simp only [Command.ofNonTopLevel, handleNonToplevel]

/-- A command is handled in a read transaction. -/
theorem Inv.afterReadonly (hinv : Inv h db kept cmds a) {n : Nat} {tables : σ} (hphase : a.phase = .reading n tables)
    {cmd : R} {r : PeekableReceiver (Command R W T)} (hpending : a.cmds.pending = .readOnly cmd :: r.pending) :
    Inv h db kept cmds
      (afterReadonly options { a with cmds := r } n tables (.readOnly cmd) (h.handleReadonly a.kept tables cmd)) := by
  have hp := hinv.phase
  rw [hphase] at hp
  obtain ⟨hdb, htables, hended⟩ := hp
  have hexec := exec_nonTopLevel (h := h) hended (.readOnly cmd)
  simp only [Command.ofNonTopLevel, handleNonToplevel] at hexec
  rw [← hinv.kept_eq, ← htables] at hexec
  have hcommitted : ∃ before, before <+: a.handled ++ [.readOnly cmd] ∧ a.db = (h.execAll db kept before).db := by
    obtain ⟨before, hbefore, heq⟩ := hinv.committed
    exact ⟨before, hbefore.trans (List.prefix_append _ _), heq⟩
  cases hres : h.handleReadonly a.kept tables cmd with
  | error e =>
    rw [hres] at hexec
    refine ⟨order_concat hinv.order hpending, ?_, ?_, hcommitted, ?_⟩
    · simp only [BatchedActor.afterReadonly]
      rw [Handlers.execAll_concat, hexec]
    · simp only [BatchedActor.afterReadonly]
      rw [Handlers.execAll_concat, hexec]
      exact hinv.replies_eq
    · simp only [BatchedActor.afterReadonly, Handlers.execAll_concat, hexec]
      rfl
  | ok x =>
    obtain ⟨k, reply⟩ := x
    rw [hres] at hexec
    simp only [← hinv.replies_eq] at hexec
    refine ⟨order_concat hinv.order hpending, ?_, ?_, hcommitted, ?_⟩
    · simp only [BatchedActor.afterReadonly]
      rw [Handlers.execAll_concat, hexec]
    · simp only [BatchedActor.afterReadonly]
      rw [Handlers.execAll_concat, hexec]
    · simp only [BatchedActor.afterReadonly, Handlers.execAll_concat, hexec]
      split
      · exact ⟨hdb.trans htables.symm, rfl⟩
      · exact ⟨hdb.trans htables.symm, rfl, rfl⟩

/-- A command is handled in a write transaction. -/
theorem Inv.afterReadwrite (hinv : Inv h db kept cmds a) {n : Nat} {tables : σ} (hphase : a.phase = .writing n tables)
    {cmd : NonTopLevelCommand R W} {r : PeekableReceiver (Command R W T)}
    (hpending : a.cmds.pending = .ofNonTopLevel cmd :: r.pending) :
    Inv h db kept cmds
      (afterReadwrite options { a with cmds := r } n (.ofNonTopLevel cmd) (handleNonToplevel h a.kept tables cmd)) := by
  have hp := hinv.phase
  rw [hphase] at hp
  obtain ⟨htables, hended⟩ := hp
  have hexec := exec_nonTopLevel (h := h) hended cmd
  rw [← hinv.kept_eq, ← htables] at hexec
  have horder := order_concat hinv.order hpending
  have hcommitted : ∃ before, before <+: a.handled ++ [.ofNonTopLevel cmd] ∧ a.db = (h.execAll db kept before).db := by
    obtain ⟨before, hbefore, heq⟩ := hinv.committed
    exact ⟨before, hbefore.trans (List.prefix_append _ _), heq⟩
  cases hres : handleNonToplevel h a.kept tables cmd with
  | error e =>
    rw [hres] at hexec
    refine ⟨horder, ?_, ?_, hcommitted, ?_⟩
    · simp only [BatchedActor.afterReadwrite]
      rw [Handlers.execAll_concat, hexec]
    · simp only [BatchedActor.afterReadwrite]
      rw [Handlers.execAll_concat, hexec]
      exact hinv.replies_eq
    · simp only [BatchedActor.afterReadwrite, Handlers.execAll_concat, hexec]
      rfl
  | ok x =>
    obtain ⟨k, t, reply⟩ := x
    rw [hres] at hexec
    simp only [← hinv.replies_eq] at hexec
    rw [← Handlers.execAll_concat] at hexec
    simp only [BatchedActor.afterReadwrite]
    split
    · -- the end of the batch, the transaction is committed
      refine ⟨horder, ?_, ?_, ⟨_, List.prefix_rfl, ?_⟩, ?_⟩ <;> simp only [hexec]
      exact ⟨rfl, rfl⟩
    · refine ⟨horder, ?_, ?_, hcommitted, ?_⟩ <;> simp only [hexec]
      exact ⟨rfl, rfl⟩

/-- Every step keeps the invariant. -/
theorem step_inv (hinv : Inv h db kept cmds a) {timeout : Bool} (hstep : step h options a timeout = some a') :
    Inv h db kept cmds a' := by
  unfold step at hstep
  cases hphase : a.phase with
  | ended e =>
    rw [hphase] at hstep
    cases hstep
  | idle =>
    rw [hphase] at hstep
    cases hstep
    exact hinv.receive hphase
  | reading n tables =>
    have hp := hinv.phase
    rw [hphase] at hp
    rw [hphase] at hstep
    rcases PeekableReceiver.extract_cases Command.readOnly?_faithful timeout a.cmds with
      ⟨cmd, r, hext, hpending⟩ | ⟨r, hext, hpending, -⟩
    · simp only [hext, Option.some.injEq] at hstep
      rw [← hstep]
      exact hinv.afterReadonly hphase hpending
    · simp only [hext, Option.some.injEq] at hstep
      rw [← hstep]
      exact ⟨by simp only [hpending]; exact hinv.order, hinv.kept_eq, hinv.replies_eq, hinv.committed, hp.1, hp.2.2⟩
  | writing n tables =>
    have hp := hinv.phase
    rw [hphase] at hp
    rw [hphase] at hstep
    rcases PeekableReceiver.extract_cases Command.nonTopLevel_faithful timeout a.cmds with
      ⟨cmd, r, hext, hpending⟩ | ⟨r, hext, hpending, -⟩
    · simp only [hext, Option.some.injEq] at hstep
      rw [← hstep]
      exact hinv.afterReadwrite hphase hpending
    · simp only [hext, Option.some.injEq] at hstep
      rw [← hstep]
      exact ⟨by simp only [hpending]; exact hinv.order, hinv.kept_eq, hinv.replies_eq,
        ⟨a.handled, List.prefix_rfl, hp.1⟩, hp.1, hp.2⟩

/-- Every run keeps the invariant. -/
theorem run_inv {timeouts : List Bool}
    (hrun : StateMachine.run (step h options) (start db kept cmds) timeouts = some a) :
    Inv h db kept cmds a := by
  exact StateMachine.invariant_of_run (step h options) (fun hinv hstep => step_inv hinv hstep) inv_start hrun

theorem handled_afterReadonly (a : Actor σ π R W T ρ E) (n : Nat) (tables : σ) (cmd : Command R W T)
    (res : Except E (π × ρ)) : (afterReadonly options a n tables cmd res).handled = a.handled ++ [cmd] := by
  cases res with
  | error e => rfl
  | ok x => rfl

theorem handled_afterReadwrite (a : Actor σ π R W T ρ E) (n : Nat) (cmd : Command R W T) (res : Except E (π × σ × ρ)) :
    (afterReadwrite options a n cmd res).handled = a.handled ++ [cmd] := by
  cases res with
  | error e => rfl
  | ok x =>
    simp only [afterReadwrite]
    split <;> rfl

/-- Commands for the top level are answered outside of transactions, when everything before them is committed. -/
theorem Inv.topLevel (hinv : Inv h db kept cmds a) {timeout : Bool} {t : T} (hstep : step h options a timeout = some a')
    (hhandled : a'.handled = a.handled ++ [.topLevel t]) : a'.db = (h.execAll db kept a.handled).db := by
  have hp := hinv.phase
  unfold step at hstep
  cases hphase : a.phase with
  | ended e =>
    rw [hphase] at hstep
    cases hstep
  | idle =>
    rw [hphase] at hstep hp
    cases hstep
    have hdb : (BatchedActor.receive h a).db = a.db := by
      unfold BatchedActor.receive
      split
      · rfl
      · split <;> rfl
    rw [hdb]
    exact hp.1
  | reading n tables =>
    rw [hphase] at hstep
    rcases hext : a.cmds.extract Command.readOnly? timeout with ⟨_ | cmd, r⟩
    · simp only [hext, Option.some.injEq] at hstep
      subst hstep
      exact absurd hhandled (by simp)
    · simp only [hext, Option.some.injEq] at hstep
      subst hstep
      rw [handled_afterReadonly] at hhandled
      exact absurd (List.singleton_inj.mp (List.append_cancel_left hhandled)) (fun he => by cases he)
  | writing n tables =>
    rw [hphase] at hstep
    rcases hext : a.cmds.extract Command.nonTopLevel timeout with ⟨_ | cmd, r⟩
    · simp only [hext, Option.some.injEq] at hstep
      subst hstep
      exact absurd hhandled (by simp)
    · simp only [hext, Option.some.injEq] at hstep
      subst hstep
      have hne : (Command.ofNonTopLevel cmd : Command R W T) ≠ .topLevel t := by
        cases cmd <;> exact fun he => by cases he
      rw [handled_afterReadwrite] at hhandled
      exact absurd (List.singleton_inj.mp (List.append_cancel_left hhandled)) hne

/-- At its end the actor has done what the commands do one at a time, unless a command failed. -/
theorem Inv.ended (hinv : Inv h db kept cmds a) (hok : ∀ e, (h.execAll db kept cmds).ended ≠ some (.failed e))
    {e : Option (Ending E)} (hphase : a.phase = .ended e) :
    a.db = (h.execAll db kept cmds).db ∧ a.kept = (h.execAll db kept cmds).kept ∧
      a.replies = (h.execAll db kept cmds).replies := by
  have hp := hinv.phase
  have hsame : a.db = (h.execAll db kept a.handled).db ∧ h.execAll db kept cmds = h.execAll db kept a.handled := by
    rw [hphase] at hp
    rw [← hinv.order] at hok ⊢
    match e with
    | none =>
      obtain ⟨hdb, -, hpending⟩ := hp
      rw [hpending, List.append_nil]
      exact ⟨hdb, rfl⟩
    | some .shutdown =>
      obtain ⟨hdb, hended⟩ := hp
      exact ⟨hdb, Handlers.execAll_append_of_ended hended _⟩
    | some (.failed e) =>
      have hended : (h.execAll db kept a.handled).ended = some (.failed e) := hp
      exact absurd (by rw [Handlers.execAll_append_of_ended hended, hended]) (hok e)
  obtain ⟨hdb, hsame⟩ := hsame
  rw [hsame]
  exact ⟨hdb, hinv.kept_eq, hinv.replies_eq⟩

/-! ### Progress -/

/-- The next command is served by the open transaction. -/
def served (a : Actor σ π R W T ρ E) : Bool :=
  match a.phase, a.cmds.pending with
  | .reading _ _, .readOnly _ :: _ => true
  | .writing _ _, .readOnly _ :: _ => true
  | .writing _ _, .readWrite _ :: _ => true
  | _, _ => false

/-- The number of steps without timeouts that are left, at most. -/
def stepsLeft (a : Actor σ π R W T ρ E) : Nat :=
  3 * a.cmds.pending.length + match a.phase with
    | .ended _ => 0
    | .idle => 2
    | _ => if served a then 1 else 3

theorem stepsLeft_le (a : Actor σ π R W T ρ E) : stepsLeft a ≤ 3 * a.cmds.pending.length + 3 := by
  unfold stepsLeft
  split <;> [omega; omega; split <;> omega]

theorem stepsLeft_idle (hphase : a.phase = .idle) : stepsLeft a = 3 * a.cmds.pending.length + 2 := by
  unfold stepsLeft
  rw [hphase]

/-- A step that consumes a command makes progress. -/
private theorem stepsLeft_lt_of_pending {a a' : Actor σ π R W T ρ E} {cmd : Command R W T} {rest : List (Command R W T)}
    (hpending : a.cmds.pending = cmd :: rest) (hrest : a'.cmds.pending = rest)
    (hpos : 3 * a.cmds.pending.length < stepsLeft a) : stepsLeft a' < stepsLeft a := by
  have hle := stepsLeft_le a'
  have hlen : a.cmds.pending.length = rest.length + 1 := by
    rw [hpending]
    rfl
  rw [hrest] at hle
  omega

/-- A batch that ends without consuming a command makes progress, if the next command is not served by it. -/
private theorem stepsLeft_lt_of_idle {a a' : Actor σ π R W T ρ E} (hpending : a'.cmds.pending = a.cmds.pending)
    (hphase : a'.phase = .idle) (hleft : 3 * a.cmds.pending.length + 2 < stepsLeft a) : stepsLeft a' < stepsLeft a := by
  rw [stepsLeft_idle hphase, hpending]
  exact hleft

theorem stepsLeft_receive (hphase : a.phase = .idle) : stepsLeft (receive h a) < stepsLeft a := by
  have hidle := stepsLeft_idle hphase
  unfold receive
  cases hn : a.cmds.next with
  | none =>
    have hpending := PeekableReceiver.next_eq_none hn
    rw [hidle]
    unfold stepsLeft
    simp only [hpending, List.length_nil]
    omega
  | some x =>
    obtain ⟨cmd, r⟩ := x
    obtain ⟨hpending, hmsg⟩ := PeekableReceiver.next_eq_some hn
    have hback := PeekableReceiver.pending_pushBack hmsg cmd
    rw [← hpending] at hback
    cases cmd with
    | topLevel t => exact stepsLeft_lt_of_pending hpending rfl (by omega)
    | readOnly c =>
      rw [hidle]
      simp only [stepsLeft, served, hback, hpending, if_true]
      omega
    | readWrite c =>
      rw [hidle]
      simp only [stepsLeft, served, hback, hpending, if_true]
      omega

private theorem pending_lt_stepsLeft (hnot : ∀ e, a.phase ≠ .ended e) : 3 * a.cmds.pending.length < stepsLeft a := by
  unfold stepsLeft
  split
  · rename_i e hphase
    exact absurd hphase (hnot e)
  · omega
  · split <;> omega

/-- Every step that no timeout interrupts makes progress. -/
theorem stepsLeft_lt (hnot : ∀ e, a.phase ≠ .ended e) :
    ∃ a', step h options a false = some a' ∧ stepsLeft a' < stepsLeft a := by
  have hpos := pending_lt_stepsLeft hnot
  unfold step
  cases hphase : a.phase with
  | ended e => exact absurd hphase (hnot e)
  | idle => exact ⟨_, rfl, stepsLeft_receive hphase⟩
  | reading n tables =>
    rcases PeekableReceiver.extract_cases Command.readOnly?_faithful false a.cmds with
      ⟨cmd, r, hext, hpending⟩ | ⟨r, hext, hpending, hwhy⟩
    · simp only [hext]
      refine ⟨_, rfl, stepsLeft_lt_of_pending hpending ?_ hpos⟩
      cases h.handleReadonly a.kept tables cmd <;> rfl
    · simp only [hext]
      refine ⟨_, rfl, stepsLeft_lt_of_idle hpending rfl ?_⟩
      have hserved : served a = false := by
        unfold served
        rw [hphase]
        rcases hwhy with hfalse | hnil | ⟨cmd, rest, hcons, herr⟩
        · cases hfalse
        · rw [hnil]
        · rw [hcons]
          cases cmd with
          | readOnly c => cases herr
          | readWrite c => rfl
          | topLevel c => rfl
      unfold stepsLeft
      rw [hphase, hserved]
      simp
  | writing n tables =>
    rcases PeekableReceiver.extract_cases Command.nonTopLevel_faithful false a.cmds with
      ⟨cmd, r, hext, hpending⟩ | ⟨r, hext, hpending, hwhy⟩
    · simp only [hext]
      refine ⟨_, rfl, stepsLeft_lt_of_pending hpending ?_ hpos⟩
      unfold afterReadwrite
      split
      · rfl
      · simp only
        split <;> rfl
    · simp only [hext]
      refine ⟨_, rfl, stepsLeft_lt_of_idle hpending rfl ?_⟩
      have hserved : served a = false := by
        unfold served
        rw [hphase]
        rcases hwhy with hfalse | hnil | ⟨cmd, rest, hcons, herr⟩
        · cases hfalse
        · rw [hnil]
        · rw [hcons]
          cases cmd with
          | readOnly c => cases herr
          | readWrite c => cases herr
          | topLevel c => rfl
      unfold stepsLeft
      rw [hphase, hserved]
      simp

/-- The actor comes to its end from every state, if the timeouts stop. -/
theorem exists_run_ended (a : Actor σ π R W T ρ E) :
    ∃ timeouts a' e, StateMachine.run (step h options) a timeouts = some a' ∧ a'.phase = .ended e := by
  induction hn : stepsLeft a using Nat.strong_induction_on generalizing a with
  | _ n ih =>
    by_cases hnot : ∀ e, a.phase ≠ .ended e
    · obtain ⟨b, hstep, hlt⟩ := stepsLeft_lt hnot
      obtain ⟨timeouts, a', e, hrun, hended⟩ := ih (stepsLeft b) (by omega) b rfl
      refine ⟨false :: timeouts, a', e, ?_, hended⟩
      rw [StateMachine.run, hstep]
      exact hrun
    · rw [not_forall] at hnot
      obtain ⟨e, he⟩ := hnot
      exact ⟨[], a, e, rfl, not_not.mp he⟩

end BatchedActor
