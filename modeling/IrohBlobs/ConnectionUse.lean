import IrohBlobs.ConnectionPool

/-!
# Connections in use

The pool of `util/connection_pool.rs` together with its connection actors and the users.  An actor connects, hands out
references, and tells the pool when the last reference was dropped, when its idle timer has expired, and when the
connection is closed or could not be made.  These messages wait in the inbox of the pool behind the requests of the
users, so they may be outdated when the pool gets to them.

Each message carries here, for the proofs only, the actor that sent it and the number of requests that the actor had
been sent when it found itself unused.  A message is `Fresh` if the node still has that actor, which was not sent a
request since.  If all messages are fresh when they are handled, no connection in use is closed (`closed_unused`).
-/

namespace IrohBlobs

namespace ConnectionPool

variable {N : Type}

/-! ### Connection actors -/

/-- The outcome of connecting. -/
inductive Conn
  | pending
  | ok
  | error
  deriving DecidableEq

/-- Where a connection actor is: it connects, it waits in its loop, or it is in a branch of the loop, in which it does
not look at its channel.  A stamp is the number of requests that it had been sent when it entered the branch. -/
inductive Phase
  | connecting
  | failed
  | selecting
  | closed
  | notified (stamp : Nat)
  | idle (stamp : Nat)
  | expired (stamp : Nat)
  | exited
  deriving DecidableEq

/-- Why a connection should be removed.  All but the first are reported by a connection actor. -/
inductive Cause
  | user
  | failed (actor : Nat)
  | closed (actor : Nat)
  | expired (actor stamp : Nat)

/-- A message in the inbox of the pool. -/
inductive Message (N : Type)
  | requestRef (id : N)
  | connectionIdle (id : N) (actor stamp : Nat)
  | connectionShutdown (id : N) (cause : Cause)

/-- What the pool sees of a message. -/
def Message.erase : Message N → ActorMessage N
  | .requestRef id => .requestRef id
  | .connectionIdle id _ _ => .connectionIdle id
  | .connectionShutdown id _ => .connectionShutdown id

/-- A connection actor.  `queue` is the number of requests in its channel, `sent` the number of all that were sent to
it, and `count` the number of references that are in use. -/
structure ConnectionActor (N : Type) where
  node : N
  phase : Phase
  conn : Conn
  closed : Bool
  watching : Bool
  queue : Nat
  sent : Nat
  count : Nat
  notify : Bool
  idleTimer : Bool

/-- The branches of the loop after the one for requests. -/
inductive Branch
  | connClose
  | idleStream
  | idleTimer

/-- What can happen to a connection actor.  A wakeup for the last reference is lost if the actor does not wait for
it. -/
inductive ActorEvent
  | connect (ok : Bool)
  | peerClose
  | recv
  | select (branch : Branch)
  | check
  | send
  | dropRef (wakes : Bool)
  | die

namespace ConnectionActor

def new (node : N) : ConnectionActor N := ⟨node, .connecting, .pending, false, false, 0, 0, 0, false, false⟩

/-- A request is put into the channel. -/
def enqueue (x : ConnectionActor N) : ConnectionActor N := { x with queue := x.queue + 1, sent := x.sent + 1 }

/-- The branch for requests, which comes first.  It ends the loop when the pool has dropped the channel. -/
def recv (isOpen : Bool) (x : ConnectionActor N) : Option (ConnectionActor N) :=
  if x.phase ≠ .selecting then none
  else if 0 < x.queue then
    match x.conn with
    | .ok => some { x with queue := x.queue - 1, count := x.count + 1, idleTimer := false }
    | _ => some { x with queue := x.queue - 1 }
  else if isOpen then none
  else some { x with phase := .exited }

/-- Another branch is chosen if there is nothing to receive.  An earlier branch has priority. -/
def select (isOpen : Bool) (x : ConnectionActor N) (branch : Branch) : Option (ConnectionActor N) :=
  if x.phase ≠ .selecting ∨ 0 < x.queue ∨ isOpen = false then none
  else
    match branch with
    | .connClose => if x.closed && x.watching then some { x with phase := .closed, watching := false } else none
    | .idleStream =>
      if !(x.closed && x.watching) && x.notify then some { x with phase := .notified x.sent, notify := false } else none
    | .idleTimer =>
      if !(x.closed && x.watching) && !x.notify && x.idleTimer then
        some { x with phase := .expired x.sent, idleTimer := false }
      else none

/-- The actor notifies the pool and goes back to its loop. -/
def send (actor : Nat) (x : ConnectionActor N) : Option (ConnectionActor N × Message N) :=
  match x.phase with
  | .failed => some ({ x with phase := .selecting }, .connectionShutdown x.node (.failed actor))
  | .closed => some ({ x with phase := .selecting }, .connectionShutdown x.node (.closed actor))
  | .idle stamp => some ({ x with phase := .selecting, idleTimer := true }, .connectionIdle x.node actor stamp)
  | .expired stamp => some ({ x with phase := .selecting }, .connectionShutdown x.node (.expired actor stamp))
  | _ => none

/-- The events that send nothing. -/
def move (isOpen : Bool) (x : ConnectionActor N) : ActorEvent → Option (ConnectionActor N)
  | .connect ok =>
    if x.phase ≠ .connecting then none
    else if ok then some { x with phase := .selecting, conn := .ok, watching := true }
    else some { x with phase := .failed, conn := .error }
  | .peerClose => if x.conn = .ok then some { x with closed := true } else none
  | .recv => x.recv isOpen
  | .select branch => x.select isOpen branch
  | .check =>
    match x.phase with
    | .notified stamp => some { x with phase := if x.count = 0 then .idle stamp else .selecting }
    | _ => none
  | .send => none
  | .dropRef wakes =>
    if x.count = 0 then none
    else some { x with count := x.count - 1, notify := x.notify || (x.count == 1 && wakes) }
  | .die => some { x with phase := .exited }

end ConnectionActor

/-! ### The system -/

structure System (N : Type) where
  pool : Actor N
  actors : Nat → Option (ConnectionActor N)
  inbox : List (Message N)

/-- The users request references and close connections, the pool handles its messages, and the connection actors run. -/
inductive Event (N : Type)
  | request (id : N)
  | close (id : N)
  | handle
  | actor (actor : Nat) (event : ActorEvent)

namespace System

variable [DecidableEq N]

def new : System N := ⟨.new, fun _ => none, []⟩

/-- The capacity of all channels. -/
def capacity : Nat := 100

/-- A message is put into the inbox of the pool, if there is room. -/
def push (s : System N) (msg : Message N) : Option (System N) :=
  if s.inbox.length < capacity then some { s with inbox := s.inbox ++ [msg] } else none

def setActor (s : System N) (actor : Nat) (x : ConnectionActor N) : System N :=
  { s with actors := Function.update s.actors actor (some x) }

/-- The connection actor has its receiver.  One that is not started yet will have it. -/
def alive (s : System N) (actor : Nat) : Bool :=
  match s.actors actor with
  | some x => decide (x.phase ≠ .exited)
  | none => true

/-- The pool holds the sender of the connection actor. -/
def isOpen (s : System N) (actor : Nat) (node : N) : Bool := s.pool.connections.lookup node = some actor

/-- The pool handles a message.  It waits while the channel that a request should go to is full. -/
def handle (maxConnections : Nat) (s : System N) (msg : Message N) : Option (System N) :=
  match msg with
  | .requestRef id =>
    let (pool, reply) := s.pool.handleRequestRef maxConnections s.alive id
    match reply with
    | .sent actor =>
      let x := (s.actors actor).getD (.new id)
      if x.queue < capacity then some (System.setActor { s with pool } actor x.enqueue) else none
    | .lost | .tooManyConnections => some { s with pool }
  | msg => some { s with pool := s.pool.handleMsg maxConnections s.alive msg.erase }

def step (maxConnections : Nat) (s : System N) : Event N → Option (System N)
  | .request id => s.push (.requestRef id)
  | .close id => s.push (.connectionShutdown id .user)
  | .handle =>
    match s.inbox with
    | [] => none
    | msg :: inbox => handle maxConnections { s with inbox } msg
  | .actor actor .send =>
    (s.actors actor).bind fun x => (x.send actor).bind fun (x, msg) => (s.setActor actor x).push msg
  | .actor actor event =>
    (s.actors actor).bind fun x => (x.move (s.isOpen actor x.node) event).map fun x => s.setActor actor x

/-! ### Messages in time -/

/-- The actor of the node is the one that sent the message, and it was not sent a request since it found itself
unused. -/
def FreshMessage (s : System N) : Message N → Prop
  | .requestRef _ | .connectionShutdown _ .user => True
  | .connectionIdle id actor stamp | .connectionShutdown id (.expired actor stamp) =>
    ∀ current x, s.pool.connections.lookup id = some current → s.actors current = some x →
      current = actor ∧ x.sent = stamp
  | .connectionShutdown id (.failed actor) | .connectionShutdown id (.closed actor) =>
    ∀ current, s.pool.connections.lookup id = some current → current = actor

/-- The message that the pool handles is not outdated. -/
def Fresh (s : System N) (event : Event N) : Prop :=
  ∀ msg inbox, event = .handle → s.inbox = msg :: inbox → s.FreshMessage msg

/-- The pool drops the channel of a connection actor. -/
def Drops (s s' : System N) (actor : Nat) : Prop :=
  ∃ id, s.pool.connections.lookup id = some actor ∧ s'.pool.connections.lookup id ≠ some actor

/-- Closing is what the user asked for, or the connection is gone already, or it is not in use and nobody waits for
it. -/
def MayClose (s : System N) (event : Event N) (actor : Nat) : Prop :=
  (∃ id inbox, event = .handle ∧ s.inbox = .connectionShutdown id .user :: inbox ∧
    s.pool.connections.lookup id = some actor) ∨
  ∃ x, s.actors actor = some x ∧
    (x.conn = .error ∨ x.closed = true ∨ x.phase = .exited ∨ (x.count = 0 ∧ x.queue = 0))

end System

/-! ### What the pool does with a request -/

section

variable [DecidableEq N] {alive : Nat → Bool}

/-- The outcome of a request, with the other nodes: at most an idle one loses its connection. -/
structure Requested (s s' : Actor N) (id : N) : Prop where
  others : ∀ n, n ≠ id → s'.connections.lookup n = s.connections.lookup n ∨
    n ∈ s.idle ∧ s'.connections.lookup n = none
  idle : ∀ n ∈ s'.idle, n ∈ s.idle ∧ n ≠ id

private theorem startConnection_spec {s : Actor N} (halive : alive s.tasks = true) (id : N) :
    s.startConnection alive id =
      ({ s with connections := s.connections.insert id s.tasks, tasks := s.tasks + 1 }, .sent s.tasks) := by
  simp only [Actor.startConnection, halive, if_true]

/-- A connection is opened or refused. -/
private theorem openConnection_spec (maxConnections : Nat) {s : Actor N} (halive : alive s.tasks = true) {id : N}
    (hid : id ∉ s.idle)
    (hnone : s.connections.lookup id = none) :
    Requested s (s.openConnection maxConnections alive id).1 id ∧
      ((s.openConnection maxConnections alive id).2 = .sent s.tasks ∧
          (s.openConnection maxConnections alive id).1.connections.lookup id = some s.tasks ∧
          (s.openConnection maxConnections alive id).1.tasks = s.tasks + 1 ∨
        (s.openConnection maxConnections alive id).2 = .tooManyConnections ∧
          (s.openConnection maxConnections alive id).1 = s) := by
  unfold Actor.openConnection
  split
  · cases hidle : s.idle with
    | nil =>
      simp only [Actor.popOldestIdle, hidle]
      refine ⟨⟨fun n _ => Or.inl rfl, ?_⟩, Or.inr ⟨trivial, trivial⟩⟩
      intro n hn
      rw [hidle] at hn
      cases hn
    | cons oldest rest =>
      simp only [Actor.popOldestIdle, hidle]
      rw [startConnection_spec (by exact halive)]
      refine ⟨⟨?_, ?_⟩, Or.inl ⟨rfl, AList.lookup_insert _, rfl⟩⟩
      · intro n hn
        rw [AList.lookup_insert_ne hn]
        by_cases hold : n = oldest
        · subst hold
          refine Or.inr ⟨by rw [hidle]; exact List.mem_cons_self, AList.lookup_erase _ _⟩
        · exact Or.inl (AList.lookup_erase_ne hold)
      · intro n hn
        have hmem : n ∈ s.idle := by
          rw [hidle]
          exact List.mem_cons_of_mem _ hn
        refine ⟨hmem, ?_⟩
        rintro rfl
        exact hid hmem
  · rw [startConnection_spec halive]
    refine ⟨⟨?_, ?_⟩, Or.inl ⟨rfl, AList.lookup_insert _, rfl⟩⟩
    · intro n hn
      exact Or.inl (AList.lookup_insert_ne hn)
    · intro n hn
      refine ⟨hn, ?_⟩
      rintro rfl
      exact hid hn

/-- A request goes to the connection actor of the node, or to a new one, or it is refused. -/
private theorem handleRequestRef_spec (maxConnections : Nat) {s : Actor N} (halive : alive s.tasks = true) (id : N) :
    Requested s (s.handleRequestRef maxConnections alive id).1 id ∧
      ((∃ actor, s.connections.lookup id = some actor ∧ alive actor = true ∧
          (s.handleRequestRef maxConnections alive id).2 = .sent actor ∧
          (s.handleRequestRef maxConnections alive id).1.connections.lookup id = some actor ∧
          (s.handleRequestRef maxConnections alive id).1.tasks = s.tasks) ∨
        (∀ actor, s.connections.lookup id = some actor → alive actor = false) ∧
          ((s.handleRequestRef maxConnections alive id).2 = .sent s.tasks ∧
              (s.handleRequestRef maxConnections alive id).1.connections.lookup id = some s.tasks ∧
              (s.handleRequestRef maxConnections alive id).1.tasks = s.tasks + 1 ∨
            (s.handleRequestRef maxConnections alive id).2 = .tooManyConnections ∧
              (s.handleRequestRef maxConnections alive id).1.connections.lookup id = none ∧
              (s.handleRequestRef maxConnections alive id).1.tasks = s.tasks)) := by
  have hidle : id ∉ (s.removeIdle id).idle := fun h => (Actor.mem_removeIdle.mp h).2 rfl
  unfold Actor.handleRequestRef
  simp only [Actor.connections_removeIdle]
  cases hlookup : s.connections.lookup id with
  | none =>
    have hspec := openConnection_spec maxConnections (s := s.removeIdle id) halive hidle hlookup
    obtain ⟨⟨hothers, hsub⟩, hcases⟩ := hspec
    refine ⟨⟨?_, ?_⟩, Or.inr ⟨by rintro _ ⟨⟩, ?_⟩⟩
    · intro n hn
      exact (hothers n hn).imp_right (fun h => ⟨(Actor.mem_removeIdle.mp h.1).1, h.2⟩)
    · intro n hn
      exact Actor.mem_removeIdle.mp (hsub n hn).1
    · refine hcases.imp_right ?_
      rintro ⟨hreply, hsame⟩
      rw [hsame]
      exact ⟨hreply, hlookup, rfl⟩
  | some actor =>
    simp only
    cases hal : alive actor with
    | true =>
      simp only [if_true]
      refine ⟨⟨fun n _ => Or.inl rfl, fun n hn => Actor.mem_removeIdle.mp hn⟩,
        Or.inl ⟨actor, rfl, hal, rfl, hlookup, rfl⟩⟩
    | false =>
      simp only [Bool.false_eq_true, if_false]
      have hidle' : id ∉ ((s.removeIdle id).removeConnection id).idle := fun h => (Actor.mem_removeIdle.mp h).2 rfl
      have hgone : ((s.removeIdle id).removeConnection id).connections.lookup id = none := AList.lookup_erase _ _
      have hspec := openConnection_spec maxConnections (s := (s.removeIdle id).removeConnection id)
        halive hidle' hgone
      obtain ⟨⟨hothers, hsub⟩, hcases⟩ := hspec
      refine ⟨⟨?_, ?_⟩, Or.inr ⟨?_, ?_⟩⟩
      · intro n hn
        have hsame : ((s.removeIdle id).removeConnection id).connections.lookup n = s.connections.lookup n :=
          AList.lookup_erase_ne hn
        rcases hothers n hn with h | ⟨h1, h2⟩
        · exact Or.inl (h.trans hsame)
        · exact Or.inr ⟨(Actor.mem_removeIdle.mp (Actor.mem_removeIdle.mp h1).1).1, h2⟩
      · intro n hn
        exact Actor.mem_removeIdle.mp (Actor.mem_removeIdle.mp (hsub n hn).1).1
      · rintro _ ⟨⟩
        exact hal
      · refine hcases.imp_right ?_
        rintro ⟨hreply, hsame⟩
        rw [hsame]
        exact ⟨hreply, hgone, rfl⟩

end

/-! ### What a connection actor does -/

namespace ConnectionActor

variable {x x' : ConnectionActor N}

/-- No reference is in use, and no request waits. -/
def Unused (x : ConnectionActor N) : Prop := x.count = 0 ∧ x.queue = 0

/-- If the actor was not sent more requests than the stamp says, it is not in use. -/
def Quiet (x : ConnectionActor N) (stamp : Nat) : Prop := stamp ≤ x.sent ∧ (x.sent = stamp → x.Unused)

/-- The idle timer runs only while no reference is in use, and the branches say what they are about to report. -/
structure Inv (x : ConnectionActor N) : Prop where
  connecting : x.phase = .connecting → x.conn = .pending
  idleTimer : x.idleTimer = true → x.count = 0
  notified : ∀ stamp, x.phase = .notified stamp → stamp ≤ x.sent ∧ (x.sent = stamp → x.queue = 0)
  idle : ∀ stamp, x.phase = .idle stamp → x.count = 0 ∧ x.Quiet stamp
  expired : ∀ stamp, x.phase = .expired stamp → x.count = 0 ∧ x.Quiet stamp
  failed : x.phase = .failed → x.conn = .error
  closed : x.phase = .closed → x.closed = true

/-- What was reported of an actor stays true. -/
structure Keeps (x x' : ConnectionActor N) : Prop where
  node : x'.node = x.node
  quiet : ∀ stamp, x.Quiet stamp → x'.Quiet stamp
  error : x.conn = .error → x'.conn = .error
  closed : x.closed = true → x'.closed = true

private theorem inv_new (node : N) : Inv (new node) := by
  refine ⟨?_, ?_, ?_, ?_, ?_, ?_, ?_⟩ <;> simp [new]

private theorem keeps_enqueue (x : ConnectionActor N) : Keeps x x.enqueue := by
  refine ⟨rfl, ?_, id, id⟩
  intro stamp hq
  refine ⟨Nat.le_succ_of_le hq.1, fun heq => ?_⟩
  have hle := hq.1
  simp only [ConnectionActor.enqueue] at heq
  omega

private theorem Inv.enqueue (h : Inv x) : Inv x.enqueue := by
  have hkeeps := keeps_enqueue x
  refine ⟨h.connecting, h.idleTimer, ?_, ?_, ?_, h.failed, h.closed⟩
  · intro stamp hphase
    have hle := (h.notified stamp hphase).1
    refine ⟨Nat.le_succ_of_le hle, fun heq => ?_⟩
    simp only [ConnectionActor.enqueue] at heq
    omega
  · intro stamp hphase
    obtain ⟨hcount, hq⟩ := h.idle stamp hphase
    exact ⟨hcount, hkeeps.quiet stamp hq⟩
  · intro stamp hphase
    obtain ⟨hcount, hq⟩ := h.expired stamp hphase
    exact ⟨hcount, hkeeps.quiet stamp hq⟩

/-- A step in which neither requests nor references come or go. -/
theorem keeps_of_same (hnode : x'.node = x.node) (hsent : x'.sent = x.sent) (hqueue : x'.queue = x.queue)
    (hcount : x'.count = x.count) (herror : x.conn = .error → x'.conn = .error)
    (hclosed : x.closed = true → x'.closed = true) :
    Keeps x x' ∧ (x.Unused → x'.Unused) := by
  have hunused : x.Unused → x'.Unused := by
    rintro ⟨h1, h2⟩
    exact ⟨hcount.trans h1, hqueue.trans h2⟩
  refine ⟨⟨hnode, ?_, herror, hclosed⟩, hunused⟩
  intro stamp hq
  refine ⟨by rw [hsent]; exact hq.1, fun heq => hunused (hq.2 (by rw [← hsent]; exact heq))⟩

private theorem keeps_phase (x : ConnectionActor N) (phase : Phase) (idleTimer : Bool) :
    Keeps x { x with phase, idleTimer } ∧ (x.Unused → Unused { x with phase, idleTimer }) :=
  keeps_of_same rfl rfl rfl rfl id id

/-- A step with the actor or its references in use. -/
theorem keeps_of_used (hnode : x'.node = x.node) (hsent : x'.sent = x.sent) (hused : ¬ x.Unused)
    (herror : x.conn = .error → x'.conn = .error) (hclosed : x.closed = true → x'.closed = true) :
    Keeps x x' ∧ (x.Unused → x'.Unused) := by
  refine ⟨⟨hnode, ?_, herror, hclosed⟩, fun h => absurd h hused⟩
  intro stamp hq
  refine ⟨by rw [hsent]; exact hq.1, fun heq => absurd (hq.2 (by rw [← hsent]; exact heq)) hused⟩

/-- Back in the loop, only the timer matters. -/
theorem inv_of_selecting (hphase : x'.phase = .selecting ∨ x'.phase = .exited)
    (htimer : x'.idleTimer = true → x'.count = 0) :
    Inv x' := by
  refine ⟨?_, htimer, ?_, ?_, ?_, ?_, ?_⟩ <;> rcases hphase with h | h <;> simp [h]

private theorem Inv.recv (h : Inv x) {isOpen : Bool} (hstep : x.recv isOpen = some x') :
    Inv x' ∧ Keeps x x' ∧ (x.Unused → x'.Unused) := by
  unfold ConnectionActor.recv at hstep
  split at hstep
  · cases hstep
  · rename_i hphase
    have hsel : x.phase = .selecting := by simpa using hphase
    split at hstep
    · rename_i hqueue
      have hused : ¬ x.Unused := fun hu => by
        have := hu.2
        omega
      split at hstep
      · cases hstep
        refine ⟨inv_of_selecting (Or.inl hsel) (by simp), ?_⟩
        exact keeps_of_used rfl rfl hused id id
      · cases hstep
        refine ⟨inv_of_selecting (Or.inl hsel) h.idleTimer, ?_⟩
        exact keeps_of_used rfl rfl hused id id
    · split at hstep
      · cases hstep
      · cases hstep
        refine ⟨inv_of_selecting (Or.inr rfl) h.idleTimer, ?_⟩
        exact keeps_of_same rfl rfl rfl rfl id id

private theorem Inv.select (h : Inv x) {isOpen : Bool} {branch : Branch} (hstep : x.select isOpen branch = some x') :
    Inv x' ∧ Keeps x x' ∧ (x.Unused → x'.Unused) := by
  unfold ConnectionActor.select at hstep
  split at hstep
  · cases hstep
  · rename_i hcond
    have hqueue : x.queue = 0 := by
      by_contra hne
      exact hcond (Or.inr (Or.inl (Nat.pos_of_ne_zero hne)))
    cases branch with
    | connClose =>
      simp only at hstep
      split at hstep
      · rename_i hclosed
        cases hstep
        refine ⟨⟨by simp, h.idleTimer, by simp, by simp, by simp, by simp, ?_⟩, keeps_of_same rfl rfl rfl rfl id id⟩
        intro _
        exact (Bool.and_eq_true_iff.mp hclosed).1
      · cases hstep
    | idleStream =>
      simp only at hstep
      split at hstep
      · cases hstep
        refine ⟨⟨by simp, h.idleTimer, ?_, by simp, by simp, by simp, by simp⟩, keeps_of_same rfl rfl rfl rfl id id⟩
        intro stamp hstamp
        cases hstamp
        exact ⟨Nat.le_refl _, fun _ => hqueue⟩
      · cases hstep
    | idleTimer =>
      simp only at hstep
      split at hstep
      · rename_i htimer
        cases hstep
        have hcount : x.count = 0 := h.idleTimer (Bool.and_eq_true_iff.mp htimer).2
        refine ⟨⟨by simp, by simp, by simp, by simp, ?_, by simp, by simp⟩, keeps_of_same rfl rfl rfl rfl id id⟩
        intro stamp hstamp
        cases hstamp
        exact ⟨hcount, Nat.le_refl _, fun _ => ⟨hcount, hqueue⟩⟩
      · cases hstep

/-- One step of a connection actor. -/
private theorem Inv.move (h : Inv x) {isOpen : Bool} {event : ActorEvent} (hstep : x.move isOpen event = some x') :
    Inv x' ∧ Keeps x x' ∧ (x.Unused → x'.Unused) := by
  cases event with
  | connect ok =>
    simp only [ConnectionActor.move] at hstep
    split at hstep
    · cases hstep
    · rename_i hphase
      have hpending : x.conn = .pending := h.connecting (by simpa using hphase)
      have hnoerror : ∀ {c : Conn}, x.conn = .error → c = .error := by
        intro c herror
        rw [hpending] at herror
        cases herror
      split at hstep
      · cases hstep
        refine ⟨inv_of_selecting (Or.inl rfl) h.idleTimer, ?_⟩
        exact keeps_of_same rfl rfl rfl rfl hnoerror id
      · cases hstep
        refine ⟨⟨by simp, h.idleTimer, by simp, by simp, by simp, fun _ => rfl, by simp⟩, ?_⟩
        exact keeps_of_same rfl rfl rfl rfl hnoerror id
  | peerClose =>
    simp only [ConnectionActor.move] at hstep
    split at hstep
    · cases hstep
      refine ⟨⟨h.connecting, h.idleTimer, h.notified, h.idle, h.expired, h.failed, fun _ => rfl⟩, ?_⟩
      exact keeps_of_same rfl rfl rfl rfl id (fun _ => rfl)
    · cases hstep
  | recv => exact h.recv hstep
  | select branch => exact h.select hstep
  | check =>
    simp only [ConnectionActor.move] at hstep
    split at hstep
    · rename_i stamp hphase
      cases hstep
      refine ⟨?_, keeps_of_same rfl rfl rfl rfl id id⟩
      obtain ⟨hle, hqueue⟩ := h.notified stamp hphase
      by_cases hcount : x.count = 0
      · simp only [hcount, if_true]
        refine ⟨by simp, fun _ => rfl, by simp, ?_, by simp, by simp, by simp⟩
        intro stamp' hstamp
        cases hstamp
        exact ⟨rfl, hle, fun heq => ⟨rfl, hqueue heq⟩⟩
      · refine inv_of_selecting (Or.inl ?_) h.idleTimer
        simp only [hcount, if_false]
    · cases hstep
  | send => cases hstep
  | dropRef wakes =>
    simp only [ConnectionActor.move] at hstep
    split at hstep
    · cases hstep
    · rename_i hcount
      cases hstep
      have hused : ¬ x.Unused := fun hu => hcount hu.1
      refine ⟨⟨h.connecting, ?_, h.notified, ?_, ?_, h.failed, h.closed⟩, keeps_of_used rfl rfl hused id id⟩
      · intro htimer
        exact absurd (h.idleTimer htimer) hcount
      · intro stamp hphase
        exact absurd (h.idle stamp hphase).1 hcount
      · intro stamp hphase
        exact absurd (h.expired stamp hphase).1 hcount
  | die =>
    cases hstep
    refine ⟨inv_of_selecting (Or.inr rfl) h.idleTimer, ?_⟩
    exact keeps_of_same rfl rfl rfl rfl id id

end ConnectionActor

/-! ### The invariant -/

namespace System

/-- A message says the truth about the actor that sent it. -/
def Describes (actors : Nat → Option (ConnectionActor N)) : Message N → Prop
  | .requestRef _ | .connectionShutdown _ .user => True
  | .connectionIdle _ actor stamp | .connectionShutdown _ (.expired actor stamp) =>
    ∃ x, actors actor = some x ∧ x.Quiet stamp
  | .connectionShutdown _ (.failed actor) => ∃ x, actors actor = some x ∧ x.conn = .error
  | .connectionShutdown _ (.closed actor) => ∃ x, actors actor = some x ∧ x.closed = true

variable [DecidableEq N]

/-- The connections in the idle queue are not in use. -/
structure Inv (s : System N) : Prop where
  tasks : ∀ actor, s.pool.tasks ≤ actor → s.actors actor = none
  actors : ∀ actor x, s.actors actor = some x → x.Inv
  connections : ∀ id actor, s.pool.connections.lookup id = some actor → ∃ x, s.actors actor = some x ∧ x.node = id
  idle : ∀ id ∈ s.pool.idle, ∀ actor x, s.pool.connections.lookup id = some actor → s.actors actor = some x → x.Unused
  inbox : ∀ msg ∈ s.inbox, Describes s.actors msg

variable {maxConnections : Nat} {s s' : System N}

private theorem inv_new : Inv (new : System N) := by
  refine ⟨fun _ _ => rfl, by simp [new], by simp [new, Actor.new], by simp [new, Actor.new], by simp [new]⟩

omit [DecidableEq N] in
/-- What a message says stays true when an actor moves on. -/
theorem Describes.update {actors : Nat → Option (ConnectionActor N)} {msg : Message N}
    (h : Describes actors msg) {actor : Nat}
    {x' : ConnectionActor N} (hkeeps : ∀ x, actors actor = some x → x.Keeps x') :
    Describes (Function.update actors actor (some x')) msg := by
  have htransfer : ∀ {p : ConnectionActor N → Prop} {b : Nat}, (∀ x, actors actor = some x → p x → p x') →
      (∃ x, actors b = some x ∧ p x) → ∃ x, Function.update actors actor (some x') b = some x ∧ p x := by
    rintro p b hp ⟨x, hx, hpx⟩
    by_cases hb : b = actor
    · subst hb
      exact ⟨x', Function.update_self .., hp x hx hpx⟩
    · exact ⟨x, by rw [Function.update_of_ne hb]; exact hx, hpx⟩
  cases msg with
  | requestRef id => trivial
  | connectionIdle id b stamp => exact htransfer (fun x hx => (hkeeps x hx).quiet stamp) h
  | connectionShutdown id cause =>
    cases cause with
    | user => trivial
    | failed b => exact htransfer (fun x hx => (hkeeps x hx).error) h
    | closed b => exact htransfer (fun x hx => (hkeeps x hx).closed) h
    | expired b stamp => exact htransfer (fun x hx => (hkeeps x hx).quiet stamp) h

private theorem Inv.push (h : Inv s) {msg : Message N} (hmsg : Describes s.actors msg)
    (hpush : s.push msg = some s') : Inv s' := by
  unfold System.push at hpush
  split at hpush
  · cases hpush
    refine ⟨h.tasks, h.actors, h.connections, h.idle, ?_⟩
    intro msg' hmem
    rcases List.mem_append.mp hmem with hmem | hmem
    · exact h.inbox msg' hmem
    · rw [List.mem_singleton.mp hmem]
      exact hmsg
  · cases hpush

/-- A connection actor moves on. -/
theorem Inv.setActor (h : Inv s) {actor : Nat} {x x' : ConnectionActor N} (hx : s.actors actor = some x) (hinv : x'.Inv)
    (hkeeps : x.Keeps x') (hunused : x.Unused → x'.Unused) : Inv (s.setActor actor x') := by
  have hcases : ∀ b y, Function.update s.actors actor (some x') b = some y →
      b = actor ∧ y = x' ∨ b ≠ actor ∧ s.actors b = some y := by
    intro b y hy
    by_cases hb : b = actor
    · subst hb
      rw [Function.update_self] at hy
      exact Or.inl ⟨rfl, (Option.some.inj hy).symm⟩
    · rw [Function.update_of_ne hb] at hy
      exact Or.inr ⟨hb, hy⟩
  refine ⟨?_, ?_, ?_, ?_, ?_⟩
  · intro b hb
    have hne : b ≠ actor := by
      rintro rfl
      rw [h.tasks b hb] at hx
      cases hx
    exact (Function.update_of_ne hne ..).trans (h.tasks b hb)
  · intro b y hy
    rcases hcases b y hy with ⟨rfl, rfl⟩ | ⟨-, hy⟩
    · exact hinv
    · exact h.actors b y hy
  · intro id b hb
    obtain ⟨y, hy, hnode⟩ := h.connections id b hb
    by_cases hb' : b = actor
    · subst hb'
      rw [hx, Option.some.injEq] at hy
      subst hy
      exact ⟨x', Function.update_self .., hkeeps.node.trans hnode⟩
    · exact ⟨y, (Function.update_of_ne hb' ..).trans hy, hnode⟩
  · intro id hid b y hb hy
    rcases hcases b y hy with ⟨rfl, rfl⟩ | ⟨-, hy⟩
    · exact hunused (h.idle id hid b x hb hx)
    · exact h.idle id hid b y hb hy
  · intro msg hmsg
    refine (h.inbox msg hmsg).update ?_
    intro y hy
    rw [hx, Option.some.injEq] at hy
    subst hy
    exact hkeeps

/-- A connection actor reports what is true. -/
private theorem Inv.send (h : Inv s) {actor : Nat} {x x' : ConnectionActor N} {msg : Message N}
    (hx : s.actors actor = some x)
    (hsend : x.send actor = some (x', msg)) : Inv (s.setActor actor x') ∧
      Describes (s.setActor actor x').actors msg := by
  have hinv := h.actors actor x hx
  have hself : (s.setActor actor x').actors actor = some x' := Function.update_self ..
  unfold ConnectionActor.send at hsend
  split at hsend
  · rename_i hphase
    cases hsend
    obtain ⟨hkeeps, hunused⟩ := x.keeps_phase .selecting x.idleTimer
    refine ⟨h.setActor hx ?_ hkeeps hunused, _, hself, hinv.failed hphase⟩
    exact ConnectionActor.inv_of_selecting (Or.inl rfl) hinv.idleTimer
  · rename_i hphase
    cases hsend
    obtain ⟨hkeeps, hunused⟩ := x.keeps_phase .selecting x.idleTimer
    refine ⟨h.setActor hx ?_ hkeeps hunused, _, hself, hinv.closed hphase⟩
    exact ConnectionActor.inv_of_selecting (Or.inl rfl) hinv.idleTimer
  · rename_i stamp hphase
    cases hsend
    obtain ⟨hcount, hquiet⟩ := hinv.idle stamp hphase
    obtain ⟨hkeeps, hunused⟩ := x.keeps_phase .selecting true
    refine ⟨h.setActor hx ?_ hkeeps hunused, _, hself, hkeeps.quiet stamp hquiet⟩
    exact ConnectionActor.inv_of_selecting (Or.inl rfl) (fun _ => hcount)
  · rename_i stamp hphase
    cases hsend
    obtain ⟨hcount, hquiet⟩ := hinv.expired stamp hphase
    obtain ⟨hkeeps, hunused⟩ := x.keeps_phase .selecting x.idleTimer
    refine ⟨h.setActor hx ?_ hkeeps hunused, _, hself, hkeeps.quiet stamp hquiet⟩
    exact ConnectionActor.inv_of_selecting (Or.inl rfl) hinv.idleTimer
  · cases hsend

/-- The pool gives up connections. -/
theorem Inv.shrink (h : Inv s) {pool : Actor N} {inbox : List (Message N)} (htasks : pool.tasks = s.pool.tasks)
    (hconn : ∀ id actor, pool.connections.lookup id = some actor → s.pool.connections.lookup id = some actor)
    (hidle : ∀ id ∈ pool.idle, ∀ actor x, pool.connections.lookup id = some actor → s.actors actor = some x → x.Unused)
    (hinbox : ∀ msg ∈ inbox, msg ∈ s.inbox) : Inv ⟨pool, s.actors, inbox⟩ := by
  refine ⟨?_, h.actors, ?_, hidle, ?_⟩
  · intro actor hle
    exact h.tasks actor (by rw [← htasks]; exact hle)
  · intro id actor hlookup
    exact h.connections id actor (hconn id actor hlookup)
  · intro msg hmsg
    exact h.inbox msg (hinbox msg hmsg)

/-- A request is sent to a connection actor, which may be new. -/
private theorem Inv.sent (h : Inv s) {pool : Actor N} {inbox : List (Message N)} {id : N} {actor : Nat}
    (hrequested : Requested s.pool pool id) (hself : pool.connections.lookup id = some actor)
    (hactor : s.pool.connections.lookup id = some actor ∧ pool.tasks = s.pool.tasks ∨
      actor = s.pool.tasks ∧ pool.tasks = s.pool.tasks + 1) (hinbox : ∀ msg ∈ inbox, msg ∈ s.inbox) :
    Inv (System.setActor ⟨pool, s.actors, inbox⟩ actor ((s.actors actor).getD (.new id)).enqueue) := by
  -- the actor is that of the node, or it is new
  have hnode : ∀ x, s.actors actor = some x → x.node = id ∧ x.Inv := by
    intro x hx
    rcases hactor with ⟨hold, -⟩ | ⟨rfl, -⟩
    · obtain ⟨y, hy, hynode⟩ := h.connections id actor hold
      rw [hx, Option.some.injEq] at hy
      subst hy
      exact ⟨hynode, h.actors actor x hx⟩
    · rw [h.tasks _ (Nat.le_refl _)] at hx
      cases hx
  have hx : ((s.actors actor).getD (.new id)).node = id ∧ ((s.actors actor).getD (.new id)).Inv := by
    cases hactors : s.actors actor with
    | none => exact ⟨rfl, ConnectionActor.inv_new id⟩
    | some x => exact hnode x hactors
  have hother : ∀ n, n ≠ id → ∀ b, pool.connections.lookup n = some b → s.pool.connections.lookup n = some b := by
    intro n hn b hb
    rcases hrequested.others n hn with heq | ⟨-, hnone⟩
    · rw [← heq]
      exact hb
    · rw [hnone] at hb
      cases hb
  have hdistinct : ∀ n, n ≠ id → ∀ b, pool.connections.lookup n = some b → b ≠ actor := by
    rintro n hn b hb rfl
    obtain ⟨y, hy, hynode⟩ := h.connections n b (hother n hn b hb)
    exact hn (hynode.symm.trans (hnode y hy).1)
  refine ⟨?_, ?_, ?_, ?_, ?_⟩
  · intro b hb
    have hle : s.pool.tasks ≤ b ∧ b ≠ actor := by
      rcases hactor with ⟨hold, htasks⟩ | ⟨rfl, htasks⟩
      · refine ⟨by rw [← htasks]; exact hb, ?_⟩
        rintro rfl
        obtain ⟨y, hy, -⟩ := h.connections id b hold
        rw [h.tasks b (by rw [← htasks]; exact hb)] at hy
        cases hy
      · have : pool.tasks ≤ b := hb
        omega
    exact (Function.update_of_ne hle.2 ..).trans (h.tasks b hle.1)
  · intro b y hy
    by_cases hb : b = actor
    · subst hb
      have heq : some _ = some y := (Function.update_self b _ s.actors).symm.trans hy
      cases heq
      exact hx.2.enqueue
    · have hy' : s.actors b = some y := (Function.update_of_ne hb _ s.actors).symm.trans hy
      exact h.actors b y hy'
  · intro n b hb
    by_cases hn : n = id
    · subst hn
      have hsame : b = actor := by
        have heq : some b = some actor := hb.symm.trans hself
        exact Option.some.inj heq
      subst hsame
      exact ⟨_, Function.update_self .., hx.1⟩
    · obtain ⟨y, hy, hynode⟩ := h.connections n b (hother n hn b hb)
      exact ⟨y, (Function.update_of_ne (hdistinct n hn b hb) ..).trans hy, hynode⟩
  · intro n hn b y hb hy
    obtain ⟨hidle, hne⟩ := hrequested.idle n hn
    have hy' : s.actors b = some y := (Function.update_of_ne (hdistinct n hne b hb) _ s.actors).symm.trans hy
    exact h.idle n hidle b y (hother n hne b hb) hy'
  · intro msg hmsg
    refine (h.inbox msg (hinbox msg hmsg)).update ?_
    intro y hy
    rw [hy, Option.getD_some]
    exact y.keeps_enqueue

omit [DecidableEq N] in
/-- An actor without a receiver has exited. -/
private theorem exited_of_not_alive {actor : Nat} {x : ConnectionActor N} (hx : s.actors actor = some x)
    (halive : s.alive actor = false) : x.phase = .exited := by
  unfold alive at halive
  rw [hx] at halive
  simpa using halive

/-- The pool handles a request. -/
private theorem Inv.handleRequest (h : Inv s) {id : N} {inbox : List (Message N)}
    (hinbox : s.inbox = .requestRef id :: inbox)
    (hstep : System.handle maxConnections { s with inbox } (.requestRef id) = some s') :
    Inv s' ∧ ∀ actor, Drops s s' actor → MayClose s .handle actor := by
  have halive : s.alive s.pool.tasks = true := by
    unfold alive
    rw [h.tasks _ (Nat.le_refl _)]
  obtain ⟨hrequested, hcases⟩ := handleRequestRef_spec maxConnections halive id
  have hsub : ∀ msg ∈ inbox, msg ∈ s.inbox := by
    intro msg hmsg
    rw [hinbox]
    exact List.mem_cons_of_mem _ hmsg
  -- only an idle connection of another node is dropped, or that of an actor that has exited
  have hdrops : ∀ (t : System N), t.pool = (s.pool.handleRequestRef maxConnections s.alive id).1 →
      ∀ actor, Drops s t actor → MayClose s .handle actor := by
    rintro t ht actor ⟨n, hbefore, hafter⟩
    rw [ht] at hafter
    obtain ⟨x, hx, -⟩ := h.connections n actor hbefore
    refine Or.inr ⟨x, hx, ?_⟩
    by_cases hn : n = id
    · subst hn
      rcases hcases with ⟨b, hb, -, -, hself, -⟩ | ⟨hdead, -⟩
      · rw [hbefore, Option.some.injEq] at hb
        subst hb
        exact absurd hself hafter
      · exact Or.inr (Or.inr (Or.inl (exited_of_not_alive hx (hdead actor hbefore))))
    · rcases hrequested.others n hn with heq | ⟨hidle, -⟩
      · exact absurd (heq.trans hbefore) hafter
      · exact Or.inr (Or.inr (Or.inr (h.idle n hidle actor x hbefore hx)))
  have hcomp : System.handle maxConnections { s with inbox } (.requestRef id) =
      match (s.pool.handleRequestRef maxConnections s.alive id).2 with
      | .sent actor =>
        if ((s.actors actor).getD (.new id)).queue < capacity then
          some (System.setActor ⟨(s.pool.handleRequestRef maxConnections s.alive id).1, s.actors, inbox⟩ actor
            ((s.actors actor).getD (.new id)).enqueue)
        else none
      | .lost | .tooManyConnections =>
        some ⟨(s.pool.handleRequestRef maxConnections s.alive id).1, s.actors, inbox⟩ := rfl
  rw [hcomp] at hstep
  rcases hcases with ⟨actor, hlookup, -, hreply, hself, htasks⟩ | ⟨-, ⟨hreply, hself, htasks⟩ | ⟨hreply, hself, htasks⟩⟩
  · rw [hreply] at hstep
    simp only at hstep
    split at hstep
    · cases hstep
      exact ⟨h.sent hrequested hself (Or.inl ⟨hlookup, htasks⟩) hsub, hdrops _ rfl⟩
    · cases hstep
  · rw [hreply] at hstep
    simp only at hstep
    split at hstep
    · cases hstep
      exact ⟨h.sent hrequested hself (Or.inr ⟨rfl, htasks⟩) hsub, hdrops _ rfl⟩
    · cases hstep
  · rw [hreply] at hstep
    cases hstep
    have hother : ∀ n actor, (s.pool.handleRequestRef maxConnections s.alive id).1.connections.lookup n = some actor →
        s.pool.connections.lookup n = some actor := by
      intro n actor hn
      by_cases hid : n = id
      · subst hid
        rw [hself] at hn
        cases hn
      · rcases hrequested.others n hid with heq | ⟨-, hnone⟩
        · rw [← heq]
          exact hn
        · rw [hnone] at hn
          cases hn
    refine ⟨h.shrink htasks hother ?_ hsub, hdrops _ rfl⟩
    intro n hn actor x hlookup hx
    exact h.idle n (hrequested.idle n hn).1 actor x (hother n actor hlookup) hx

/-- The pool handles the report of a connection actor, or a request to close. -/
private theorem Inv.handleReport (h : Inv s) {msg : Message N} {inbox : List (Message N)}
    (hinbox : s.inbox = msg :: inbox)
    (hfresh : s.FreshMessage msg) (hmsg : ∀ id, msg ≠ .requestRef id)
    (hs' : s' = ⟨s.pool.handleMsg maxConnections s.alive msg.erase, s.actors, inbox⟩) :
    Inv s' ∧ ∀ actor, Drops s s' actor → MayClose s .handle actor := by
  have hdescribes : Describes s.actors msg := h.inbox msg (by rw [hinbox]; exact List.mem_cons_self)
  have hsub : ∀ m ∈ inbox, m ∈ s.inbox := by
    intro m hm
    rw [hinbox]
    exact List.mem_cons_of_mem _ hm
  subst hs'
  cases msg with
  | requestRef id => exact absurd rfl (hmsg id)
  | connectionIdle id a stamp =>
    refine ⟨h.shrink rfl (fun _ _ hl => hl) ?_ hsub, ?_⟩
    · intro n hn actor x hlookup hx
      rcases List.mem_append.mp hn with hn | hn
      · exact h.idle n (Actor.mem_removeIdle.mp hn).1 actor x hlookup hx
      · rw [List.mem_singleton.mp hn] at hlookup
        obtain ⟨rfl, hsent⟩ := hfresh actor x hlookup hx
        obtain ⟨y, hy, hquiet⟩ := hdescribes
        rw [hx, Option.some.injEq] at hy
        subst hy
        exact hquiet.2 hsent
    · rintro actor ⟨n, hbefore, hafter⟩
      exact absurd hbefore hafter
  | connectionShutdown id cause =>
    have hkept : ∀ n, n ≠ id → (s.pool.removeConnection id).connections.lookup n = s.pool.connections.lookup n :=
      fun n hn => AList.lookup_erase_ne hn
    have hother : ∀ n actor, (s.pool.removeConnection id).connections.lookup n = some actor →
        s.pool.connections.lookup n = some actor := by
      intro n actor hn
      by_cases hid : n = id
      · subst hid
        have hnone : (s.pool.removeConnection n).connections.lookup n = none := AList.lookup_erase _ _
        rw [hnone] at hn
        cases hn
      · rw [← hkept n hid]
        exact hn
    refine ⟨h.shrink rfl hother ?_ hsub, ?_⟩
    · intro n hn actor x hlookup hx
      exact h.idle n (Actor.mem_removeIdle.mp hn).1 actor x (hother n actor hlookup) hx
    · rintro actor ⟨n, hbefore, hafter⟩
      have hn : n = id := by
        by_contra hne
        exact hafter ((hkept n hne).trans hbefore)
      subst hn
      obtain ⟨x, hx, -⟩ := h.connections n actor hbefore
      -- the report was about this very actor
      have hsame : ∀ {p : ConnectionActor N → Prop}, (∃ y, s.actors actor = some y ∧ p y) → p x := by
        rintro p ⟨y, hy, hp⟩
        rw [hx, Option.some.injEq] at hy
        subst hy
        exact hp
      cases cause with
      | user => exact Or.inl ⟨n, inbox, rfl, hinbox, hbefore⟩
      | failed b =>
        obtain rfl : actor = b := hfresh actor hbefore
        exact Or.inr ⟨x, hx, Or.inl (hsame hdescribes)⟩
      | closed b =>
        obtain rfl : actor = b := hfresh actor hbefore
        exact Or.inr ⟨x, hx, Or.inr (Or.inl (hsame hdescribes))⟩
      | expired b stamp =>
        obtain ⟨rfl, hsent⟩ := hfresh actor x hbefore hx
        have hquiet : x.Quiet stamp := hsame hdescribes
        exact Or.inr ⟨x, hx, Or.inr (Or.inr (Or.inr (hquiet.2 hsent)))⟩

/-- One step. -/
private theorem Inv.step (h : Inv s) {event : Event N} (hfresh : s.Fresh event)
    (hstep : s.step maxConnections event = some s') :
    Inv s' ∧ ∀ actor, Drops s s' actor → MayClose s event actor := by
  have hsame : ∀ {t : System N}, t.pool = s.pool → ∀ actor, Drops s t actor → MayClose s event actor := by
    rintro t hpool actor ⟨n, hbefore, hafter⟩
    rw [hpool] at hafter
    exact absurd hbefore hafter
  have hpush : ∀ {t t' : System N} {msg : Message N}, t.push msg = some t' → t'.pool = t.pool := by
    intro t t' msg ht
    unfold System.push at ht
    split at ht
    · cases ht
      rfl
    · cases ht
  cases event with
  | request id =>
    have hmsg : Describes s.actors (.requestRef id) := trivial
    exact ⟨h.push hmsg hstep, hsame (hpush hstep)⟩
  | close id =>
    have hmsg : Describes s.actors (.connectionShutdown id .user) := trivial
    exact ⟨h.push hmsg hstep, hsame (hpush hstep)⟩
  | handle =>
    simp only [System.step] at hstep
    split at hstep
    · cases hstep
    · rename_i msg inbox hinbox
      have hmsg := hfresh msg inbox rfl hinbox
      cases msg with
      | requestRef id => exact h.handleRequest hinbox hstep
      | connectionIdle id a stamp =>
        cases hstep
        exact h.handleReport hinbox hmsg (by rintro _ ⟨⟩) rfl
      | connectionShutdown id cause =>
        cases hstep
        exact h.handleReport hinbox hmsg (by rintro _ ⟨⟩) rfl
  | actor a event =>
    cases event with
    | send =>
      simp only [System.step, Option.bind_eq_some_iff] at hstep
      obtain ⟨x, hx, ⟨x', msg⟩, hsend, hpushed⟩ := hstep
      obtain ⟨hinv, hdescribes⟩ := h.send hx hsend
      have hpool : s'.pool = (s.setActor a x').pool := hpush hpushed
      exact ⟨hinv.push hdescribes hpushed, hsame hpool⟩
    | _ =>
      simp only [System.step, Option.bind_eq_some_iff, Option.map_eq_some_iff] at hstep
      obtain ⟨x, hx, x', hmove, rfl⟩ := hstep
      obtain ⟨hinv, hkeeps, hunused⟩ := (h.actors a x hx).move hmove
      exact ⟨h.setActor hx hinv hkeeps hunused, hsame rfl⟩

/-- In every run in which the messages are fresh when the pool handles them, the pool drops the channel of a connection
actor only if the user asked for it, or the connection is gone, or it is not in use and nobody waits for it. -/
theorem closed_unused (maxConnections : Nat) {before after : List (Event N)} {event : Event N} {s s' : System N}
    (hfresh : StateMachine.RunMeets (step maxConnections) Fresh new (before ++ event :: after))
    (hrun : StateMachine.run (step maxConnections) new before = some s) (hstep : s.step maxConnections event = some s')
    {actor : Nat} (hdrops : Drops s s' actor) : MayClose s event actor := by
  have hsafe : ∀ b, Drops s s' b → MayClose s event b :=
    StateMachine.forall_step_of_run (step maxConnections) (fun hinv hf hs => hinv.step hf hs) inv_new hfresh hrun hstep
  exact hsafe actor hdrops

/-- The events up to the first idle message of a connection to node 1 that was used once. -/
def usedOnce : List (Event Nat) :=
  [.request 1, .handle, .actor 0 (.connect true), .actor 0 .recv, .actor 0 (.dropRef true),
    .actor 0 (.select .idleStream), .actor 0 .check, .actor 0 .send, .handle]

private theorem fresh_usedOnce : StateMachine.RunMeets (step 1) Fresh new (usedOnce ++ [.request 2] ++ [.handle]) := by
  have hother : ∀ {s : System Nat} {e : Event Nat}, e ≠ .handle → Fresh s e := fun he _ _ h => absurd h he
  refine .cons _ (hother (by simp)) rfl (.cons _ ?_ rfl ?_)
  · rintro _ _ - ⟨⟩
    trivial
  refine .cons _ (hother (by simp)) rfl (.cons _ (hother (by simp)) rfl (.cons _ (hother (by simp)) rfl ?_))
  refine .cons _ (hother (by simp)) rfl (.cons _ (hother (by simp)) rfl (.cons _ (hother (by simp)) rfl ?_))
  refine .cons _ ?_ rfl (.cons _ (hother (by simp)) rfl (.cons _ ?_ rfl trivial))
  · -- the idle message of actor 0, which was sent one request
    rintro _ _ - ⟨⟩ current x hlookup hx
    cases hlookup
    cases hx
    exact ⟨rfl, rfl⟩
  · rintro _ _ - ⟨⟩
    trivial

/-- The idle connection to node 1 is closed to make room for one to node 2. -/
theorem closed_unused_evicted :
    ∃ s s' : System Nat, StateMachine.run (step 1) new (usedOnce ++ [.request 2]) = some s ∧
      s.step 1 .handle = some s' ∧ Drops s s' 0 ∧ MayClose s .handle 0 := by
  have hdrops : ∃ s s' : System Nat, StateMachine.run (step 1) new (usedOnce ++ [.request 2]) = some s ∧
      s.step 1 .handle = some s' ∧ Drops s s' 0 := ⟨_, _, rfl, rfl, 1, rfl, by decide⟩
  obtain ⟨s, s', hrun, hstep, hd⟩ := hdrops
  exact ⟨s, s', hrun, hstep, hd, closed_unused 1 fresh_usedOnce hrun hstep hd⟩

/-- A request comes in just before the idle timer expires.  The pool forwards it, and then it drops the channel. -/
theorem not_closed_unused_expired :
    ∃ s s' : System Nat, StateMachine.run (step 1) new
        (usedOnce ++ [.actor 0 (.select .idleTimer), .request 1, .actor 0 .send, .handle]) = some s ∧
      s.step 1 .handle = some s' ∧ Drops s s' 0 ∧ ¬ MayClose s .handle 0 := by
  refine ⟨_, _, rfl, rfl, ⟨1, rfl, by decide⟩, ?_⟩
  rintro (⟨id, inbox, -, hinbox, -⟩ | ⟨x, hx, hcases⟩)
  · cases hinbox
  · cases hx
    revert hcases
    decide

end System

end ConnectionPool

end IrohBlobs
