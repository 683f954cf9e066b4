import IrohBlobs.StateMachine
import Mathlib.Data.List.AList

/-!
# The connection pool

The model of the pool actor in `util/connection_pool.rs`.  The pool keeps the connection actors by node, and a queue
of the nodes whose connections are idle, the oldest first.  Connection actors report to the pool by messages that name
only the node, so a message can arrive when the actor that sent it was already removed.

`Bookkeeping` is what the pool relies on: the number of connections is limited, and the idle queue lists connections,
each at most once.  An idle message for a node without a connection breaks it, and nothing else does.
-/

namespace IrohBlobs

namespace ConnectionPool

variable {N : Type}

/-- The messages to the pool.  The channel for the answer to a request is left out. -/
inductive ActorMessage (N : Type)
  | requestRef (id : N)
  | connectionIdle (id : N)
  | connectionShutdown (id : N)

/-- The pool actor.  Connection actors are numbered in the order in which they are started. -/
structure Actor (N : Type) where
  connections : AList (fun _ : N => Nat)
  /-- the idle set, most recent last -/
  idle : List N
  tasks : Nat

/-- What becomes of a request: it is sent to a connection actor, which may turn out to be gone, or it is refused. -/
inductive Reply
  | sent (actor : Nat)
  | lost
  | tooManyConnections
  deriving DecidableEq

namespace Actor

variable [DecidableEq N]

def new : Actor N := ⟨∅, [], 0⟩

def removeIdle (s : Actor N) (id : N) : Actor N := { s with idle := s.idle.filter (fun x => x ≠ id) }

def addIdle (s : Actor N) (id : N) : Actor N :=
  let s := s.removeIdle id
  { s with idle := s.idle ++ [id] }

def popOldestIdle (s : Actor N) : Option (N × Actor N) :=
  match s.idle with
  | [] => none
  | id :: idle => some (id, { s with idle })

def removeConnection (s : Actor N) (id : N) : Actor N :=
  let s := { s with connections := s.connections.erase id }
  s.removeIdle id

/-- A new connection actor is started and gets the request.  `alive` says which actors have their receiver. -/
def startConnection (alive : Nat → Bool) (s : Actor N) (id : N) : Actor N × Reply :=
  let actor := s.tasks
  let s := { s with connections := s.connections.insert id actor, tasks := s.tasks + 1 }
  if alive actor then (s, .sent actor) else ({ s with connections := s.connections.erase id }, .lost)

/-- The part of a request after no connection actor was found, or a dead one: the limit is checked. -/
def openConnection (maxConnections : Nat) (alive : Nat → Bool) (s : Actor N) (id : N) : Actor N × Reply :=
  if maxConnections ≤ s.connections.keys.length then
    match s.popOldestIdle with
    -- the oldest idle connection makes room for one more
    | some (idle, s) => startConnection alive { s with connections := s.connections.erase idle } id
    | none => (s, .tooManyConnections)
  else startConnection alive s id

def handleRequestRef (maxConnections : Nat) (alive : Nat → Bool) (s : Actor N) (id : N) : Actor N × Reply :=
  let s := s.removeIdle id
  match s.connections.lookup id with
  | some actor =>
    if alive actor then (s, .sent actor)
    -- the connection actor died
    else openConnection maxConnections alive (s.removeConnection id) id
  | none => openConnection maxConnections alive s id

def handleMsg (maxConnections : Nat) (alive : Nat → Bool) (s : Actor N) : ActorMessage N → Actor N
  | .requestRef id => (s.handleRequestRef maxConnections alive id).1
  | .connectionIdle id => s.addIdle id
  | .connectionShutdown id => s.removeConnection id

/-! ### Bookkeeping -/

/-- The limit is kept, and the idle queue lists connections, each of them once. -/
structure Bookkeeping (maxConnections : Nat) (s : Actor N) : Prop where
  limit : s.connections.keys.length ≤ maxConnections
  nodup : s.idle.Nodup
  known : ∀ id ∈ s.idle, id ∈ s.connections

variable {maxConnections : Nat} {alive : Nat → Bool} {s : Actor N}

@[simp] theorem mem_removeIdle {id n : N} : n ∈ (s.removeIdle id).idle ↔ n ∈ s.idle ∧ n ≠ id := by
  simp [removeIdle]

@[simp] theorem connections_removeIdle (id : N) : (s.removeIdle id).connections = s.connections := rfl

omit [DecidableEq N] in
private theorem bookkeeping_new : Bookkeeping maxConnections (new : Actor N) :=
  ⟨Nat.zero_le _, List.nodup_nil, by simp [new]⟩

private theorem Bookkeeping.removeIdle (h : Bookkeeping maxConnections s) (id : N) :
    Bookkeeping maxConnections (s.removeIdle id) := by
  refine ⟨h.limit, h.nodup.filter _, ?_⟩
  intro n hn
  exact h.known n (mem_removeIdle.mp hn).1

private theorem Bookkeeping.removeConnection (h : Bookkeeping maxConnections s) (id : N) :
    Bookkeeping maxConnections (s.removeConnection id) := by
  refine ⟨?_, h.nodup.filter _, ?_⟩
  · have hkeys : (s.connections.erase id).keys = s.connections.keys.erase id := AList.keys_erase _ _
    have hle := List.length_erase_le (a := id) (l := s.connections.keys)
    have hlimit := h.limit
    simp only [Actor.removeConnection, connections_removeIdle, hkeys]
    omega
  · intro n hn
    obtain ⟨hin, hne⟩ := mem_removeIdle.mp hn
    exact AList.mem_erase.mpr ⟨hne, h.known n hin⟩

/-- A connection is started if there is room for it. -/
private theorem Bookkeeping.startConnection (h : Bookkeeping maxConnections s)
    (hroom : s.connections.keys.length < maxConnections)
    {id : N} (hid : id ∉ s.connections) : Bookkeeping maxConnections (s.startConnection alive id).1 := by
  have hkeys : s.connections.keys.erase id = s.connections.keys :=
    List.erase_of_not_mem (by simpa [AList.mem_keys] using hid)
  have hlen : (s.connections.insert id s.tasks).keys.length = s.connections.keys.length + 1 := by
    rw [AList.keys_insert, hkeys, List.length_cons]
  unfold Actor.startConnection
  simp only
  split
  · refine ⟨by simp only [hlen]; omega, h.nodup, ?_⟩
    intro n hn
    exact (AList.mem_insert _).mpr (Or.inr (h.known n hn))
  · refine ⟨?_, h.nodup, ?_⟩
    · have hle := List.length_erase_le (a := id) (l := (s.connections.insert id s.tasks).keys)
      simp only [AList.keys_erase]
      rw [AList.keys_insert, hkeys, List.erase_cons_head]
      omega
    · intro n hn
      have hin := h.known n hn
      refine AList.mem_erase.mpr ⟨?_, (AList.mem_insert _).mpr (Or.inr hin)⟩
      rintro rfl
      exact hid hin

/-- The oldest idle connection makes room. -/
private theorem Bookkeeping.evict (h : Bookkeeping maxConnections s) {oldest : N} {s' : Actor N}
    (hpop : s.popOldestIdle = some (oldest, s')) :
    oldest ∈ s.connections ∧ s'.connections = s.connections ∧
      (s.connections.erase oldest).keys.length + 1 = s.connections.keys.length ∧
      Bookkeeping maxConnections { s' with connections := s'.connections.erase oldest } := by
  unfold popOldestIdle at hpop
  split at hpop
  · cases hpop
  · rename_i id idle hidle
    cases hpop
    have hnodup := h.nodup
    rw [hidle, List.nodup_cons] at hnodup
    have hmem : oldest ∈ s.connections := h.known oldest (by rw [hidle]; exact List.mem_cons_self)
    have hlen : (s.connections.erase oldest).keys.length + 1 = s.connections.keys.length := by
      rw [AList.keys_erase]
      exact List.length_erase_add_one (AList.mem_keys.mp hmem)
    have hlimit := h.limit
    refine ⟨hmem, rfl, hlen, by simp only; omega, hnodup.2, ?_⟩
    intro n hn
    refine AList.mem_erase.mpr ⟨?_, h.known n (by rw [hidle]; exact List.mem_cons_of_mem _ hn)⟩
    rintro rfl
    exact hnodup.1 hn

private theorem Bookkeeping.openConnection (h : Bookkeeping maxConnections s) {id : N} (hid : id ∉ s.connections) :
    Bookkeeping maxConnections (s.openConnection maxConnections alive id).1 := by
  unfold Actor.openConnection
  split
  · rename_i hfull
    split
    · rename_i oldest s' hpop
      obtain ⟨-, hsame, hlen, hs'⟩ := h.evict hpop
      have hlimit := h.limit
      refine hs'.startConnection ?_ ?_
      · simp only [hsame]
        omega
      · intro hin
        rw [hsame] at hin
        exact hid (AList.mem_erase.mp hin).2
    · exact h
  · rename_i hroom
    exact h.startConnection (by omega) hid

private theorem Bookkeeping.handleRequestRef (h : Bookkeeping maxConnections s) (id : N) :
    Bookkeeping maxConnections (s.handleRequestRef maxConnections alive id).1 := by
  unfold Actor.handleRequestRef
  have hidle := h.removeIdle id
  simp only [connections_removeIdle]
  split
  · split
    · exact hidle
    · refine (hidle.removeConnection id).openConnection ?_
      intro hin
      exact (AList.mem_erase.mp hin).1 rfl
  · rename_i hnone
    refine hidle.openConnection ?_
    exact AList.lookup_eq_none.mp hnone

/-- An idle message is for a node that has a connection. -/
def KnownIdle (s : Actor N) (msg : ActorMessage N) : Prop := ∀ id, msg = .connectionIdle id → id ∈ s.connections

/-- An idle message keeps the books exactly if the node has a connection; the other messages always do. -/
private theorem bookkeeping_handleMsg_iff (h : Bookkeeping maxConnections s) (msg : ActorMessage N) :
    Bookkeeping maxConnections (s.handleMsg maxConnections alive msg) ↔ s.KnownIdle msg := by
  cases msg with
  | requestRef id => exact iff_of_true (h.handleRequestRef id) (by rintro _ ⟨⟩)
  | connectionShutdown id => exact iff_of_true (h.removeConnection id) (by rintro _ ⟨⟩)
  | connectionIdle id =>
    constructor
    · intro h' n hn
      cases hn
      exact h'.known id (by simp [handleMsg, addIdle])
    · intro hknown
      have hidle := h.removeIdle id
      refine ⟨h.limit, ?_, ?_⟩
      · refine List.nodup_append.mpr ⟨hidle.nodup, List.nodup_singleton id, ?_⟩
        intro a ha b hb
        rw [List.mem_singleton.mp hb]
        exact (mem_removeIdle.mp ha).2
      · intro n hn
        rcases List.mem_append.mp hn with hn | hn
        · exact hidle.known n hn
        · rw [List.mem_singleton.mp hn]
          exact hknown id rfl

/-- A request at the limit evicts one idle connection, or it is refused. -/
def EvictsOne (maxConnections : Nat) (s : Actor N) : Prop :=
  ∀ id alive, maxConnections ≤ s.connections.keys.length → id ∉ s.connections →
    (∃ oldest rest, s.idle = oldest :: rest ∧ oldest ∈ s.connections ∧ ∀ n, n ≠ id →
      (n ∈ (s.handleRequestRef maxConnections alive id).1.connections ↔ n ∈ s.connections ∧ n ≠ oldest)) ∨
    s.idle = [] ∧ (s.handleRequestRef maxConnections alive id).1.connections = s.connections ∧
      (s.handleRequestRef maxConnections alive id).2 = .tooManyConnections

private theorem Bookkeeping.evictsOne (h : Bookkeeping maxConnections s) : EvictsOne maxConnections s := by
  intro id alive hfull hid
  have hself : (s.removeIdle id).idle = s.idle := by
    refine List.filter_eq_self.mpr ?_
    intro n hn
    have hne : n ≠ id := by
      rintro rfl
      exact hid (h.known n hn)
    simpa using hne
  have hlookup : s.connections.lookup id = none := AList.lookup_eq_none.mpr hid
  unfold Actor.handleRequestRef
  simp only [connections_removeIdle, hlookup, Actor.openConnection, if_pos hfull, popOldestIdle, hself]
  cases hidle : s.idle with
  | nil => exact Or.inr ⟨rfl, rfl, rfl⟩
  | cons oldest rest =>
    refine Or.inl ⟨oldest, rest, rfl, h.known oldest (by rw [hidle]; exact List.mem_cons_self), ?_⟩
    intro n hn
    simp only [Actor.startConnection]
    split
    · simp only [AList.mem_insert, AList.mem_erase, hn, false_or]
      exact and_comm
    · simp only [AList.mem_insert, AList.mem_erase, hn, false_or]
      exact ⟨fun h => ⟨h.2.2, h.2.1⟩, fun h => ⟨hn, h.2, h.1⟩⟩

/-! ### Runs -/

/-- One message is handled.  Which connection actors are alive can differ from message to message. -/
def poolStep (maxConnections : Nat) (s : Actor N) (a : ActorMessage N × (Nat → Bool)) : Option (Actor N) :=
  some (s.handleMsg maxConnections a.2 a.1)

/-- The books are right in all states of a run, for any messages and any deaths of connection actors, if and only if
each idle message is for a node that has a connection when the message is handled. -/
theorem bookkeeping_run_iff (maxConnections : Nat) (msgs : List (ActorMessage N × (Nat → Bool))) :
    (∀ before s, before <+: msgs → StateMachine.run (poolStep maxConnections) new before = some s →
      Bookkeeping maxConnections s ∧ EvictsOne maxConnections s) ↔
    StateMachine.RunMeets (poolStep maxConnections) (fun s a => s.KnownIdle a.1) new msgs := by
  have htotal : ∀ (as : List (ActorMessage N × (Nat → Bool))) (s : Actor N),
      ∃ s', StateMachine.run (poolStep maxConnections) s as = some s' := by
    intro as
    induction as with
    | nil => exact fun s => ⟨s, rfl⟩
    | cons a as ih => exact fun s => ih (s.handleMsg maxConnections a.2 a.1)
  obtain ⟨s', hrun⟩ := htotal msgs new
  have hstep : ∀ {s : Actor N} {a : ActorMessage N × (Nat → Bool)} {t : Actor N}, Bookkeeping maxConnections s →
      poolStep maxConnections s a = some t → (Bookkeeping maxConnections t ↔ s.KnownIdle a.1) := by
    intro s a t h ht
    cases ht
    exact bookkeeping_handleMsg_iff h a.1
  have hiff := StateMachine.forall_prefix_iff (poolStep maxConnections) hstep (fun _ _ ht => ht) bookkeeping_new
    bookkeeping_new hrun
  rw [← hiff]
  constructor
  · intro h before t hbefore ht
    exact (h before t hbefore ht).1
  · intro h before t hbefore ht
    have hbook := h before t hbefore ht
    exact ⟨hbook, hbook.evictsOne⟩

/-- A node is closed, and then its idle message arrives.  Later its entry of the idle queue makes room for nothing. -/
theorem not_bookkeeping_closedThenIdle :
    ∃ s : Actor Nat, StateMachine.run (poolStep 1) new
        [(.requestRef 1, fun _ => true), (.connectionShutdown 1, fun _ => true), (.connectionIdle 1, fun _ => true),
          (.requestRef 2, fun _ => true), (.requestRef 3, fun _ => true)] = some s ∧
      s.connections.keys.length = 2 ∧ ¬ Bookkeeping 1 s :=
  ⟨_, rfl, rfl, fun h => absurd h.limit (by decide)⟩

end Actor

end ConnectionPool

end IrohBlobs
