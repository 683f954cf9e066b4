import IrohBlobs.StateMachine
import Mathlib.Data.List.AList

/-!
# The entity manager

The model of `entity_manager.rs`.  The manager keeps an actor for each entity that is in use.  An actor that runs out of
tasks and commands hands its receiver back to the manager, calls `on_shutdown`, and then hands back the rest of itself.
Meanwhile commands for the entity queue up in the inbox; if there are any, the manager restarts the actor with its state
reset, else it puts the actor into a pool, from where it may be reused for another entity.

Any number of actors take their steps between those of the manager.  The events of each entity are logged: `Replays`
accepts a log if the callbacks happen between a wakeup and a shutdown, each of them on the state that was left by the
one before.  The invariant `Inv` follows the hand-over of each entity.
-/

namespace IrohBlobs

namespace EntityManager

/-! ### Commands, channels and actors -/

/-- The effect of a callback: on the state when it is called with `Active`, and whenever its future is polled. -/
structure Spawn (Id S : Type) where
  id : Id
  key : Nat
  call : S → S
  task : List (S → S)

inductive Command (Id S : Type)
  | spawn (spawn : Spawn Id S)
  | entityShutdown

/-- The inbox of an actor, with the number of its senders.  It is closed when the receiver is dropped. -/
structure Channel (Id S : Type) where
  inbox : List (Command Id S)
  senders : Nat
  isOpen : Bool

/-- An entity actor.  `recv` is the number of its channel. -/
structure Actor (Id S : Type) where
  id : Id
  recv : Nat
  state : S
  tasks : List (List (S → S))

/-- Where a running actor is.  It is `recycling` when it has found itself idle, and `completing` after `on_shutdown`. -/
inductive ActorPhase
  | selecting
  | checking
  | recycling
  | idleShutdown
  | completing
  | softShutdown
  deriving DecidableEq

structure Running (Id S : Type) where
  actor : Actor Id S
  phase : ActorPhase

inductive EntityHandle
  | live (send : Nat)
  | shuttingDown (send recv : Nat)
  deriving DecidableEq

def EntityHandle.send : EntityHandle → Nat
  | .live send => send
  | .shuttingDown send _ => send

/-- The messages of the actors to the manager. -/
inductive InternalCommand (Id S : Type)
  | shutdown (id : Id) (receiver : Nat)
  | shutdownComplete (id : Id) (state : S) (tasks : List (List (S → S)))

def InternalCommand.id {Id S : Type} : InternalCommand Id S → Id
  | .shutdown id _ => id
  | .shutdownComplete id _ _ => id

inductive ShutdownCause
  | idle
  | soft
  | drop
  deriving DecidableEq

/-- What happens to an entity. -/
inductive Event (S : Type)
  | wakeup
  | callback (seen after : S)
  | shutdown
  | reset

/-- The manager handles commands until it is told to shut down.  Then it tells the live actors, drops its state, and
waits for the actors. -/
inductive ManagerPhase (Id : Type)
  | running
  | sending (rest : List Id)
  | joining
  | confirmed
  deriving DecidableEq

structure State (Id S : Type) [DecidableEq Id] where
  phase : ManagerPhase Id
  live : AList (fun _ : Id => EntityHandle)
  pool : List (Nat × Actor Id S)
  queue : List (InternalCommand Id S)
  channels : Nat → Channel Id S
  nextChannel : Nat
  actors : Nat → Option (Running Id S)
  nextActor : Nat
  /-- The events of each entity. -/
  log : Id → List (Event S)
  /-- The callbacks that the manager has accepted, and those that were called. -/
  accepted : List Nat
  calls : List Nat
  /-- An assertion has failed, or a message was not expected. -/
  failed : Bool

structure Options where
  poolCapacity : Nat
  entityInboxSize : Nat
  entityResponseInboxSize : Nat

/-! ### The actor of an entity -/

section

variable {Id S : Type} {id : Id} {k : Nat} {r r' : Running Id S}

/-- The running actors of an entity: at most one. -/
def ActorsOf (actors : Nat → Option (Running Id S)) (id : Id) (actor : Option (Nat × Running Id S)) : Prop :=
  ∀ k r, actors k = some r ∧ r.actor.id = id ↔ actor = some (k, r)

private theorem ActorsOf.congr {actors actors' : Nat → Option (Running Id S)} {actor : Option (Nat × Running Id S)}
    (h : ActorsOf actors id actor) (heq : ∀ k r, r.actor.id = id → (actors' k = some r ↔ actors k = some r)) :
    ActorsOf actors' id actor := by
  intro k r
  rw [← h k r]
  constructor
  · rintro ⟨hk, hid⟩
    exact ⟨(heq k r hid).mp hk, hid⟩
  · rintro ⟨hk, hid⟩
    exact ⟨(heq k r hid).mpr hk, hid⟩

private theorem ActorsOf.update {actors : Nat → Option (Running Id S)} (h : ActorsOf actors id (some (k, r)))
    (hid : r'.actor.id = id) : ActorsOf (Function.update actors k (some r')) id (some (k, r')) := by
  intro k' r₀
  by_cases hk : k' = k
  · subst hk
    rw [Function.update_self]
    constructor
    · rintro ⟨heq, -⟩
      cases heq
      rfl
    · intro heq
      cases heq
      exact ⟨rfl, hid⟩
  · rw [Function.update_of_ne hk, h k' r₀]
    constructor
    · intro heq
      cases heq
      exact absurd rfl hk
    · intro heq
      cases heq
      exact absurd rfl hk

private theorem ActorsOf.remove {actors : Nat → Option (Running Id S)} (h : ActorsOf actors id (some (k, r))) :
    ActorsOf (Function.update actors k none) id none := by
  intro k' r₀
  by_cases hk : k' = k
  · subst hk
    simp
  · rw [Function.update_of_ne hk, h k' r₀]
    constructor
    · intro heq
      cases heq
      exact absurd rfl hk
    · intro heq
      cases heq

private theorem ActorsOf.start {actors : Nat → Option (Running Id S)} (h : ActorsOf actors id none)
    (hid : r.actor.id = id) :
    ActorsOf (Function.update actors k (some r)) id (some (k, r)) := by
  intro k' r₀
  by_cases hk : k' = k
  · subst hk
    rw [Function.update_self]
    constructor
    · rintro ⟨heq, -⟩
      cases heq
      rfl
    · intro heq
      cases heq
      exact ⟨rfl, hid⟩
  · rw [Function.update_of_ne hk, h k' r₀]
    constructor
    · intro heq
      cases heq
    · intro heq
      cases heq
      exact absurd rfl hk

end

section

variable {Id S : Type} [DecidableEq Id] [Inhabited S]

namespace State

def empty : State Id S :=
  ⟨.running, ∅, [], [], fun _ => ⟨[], 0, false⟩, 0, fun _ => none, 0, fun _ => [], [], [], false⟩

def setChannel (s : State Id S) (c : Nat) (channel : Channel Id S) : State Id S :=
  { s with channels := Function.update s.channels c channel }

def setInbox (s : State Id S) (c : Nat) (inbox : List (Command Id S)) : State Id S :=
  s.setChannel c { s.channels c with inbox }

def setActor (s : State Id S) (k : Nat) (actor : Option (Running Id S)) : State Id S :=
  { s with actors := Function.update s.actors k actor }

def logEvent (s : State Id S) (id : Id) (event : Event S) : State Id S :=
  { s with log := Function.update s.log id (s.log id ++ [event]) }

/-- Run an actor. -/
def start (s : State Id S) (actor : Actor Id S) : State Id S :=
  { (s.setActor s.nextActor (some ⟨actor, .selecting⟩)).logEvent actor.id .wakeup with nextActor := s.nextActor + 1 }

/-! ### The manager -/

/-- Get or create an entity actor for the given id. -/
def getOrCreate (s : State Id S) (id : Id) : State Id S × EntityHandle :=
  match s.live.lookup id with
  | some handle => (s, handle)
  | none =>
    match s.pool with
    | (send, actor) :: pool =>
      ({ s with pool, live := s.live.insert id (.live send) }.start { actor with id, state := default }, .live send)
    | [] =>
      let c := s.nextChannel
      (({ s with live := s.live.insert id (.live c), nextChannel := c + 1 }.setChannel c ⟨[], 1, true⟩).start
        ⟨id, c, default, []⟩, .live c)

/-- If the inbox is closed or full, the function is called right away, with `Dead` or `Busy`. -/
def spawnBoxed (options : Options) (s : State Id S) (spawn : Spawn Id S) : State Id S :=
  let (s, handle) := s.getOrCreate spawn.id
  let s := { s with accepted := s.accepted ++ [spawn.key] }
  let channel := s.channels handle.send
  if !channel.isOpen then { s with calls := s.calls ++ [spawn.key] }
  else if channel.inbox.length < options.entityInboxSize then s.setInbox handle.send (channel.inbox ++ [.spawn spawn])
  else { s with calls := s.calls ++ [spawn.key] }

/-- Put an idle actor into the pool. -/
def recycle (options : Options) (s : State Id S) (sender : Nat) (actor : Actor Id S) : State Id S :=
  if (s.channels sender).senders = 1 ∧ (s.channels actor.recv).inbox.length = 0 ∧ (s.channels actor.recv).senders = 1 ∧
      actor.tasks.length = 0 then
    let s := s.logEvent actor.id .reset
    if s.pool.length < options.poolCapacity then { s with pool := (sender, { actor with state := default }) :: s.pool }
    else s.setChannel actor.recv ⟨(s.channels actor.recv).inbox, (s.channels actor.recv).senders - 1, false⟩
  else { s with failed := true }

/-- Handle a message of an actor. -/
def handleInternal (options : Options) (s : State Id S) : InternalCommand Id S → State Id S
  | .shutdown id receiver =>
    match s.live.lookup id with
    | some (.live send) => { s with live := s.live.insert id (.shuttingDown send receiver) }
    | _ => { s with live := s.live.erase id, failed := true }
  | .shutdownComplete id state tasks =>
    match s.live.lookup id with
    | some (.shuttingDown send recv) =>
      let s := { s with live := s.live.erase id }
      -- re-assemble the actor from the parts
      let actor : Actor Id S := ⟨id, recv, state, tasks⟩
      if (s.channels recv).inbox.length = 0 then s.recycle options send actor
      else
        { s.logEvent id .reset with live := s.live.insert id (.live send) }.start { actor with state := default }
    | _ => { s with live := s.live.erase id, failed := true }

def tick (options : Options) (s : State Id S) : Option (State Id S) :=
  match s.queue with
  | [] => none
  | cmd :: queue => some ({ s with queue }.handleInternal options cmd)

/-! ### The entity actors -/

/-- The actor receives a command, or finds that all senders were dropped. -/
def recv (s : State Id S) (k : Nat) (a : Actor Id S) : Option (State Id S) :=
  match (s.channels a.recv).inbox with
  | .spawn spawn :: inbox =>
    let state := spawn.call a.state
    some { ((s.setInbox a.recv inbox).setActor k
      (some ⟨{ a with state, tasks := a.tasks ++ [spawn.task] }, .checking⟩)).logEvent
      spawn.id (.callback a.state state) with calls := s.calls ++ [spawn.key] }
  | .entityShutdown :: inbox => some ((s.setInbox a.recv inbox).setActor k (some ⟨a, .softShutdown⟩))
  | [] =>
    if (s.channels a.recv).senders = 0 then
      some ((s.setChannel a.recv { s.channels a.recv with isOpen := false }).setActor k none)
    else none

/-- The actor polls one of its tasks. -/
def poll (s : State Id S) (k : Nat) (r : Running Id S) (i : Nat) : Option (State Id S) :=
  match r.actor.tasks[i]? with
  | none => none
  | some (effect :: rest) =>
    let state := effect r.actor.state
    some ((s.setActor k (some { r with actor := { r.actor with state, tasks := r.actor.tasks.set i rest } })).logEvent
      r.actor.id (.callback r.actor.state state))
  | some [] =>
    some (s.setActor k (some ⟨{ r.actor with tasks := r.actor.tasks.eraseIdx i },
      if r.phase = .selecting then .checking else r.phase⟩))

/-- If there are no more tasks and no more commands, the actor can be recycled. -/
def check (s : State Id S) (k : Nat) (a : Actor Id S) : State Id S :=
  if a.tasks.length = 0 ∧ (s.channels a.recv).inbox.length = 0 then s.setActor k (some ⟨a, .recycling⟩)
  else s.setActor k (some ⟨a, .selecting⟩)

/-- Notify the manager that the actor starts to shut down, and give back the receiver.  If the manager is gone, the
receiver is dropped. -/
def sendShutdown (options : Options) (s : State Id S) (k : Nat) (a : Actor Id S) : Option (State Id S) :=
  let failed := s.failed || decide (a.tasks.length ≠ 0)
  let next := { (s.setActor k (some ⟨a, .idleShutdown⟩)).logEvent a.id .shutdown with failed }
  match s.phase with
  | .joining => some (next.setChannel a.recv { s.channels a.recv with isOpen := false })
  | _ =>
    if s.queue.length < options.entityResponseInboxSize then
      some { next with queue := s.queue ++ [.shutdown a.id a.recv] }
    else none

/-- Notify the manager that the shutdown is complete, and give back the rest of the actor. -/
def sendComplete (options : Options) (s : State Id S) (k : Nat) (a : Actor Id S) : Option (State Id S) :=
  match s.phase with
  | .joining => some (s.setActor k none)
  | _ =>
    if s.queue.length < options.entityResponseInboxSize then
      some { s.setActor k none with queue := s.queue ++ [.shutdownComplete a.id a.state a.tasks] }
    else none

/-! ### The end of the manager -/

/-- The manager sends `EntityShutdown` to the next of the live entities.  It waits while the inbox is full. -/
def sendEntityShutdown (options : Options) (s : State Id S) (id : Id) (rest : List Id) : Option (State Id S) :=
  let s := { s with phase := .sending rest }
  match s.live.lookup id with
  | none => some s
  | some handle =>
    let channel := s.channels handle.send
    if !channel.isOpen then some s
    else if channel.inbox.length < options.entityInboxSize then
      some (s.setInbox handle.send (channel.inbox ++ [.entityShutdown]))
    else none

/-- The manager holds the receiver of the channel. -/
def holdsReceiver (s : State Id S) (c : Nat) : Bool :=
  s.queue.any (fun cmd => match cmd with
    | .shutdown _ receiver => receiver == c
    | .shutdownComplete _ _ _ => false) ||
  s.live.entries.any (fun entry => match entry.2 with
    | .shuttingDown _ recv => recv == c
    | .live _ => false) ||
  s.pool.any (fun entry => entry.2.recv == c)

/-- The state of the manager is dropped, with all its senders and receivers. -/
def dropState (s : State Id S) : State Id S :=
  { s with
    phase := .joining
    live := ∅
    pool := []
    queue := []
    channels := fun c => ⟨(s.channels c).inbox, 0, (s.channels c).isOpen && !s.holdsReceiver c⟩ }

end State

/-! ### Steps -/

inductive Action (Id S : Type)
  | spawn (spawn : Spawn Id S)
  | tick
  | recv (k : Nat)
  | poll (k i : Nat)
  | check (k : Nat)
  | sendShutdown (k : Nat)
  | finishShutdown (k : Nat)
  | sendComplete (k : Nat)
  | finishSoft (k : Nat)
  | shutdownAll (ids : List Id)
  | sendEntityShutdown
  | dropState
  | confirm

/-- A running actor that is in the given phase. -/
def State.actorAt (s : State Id S) (k : Nat) (phase : ActorPhase) : Option (Actor Id S) :=
  match s.actors k with
  | some r => if r.phase = phase then some r.actor else none
  | none => none

variable (options : Options) (onShutdown : Id → ShutdownCause → S → S)

def step (s : State Id S) : Action Id S → Option (State Id S)
  | .spawn spawn =>
    match s.phase with
    | .running => some (s.spawnBoxed options spawn)
    | _ => none
  | .tick =>
    match s.phase with
    | .running => s.tick options
    | _ => none
  | .recv k => (s.actorAt k .selecting).bind (s.recv k)
  | .poll k i =>
    match s.actors k with
    | some r => if r.phase = .selecting ∨ r.phase = .softShutdown then s.poll k r i else none
    | none => none
  | .check k => (s.actorAt k .checking).map (s.check k)
  | .sendShutdown k => (s.actorAt k .recycling).bind (s.sendShutdown options k)
  | .finishShutdown k => (s.actorAt k .idleShutdown).map (fun a =>
    s.setActor k (some ⟨{ a with state := onShutdown a.id .idle a.state }, .completing⟩))
  | .sendComplete k => (s.actorAt k .completing).bind (s.sendComplete options k)
  | .finishSoft k => (s.actorAt k .softShutdown).bind (fun a =>
    if a.tasks.length = 0 then some ((s.setChannel a.recv { s.channels a.recv with isOpen := false }).setActor k none)
    else none)
  | .shutdownAll ids =>
    match s.phase with
    | .running => if ids.Perm s.live.keys then some { s with phase := .sending ids } else none
    | _ => none
  | .sendEntityShutdown =>
    match s.phase with
    | .sending (id :: rest) => s.sendEntityShutdown options id rest
    | _ => none
  | .dropState =>
    match s.phase with
    | .sending [] => some s.dropState
    | _ => none
  | .confirm =>
    match s.phase with
    | .joining => if ∀ k < s.nextActor, (s.actors k).isNone then some { s with phase := .confirmed } else none
    | _ => none

/-! ### The properties -/

/-- What the log of an entity says about it. -/
inductive Status (S : Type)
  | asleep
  | awake (state : S)
  | down

/-- The log of an entity: wakeups and shutdowns alternate, callbacks come only between them, and each sees the state
that was left by the one before, or a fresh one.  After a shutdown the state is reset before the next wakeup. -/
inductive Replays : List (Event S) → Status S → Prop
  | nil : Replays [] .asleep
  | wakeup {log : List (Event S)} (h : Replays log .asleep) : Replays (log ++ [.wakeup]) (.awake default)
  | callback {log : List (Event S)} {seen : S} (h : Replays log (.awake seen)) (after : S) :
    Replays (log ++ [.callback seen after]) (.awake after)
  | shutdown {log : List (Event S)} {state : S} (h : Replays log (.awake state)) : Replays (log ++ [.shutdown]) .down
  | reset {log : List (Event S)} (h : Replays log .down) : Replays (log ++ [.reset]) .asleep

/-! ### The invariant -/

/-- The messages of an entity that are on their way to the manager. -/
def State.queueOf (s : State Id S) (id : Id) : List (InternalCommand Id S) := s.queue.filter (fun cmd => cmd.id = id)

/-- The handle before and after the receiver was handed back. -/
def handleOf (handed : Bool) (c : Nat) : EntityHandle := if handed then .shuttingDown c c else .live c

def pendingShutdown (handed : Bool) (id : Id) (c : Nat) : List (InternalCommand Id S) :=
  if handed then [] else [.shutdown id c]

/-- Where an entity is: its actor is not there, it is active, it is calling `on_shutdown`, or it is finished and the
manager has not seen it yet. -/
inductive EntityInv (s : State Id S) (id : Id) : Prop
  | asleep (live : s.live.lookup id = none) (queue : s.queueOf id = []) (actors : ActorsOf s.actors id none)
    (log : Replays (s.log id) .asleep)
  | awake (k : Nat) (r : Running Id S) (live : s.live.lookup id = some (.live r.actor.recv)) (queue : s.queueOf id = [])
    (actors : ActorsOf s.actors id (some (k, r)))
    (phase : r.phase = .selecting ∨ r.phase = .checking ∨ r.phase = .recycling ∧ r.actor.tasks = [])
    (log : Replays (s.log id) (.awake r.actor.state))
  | leaving (k : Nat) (r : Running Id S) (handed : Bool) (live : s.live.lookup id = some (handleOf handed r.actor.recv))
    (queue : s.queueOf id = pendingShutdown handed id r.actor.recv) (actors : ActorsOf s.actors id (some (k, r)))
    (phase : r.phase = .idleShutdown ∨ r.phase = .completing) (tasks : r.actor.tasks = [])
      (log : Replays (s.log id) .down)
  | left (c : Nat) (state : S) (handed : Bool) (live : s.live.lookup id = some (handleOf handed c))
    (queue : s.queueOf id = pendingShutdown handed id c ++ [.shutdownComplete id state []])
      (actors : ActorsOf s.actors id none)
    (log : Replays (s.log id) .down)

/-- The channels of different entities and of the pool are different, and have one sender each. -/
structure ChannelInv (s : State Id S) : Prop where
  handle : ∀ id h, s.live.lookup id = some h → h.send < s.nextChannel ∧ (s.channels h.send).senders = 1 ∧
    (s.channels h.send).isOpen = true ∧ ∀ cmd ∈ (s.channels h.send).inbox, ∃ spawn : Spawn Id S, cmd = .spawn spawn ∧
      spawn.id = id
  distinct : ∀ id id' h h', s.live.lookup id = some h → s.live.lookup id' = some h' → h.send = h'.send → id = id'
  pool : ∀ e ∈ s.pool, e.1 < s.nextChannel ∧ e.2.recv = e.1 ∧ s.channels e.1 = ⟨[], 1, true⟩ ∧ e.2.tasks = []
  free : ∀ e ∈ s.pool, ∀ id h, s.live.lookup id = some h → h.send ≠ e.1
  nodup : (s.pool.map Prod.fst).Nodup

structure Inv (s : State Id S) : Prop where
  entity : ∀ id, EntityInv s id
  channel : ChannelInv s
  next : ∀ k, s.nextActor ≤ k → s.actors k = none
  failed : s.failed = false

/-! ### What an entity sees of a step -/

section

variable {options} {onShutdown} {s s' : State Id S} {id : Id} {k : Nat} {r r' : Running Id S}

/-- An entity depends on its own part of the state only. -/
theorem EntityInv.frame (h : EntityInv s id) (hlive : s'.live.lookup id = s.live.lookup id)
    (hqueue : s'.queueOf id = s.queueOf id)
    (hactors : ∀ k r, r.actor.id = id → (s'.actors k = some r ↔ s.actors k = some r)) (hlog : s'.log id = s.log id) :
    EntityInv s' id := by
  cases h with
  | asleep live queue actors log =>
    exact .asleep (hlive.trans live) (hqueue.trans queue) (actors.congr hactors) (hlog ▸ log)
  | awake k r live queue actors phase log =>
    exact .awake k r (hlive.trans live) (hqueue.trans queue) (actors.congr hactors) phase (hlog ▸ log)
  | leaving k r handed live queue actors phase tasks log =>
    exact .leaving k r handed (hlive.trans live) (hqueue.trans queue) (actors.congr hactors) phase tasks (hlog ▸ log)
  | left c state handed live queue actors log =>
    exact .left c state handed (hlive.trans live) (hqueue.trans queue) (actors.congr hactors) (hlog ▸ log)

/-- A step that changes one entity only. -/
theorem Inv.of_entity (h : Inv s) (id : Id) (hlive : ∀ id', id' ≠ id → s'.live.lookup id' = s.live.lookup id')
    (hqueue : ∀ id', id' ≠ id → s'.queueOf id' = s.queueOf id')
    (hactors : ∀ k r, r.actor.id ≠ id → (s'.actors k = some r ↔ s.actors k = some r))
    (hlog : ∀ id', id' ≠ id → s'.log id' = s.log id') (hentity : EntityInv s' id) (hchannel : ChannelInv s')
    (hnext : ∀ k, s'.nextActor ≤ k → s'.actors k = none) (hfailed : s'.failed = false) : Inv s' where
  entity := by
    intro id'
    by_cases hid : id' = id
    · exact hid ▸ hentity
    · exact (h.entity id').frame (hlive id' hid) (hqueue id' hid) (fun k r hr => hactors k r (hr ▸ hid)) (hlog id' hid)
  channel := hchannel
  next := hnext
  failed := hfailed

omit [Inhabited S] in
/-- The actor of an entity that is changed or removed is not seen by the others. -/
private theorem update_actor_other {actor : Option (Running Id S)} (hk : s.actors k = some r)
    (hid : ∀ r', actor = some r' → r'.actor.id = r.actor.id) (k' : Nat) (r₀ : Running Id S)
    (hr₀ : r₀.actor.id ≠ r.actor.id) : Function.update s.actors k actor k' = some r₀ ↔ s.actors k' = some r₀ := by
  by_cases hkk : k' = k
  · subst hkk
    rw [Function.update_self, hk]
    constructor
    · intro heq
      exact absurd (hid r₀ heq) hr₀
    · intro heq
      cases heq
      exact absurd rfl hr₀
  · rw [Function.update_of_ne hkk]

private theorem update_next (h : Inv s) {actor : Option (Running Id S)} (hk : s.actors k = some r) (k' : Nat)
    (hk' : s.nextActor ≤ k') : Function.update s.actors k actor k' = none := by
  have hne : k' ≠ k := by
    rintro rfl
    rw [h.next k' hk'] at hk
    cases hk
  rw [Function.update_of_ne hne]
  exact h.next k' hk'

/-- A running actor belongs to an entity that is awake or leaving. -/
theorem EntityInv.of_actor (h : EntityInv s r.actor.id) (hk : s.actors k = some r) :
    s.live.lookup r.actor.id = some (.live r.actor.recv) ∧ s.queueOf r.actor.id = [] ∧
      ActorsOf s.actors r.actor.id (some (k, r)) ∧
      (r.phase = .selecting ∨ r.phase = .checking ∨ r.phase = .recycling ∧ r.actor.tasks = []) ∧
      Replays (s.log r.actor.id) (.awake r.actor.state) ∨
    ∃ handed, s.live.lookup r.actor.id = some (handleOf handed r.actor.recv) ∧
      s.queueOf r.actor.id = pendingShutdown handed r.actor.id r.actor.recv ∧
      ActorsOf s.actors r.actor.id (some (k, r)) ∧ (r.phase = .idleShutdown ∨ r.phase = .completing) ∧
      r.actor.tasks = [] ∧ Replays (s.log r.actor.id) .down := by
  cases h with
  | asleep live queue actors log => cases (actors k r).mp ⟨hk, rfl⟩
  | awake k' r' live queue actors phase log =>
    cases (actors k r).mp ⟨hk, rfl⟩
    exact Or.inl ⟨live, queue, actors, phase, log⟩
  | leaving k' r' handed live queue actors phase tasks log =>
    cases (actors k r).mp ⟨hk, rfl⟩
    exact Or.inr ⟨handed, live, queue, actors, phase, tasks, log⟩
  | left c state handed live queue actors log => cases (actors k r).mp ⟨hk, rfl⟩

/-! ### Channels -/

omit [Inhabited S] in
/-- Entities and pooled actors may go, and an entity may get another handle of the same channel. -/
theorem ChannelInv.mono (h : ChannelInv s)
    (hlive : ∀ id h', s'.live.lookup id = some h' → ∃ h₀, s.live.lookup id = some h₀ ∧ h₀.send = h'.send)
    (hpool : s'.pool.Sublist s.pool)
    (hused : ∀ c, (∃ id h', s'.live.lookup id = some h' ∧ h'.send = c) ∨ (∃ e ∈ s'.pool, e.1 = c) →
      s'.channels c = s.channels c) (hnext : s'.nextChannel = s.nextChannel) : ChannelInv s' where
  handle := by
    intro id h' hlookup
    obtain ⟨h₀, hlookup₀, hsend⟩ := hlive id h' hlookup
    have hchannel := hused h'.send (Or.inl ⟨id, h', hlookup, rfl⟩)
    rw [hchannel, hnext, ← hsend]
    exact h.handle id h₀ hlookup₀
  distinct := by
    intro id₁ id₂ h₁ h₂ hlookup₁ hlookup₂ heq
    obtain ⟨h₁', hlookup₁', hsend₁⟩ := hlive id₁ h₁ hlookup₁
    obtain ⟨h₂', hlookup₂', hsend₂⟩ := hlive id₂ h₂ hlookup₂
    exact h.distinct id₁ id₂ h₁' h₂' hlookup₁' hlookup₂' (hsend₁.trans (heq.trans hsend₂.symm))
  pool := by
    intro e he
    rw [hused e.1 (Or.inr ⟨e, he, rfl⟩), hnext]
    exact h.pool e (hpool.subset he)
  free := by
    intro e he id h' hlookup
    obtain ⟨h₀, hlookup₀, hsend⟩ := hlive id h' hlookup
    rw [← hsend]
    exact h.free e (hpool.subset he) id h₀ hlookup₀
  nodup := h.nodup.sublist (hpool.map Prod.fst)

omit [Inhabited S] in
private theorem ChannelInv.congr (h : ChannelInv s) (hlive : s'.live = s.live) (hpool : s'.pool = s.pool)
    (hchannels : s'.channels = s.channels) (hnext : s'.nextChannel = s.nextChannel) : ChannelInv s' := by
  apply h.mono
  · intro id h' hlookup
    exact ⟨h', hlive ▸ hlookup, rfl⟩
  · rw [hpool]
  · intro c _
    rw [hchannels]
  · exact hnext

/-- The channel is used by no entity and by no actor of the pool. -/
structure State.Unused (s : State Id S) (c : Nat) : Prop where
  live : ∀ id h, s.live.lookup id = some h → h.send ≠ c
  pool : ∀ e ∈ s.pool, e.1 ≠ c

omit [Inhabited S] in
/-- An entity gets a channel that is not used. -/
private theorem ChannelInv.claim (h : ChannelInv s) {c : Nat} (hunused : s.Unused c)
    (hlive : s'.live = s.live.insert id (.live c)) (hpool : s'.pool = s.pool)
    (hchannels : s'.channels = Function.update s.channels c ⟨[], 1, true⟩) (hnext : s.nextChannel ≤ s'.nextChannel)
    (hc : c < s'.nextChannel) : ChannelInv s' := by
  have hcases : ∀ id' h', s'.live.lookup id' = some h' →
      id' = id ∧ h'.send = c ∨ id' ≠ id ∧ s.live.lookup id' = some h' ∧ h'.send ≠ c := by
    intro id' h' hlookup
    rw [hlive] at hlookup
    by_cases hid : id' = id
    · subst hid
      rw [AList.lookup_insert] at hlookup
      cases hlookup
      exact Or.inl ⟨rfl, rfl⟩
    · rw [AList.lookup_insert_ne hid] at hlookup
      exact Or.inr ⟨hid, hlookup, hunused.live id' h' hlookup⟩
  constructor
  · intro id' h' hlookup
    rcases hcases id' h' hlookup with ⟨-, hsend⟩ | ⟨-, hlookup', hsend⟩
    · rw [hsend, hchannels, Function.update_self]
      exact ⟨hc, rfl, rfl, fun cmd hcmd => absurd hcmd List.not_mem_nil⟩
    · rw [hchannels, Function.update_of_ne hsend]
      obtain ⟨hlt, hrest⟩ := h.handle id' h' hlookup'
      exact ⟨hlt.trans_le hnext, hrest⟩
  · intro id₁ id₂ h₁ h₂ hlookup₁ hlookup₂ heq
    rcases hcases id₁ h₁ hlookup₁ with ⟨hid₁, hsend₁⟩ | ⟨hid₁, hlookup₁', hsend₁⟩
    · rcases hcases id₂ h₂ hlookup₂ with ⟨hid₂, -⟩ | ⟨-, -, hsend₂⟩
      · exact hid₁.trans hid₂.symm
      · exact absurd (heq.symm.trans hsend₁) hsend₂
    · rcases hcases id₂ h₂ hlookup₂ with ⟨-, hsend₂⟩ | ⟨-, hlookup₂', -⟩
      · exact absurd (heq.trans hsend₂) hsend₁
      · exact h.distinct id₁ id₂ h₁ h₂ hlookup₁' hlookup₂' heq
  · intro e he
    rw [hpool] at he
    obtain ⟨hlt, hrecv, hchannel, htasks⟩ := h.pool e he
    rw [hchannels, Function.update_of_ne (hunused.pool e he)]
    exact ⟨hlt.trans_le hnext, hrecv, hchannel, htasks⟩
  · intro e he id' h' hlookup
    rw [hpool] at he
    rcases hcases id' h' hlookup with ⟨-, hsend⟩ | ⟨-, hlookup', -⟩
    · rw [hsend]
      exact (hunused.pool e he).symm
    · exact h.free e he id' h' hlookup'
  · rw [hpool]
    exact h.nodup

omit [Inhabited S] in
/-- An actor whose channel is not used goes into the pool. -/
private theorem ChannelInv.park (h : ChannelInv s) (actor : Actor Id S) (hunused : s.Unused actor.recv)
    (hc : actor.recv < s.nextChannel) (hchannel : s.channels actor.recv = ⟨[], 1, true⟩) (htasks : actor.tasks = [])
    (hlive : s'.live = s.live) (hpool : s'.pool = (actor.recv, actor) :: s.pool) (hchannels : s'.channels = s.channels)
    (hnext : s'.nextChannel = s.nextChannel) : ChannelInv s' := by
  constructor
  · rw [hlive, hchannels, hnext]
    exact h.handle
  · rw [hlive]
    exact h.distinct
  · intro e he
    rw [hpool, List.mem_cons] at he
    rw [hchannels, hnext]
    rcases he with rfl | he
    · exact ⟨hc, rfl, hchannel, htasks⟩
    · exact h.pool e he
  · intro e he id' h' hlookup
    rw [hpool, List.mem_cons] at he
    rw [hlive] at hlookup
    rcases he with rfl | he
    · exact hunused.live id' h' hlookup
    · exact h.free e he id' h' hlookup
  · rw [hpool, List.map_cons, List.nodup_cons]
    refine ⟨?_, h.nodup⟩
    intro hmem
    obtain ⟨e, he, heq⟩ := List.mem_map.mp hmem
    exact hunused.pool e he heq

omit [Inhabited S] in
/-- The inbox of an entity changes. -/
theorem ChannelInv.setInbox (h : ChannelInv s) {handle : EntityHandle} (hhandle : s.live.lookup id = some handle)
    {inbox : List (Command Id S)} (hinbox : ∀ cmd ∈ inbox, ∃ spawn : Spawn Id S, cmd = .spawn spawn ∧ spawn.id = id) :
    ChannelInv (s.setInbox handle.send inbox) where
  handle := by
    intro id' h' hlookup
    obtain ⟨hlt, hsenders, hopen, hspawn⟩ := h.handle id' h' hlookup
    refine ⟨hlt, ?_⟩
    by_cases hsame : h'.send = handle.send
    · have hid := h.distinct id' id h' handle hlookup hhandle hsame
      subst hid
      rw [hsame] at hsenders hopen ⊢
      simp only [State.setInbox, State.setChannel, Function.update_self]
      exact ⟨hsenders, hopen, hinbox⟩
    · simp only [State.setInbox, State.setChannel, Function.update_of_ne hsame]
      exact ⟨hsenders, hopen, hspawn⟩
  distinct := h.distinct
  pool := by
    intro e he
    obtain ⟨hlt, hrecv, hchannel, htasks⟩ := h.pool e he
    have hne : e.1 ≠ handle.send := fun heq => h.free e he id handle hhandle heq.symm
    refine ⟨hlt, hrecv, ?_, htasks⟩
    simp only [State.setInbox, State.setChannel, Function.update_of_ne hne]
    exact hchannel
  free := h.free
  nodup := h.nodup

/-! ### The entity actors -/

section

variable {cmd : InternalCommand Id S}

omit [Inhabited S] in
private theorem queueOf_push (s s' : State Id S) (cmd : InternalCommand Id S) (hqueue : s'.queue = s.queue ++ [cmd]) :
    s'.queueOf cmd.id = s.queueOf cmd.id ++ [cmd] := by
  unfold State.queueOf
  rw [hqueue, List.filter_append]
  simp

omit [Inhabited S] in
private theorem queueOf_push_other (hqueue : s'.queue = s.queue ++ [cmd]) (hid : id ≠ cmd.id) :
    s'.queueOf id = s.queueOf id := by
  unfold State.queueOf
  rw [hqueue, List.filter_append]
  simp [hid.symm]

omit [Inhabited S] in
private theorem queueOf_pop (s s' : State Id S) (cmd : InternalCommand Id S) (hqueue : s.queue = cmd :: s'.queue) :
    s.queueOf cmd.id = cmd :: s'.queueOf cmd.id := by
  unfold State.queueOf
  rw [hqueue, List.filter_cons]
  simp

omit [Inhabited S] in
private theorem queueOf_pop_other (s s' : State Id S) (cmd : InternalCommand Id S) (hqueue : s.queue = cmd :: s'.queue)
    (hid : id ≠ cmd.id) : s.queueOf id = s'.queueOf id := by
  unfold State.queueOf
  rw [hqueue, List.filter_cons]
  simp [hid.symm]

end

/-- The actor is changed, and nothing else that other entities see. -/
theorem Inv.of_actor (h : Inv s) (hk : s.actors k = some r) {actor : Option (Running Id S)}
    (hid : ∀ r', actor = some r' → r'.actor.id = r.actor.id) (hlive : s'.live = s.live)
    (hqueue : ∀ id', id' ≠ r.actor.id → s'.queueOf id' = s.queueOf id')
    (hactors : s'.actors = Function.update s.actors k actor) (hlog : ∀ id', id' ≠ r.actor.id → s'.log id' = s.log id')
    (hentity : EntityInv s' r.actor.id) (hchannel : ChannelInv s') (hnext : s'.nextActor = s.nextActor)
    (hfailed : s'.failed = s.failed) : Inv s' := by
  refine h.of_entity r.actor.id (fun id' _ => by rw [hlive]) hqueue ?_ hlog hentity hchannel ?_ (hfailed.trans h.failed)
  · intro k' r₀ hr₀
    rw [hactors]
    exact update_actor_other hk hid k' r₀ hr₀
  · intro k' hk'
    rw [hactors]
    exact update_next h hk k' (hnext ▸ hk')

/-- Only an entity that is awake has an actor in one of the first phases. -/
theorem Inv.awake_of_actor (h : Inv s) (hk : s.actors k = some r)
    (hphase : r.phase ≠ .idleShutdown ∧ r.phase ≠ .completing) :
    s.live.lookup r.actor.id = some (.live r.actor.recv) ∧ s.queueOf r.actor.id = [] ∧
      ActorsOf s.actors r.actor.id (some (k, r)) ∧
      (r.phase = .selecting ∨ r.phase = .checking ∨ r.phase = .recycling ∧ r.actor.tasks = []) ∧
      Replays (s.log r.actor.id) (.awake r.actor.state) := by
  rcases (h.entity r.actor.id).of_actor hk with hawake | ⟨handed, -, -, -, hp, -⟩
  · exact hawake
  · rcases hp with hp | hp
    · exact absurd hp hphase.1
    · exact absurd hp hphase.2

private theorem recv_inv (h : Inv s) (hk : s.actors k = some r) (hphase : r.phase = .selecting)
    (hrecv : s.recv k r.actor = some s') : Inv s' := by
  obtain ⟨live, queue, actors, -, log⟩ := h.awake_of_actor hk (by simp [hphase])
  obtain ⟨hlt, hsenders, hopen, hspawns⟩ := h.channel.handle _ _ live
  simp only [EntityHandle.send] at hlt hsenders hopen hspawns
  unfold State.recv at hrecv
  split at hrecv
  · rename_i spawn inbox hinbox
    cases hrecv
    rw [hinbox] at hspawns
    obtain ⟨spawn', heq, hid⟩ := hspawns _ List.mem_cons_self
    cases heq
    refine h.of_actor hk ?_ rfl (fun _ _ => rfl) rfl ?_ ?_ ?_ rfl rfl
    · intro r' hr'
      cases hr'
      rfl
    · intro id' hid'
      simp only [State.logEvent, hid, Function.update_of_ne hid']
      rfl
    · let r' : Running Id S :=
        ⟨{ r.actor with state := spawn.call r.actor.state, tasks := r.actor.tasks ++ [spawn.task] }, .checking⟩
      have hactors : ActorsOf (Function.update s.actors k (some r')) r.actor.id (some (k, r')) := actors.update rfl
      refine .awake k r' live queue hactors (Or.inr (Or.inl rfl)) ?_
      simp only [State.logEvent, hid, Function.update_self]
      exact log.callback _
    · have hchannel := h.channel.setInbox live (fun cmd hcmd => hspawns cmd (List.mem_cons_of_mem _ hcmd))
      exact hchannel.congr rfl rfl rfl rfl
  · -- the manager sends `EntityShutdown` only when it shuts down
    rename_i inbox hinbox
    rw [hinbox] at hspawns
    obtain ⟨spawn', heq, -⟩ := hspawns _ List.mem_cons_self
    cases heq
  · rw [hsenders] at hrecv
    cases hrecv

private theorem poll_inv (h : Inv s) (hk : s.actors k = some r)
    (hphase : r.phase = .selecting ∨ r.phase = .softShutdown)
    {i : Nat} (hpoll : s.poll k r i = some s') : Inv s' := by
  have hne : r.phase ≠ .idleShutdown ∧ r.phase ≠ .completing := by
    rcases hphase with hphase | hphase <;> simp [hphase]
  obtain ⟨live, queue, actors, hp, log⟩ := h.awake_of_actor hk hne
  have hselecting : r.phase = .selecting := by
    rcases hphase with hphase | hphase
    · exact hphase
    · rw [hphase] at hp
      simp at hp
  unfold State.poll at hpoll
  split at hpoll
  · cases hpoll
  · rename_i effect rest htask
    cases hpoll
    let r' : Running Id S :=
      { r with actor := { r.actor with state := effect r.actor.state, tasks := r.actor.tasks.set i rest } }
    refine h.of_actor hk ?_ rfl (fun _ _ => rfl) rfl ?_ ?_ (h.channel.congr rfl rfl rfl rfl) rfl rfl
    · intro r₀ hr₀
      cases hr₀
      rfl
    · intro id' hid'
      simp only [State.logEvent, Function.update_of_ne hid']
      rfl
    · have hactors : ActorsOf (Function.update s.actors k (some r')) r.actor.id (some (k, r')) := actors.update rfl
      refine .awake k r' live queue hactors (Or.inl hselecting) ?_
      simp only [State.logEvent, Function.update_self]
      exact log.callback _
  · rename_i htask
    cases hpoll
    let r' : Running Id S :=
      ⟨{ r.actor with tasks := r.actor.tasks.eraseIdx i }, if r.phase = .selecting then .checking else r.phase⟩
    have hchecking : r'.phase = .checking := if_pos hselecting
    refine h.of_actor hk ?_ rfl (fun _ _ => rfl) rfl (fun _ _ => rfl) ?_ (h.channel.congr rfl rfl rfl rfl)
      rfl rfl
    · intro r₀ hr₀
      cases hr₀
      rfl
    · have hactors : ActorsOf (Function.update s.actors k (some r')) r.actor.id (some (k, r')) := actors.update rfl
      exact .awake k r' live queue hactors (Or.inr (Or.inl hchecking)) log

private theorem check_inv (h : Inv s) (hk : s.actors k = some r) (hphase : r.phase = .checking) :
    Inv (s.check k r.actor) := by
  obtain ⟨live, queue, actors, -, log⟩ := h.awake_of_actor hk (by simp [hphase])
  have haux : ∀ phase : ActorPhase, phase = .selecting ∨ phase = .checking ∨ phase = .recycling ∧ r.actor.tasks = [] →
      Inv (s.setActor k (some ⟨r.actor, phase⟩)) := by
    intro phase hp
    refine h.of_actor hk ?_ rfl (fun _ _ => rfl) rfl (fun _ _ => rfl) ?_ (h.channel.congr rfl rfl rfl rfl) rfl rfl
    · intro r' hr'
      cases hr'
      rfl
    · exact .awake k ⟨r.actor, phase⟩ live queue (actors.update rfl) hp log
  unfold State.check
  split
  · rename_i hidle
    exact haux _ (Or.inr (Or.inr ⟨rfl, List.length_eq_zero_iff.mp hidle.1⟩))
  · exact haux _ (Or.inl rfl)

private theorem sendShutdown_inv (h : Inv s) (hrunning : s.phase = .running) (hk : s.actors k = some r)
    (hphase : r.phase = .recycling) (hsend : s.sendShutdown options k r.actor = some s') : Inv s' := by
  obtain ⟨live, queue, actors, hp, log⟩ := h.awake_of_actor hk (by simp [hphase])
  have htasks : r.actor.tasks = [] := by
    simp only [hphase, reduceCtorEq, false_or, true_and] at hp
    exact hp
  unfold State.sendShutdown at hsend
  simp only [hrunning] at hsend
  split at hsend
  · cases hsend
    let r' : Running Id S := ⟨r.actor, .idleShutdown⟩
    refine h.of_actor hk ?_ rfl ?_ rfl ?_ ?_ (h.channel.congr rfl rfl rfl rfl) rfl ?_
    · intro r₀ hr₀
      cases hr₀
      rfl
    · intro id' hid'
      exact queueOf_push_other rfl hid'
    · intro id' hid'
      simp only [State.logEvent, Function.update_of_ne hid']
      rfl
    · have hactors : ActorsOf (Function.update s.actors k (some r')) r.actor.id (some (k, r')) := actors.update rfl
      refine .leaving k r' false live ?_ hactors (Or.inl rfl) htasks ?_
      · refine (queueOf_push s _ (.shutdown r.actor.id r.actor.recv) rfl).trans ?_
        exact congrArg (· ++ _) queue
      · simp only [State.logEvent, Function.update_self]
        exact log.shutdown
    · simp [htasks]
  · cases hsend

/-- The actor of an entity that is in `on_shutdown`, or has finished it. -/
theorem Inv.leaving_of_actor (h : Inv s) (hk : s.actors k = some r)
    (hphase : r.phase = .idleShutdown ∨ r.phase = .completing) :
    ∃ handed, s.live.lookup r.actor.id = some (handleOf handed r.actor.recv) ∧
      s.queueOf r.actor.id = pendingShutdown handed r.actor.id r.actor.recv ∧
      ActorsOf s.actors r.actor.id (some (k, r)) ∧ r.actor.tasks = [] ∧ Replays (s.log r.actor.id) .down := by
  rcases (h.entity r.actor.id).of_actor hk with ⟨-, -, -, hp, -⟩ | ⟨handed, live, queue, actors, -, tasks, log⟩
  · rcases hphase with hphase | hphase <;> simp [hphase] at hp
  · exact ⟨handed, live, queue, actors, tasks, log⟩

private theorem finishShutdown_inv (h : Inv s) (hk : s.actors k = some r)
    (hphase : r.phase = .idleShutdown) (state : S) :
    Inv (s.setActor k (some ⟨{ r.actor with state }, .completing⟩)) := by
  obtain ⟨handed, live, queue, actors, tasks, log⟩ := h.leaving_of_actor hk (Or.inl hphase)
  let r' : Running Id S := ⟨{ r.actor with state }, .completing⟩
  refine h.of_actor hk ?_ rfl (fun _ _ => rfl) rfl (fun _ _ => rfl) ?_ (h.channel.congr rfl rfl rfl rfl)
    rfl rfl
  · intro r₀ hr₀
    cases hr₀
    rfl
  · have hactors : ActorsOf (Function.update s.actors k (some r')) r.actor.id (some (k, r')) := actors.update rfl
    exact .leaving k r' handed live queue hactors (Or.inr rfl) tasks log

private theorem sendComplete_inv (h : Inv s) (hrunning : s.phase = .running) (hk : s.actors k = some r)
    (hphase : r.phase = .completing) (hsend : s.sendComplete options k r.actor = some s') : Inv s' := by
  obtain ⟨handed, live, queue, actors, tasks, log⟩ := h.leaving_of_actor hk (Or.inr hphase)
  unfold State.sendComplete at hsend
  simp only [hrunning] at hsend
  split at hsend
  · cases hsend
    refine h.of_actor hk ?_ rfl ?_ rfl (fun _ _ => rfl) ?_ (h.channel.congr rfl rfl rfl rfl) rfl rfl
    · intro r₀ hr₀
      cases hr₀
    · intro id' hid'
      exact queueOf_push_other rfl hid'
    · refine .left r.actor.recv r.actor.state handed live ?_ actors.remove log
      refine (queueOf_push s _ (.shutdownComplete r.actor.id r.actor.state r.actor.tasks) rfl).trans ?_
      rw [← tasks]
      exact congrArg (· ++ _) queue
  · cases hsend

/-! ### The manager -/

/-- A step of the manager that changes one entity and its channels, and starts no actor. -/
theorem Inv.of_manager (h : Inv s) (id : Id) (hlive : ∀ id', id' ≠ id → s'.live.lookup id' = s.live.lookup id')
    (hqueue : ∀ id', id' ≠ id → s'.queueOf id' = s.queueOf id') (hactors : s'.actors = s.actors)
    (hlog : ∀ id', id' ≠ id → s'.log id' = s.log id') (hentity : EntityInv s' id) (hchannel : ChannelInv s')
    (hnext : s'.nextActor = s.nextActor) (hfailed : s'.failed = false) : Inv s' := by
  refine h.of_entity id hlive hqueue ?_ hlog hentity hchannel ?_ hfailed
  · intro k r _
    rw [hactors]
  · rw [hactors, hnext]
    exact h.next

/-- An actor is started for an entity that has none. -/
theorem Inv.of_start (h : Inv s) {actor : Actor Id S} (hactors : s'.actors = s.actors)
    (hnext : s'.nextActor = s.nextActor)
    (hlive : ∀ id', id' ≠ actor.id → s'.live.lookup id' = s.live.lookup id')
    (hqueue : ∀ id', id' ≠ actor.id → s'.queueOf id' = s.queueOf id')
    (hlog : ∀ id', id' ≠ actor.id → s'.log id' = s.log id') (hchannel : ChannelInv s') (hfailed : s'.failed = false)
    (live : s'.live.lookup actor.id = some (.live actor.recv)) (queue : s'.queueOf actor.id = [])
    (actors : ActorsOf s.actors actor.id none) (log : Replays (s'.log actor.id) .asleep)
    (hstate : actor.state = default) : Inv (s'.start actor) := by
  refine h.of_entity actor.id hlive hqueue ?_ ?_ ?_ (hchannel.congr rfl rfl rfl rfl) ?_ hfailed
  · intro k r hr
    simp only [State.start, State.setActor, State.logEvent, hactors, hnext]
    by_cases hk : k = s.nextActor
    · subst hk
      rw [Function.update_self, h.next s.nextActor le_rfl]
      constructor
      · intro heq
        cases heq
        exact absurd rfl hr
      · intro heq
        cases heq
    · rw [Function.update_of_ne hk]
  · intro id' hid'
    simp only [State.start, State.logEvent, Function.update_of_ne hid']
    exact hlog id' hid'
  · let r' : Running Id S := ⟨actor, .selecting⟩
    have hstart : ActorsOf (s'.start actor).actors actor.id (some (s'.nextActor, r')) := by
      simp only [State.start, State.setActor, State.logEvent, hactors]
      exact actors.start rfl
    refine .awake s'.nextActor r' live queue hstart (Or.inl rfl) ?_
    simp only [State.start, State.logEvent, Function.update_self, r', hstate]
    exact log.wakeup
  · intro k hk
    have hlt : s.nextActor + 1 ≤ k := by
      rw [← hnext]
      exact hk
    simp only [State.start, State.setActor, State.logEvent, hactors, hnext]
    rw [Function.update_of_ne (by omega)]
    exact h.next k (by omega)

/-- An entity that is not in the map is asleep. -/
private theorem Inv.asleep_of_lookup (h : Inv s) (hlookup : s.live.lookup id = none) :
    s.queueOf id = [] ∧ ActorsOf s.actors id none ∧ Replays (s.log id) .asleep := by
  cases h.entity id with
  | asleep live queue actors log => exact ⟨queue, actors, log⟩
  | awake k r live => exact absurd (hlookup.symm.trans live) (by simp)
  | leaving k r handed live => exact absurd (hlookup.symm.trans live) (by simp)
  | left c state handed live => exact absurd (hlookup.symm.trans live) (by simp)

theorem getOrCreate_inv (h : Inv s) (id : Id) :
    Inv (s.getOrCreate id).1 ∧ (s.getOrCreate id).1.live.lookup id = some (s.getOrCreate id).2 := by
  unfold State.getOrCreate
  split
  · rename_i handle hlookup
    exact ⟨h, hlookup⟩
  · rename_i hlookup
    obtain ⟨queue, actors, log⟩ := h.asleep_of_lookup hlookup
    split
    · rename_i send actor pool hpool
      obtain ⟨hlt, hrecv, hchannel, -⟩ := h.channel.pool (send, actor) (hpool ▸ List.mem_cons_self)
      simp only at hlt hrecv hchannel
      have hunused : ({ s with pool } : State Id S).Unused send := by
        constructor
        · exact h.channel.free (send, actor) (hpool ▸ List.mem_cons_self)
        · intro e he heq
          have hnodup := h.channel.nodup
          rw [hpool, List.map_cons, List.nodup_cons] at hnodup
          exact hnodup.1 (List.mem_map.mpr ⟨e, he, heq⟩)
      have hrest : ChannelInv ({ s with pool } : State Id S) := by
        apply h.channel.mono
        · intro id' h' hlookup'
          exact ⟨h', hlookup', rfl⟩
        · rw [hpool]
          exact List.sublist_cons_self _ _
        · exact fun _ _ => rfl
        · rfl
      have hupdate : s.channels = Function.update s.channels send ⟨[], 1, true⟩ := by
        rw [← hchannel, Function.update_eq_self]
      have hclaim : ChannelInv ({ s with pool, live := s.live.insert id (.live send) } : State Id S) :=
        hrest.claim hunused rfl rfl hupdate le_rfl hlt
      refine ⟨?_, AList.lookup_insert _⟩
      refine h.of_start rfl rfl ?_ (fun _ _ => rfl) (fun _ _ => rfl) hclaim h.failed ?_ queue actors log rfl
      · intro id' hid'
        exact AList.lookup_insert_ne hid'
      · simp only [AList.lookup_insert, hrecv]
    · have hunused : s.Unused s.nextChannel := by
        constructor
        · intro id' h' hlookup' heq
          have hlt := (h.channel.handle id' h' hlookup').1
          omega
        · intro e he heq
          have hlt := (h.channel.pool e he).1
          omega
      refine ⟨?_, AList.lookup_insert _⟩
      refine h.of_start rfl rfl ?_ (fun _ _ => rfl) (fun _ _ => rfl) ?_ h.failed
        (AList.lookup_insert _) queue actors log rfl
      · intro id' hid'
        exact AList.lookup_insert_ne hid'
      · exact h.channel.claim hunused rfl rfl rfl (Nat.le_succ _) (Nat.lt_succ_self _)

/-- Only an inbox changes, or what is said about the callbacks. -/
private theorem Inv.of_channel (h : Inv s) (hlive : s'.live = s.live) (hqueue : s'.queue = s.queue)
    (hactors : s'.actors = s.actors) (hlog : s'.log = s.log) (hnext : s'.nextActor = s.nextActor)
    (hfailed : s'.failed = s.failed) (hchannel : ChannelInv s') : Inv s' where
  entity := by
    intro id
    apply (h.entity id).frame
    · rw [hlive]
    · unfold State.queueOf
      rw [hqueue]
    · intro k r _
      rw [hactors]
    · rw [hlog]
  channel := hchannel
  next := by
    rw [hactors, hnext]
    exact h.next
  failed := hfailed.trans h.failed

private theorem spawnBoxed_inv (h : Inv s) (spawn : Spawn Id S) : Inv (s.spawnBoxed options spawn) := by
  obtain ⟨hcreated, hlookup⟩ := getOrCreate_inv h spawn.id
  unfold State.spawnBoxed
  generalize s.getOrCreate spawn.id = created at hcreated hlookup
  obtain ⟨s₁, handle⟩ := created
  have hinbox := (hcreated.channel.handle spawn.id handle hlookup).2.2.2
  have hcalled : ∀ accepted calls, Inv ({ s₁ with accepted, calls } : State Id S) := by
    intro accepted calls
    exact hcreated.of_channel rfl rfl rfl rfl rfl rfl (hcreated.channel.congr rfl rfl rfl rfl)
  simp only
  split
  · exact hcalled _ _
  · split
    · refine hcreated.of_channel rfl rfl rfl rfl rfl rfl ?_
      have hpush : ChannelInv (s₁.setInbox handle.send ((s₁.channels handle.send).inbox ++ [.spawn spawn])) := by
        apply hcreated.channel.setInbox hlookup
        intro cmd hcmd
        rcases List.mem_append.mp hcmd with hcmd | hcmd
        · exact hinbox cmd hcmd
        · exact ⟨spawn, List.mem_singleton.mp hcmd, rfl⟩
      exact hpush.congr rfl rfl rfl rfl
    · exact hcalled _ _

/-- The actor that sends `Shutdown` is leaving or has left, and its receiver was not handed back before. -/
theorem Inv.of_shutdown (h : Inv s) {c : Nat} {queue : List (InternalCommand Id S)}
    (hqueue : s.queue = .shutdown id c :: queue) :
    s.live.lookup id = some (.live c) ∧
      EntityInv { s with queue, live := s.live.insert id (.shuttingDown c c) } id := by
  let s' : State Id S := { s with queue, live := s.live.insert id (.shuttingDown c c) }
  have hpop : s.queueOf id = .shutdown id c :: s'.queueOf id := queueOf_pop s s' (.shutdown id c) hqueue
  have hlookup : s'.live.lookup id = some (handleOf true c) := AList.lookup_insert _
  cases h.entity id with
  | asleep live queue => exact absurd (hpop.symm.trans queue) (by simp)
  | awake k r live queue => exact absurd (hpop.symm.trans queue) (by simp)
  | leaving k r handed live queue actors phase tasks log =>
    have hcons := hpop.symm.trans queue
    cases handed with
    | true => simp [pendingShutdown] at hcons
    | false =>
      simp only [pendingShutdown, Bool.false_eq_true, if_false, List.cons.injEq, InternalCommand.shutdown.injEq,
        true_and] at hcons
      obtain ⟨rfl, hrest⟩ := hcons
      exact ⟨live, .leaving k r true hlookup hrest actors phase tasks log⟩
  | left c' state handed live queue actors log =>
    have hcons := hpop.symm.trans queue
    cases handed with
    | true => simp [pendingShutdown] at hcons
    | false =>
      simp only [pendingShutdown, Bool.false_eq_true, if_false, List.cons_append, List.nil_append, List.cons.injEq,
        InternalCommand.shutdown.injEq, true_and] at hcons
      obtain ⟨rfl, hrest⟩ := hcons
      exact ⟨live, .left c state true hlookup hrest actors log⟩

/-- The actor that sends `ShutdownComplete` has handed back its receiver before. -/
theorem Inv.of_complete (h : Inv s) {state : S} {tasks : List (List (S → S))} {queue : List (InternalCommand Id S)}
    (hqueue : s.queue = .shutdownComplete id state tasks :: queue) :
    ∃ c, tasks = [] ∧ s.live.lookup id = some (.shuttingDown c c) ∧ ({ s with queue } : State Id S).queueOf id = [] ∧
      ActorsOf s.actors id none ∧ Replays (s.log id) .down := by
  let s₁ : State Id S := { s with queue }
  have hpop : s.queueOf id = .shutdownComplete id state tasks :: s₁.queueOf id :=
    queueOf_pop s s₁ (.shutdownComplete id state tasks) hqueue
  cases h.entity id with
  | asleep live queue => exact absurd (hpop.symm.trans queue) (by simp)
  | awake k r live queue => exact absurd (hpop.symm.trans queue) (by simp)
  | leaving k r handed live queue =>
    have hcons := hpop.symm.trans queue
    cases handed <;> simp [pendingShutdown] at hcons
  | left c state' handed live queue actors log =>
    have hcons := hpop.symm.trans queue
    cases handed with
    | false => simp [pendingShutdown] at hcons
    | true =>
      simp only [pendingShutdown, if_true, List.nil_append, List.cons.injEq, InternalCommand.shutdownComplete.injEq,
        true_and] at hcons
      exact ⟨c, hcons.1.2, live, hcons.2, actors, log⟩

section

variable {c : Nat} {queue : List (InternalCommand Id S)}

omit [Inhabited S] in
/-- Without the entity its channel is not used. -/
private theorem ChannelInv.erase (h : ChannelInv s) (queue : List (InternalCommand Id S))
    (hlookup : s.live.lookup id = some (.shuttingDown c c)) :
    ChannelInv { s with queue, live := s.live.erase id } ∧
      State.Unused ({ s with queue, live := s.live.erase id } : State Id S) c := by
  have herase : ∀ id' h', (s.live.erase id).lookup id' = some h' → id' ≠ id ∧ s.live.lookup id' = some h' := by
    intro id' h' hlookup'
    by_cases hid : id' = id
    · subst hid
      rw [AList.lookup_erase] at hlookup'
      cases hlookup'
    · rw [AList.lookup_erase_ne hid] at hlookup'
      exact ⟨hid, hlookup'⟩
  constructor
  · apply h.mono
    · intro id' h' hlookup'
      exact ⟨h', (herase id' h' hlookup').2, rfl⟩
    · exact List.Sublist.refl _
    · exact fun _ _ => rfl
    · rfl
  · constructor
    · intro id' h' hlookup' heq
      obtain ⟨hid, hold⟩ := herase id' h' hlookup'
      exact hid (h.distinct id' id h' _ hold hlookup heq)
    · intro e he heq
      exact h.free e he id _ hlookup heq.symm

/-- The actor goes into the pool, or is dropped if the pool is full. -/
private theorem recycle_inv (h : Inv s) (hlookup : s.live.lookup id = some (.shuttingDown c c))
    (hother : ∀ id', id' ≠ id → ({ s with queue } : State Id S).queueOf id' = s.queueOf id')
    (hqueue : ({ s with queue } : State Id S).queueOf id = []) (actors : ActorsOf s.actors id none)
    (log : Replays (s.log id) .down) (hempty : (s.channels c).inbox.length = 0) (state : S) :
    Inv (State.recycle options { s with queue, live := s.live.erase id } c ⟨id, c, state, []⟩) := by
  obtain ⟨hlt, hsenders, hopen, -⟩ := h.channel.handle _ _ hlookup
  simp only [EntityHandle.send] at hlt hsenders hopen
  obtain ⟨herased, hunused⟩ := h.channel.erase queue hlookup
  have hlive : ∀ id', id' ≠ id → (s.live.erase id).lookup id' = s.live.lookup id' := by
    intro id' hid'
    exact AList.lookup_erase_ne hid'
  have hlog : ∀ id', id' ≠ id → Function.update s.log id (s.log id ++ [.reset]) id' = s.log id' := by
    intro id' hid'
    exact Function.update_of_ne hid' _ _
  have hreset : Replays (Function.update s.log id (s.log id ++ [.reset]) id) .asleep := by
    rw [Function.update_self]
    exact log.reset
  have hchannel : s.channels c = ⟨[], 1, true⟩ := by
    rw [← hsenders, ← hopen, ← List.length_eq_zero_iff.mp hempty]
  unfold State.recycle
  rw [if_pos ⟨hsenders, hempty, hsenders, rfl⟩]
  simp only
  split
  · refine h.of_manager id hlive hother rfl hlog (.asleep (AList.lookup_erase _ _) hqueue actors hreset) ?_ rfl h.failed
    exact herased.park ⟨id, c, default, []⟩ hunused hlt hchannel rfl rfl rfl rfl rfl
  · refine h.of_manager id hlive hother rfl hlog (.asleep (AList.lookup_erase _ _) hqueue actors hreset) ?_ rfl h.failed
    apply herased.mono
    · intro id' h' hlookup'
      exact ⟨h', hlookup', rfl⟩
    · exact List.Sublist.refl _
    · rintro c' (⟨id', h', hlookup', rfl⟩ | ⟨e, he, rfl⟩)
      · exact Function.update_of_ne (hunused.live id' h' hlookup') _ _
      · exact Function.update_of_ne (hunused.pool e he) _ _
    · rfl

/-- There were commands during the shutdown, and the actor is started again. -/
private theorem restart_inv (h : Inv s) (hlookup : s.live.lookup id = some (.shuttingDown c c))
    (hother : ∀ id', id' ≠ id → ({ s with queue } : State Id S).queueOf id' = s.queueOf id')
    (hqueue : ({ s with queue } : State Id S).queueOf id = []) (actors : ActorsOf s.actors id none)
    (log : Replays (s.log id) .down) :
    let s₁ : State Id S := { s with queue, live := s.live.erase id }
    Inv (State.start { s₁.logEvent id .reset with live := s₁.live.insert id (.live c) } ⟨id, c, default, []⟩) := by
  intro s₁
  have hlive : ∀ id', id' ≠ id → ((s.live.erase id).insert id (.live c)).lookup id' = s.live.lookup id' := by
    intro id' hid'
    rw [AList.lookup_insert_ne hid', AList.lookup_erase_ne hid']
  refine h.of_start rfl rfl hlive hother ?_ ?_ h.failed (AList.lookup_insert _) hqueue actors ?_ rfl
  · intro id' hid'
    exact Function.update_of_ne hid' _ _
  · apply h.channel.mono
    · intro id' h' hlookup'
      by_cases hid : id' = id
      · subst hid
        simp only [AList.lookup_insert] at hlookup'
        cases hlookup'
        exact ⟨_, hlookup, rfl⟩
      · exact ⟨h', (hlive id' hid).symm.trans hlookup', rfl⟩
    · exact List.Sublist.refl _
    · exact fun _ _ => rfl
    · rfl
  · simp only [State.logEvent, Function.update_self]
    exact log.reset

end

private theorem tick_inv (h : Inv s) (htick : s.tick options = some s') : Inv s' := by
  unfold State.tick at htick
  split at htick
  · cases htick
  · rename_i cmd queue hqueue
    cases htick
    have hother : ∀ id', id' ≠ cmd.id → ({ s with queue } : State Id S).queueOf id' = s.queueOf id' := by
      intro id' hid'
      exact (queueOf_pop_other s { s with queue } cmd hqueue hid').symm
    cases cmd with
    | shutdown id c =>
      obtain ⟨hlookup, hentity⟩ := h.of_shutdown hqueue
      simp only [State.handleInternal, hlookup]
      refine h.of_manager id ?_ hother rfl (fun _ _ => rfl) hentity ?_ rfl h.failed
      · intro id' hid'
        exact AList.lookup_insert_ne hid'
      · apply h.channel.mono
        · intro id' h' hlookup'
          by_cases hid : id' = id
          · subst hid
            simp only [AList.lookup_insert] at hlookup'
            cases hlookup'
            exact ⟨.live c, hlookup, rfl⟩
          · simp only [AList.lookup_insert_ne hid] at hlookup'
            exact ⟨h', hlookup', rfl⟩
        · exact List.Sublist.refl _
        · exact fun _ _ => rfl
        · rfl
    | shutdownComplete id state tasks =>
      obtain ⟨c, rfl, hlookup, hqueueOf, actors, log⟩ := h.of_complete hqueue
      simp only [State.handleInternal, hlookup]
      split
      · rename_i hempty
        exact recycle_inv h hlookup hother hqueueOf actors log hempty state
      · exact restart_inv h hlookup hother hqueueOf actors log

/-! ### Runs -/

omit [Inhabited S] in
private theorem actorAt_eq {phase : ActorPhase} {a : Actor Id S} (h : s.actorAt k phase = some a) :
    ∃ r, s.actors k = some r ∧ r.phase = phase ∧ r.actor = a := by
  unfold State.actorAt at h
  split at h
  · rename_i r hk
    split at h
    · rename_i hphase
      cases h
      exact ⟨r, hk, hphase, rfl⟩
    · cases h
  · cases h

/-- What a running actor does. -/
inductive ActorStep (options : Options) (s : State Id S) (k : Nat) (r : Running Id S) : State Id S → Prop
  | recv {s' : State Id S} (phase : r.phase = .selecting) (h : s.recv k r.actor = some s') : ActorStep options s k r s'
  | poll {s' : State Id S} (i : Nat) (phase : r.phase = .selecting ∨ r.phase = .softShutdown)
    (h : s.poll k r i = some s') : ActorStep options s k r s'
  | check (phase : r.phase = .checking) : ActorStep options s k r (s.check k r.actor)
  | sendShutdown {s' : State Id S} (phase : r.phase = .recycling) (h : s.sendShutdown options k r.actor = some s') :
    ActorStep options s k r s'
  | finishShutdown (state : S) (phase : r.phase = .idleShutdown) :
    ActorStep options s k r (s.setActor k (some ⟨{ r.actor with state }, .completing⟩))
  | sendComplete {s' : State Id S} (phase : r.phase = .completing) (h : s.sendComplete options k r.actor = some s') :
    ActorStep options s k r s'
  | finishSoft (phase : r.phase = .softShutdown) (tasks : r.actor.tasks.length = 0) : ActorStep options s k r
      ((s.setChannel r.actor.recv { s.channels r.actor.recv with isOpen := false }).setActor k none)

/-- What the manager does. -/
inductive ManagerStep (options : Options) (s : State Id S) : Action Id S → State Id S → Prop
  | spawn (spawn : Spawn Id S) (phase : s.phase = .running) :
    ManagerStep options s (.spawn spawn) (s.spawnBoxed options spawn)
  | tick {s' : State Id S} (phase : s.phase = .running) (h : s.tick options = some s') : ManagerStep options s .tick s'
  | shutdownAll (ids : List Id) (phase : s.phase = .running) (h : ids.Perm s.live.keys) :
    ManagerStep options s (.shutdownAll ids) { s with phase := .sending ids }
  | sendEntityShutdown {s' : State Id S} (id : Id) (rest : List Id) (phase : s.phase = .sending (id :: rest))
    (h : s.sendEntityShutdown options id rest = some s') : ManagerStep options s .sendEntityShutdown s'
  | dropState (phase : s.phase = .sending []) : ManagerStep options s .dropState s.dropState
  | confirm (phase : s.phase = .joining) (h : ∀ k < s.nextActor, (s.actors k).isNone) :
    ManagerStep options s .confirm { s with phase := .confirmed }

theorem step_cases {action : Action Id S} (hstep : step options onShutdown s action = some s') :
    (∃ k r, s.actors k = some r ∧ ActorStep options s k r s') ∨ ManagerStep options s action s' := by
  cases action with
  | spawn spawn =>
    simp only [step] at hstep
    split at hstep
    · rename_i hphase
      cases hstep
      exact Or.inr (.spawn spawn hphase)
    · cases hstep
  | tick =>
    simp only [step] at hstep
    split at hstep
    · rename_i hphase
      exact Or.inr (.tick hphase hstep)
    · cases hstep
  | recv k =>
    obtain ⟨a, ha, hstep⟩ := Option.bind_eq_some_iff.mp hstep
    obtain ⟨r, hk, hphase, rfl⟩ := actorAt_eq ha
    exact Or.inl ⟨k, r, hk, .recv hphase hstep⟩
  | poll k i =>
    simp only [step] at hstep
    split at hstep
    · rename_i r hk
      split at hstep
      · rename_i hphase
        exact Or.inl ⟨k, r, hk, .poll i hphase hstep⟩
      · cases hstep
    · cases hstep
  | check k =>
    obtain ⟨a, ha, rfl⟩ := Option.map_eq_some_iff.mp hstep
    obtain ⟨r, hk, hphase, rfl⟩ := actorAt_eq ha
    exact Or.inl ⟨k, r, hk, .check hphase⟩
  | sendShutdown k =>
    obtain ⟨a, ha, hstep⟩ := Option.bind_eq_some_iff.mp hstep
    obtain ⟨r, hk, hphase, rfl⟩ := actorAt_eq ha
    exact Or.inl ⟨k, r, hk, .sendShutdown hphase hstep⟩
  | finishShutdown k =>
    obtain ⟨a, ha, rfl⟩ := Option.map_eq_some_iff.mp hstep
    obtain ⟨r, hk, hphase, rfl⟩ := actorAt_eq ha
    exact Or.inl ⟨k, r, hk, .finishShutdown _ hphase⟩
  | sendComplete k =>
    obtain ⟨a, ha, hstep⟩ := Option.bind_eq_some_iff.mp hstep
    obtain ⟨r, hk, hphase, rfl⟩ := actorAt_eq ha
    exact Or.inl ⟨k, r, hk, .sendComplete hphase hstep⟩
  | finishSoft k =>
    obtain ⟨a, ha, hstep⟩ := Option.bind_eq_some_iff.mp hstep
    obtain ⟨r, hk, hphase, rfl⟩ := actorAt_eq ha
    simp only at hstep
    split at hstep
    · rename_i htasks
      cases hstep
      exact Or.inl ⟨k, r, hk, .finishSoft hphase htasks⟩
    · cases hstep
  | shutdownAll ids =>
    simp only [step] at hstep
    split at hstep
    · rename_i hphase
      split at hstep
      · rename_i hperm
        cases hstep
        exact Or.inr (.shutdownAll ids hphase hperm)
      · cases hstep
    · cases hstep
  | sendEntityShutdown =>
    simp only [step] at hstep
    split at hstep
    · rename_i id rest hphase
      exact Or.inr (.sendEntityShutdown id rest hphase hstep)
    · cases hstep
  | dropState =>
    simp only [step] at hstep
    split at hstep
    · rename_i hphase
      cases hstep
      exact Or.inr (.dropState hphase)
    · cases hstep
  | confirm =>
    simp only [step] at hstep
    split at hstep
    · rename_i hphase
      split at hstep
      · rename_i hall
        cases hstep
        exact Or.inr (.confirm hphase hall)
      · cases hstep
    · cases hstep

private theorem ActorStep.inv (h : Inv s) (hrunning : s.phase = .running) (hk : s.actors k = some r)
    (hstep : ActorStep options s k r s') : Inv s' := by
  cases hstep with
  | recv hphase hrecv => exact recv_inv h hk hphase hrecv
  | poll i hphase hpoll => exact poll_inv h hk hphase hpoll
  | check hphase => exact check_inv h hk hphase
  | sendShutdown hphase hsend => exact sendShutdown_inv h hrunning hk hphase hsend
  | finishShutdown state hphase => exact finishShutdown_inv h hk hphase state
  | sendComplete hphase hsend => exact sendComplete_inv h hrunning hk hphase hsend
  | finishSoft hphase htasks =>
    -- no actor has got `EntityShutdown`
    have hawake := (h.awake_of_actor hk (by simp [hphase])).2.2.2.1
    simp [hphase] at hawake

omit [Inhabited S] in
/-- What the actors do not change. -/
theorem ActorStep.frame (hstep : ActorStep options s k r s') : s'.phase = s.phase ∧ s'.live = s.live ∧
    s'.nextChannel = s.nextChannel ∧ s'.nextActor = s.nextActor ∧ s'.accepted = s.accepted := by
  cases hstep with
  | recv hphase hrecv =>
    unfold State.recv at hrecv
    split at hrecv
    · cases hrecv
      exact ⟨rfl, rfl, rfl, rfl, rfl⟩
    · cases hrecv
      exact ⟨rfl, rfl, rfl, rfl, rfl⟩
    · split at hrecv
      · cases hrecv
        exact ⟨rfl, rfl, rfl, rfl, rfl⟩
      · cases hrecv
  | poll i hphase hpoll =>
    unfold State.poll at hpoll
    split at hpoll
    · cases hpoll
    · cases hpoll
      exact ⟨rfl, rfl, rfl, rfl, rfl⟩
    · cases hpoll
      exact ⟨rfl, rfl, rfl, rfl, rfl⟩
  | check hphase =>
    unfold State.check
    split <;> exact ⟨rfl, rfl, rfl, rfl, rfl⟩
  | sendShutdown hphase hsend =>
    unfold State.sendShutdown at hsend
    simp only at hsend
    split at hsend
    · cases hsend
      exact ⟨rfl, rfl, rfl, rfl, rfl⟩
    · split at hsend
      · cases hsend
        exact ⟨rfl, rfl, rfl, rfl, rfl⟩
      · cases hsend
  | finishShutdown state hphase => exact ⟨rfl, rfl, rfl, rfl, rfl⟩
  | sendComplete hphase hsend =>
    unfold State.sendComplete at hsend
    split at hsend
    · cases hsend
      exact ⟨rfl, rfl, rfl, rfl, rfl⟩
    · split at hsend
      · cases hsend
        exact ⟨rfl, rfl, rfl, rfl, rfl⟩
      · cases hsend
  | finishSoft hphase htasks => exact ⟨rfl, rfl, rfl, rfl, rfl⟩

private theorem getOrCreate_phase (s : State Id S) (id : Id) : (s.getOrCreate id).1.phase = s.phase := by
  unfold State.getOrCreate
  split
  · rfl
  · split <;> rfl

private theorem spawnBoxed_phase (spawn : Spawn Id S) : (s.spawnBoxed options spawn).phase = s.phase := by
  rw [← getOrCreate_phase s spawn.id]
  unfold State.spawnBoxed
  simp only
  split
  · rfl
  · split <;> rfl

private theorem recycle_phase (c : Nat) (actor : Actor Id S) : (s.recycle options c actor).phase = s.phase := by
  unfold State.recycle
  split
  · simp only
    split <;> rfl
  · rfl

private theorem tick_phase (htick : s.tick options = some s') : s'.phase = s.phase := by
  unfold State.tick at htick
  split at htick
  · cases htick
  · rename_i cmd queue hqueue
    cases htick
    unfold State.handleInternal
    split
    · split <;> rfl
    · split
      · simp only
        split
        · exact recycle_phase _ _
        · rfl
      · rfl

theorem step_inv {action : Action Id S} (h : s.phase = .running ∧ Inv s) (haction : ∀ ids, action ≠ .shutdownAll ids)
    (hstep : step options onShutdown s action = some s') : s'.phase = .running ∧ Inv s' := by
  obtain ⟨hrunning, hinv⟩ := h
  rcases step_cases hstep with ⟨k, r, hk, hactor⟩ | hmanager
  · exact ⟨hactor.frame.1.trans hrunning, hactor.inv hinv hrunning hk⟩
  · cases hmanager with
    | spawn spawn => exact ⟨(spawnBoxed_phase spawn).trans hrunning, spawnBoxed_inv hinv spawn⟩
    | tick _ htick => exact ⟨(tick_phase htick).trans hrunning, tick_inv hinv htick⟩
    | shutdownAll ids => exact absurd rfl (haction ids)
    | sendEntityShutdown id rest hphase => exact absurd (hrunning.symm.trans hphase) (by simp)
    | dropState hphase => exact absurd (hrunning.symm.trans hphase) (by simp)
    | confirm hphase => exact absurd (hrunning.symm.trans hphase) (by simp)

theorem inv_empty : Inv (State.empty : State Id S) where
  entity := by
    intro id
    refine .asleep (AList.lookup_empty id) rfl ?_ .nil
    intro k r
    simp [State.empty]
  channel := by
    constructor
    · intro id h hlookup
      rw [State.empty, AList.lookup_empty] at hlookup
      cases hlookup
    · intro id id' h h' hlookup
      rw [State.empty, AList.lookup_empty] at hlookup
      cases hlookup
    · intro e he
      cases he
    · intro e he
      cases he
    · exact List.nodup_nil
  next := fun _ _ => rfl
  failed := rfl

/-- The invariant holds as long as the manager is not told to shut down. -/
private theorem run_inv {actions : List (Action Id S)} (hactions : ∀ ids, .shutdownAll ids ∉ actions)
    (hrun : StateMachine.run (step options onShutdown) State.empty actions = some s) : s.phase = .running ∧ Inv s := by
  have hmeets : StateMachine.RunMeets (step options onShutdown) (fun _ action => ∀ ids, action ≠ .shutdownAll ids)
      State.empty actions := by
    apply StateMachine.runMeets_of_forall
    rintro action hmem ids rfl
    exact hactions ids hmem
  exact @StateMachine.inv_of_run _ _ (step options onShutdown) (fun s => s.phase = .running ∧ Inv s) _ step_inv
    _ _ _ ⟨rfl, inv_empty⟩ hmeets hrun

/-- At most one actor of an entity runs.  Its callbacks happen between a wakeup and a shutdown, on the state that was
left by the callbacks before them since the wakeup; wakeups and shutdowns alternate; and no assertion fails. -/
theorem entity_exclusive {actions : List (Action Id S)} (hactions : ∀ ids, .shutdownAll ids ∉ actions)
    (hrun : StateMachine.run (step options onShutdown) State.empty actions = some s) :
    (∀ k k' r r', s.actors k = some r → s.actors k' = some r' → r.actor.id = r'.actor.id → k = k') ∧
      (∀ id, ∃ status, Replays (s.log id) status) ∧ s.failed = false := by
  obtain ⟨-, hinv⟩ := run_inv hactions hrun
  refine ⟨?_, ?_, hinv.failed⟩
  · intro k k' r r' hk hk' hid
    have hactors : ∃ actor, ActorsOf s.actors r.actor.id actor := by
      cases hinv.entity r.actor.id with
      | asleep _ _ actors => exact ⟨_, actors⟩
      | awake _ _ _ _ actors => exact ⟨_, actors⟩
      | leaving _ _ _ _ _ actors => exact ⟨_, actors⟩
      | left _ _ _ _ _ actors => exact ⟨_, actors⟩
    obtain ⟨actor, hactors⟩ := hactors
    have h1 := (hactors k r).mp ⟨hk, rfl⟩
    have h2 := (hactors k' r').mp ⟨hk', hid.symm⟩
    rw [h1] at h2
    cases h2
    rfl
  · intro id
    cases hinv.entity id with
    | asleep _ _ _ log => exact ⟨_, log⟩
    | awake _ _ _ _ _ _ log => exact ⟨_, log⟩
    | leaving _ _ _ _ _ _ _ _ log => exact ⟨_, log⟩
    | left _ _ _ _ _ _ log => exact ⟨_, log⟩

/-- A command comes in while the actor shuts down: the actor is restarted, and then pooled and used for another
entity. -/
theorem entity_exclusive_restart :
    let spawn : Nat → Nat → Action Nat Nat := fun id key => .spawn ⟨id, key, (· + 1), [(· + 2)]⟩
    let serve : Nat → List (Action Nat Nat) := fun k =>
      [.recv k, .check k, .poll k 0, .poll k 0, .check k, .sendShutdown k, .finishShutdown k]
    ∃ s, StateMachine.run (step ⟨10, 10, 100⟩ (fun _ _ n => n)) State.empty
        ([spawn 0 0] ++ serve 0 ++ [spawn 0 1, .tick, .sendComplete 0, .tick] ++ serve 1 ++
          [.sendComplete 1, .tick, .tick, spawn 1 2, .recv 2]) = some s ∧
      (∀ k k' r r', s.actors k = some r → s.actors k' = some r' → r.actor.id = r'.actor.id → k = k') ∧
      (∀ id, ∃ status, Replays (s.log id) status) ∧ s.failed = false := by
  intro spawn serve
  have hrun : (StateMachine.run (step ⟨10, 10, 100⟩ (fun _ _ n => n)) State.empty
      ([spawn 0 0] ++ serve 0 ++ [spawn 0 1, .tick, .sendComplete 0, .tick] ++ serve 1 ++
        [.sendComplete 1, .tick, .tick, spawn 1 2, .recv 2])).isSome = true := by
    decide +kernel
  obtain ⟨s, hs⟩ := Option.isSome_iff_exists.mp hrun
  exact ⟨s, hs, entity_exclusive (by simp [spawn, serve]) hs⟩

end

end

end EntityManager

end IrohBlobs
