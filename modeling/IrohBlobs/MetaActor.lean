import IrohBlobs.BatchedActor
import IrohBlobs.Gc
import IrohBlobs.Meta

/-!
# The metadata actor

The commands of `meta/proto.rs` and their handlers in `meta.rs`, run by the batching actor.  The tables are those of
`Meta` together with the tags; the files that the commands mark for deletion do not matter here.
-/

namespace IrohBlobs

namespace Meta

open BatchedActor (Command Handlers)

/-! ### Tags -/

abbrev Tag := List UInt8

/-- The table of tags, in the order of the tags. -/
abbrev Tags := List (Tag × HashAndFormat)

namespace Tags

def get (tags : Tags) (tag : Tag) : Option HashAndFormat := (tags.find? (fun t => t.1 == tag)).map Prod.snd

def insert (tags : Tags) (tag : Tag) (value : HashAndFormat) : Tags :=
  tags.filter (fun t => decide (t.1 < tag)) ++ (tag, value) :: tags.filter (fun t => decide (tag < t.1))

def remove (tags : Tags) (tag : Tag) : Tags := tags.filter (fun t => t.1 != tag)

end Tags

/-- From a tag (inclusive) to a tag (exclusive). -/
def inRange (lower upper : Option Tag) (tag : Tag) : Bool :=
  (match lower with
    | some lower => decide (lower ≤ tag)
    | none => true) &&
  (match upper with
    | some upper => decide (tag < upper)
    | none => true)

/-- The candidate number `i` for a new tag. -/
def autoCandidate (now : Tag) (i : Nat) : Tag := if i = 0 then now else now ++ ("-" ++ toString i).toUTF8.toList

/-- A new tag that starts with the current time.  Among one candidate more than there are tags, one is free. -/
def autoTag (now : Tag) (tags : Tags) : Tag :=
  (((List.range (tags.length + 1)).map (autoCandidate now)).find? (fun tag => (tags.get tag).isNone)).getD now

/-! ### Commands -/

inductive ReadOnlyCommand
  | get (hash : Hash)
  | dump
  | listTags (lower upper : Option Tag) (raw hashSeq : Bool)
  | clearProtected
  | getBlobStatus (hash : Hash)

/-- A command to create a tag carries the time at which it is handled. -/
inductive ReadWriteCommand
  | update (hash : Hash) (state : EntryState (List UInt8))
  | set (hash : Hash) (state : EntryState (List UInt8))
  | deleteBlobs (hashes : List Hash) (force : Bool)
  | setTag (name : Tag) (value : HashAndFormat)
  | createTag (now : Tag) (value : HashAndFormat)
  | deleteTags (lower upper : Option Tag)
  | renameTag (source target : Tag)
  | processExit (code : Int)

inductive TopLevelCommand
  | syncDb
  | shutdown
  | snapshot

/-- The database. -/
structure Db where
  tables : Tables
  tags : Tags

def Db.empty : Db := ⟨⟨fun _ => none, fun _ => none, fun _ => none⟩, []⟩

inductive BlobStatus
  | notFound
  | partialBlob (size : Option Nat)
  | complete (size : Nat)
  deriving DecidableEq

inductive Reply
  | done
  | state (state : Option (EntryState (List UInt8)))
  | tags (tags : Tags)
  | status (status : BlobStatus)
  | tag (tag : Tag)
  | tagNotFound (text : String)
  | snapshot (db : Db)

/-- Why a command ends the actor. -/
inductive Failure
  | error (e : ActorError)
  | processExit (code : Int)
  deriving DecidableEq

/-! ### Handlers -/

def loadData (tables : Tables) (hash : Hash) : DataLocation Unit → Except ActorError (DataLocation (List UInt8))
  | .inline _ =>
    match tables.inlineData hash with
    | some data => .ok (.inline data)
    | none => .error .inconsistent
  | .owned size => .ok (.owned size)
  | .external paths size => .ok (.external paths size)

def loadOutboard (tables : Tables) (hash : Hash) :
    OutboardLocation Unit → Except ActorError (OutboardLocation (List UInt8))
  | .notNeeded => .ok .notNeeded
  | .inline _ =>
    match tables.inlineOutboard hash with
    | some outboard => .ok (.inline outboard)
    | none => .error .inconsistent
  | .owned => .ok .owned

def handleGet (tables : Tables) (hash : Hash) : Except ActorError (Option (EntryState (List UInt8))) :=
  match tables.blobs hash with
  | none => .ok none
  | some (.complete dataLocation outboardLocation) => do
    let dataLocation ← loadData tables hash dataLocation
    let outboardLocation ← loadOutboard tables hash outboardLocation
    .ok (some (.complete dataLocation outboardLocation))
  | some (.partialState size) => .ok (some (.partialState size))

def handleGetBlobStatus (tables : Tables) (hash : Hash) : Except ActorError BlobStatus :=
  match tables.blobs hash with
  | some (.complete (.inline _) _) =>
    match tables.inlineData hash with
    | some data => .ok (.complete data.length)
    | none => .error .inconsistent
  | some (.complete (.owned size) _) => .ok (.complete size)
  | some (.complete (.external _ size) _) => .ok (.complete size)
  | some (.partialState size) => .ok (.partialBlob size)
  | none => .ok .notFound

def handleListTags (tags : Tags) (lower upper : Option Tag) (raw hashSeq : Bool) : Tags :=
  tags.filter (fun t => inRange lower upper t.1 && (raw && t.2.format.isRaw || hashSeq && !t.2.format.isRaw))

def handleReadonly (isProtected : Finset Hash) (db : Db) : ReadOnlyCommand → Except Failure (Finset Hash × Reply)
  | .get hash =>
    match handleGet db.tables hash with
    | .ok state => .ok (isProtected, .state state)
    | .error e => .error (.error e)
  | .dump => .ok (isProtected, .done)
  | .listTags lower upper raw hashSeq => .ok (isProtected, .tags (handleListTags db.tags lower upper raw hashSeq))
  | .clearProtected => .ok (∅, .done)
  | .getBlobStatus hash =>
    match handleGetBlobStatus db.tables hash with
    | .ok status => .ok (isProtected, .status status)
    | .error e => .error (.error e)

/-- `handle_set` replaces the entry. -/
def handleSet (txn : Txn) (hash : Hash) (state : EntryState (List UInt8)) : Txn :=
  let (state, data, outboard) := splitState state
  ⟨⟨Function.update txn.tables.blobs hash (some state), insertIfSome txn.tables.inlineData hash data,
    insertIfSome txn.tables.inlineOutboard hash outboard⟩, txn.ftx, insert hash txn.isProtected⟩

def renameTag (tags : Tags) (source target : Tag) : Option Tags :=
  match tags.get source with
  | some value => some ((tags.remove source).insert target value)
  | none => none

def handleReadwrite (isProtected : Finset Hash) (db : Db) : ReadWriteCommand → Except Failure (Finset Hash × Db × Reply)
  | .update hash state =>
    match handleUpdate ⟨db.tables, ∅, isProtected⟩ hash state with
    | .ok txn => .ok (txn.isProtected, { db with tables := txn.tables }, .done)
    | .error e => .error (.error e)
  | .set hash state =>
    let txn := handleSet ⟨db.tables, ∅, isProtected⟩ hash state
    .ok (txn.isProtected, { db with tables := txn.tables }, .done)
  | .deleteBlobs hashes force =>
    let txn := delete ⟨db.tables, ∅, isProtected⟩ hashes force
    .ok (txn.isProtected, { db with tables := txn.tables }, .done)
  | .setTag name value => .ok (isProtected, { db with tags := db.tags.insert name value }, .done)
  | .createTag now value =>
    let tag := autoTag now db.tags
    .ok (isProtected, { db with tags := db.tags.insert tag value }, .tag tag)
  | .deleteTags lower upper =>
    .ok (isProtected, { db with tags := db.tags.filter (fun t => !inRange lower upper t.1) }, .done)
  | .renameTag source target =>
    match renameTag db.tags source target with
    | some tags => .ok (isProtected, { db with tags }, .done)
    | none => .ok (isProtected, db, .tagNotFound "tag not found")
  | .processExit code => .error (.processExit code)

/-- Nothing has to be done to answer `SyncDb`, since no transaction is open. -/
def handleToplevel (db : Db) : TopLevelCommand → Reply × Bool
  | .syncDb => (.done, false)
  | .shutdown => (.done, true)
  | .snapshot => (.snapshot db, false)

/-- The handlers of the metadata actor. -/
def handlers : Handlers Db (Finset Hash) ReadOnlyCommand ReadWriteCommand TopLevelCommand Reply Failure :=
  ⟨handleReadonly, handleReadwrite, handleToplevel⟩

/-! ### Batches -/

/-- The metadata actor handles each command once, in the order of arrival, with the replies, the protected hashes and
the tables of executing the commands one at a time.  Commands for the top level see everything before them committed.
If a command fails, the batch that it belongs to is dropped. -/
theorem batching_transparent (options : BatchedActor.BatchOptions) (db : Db) (isProtected : Finset Hash)
    (cmds : List (Command ReadOnlyCommand ReadWriteCommand TopLevelCommand)) (timeouts : List Bool)
    (a : BatchedActor.Actor Db (Finset Hash) ReadOnlyCommand ReadWriteCommand TopLevelCommand Reply Failure)
    (hrun : StateMachine.run (BatchedActor.step handlers options) (BatchedActor.start db isProtected cmds) timeouts =
      some a) :
    a.handled ++ a.cmds.pending = cmds ∧
    a.replies = (handlers.execAll db isProtected a.handled).replies ∧
    a.kept = (handlers.execAll db isProtected a.handled).kept ∧
    (∃ before, before <+: a.handled ∧ a.db = (handlers.execAll db isProtected before).db) ∧
    (∀ timeout a' t, BatchedActor.step handlers options a timeout = some a' → a'.handled = a.handled ++ [.topLevel t] →
      a'.db = (handlers.execAll db isProtected a.handled).db) ∧
    ((∀ e, (handlers.execAll db isProtected cmds).ended ≠ some (.failed e)) → ∀ e, a.phase = .ended e →
      a.db = (handlers.execAll db isProtected cmds).db ∧ a.kept = (handlers.execAll db isProtected cmds).kept ∧
        a.replies = (handlers.execAll db isProtected cmds).replies) ∧
    ∃ timeouts' a' e, StateMachine.run (BatchedActor.step handlers options) a timeouts' = some a' ∧
      a'.phase = .ended e := by
  have hinv := BatchedActor.run_inv hrun
  refine ⟨hinv.order, hinv.replies_eq, hinv.kept_eq, hinv.committed, ?_, ?_, BatchedActor.exists_run_ended a⟩
  · intro timeout a' t hstep hhandled
    exact hinv.topLevel hstep hhandled
  · intro hok e hphase
    exact hinv.ended hok hphase

/-- A tag, and two updates that disagree on the size of a hash. -/
def disagreeing : List (Command ReadOnlyCommand ReadWriteCommand TopLevelCommand) :=
  [.readWrite (.setTag [0] ⟨.replicate 1, .raw⟩),
    .readWrite (.update (.replicate 1) (.complete (.external [.ofBytes [47, 97]] 1) .notNeeded)),
    .readWrite (.update (.replicate 1) (.complete (.external [.ofBytes [47, 98]] 2) .notNeeded))]

/-- A tag is set and listed. -/
def oneTag : List (Command ReadOnlyCommand ReadWriteCommand TopLevelCommand) :=
  [.readWrite (.setTag [0] ⟨.replicate 1, .raw⟩), .readOnly (.listTags none none true true), .topLevel .syncDb]

theorem batching_transparent_oneTag : ∃ a,
    StateMachine.run (BatchedActor.step handlers ⟨2, 2⟩) (BatchedActor.start Db.empty ∅ oneTag)
      [false, false, false, false, false] = some a ∧ a.db = (handlers.execAll Db.empty ∅ oneTag).db := by
  refine ⟨_, rfl, ?_⟩
  have h := batching_transparent ⟨2, 2⟩ Db.empty ∅ oneTag [false, false, false, false, false] _ rfl
  exact (h.2.2.2.2.2.1 (fun e he => by cases he) none rfl).1

/-- If a command fails, the commands before it in the same batch are lost, although they were answered. -/
theorem not_transparent_disagreeing : ¬ ∀ (options : BatchedActor.BatchOptions)
    (cmds : List (Command ReadOnlyCommand ReadWriteCommand TopLevelCommand)) (timeouts : List Bool)
    (a : BatchedActor.Actor Db (Finset Hash) ReadOnlyCommand ReadWriteCommand TopLevelCommand Reply Failure),
    StateMachine.run (BatchedActor.step handlers options) (BatchedActor.start Db.empty ∅ cmds) timeouts = some a →
      (∃ e, a.phase = .ended e) → a.db = (handlers.execAll Db.empty ∅ cmds).db := by
  intro h
  have hdb := h ⟨10, 10⟩ disagreeing [false, false, false, false] _ rfl ⟨some (.failed (.error .inconsistent)), rfl⟩
  have htags := congrArg Db.tags hdb
  exact absurd htags (by decide)

end Meta

end IrohBlobs
