import IrohBlobs.FsHandle
import IrohBlobs.Leaks

/-!
# The handle and the entry in the database

The tasks of a handle and the metadata actor.  The tasks send their commands to the mailbox of the actor, which handles
them in the order of arrival (that it does so in batches makes no difference, see `MetaActor`).  Loading a handle takes
several messages: the entry is read, and a partial entry whose files are complete is set to complete.  A handle that
becomes complete sends an update.

Deletions go to the mailbox directly and do not look at the handle.  If the entry is deleted while the handle is
complete, or while it is being loaded as complete, then the handle outlives its entry, and later imports are not
written.
-/

namespace IrohBlobs

namespace HandleEntry

open Meta FsHandle

variable {H : Type}

/-! ### The system -/

abbrev Command := BatchedActor.Command ReadOnlyCommand ReadWriteCommand TopLevelCommand

/-- A command in the mailbox.  The answer may go to the task that loads the handle. -/
structure Message where
  cmd : Command
  toLoader : Bool

/-- What the task that loads the handle knows. -/
inductive Load
  | asking
  | asked
  | answered (state : Option (EntryState (List UInt8)))
  | setting
  | recovered

structure Store (H : Type) where
  handle : Handle H
  load : Load
  db : Db
  isProtected : Finset Hash
  mailbox : List Message
  /-- Tasks that wait for room in the mailbox to send their update. -/
  sending : List (Nat × EntryState (List UInt8))

namespace Store

/-- A store that was just opened. -/
def new (db : Db) (isProtected : Finset Hash) : Store H := ⟨Handle.new, .asking, db, isProtected, [], []⟩

def push (s : Store H) (cmd : Command) (toLoader : Bool) :
    Store H := { s with mailbox := s.mailbox ++ [⟨cmd, toLoader⟩] }

def isSending (s : Store H) (id : Nat) : Bool := (s.sending.lookup id).isSome

/-- Send an update, or wait until there is room for it. -/
def sendUpdate (s : Store H) (hash : Hash) (id : Nat) (state : EntryState (List UInt8)) (room : Bool) : Store H :=
  if room then s.push (.readWrite (.update hash state)) false else { s with sending := (id, state) :: s.sending }

end Store

/-- `HashContext::get_entry_state`, as far as the database is concerned.  The empty blob is always there. -/
def entryState (hash : Hash) (db : Db) : Option (EntryState Unit) :=
  if hash = .EMPTY then some (.complete (.inline ()) .notNeeded) else db.tables.blobs hash

/-- The steps of the tasks, of the metadata actor and of other users of the store. -/
inductive Action (H : Type)
  /-- A step of a task that does not involve the database. -/
  | task (a : FsHandle.Action H)
  /-- The task that loads the handle asks for the entry. -/
  | ask
  /-- `BaoFileStorage::open` finds out that a partial entry is complete. -/
  | recover (data : DataLocation (List UInt8)) (outboard : OutboardLocation (List UInt8))
  | opened (id : Nat) (opened : Option (Opened H))
  | write (id : Nat) (disk : Files H) (batch : List (BaoContentItem H)) (update : Bitfield) (ok : Bool)
      (data : DataLocation (List UInt8)) (outboard : OutboardLocation (List UInt8)) (room : Bool)
  | complete (id : Nat) (storage : CompleteStorage H) (data : DataLocation (List UInt8))
      (outboard : OutboardLocation (List UInt8)) (room : Bool)
  /-- `export_path` with `TryReference` sets the entry. -/
  | exportPath (id : Nat) (data : DataLocation (List UInt8)) (outboard : OutboardLocation (List UInt8))
  | send (id : Nat)
  /-- A command from elsewhere, such as `DeleteBlobs`. -/
  | command (cmd : Command)
  /-- The actor handles the next command. -/
  | process

/-- Only tasks of the handle update and set its entry. -/
def isForeign (hash : Hash) : Command → Bool
  | .readWrite (.update hash' _) => decide (hash' ≠ hash)
  | .readWrite (.set hash' _) => decide (hash' ≠ hash)
  | _ => true

/-- The steps of a handle that do not involve the database. -/
def isLocal (s : Store H) : FsHandle.Action H → Bool
  | .spawn _ _ | .woken _ | .read _ | .persist | .reset => true
  | .answer id | .stop id => !s.isSending id
  | .loaded _ _ | .write _ _ _ _ _ _ | .complete _ _ => false

/-- The answer to the task that loads the handle. -/
def Load.receive (load : Load) : Reply → Load
  | .state state => .answered state
  | .done => .recovered
  | _ => load

/-- What opening the entry can give.  Everything but a missing entry can fail. -/
def canOpen (hash : Hash) (load : Load) : Option (Opened H) → Bool
  | some .nonExisting =>
    match load with
    | .answered none => true
    | _ => false
  | some (.partialFile _) =>
    match load with
    | .answered (some (.partialState _)) => true
    | _ => false
  | some (.complete _) =>
    match load with
    | .asking => decide (hash = .EMPTY)
    | .answered (some (.complete _ _)) => true
    | .recovered => true
    | _ => false
  | none =>
    match load with
    | .answered (some _) => true
    | _ => false

/-- The state that an update of a handle tells the database. -/
def updateState (data : DataLocation (List UInt8)) (outboard : OutboardLocation (List UInt8)) :
    EntryUpdate → EntryState (List UInt8)
  | .partialEntry size => .partialState size
  | .completeEntry => .complete data outboard

/-- The actor handles the first command of the mailbox.  It ends if the command fails. -/
def process (s : Store H) : Option (Store H) :=
  match s.mailbox with
  | [] => none
  | m :: mailbox =>
    match m.cmd with
    | .readOnly cmd =>
      match handleReadonly s.isProtected s.db cmd with
      | .ok (isProtected, reply) =>
        some { s with isProtected, mailbox, load := if m.toLoader then s.load.receive reply else s.load }
      | .error _ => none
    | .readWrite cmd =>
      match handleReadwrite s.isProtected s.db cmd with
      | .ok (isProtected, db, reply) =>
        some { s with isProtected, db, mailbox, load := if m.toLoader then s.load.receive reply else s.load }
      | .error _ => none
    | .topLevel _ => some { s with mailbox }

def step (options : InlineOptions) (hash : Hash) (s : Store H) : Action H → Option (Store H)
  | .task a => if isLocal s a then (FsHandle.step options s.handle a).map (fun handle => { s with handle }) else none
  | .ask =>
    match s.handle.storage, s.load with
    | .loading, .asking =>
      if hash = .EMPTY then none else some { s.push (.readOnly (.get hash)) true with load := .asked }
    | _, _ => none
  | .recover data outboard =>
    match s.load with
    | .answered (some (.partialState _)) =>
      some { s.push (.readWrite (.set hash (.complete data outboard))) true with load := .setting }
    | _ => none
  | .opened id opened =>
    if canOpen hash s.load opened then
      (FsHandle.step options s.handle (.loaded id opened)).map (fun handle => { s with handle, load := .asking })
    else none
  | .write id disk batch update ok data outboard room =>
    if s.isSending id then none
    else
      (FsHandle.step options s.handle (.write id disk batch update ok true)).map fun handle =>
        match (s.handle.storage.writeBatch options disk batch update).2, ok with
        | some entry, true => { s with handle }.sendUpdate hash id (updateState data outboard entry) room
        | _, _ => { s with handle }
  | .complete id storage data outboard room =>
    if s.isSending id || decide (hash = .EMPTY) then none
    else
      (FsHandle.step options s.handle (.complete id storage)).map fun handle =>
        { s with handle }.sendUpdate hash id (.complete data outboard) room
  | .exportPath id data outboard =>
    if s.handle.readyTask id .read then some (s.push (.readWrite (.set hash (.complete data outboard))) false) else none
  | .send id =>
    (s.sending.lookup id).map fun state =>
      { s.push (.readWrite (.update hash state)) false with sending := s.sending.filter (fun p => p.1 ≠ id) }
  | .command cmd => if isForeign hash cmd then some (s.push cmd false) else none
  | .process => process s

/-! ### The property -/

def IsComplete (entry : Option (EntryState Unit)) : Prop := ∃ data outboard, entry = some (.complete data outboard)

/-- An update that completes the entry. -/
def Completes (hash : Hash) (m : Message) : Prop :=
  ∃ data outboard, m.cmd = .readWrite (.update hash (.complete data outboard))

/-- The entry is complete, or it will be once the mailbox is empty. -/
def Backed (hash : Hash) (s : Store H) : Prop :=
  IsComplete (entryState hash s.db) ∨ ∃ m ∈ s.mailbox, Completes hash m

/-- A complete handle has a complete entry, or one that is about to be completed. -/
def NotOutlived (hash : Hash) (s : Store H) : Prop := ∀ storage, s.handle.storage = .complete storage → Backed hash s

/-- A command that removes the entry. -/
def Deletes (hash : Hash) (isProtected : Finset Hash) (cmd : Command) : Prop :=
  hash ≠ .EMPTY ∧ ∃ hashes force, cmd = .readWrite (.deleteBlobs hashes force) ∧ hash ∈ hashes ∧
    (force = true ∨ hash ∉ isProtected)

/-- The entry was read, or set, as complete by the task that loads the handle. -/
def Load.IsComplete : Load → Prop
  | .answered (some (.complete _ _)) => True
  | .recovered => True
  | _ => False

/-- The entry of a handle that is complete, or being loaded as complete, is deleted only if an update that completes it
again is behind the deletion.  Updates that complete the entry find room in the mailbox. -/
def KeepsEntry (options : InlineOptions) (hash : Hash) (s : Store H) : Action H → Prop
  | .process => ∀ m mailbox, s.mailbox = m :: mailbox → Deletes hash s.isProtected m.cmd →
    (∃ storage, s.handle.storage = .complete storage) ∨ s.load.IsComplete → ∃ m' ∈ mailbox, Completes hash m'
  | .write _ disk batch update ok _ _ room => ok = true →
    (s.handle.storage.writeBatch options disk batch update).2 = some .completeEntry → room = true
  | .complete _ _ _ _ room => Writable s.handle.storage → room = true
  | _ => True

/-! ### Commands -/

section

variable {hash : Hash} {isProtected isProtected' : Finset Hash} {db db' : Db} {reply : Reply} {cmd : ReadWriteCommand}

private theorem isProtected_deleteHash (force : Bool) (txn : Txn) (h : Hash) :
    (deleteHash force txn h).isProtected = txn.isProtected := by
  unfold deleteHash
  split
  · rfl
  · split <;> rfl

private theorem blobs_deleteHash {force : Bool} {txn : Txn} {h : Hash}
    (hne : h = hash → ¬ (force = true ∨ hash ∉ txn.isProtected)) :
    (deleteHash force txn h).tables.blobs hash = txn.tables.blobs hash := by
  unfold deleteHash
  split
  · rfl
  · rename_i hskip
    have hh : hash ≠ h := by
      rintro rfl
      apply hne rfl
      by_contra hnot
      push Not at hnot
      apply hskip
      simp [hnot.1, hnot.2]
    split
    · rfl
    · exact Function.update_of_ne hh _ _

/-- A deletion that does not name the hash, or skips it, keeps its entry. -/
private theorem blobs_delete {force : Bool} {txn : Txn} {hashes : List Hash}
    (hkeep : hash ∈ hashes → ¬ (force = true ∨ hash ∉ txn.isProtected)) :
    (delete txn hashes force).tables.blobs hash = txn.tables.blobs hash := by
  induction hashes generalizing txn with
  | nil => rfl
  | cons h hashes ih =>
    have hstep : delete txn (h :: hashes) force = delete (deleteHash force txn h) hashes force := rfl
    rw [hstep, ih, blobs_deleteHash]
    · rintro rfl
      exact hkeep List.mem_cons_self
    · intro hmem
      rw [isProtected_deleteHash]
      exact hkeep (List.mem_cons_of_mem _ hmem)

private theorem Merged.complete {old : Option (EntryState Unit)} {new res : EntryState Unit}
    (h : Leaks.Merged old new res)
    (hcomplete : IsComplete old ∨ ∃ data outboard, new = .complete data outboard) :
    ∃ data outboard, res = .complete data outboard := by
  cases old with
  | none =>
    rcases hcomplete with ⟨_, _, hcontra⟩ | hnew
    · cases hcontra
    · rw [h]
      exact hnew
  | some old =>
    cases old with
    | complete data outboard =>
      cases new with
      | partialState size =>
        cases h
        exact ⟨_, _, rfl⟩
      | complete bData bOutboard =>
        simp only [Leaks.Merged, EntryState.union] at h
        split at h
        · cases h
          exact ⟨_, _, rfl⟩
        · cases h
    | partialState size =>
      rcases hcomplete with ⟨_, _, hcontra⟩ | ⟨data, outboard, rfl⟩
      · cases hcontra
      · cases size <;> (cases h; exact ⟨_, _, rfl⟩)

private theorem isComplete_entryState : IsComplete (entryState hash db) ↔
    hash = .EMPTY ∨ IsComplete (db.tables.blobs hash) := by
  unfold entryState
  split
  · rename_i hempty
    exact iff_of_true ⟨_, _, rfl⟩ (Or.inl hempty)
  · rename_i hempty
    exact ⟨Or.inr, fun h => h.resolve_left hempty⟩

private theorem isComplete_update {hash' : Hash} {state : EntryState (List UInt8)}
    (h : handleReadwrite isProtected db (.update hash' state) = .ok (isProtected', db', reply))
    (hcomplete : IsComplete (db.tables.blobs hash) ∨ hash' = hash ∧ ∃ data outboard, state = .complete data outboard) :
    IsComplete (db'.tables.blobs hash) := by
  simp only [handleReadwrite] at h
  split at h
  · rename_i txn htxn
    cases h
    obtain ⟨res, hmerged, htables, -⟩ := Leaks.handleUpdate_spec htxn
    rw [htables]
    dsimp only
    by_cases hhash : hash' = hash
    · subst hhash
      rw [Function.update_self]
      have hres : ∃ data outboard, res = .complete data outboard := by
        apply Merged.complete hmerged
        rcases hcomplete with hold | ⟨-, data, outboard, rfl⟩
        · exact Or.inl hold
        · exact Or.inr ⟨_, _, rfl⟩
      obtain ⟨data, outboard, rfl⟩ := hres
      exact ⟨_, _, rfl⟩
    · rw [Function.update_of_ne (Ne.symm hhash)]
      exact hcomplete.resolve_right (fun hcontra => hhash hcontra.1)
  · cases h

private theorem isComplete_set {hash' : Hash} {state : EntryState (List UInt8)}
    (h : handleReadwrite isProtected db (.set hash' state) = .ok (isProtected', db', reply))
    (hstate : hash' = hash → ∃ data outboard, state = .complete data outboard)
    (hcomplete : IsComplete (db.tables.blobs hash) ∨ hash' = hash) : IsComplete (db'.tables.blobs hash) := by
  cases h
  by_cases hhash : hash' = hash
  · obtain ⟨data, outboard, rfl⟩ := hstate hhash
    subst hhash
    exact ⟨_, _, Function.update_self _ _ _⟩
  · have hold := hcomplete.resolve_right hhash
    have heq := Function.update_of_ne (Ne.symm hhash) (some (splitState state).1) db.tables.blobs
    obtain ⟨data, outboard, hentry⟩ := hold
    exact ⟨data, outboard, heq.trans hentry⟩

/-- A complete entry stays complete unless it is deleted. -/
private theorem isComplete_handleReadwrite (h : handleReadwrite isProtected db cmd = .ok (isProtected', db', reply))
    (hset : ∀ state, cmd = .set hash state → ∃ data outboard, state = .complete data outboard)
    (hkeep : ¬ Deletes hash isProtected (.readWrite cmd)) (hcomplete : IsComplete (entryState hash db)) :
    IsComplete (entryState hash db') := by
  rw [isComplete_entryState] at hcomplete ⊢
  by_cases hempty : hash = .EMPTY
  · exact Or.inl hempty
  have hentry := hcomplete.resolve_left hempty
  refine Or.inr ?_
  cases cmd with
  | update hash' state => exact isComplete_update h (Or.inl hentry)
  | set hash' state =>
    apply isComplete_set h ?_ (Or.inl hentry)
    rintro rfl
    exact hset state rfl
  | deleteBlobs hashes force =>
    cases h
    have hnot : hash ∈ hashes → ¬ (force = true ∨ hash ∉ isProtected) :=
      fun hmem hforce => hkeep ⟨hempty, hashes, force, rfl, hmem, hforce⟩
    have heq : (delete ⟨db.tables, ∅, isProtected⟩ hashes force).tables.blobs hash = db.tables.blobs hash :=
      blobs_delete hnot
    change IsComplete ((delete ⟨db.tables, ∅, isProtected⟩ hashes force).tables.blobs hash)
    rw [heq]
    exact hentry
  | setTag name value =>
    cases h
    exact hentry
  | createTag now value =>
    cases h
    exact hentry
  | deleteTags lower upper =>
    cases h
    exact hentry
  | renameTag source target =>
    simp only [handleReadwrite] at h
    split at h <;> (cases h; exact hentry)
  | processExit code => cases h

/-- What is read as complete is complete. -/
private theorem isComplete_handleGet {tables : Tables} {data : DataLocation (List UInt8)}
    {outboard : OutboardLocation (List UInt8)}
    (h : Meta.handleGet tables hash = .ok (some (.complete data outboard))) : IsComplete (tables.blobs hash) := by
  unfold Meta.handleGet at h
  split at h
  · cases h
  · rename_i dataLocation outboardLocation hentry
    exact ⟨_, _, hentry⟩
  · cases h

end

/-! ### Steps of the handle -/

section

variable {options : InlineOptions} {h h' : Handle H} {complete : CompleteStorage H}

/-- A batch that completes the storage tells the database so. -/
private theorem writeBatch_complete {disk : Files H} {batch : List (BaoContentItem H)} {update : Bitfield}
    {storage : BaoFileStorage H}
    (hwritable : Writable storage) (hcomplete : (storage.writeBatch options disk batch update).1 = .complete complete) :
    (storage.writeBatch options disk batch update).2 = some .completeEntry := by
  have hfile : ∀ {s : PartialFileStorage H}, BaoFileStorage.afterFileBatch options s = .complete complete →
      s.bitfield.isComplete = true := by
    intro s hs
    unfold BaoFileStorage.afterFileBatch at hs
    split at hs
    · assumption
    · cases hs
  have hmem : ∀ {s : PartialMemStorage H}, BaoFileStorage.afterMemBatch options disk s = .complete complete →
      s.bitfield.isComplete = true := by
    intro s hs
    unfold BaoFileStorage.afterMemBatch at hs
    split at hs
    · assumption
    · cases hs
  have hnew : ∀ ms : PartialMemStorage H, (BaoFileStorage.writeBatchMem options disk batch update ms).1 =
    .complete complete →
      (BaoFileStorage.writeBatchMem options disk batch update ms).2 = some .completeEntry := by
    intro ms hms
    unfold BaoFileStorage.writeBatchMem at hms ⊢
    split at hms
    · rename_i hinline
      rw [if_pos hinline]
      dsimp only at hms ⊢
      rw [if_pos (hmem hms)]
    · rename_i hinline
      rw [if_neg hinline]
      dsimp only at hms ⊢
      rw [if_pos (hfile hms)]
  cases storage with
  | nonExisting => exact hnew _ hcomplete
  | partialMem ms => exact hnew ms hcomplete
  | partialFile fs =>
    simp only [BaoFileStorage.writeBatch] at hcomplete ⊢
    rw [if_pos (hfile hcomplete)]
  | initial => exact hwritable.elim
  | loading => exact hwritable.elim
  | complete _ => exact hwritable.elim
  | poisoned => exact hwritable.elim

/-- The storage after a write whose update can be sent. -/
private theorem writeBatch_sent {disk : Files H} {batch : List (BaoContentItem H)} {update : Bitfield} {ok : Bool}
    {storage : BaoFileStorage H} (hwritable : Writable storage) :
    writeBatch options disk batch update ok true storage =
      if ok then ((storage.writeBatch options disk batch update).1, .acknowledged) else (.poisoned, .failed) := by
  rw [writeBatch_of_writable hwritable, Bool.or_true, if_pos rfl]

/-- A write completes the handle only if it tells the database so. -/
private theorem storage_of_write {id : Nat} {disk : Files H} {batch : List (BaoContentItem H)}
    {update : Bitfield} {ok : Bool}
    (hstep : FsHandle.step options h (.write id disk batch update ok true) = some h')
    (hcomplete : h'.storage = .complete complete) :
    h.storage = .complete complete ∨
      ok = true ∧ (h.storage.writeBatch options disk batch update).2 = some .completeEntry := by
  have hcases := writeBatch_cases options disk batch update ok true h.storage
  cases step_cases hstep with
  | write _ _ _ _ _ _ storage htask hwrite =>
    rw [hwrite] at hcases
    cases hcases with
    | ignored _ => exact Or.inl hcomplete
    | written hwritable _ _ =>
      refine Or.inr ?_
      rw [writeBatch_sent hwritable] at hwrite
      split at hwrite
      · rename_i hok
        cases hwrite
        exact ⟨hok, writeBatch_complete hwritable hcomplete⟩
      · cases hwrite
  | writeFailed _ _ _ _ _ _ storage htask hwrite =>
    rw [hwrite] at hcases
    cases hcases with
    | written _ _ hres => exact absurd rfl hres
    | failed _ => cases hcomplete
  | writeNotSent _ _ _ _ _ _ storage htask hwrite =>
    rw [hwrite] at hcases
    cases hcases with
    | written hwritable _ _ =>
      rw [writeBatch_sent hwritable] at hwrite
      split at hwrite <;> cases hwrite

/-- Steps without the database do not complete the handle. -/
private theorem storage_of_local {s : Store H} {a : FsHandle.Action H} (hlocal : isLocal s a = true)
    (hstep : FsHandle.step options h a = some h') (hcomplete : h'.storage = .complete complete) :
    h.storage = .complete complete := by
  cases step_cases hstep with
  | load => cases hcomplete
  | persist => cases hcomplete
  | reset => cases hcomplete
  | wait | join | woken | answer | read | panic | stop => exact hcomplete
  | loaded | write | writeFailed | writeNotSent | complete => cases hlocal

end

/-! ### Invariant -/

section

variable {options : InlineOptions} {hash : Hash} {s s' : Store H} {a : Action H}

/-- Complete handles, and handles that are loaded as complete, have an entry. -/
structure Inv (hash : Hash) (s : Store H) : Prop where
  sets : ∀ m ∈ s.mailbox, ∀ state, m.cmd = .readWrite (.set hash state) →
    ∃ data outboard, state = .complete data outboard
  loader : ∀ m ∈ s.mailbox, m.toLoader = true →
    m.cmd = .readOnly (.get hash) ∨ ∃ state, m.cmd = .readWrite (.set hash state)
  handle : NotOutlived hash s
  load : s.load.IsComplete → Backed hash s

private theorem Inv.new (db : Db) (isProtected : Finset Hash) : Inv hash (Store.new db isProtected : Store H) where
  sets m hm := by cases hm
  loader m hm := by cases hm
  handle storage hstorage := by cases hstorage
  load hload := hload.elim

private theorem Backed.mono (h : Backed hash s) (hdb : s'.db = s.db) (hmailbox : ∀ m ∈ s.mailbox, m ∈ s'.mailbox) :
    Backed hash s' := by
  rcases h with hentry | ⟨m, hm, hcompletes⟩
  · rw [← hdb] at hentry
    exact Or.inl hentry
  · exact Or.inr ⟨m, hmailbox m hm, hcompletes⟩

/-- A message is added, and the handle is not completed. -/
theorem Inv.push (h : Inv hash s) {cmd : Command} {toLoader : Bool} (hdb : s'.db = s.db)
    (hmailbox : s'.mailbox = s.mailbox ++ [⟨cmd, toLoader⟩])
    (hset : ∀ state, cmd = .readWrite (.set hash state) → ∃ data outboard, state = .complete data outboard)
    (hloader : toLoader = true → cmd = .readOnly (.get hash) ∨ ∃ state, cmd = .readWrite (.set hash state))
    (hhandle : ∀ storage, s'.handle.storage = .complete storage → Backed hash s ∨ Completes hash ⟨cmd, toLoader⟩)
    (hload : s'.load.IsComplete → s.load.IsComplete) : Inv hash s' := by
  have hold : ∀ m ∈ s.mailbox, m ∈ s'.mailbox := by
    intro m hm
    rw [hmailbox]
    exact List.mem_append_left _ hm
  have hnew : ∀ {m}, m ∈ s'.mailbox → m ∈ s.mailbox ∨ m = ⟨cmd, toLoader⟩ := by
    intro m hm
    rw [hmailbox] at hm
    rcases List.mem_append.mp hm with hm | hm
    · exact Or.inl hm
    · exact Or.inr (List.mem_singleton.mp hm)
  refine ⟨?_, ?_, ?_, ?_⟩
  · intro m hm
    rcases hnew hm with hm | rfl
    · exact h.sets m hm
    · exact hset
  · intro m hm
    rcases hnew hm with hm | rfl
    · exact h.loader m hm
    · exact hloader
  · intro storage hstorage
    rcases hhandle storage hstorage with hbacked | hcompletes
    · exact hbacked.mono hdb hold
    · refine Or.inr ⟨_, ?_, hcompletes⟩
      rw [hmailbox]
      exact List.mem_append_right _ (List.mem_singleton.mpr rfl)
  · intro hcomplete
    exact (h.load (hload hcomplete)).mono hdb hold

/-- A message is added that the load does not wait for. -/
private theorem Inv.pushOther (h : Inv hash s) {cmd : Command} (hdb : s'.db = s.db)
    (hmailbox : s'.mailbox = s.mailbox ++ [⟨cmd, false⟩]) (hsame : s'.handle = s.handle) (hload : s'.load = s.load)
    (hset : ∀ state, cmd = .readWrite (.set hash state) → ∃ data outboard, state = .complete data outboard) :
    Inv hash s' := by
  refine h.push hdb hmailbox hset ?_ ?_ ?_
  · exact fun hto => by cases hto
  · intro storage hstorage
    rw [hsame] at hstorage
    exact Or.inl (h.handle storage hstorage)
  · intro hcomplete
    rwa [hload] at hcomplete

/-- Only the handle and the tasks that wait for room change. -/
theorem Inv.frame (h : Inv hash s) (hdb : s'.db = s.db) (hmailbox : s'.mailbox = s.mailbox)
    (hhandle : ∀ storage, s'.handle.storage = .complete storage → Backed hash s)
    (hload : s'.load.IsComplete → s.load.IsComplete) : Inv hash s' := by
  have hold : ∀ m ∈ s.mailbox, m ∈ s'.mailbox := by
    intro m hm
    rw [hmailbox]
    exact hm
  refine ⟨?_, ?_, ?_, ?_⟩
  · rw [hmailbox]
    exact h.sets
  · rw [hmailbox]
    exact h.loader
  · exact fun storage hstorage => (hhandle storage hstorage).mono hdb hold
  · exact fun hcomplete => (h.load (hload hcomplete)).mono hdb hold

/-! ### The actor -/

/-- What the first command of the mailbox leaves of the backing of a handle. -/
private theorem Backed.pop {m : Message} {mailbox : List Message} (h : Backed hash s)
    (hmailbox : s.mailbox = m :: mailbox)
    (hdb : s'.db = s.db) (hmailbox' : s'.mailbox = mailbox) (hcmd : ¬ Completes hash m) : Backed hash s' := by
  rcases h with hentry | ⟨m', hm', hcompletes⟩
  · rw [← hdb] at hentry
    exact Or.inl hentry
  · refine Or.inr ⟨m', ?_, hcompletes⟩
    rw [hmailbox] at hm'
    rw [hmailbox']
    rcases List.mem_cons.mp hm' with rfl | hm'
    · exact absurd hcompletes hcmd
    · exact hm'

private theorem Backed.popReadWrite {m : Message} {mailbox : List Message} {cmd : ReadWriteCommand}
    {isProtected' : Finset Hash}
    {reply : Reply} (h : Backed hash s) (hmailbox : s.mailbox = m :: mailbox) (hcmd : m.cmd = .readWrite cmd)
    (hhandled : handleReadwrite s.isProtected s.db cmd = .ok (isProtected', s'.db, reply))
    (hmailbox' : s'.mailbox = mailbox)
    (hset : ∀ state, cmd = .set hash state → ∃ data outboard, state = .complete data outboard)
    (hdelete : Deletes hash s.isProtected m.cmd → ∃ m' ∈ mailbox, Completes hash m') : Backed hash s' := by
  by_cases hdeletes : Deletes hash s.isProtected m.cmd
  · obtain ⟨m', hm', hcompletes⟩ := hdelete hdeletes
    rw [← hmailbox'] at hm'
    exact Or.inr ⟨m', hm', hcompletes⟩
  rw [hcmd] at hdeletes
  rcases h with hentry | ⟨m', hm', hcompletes⟩
  · exact Or.inl (isComplete_handleReadwrite hhandled hset hdeletes hentry)
  · rw [hmailbox] at hm'
    rcases List.mem_cons.mp hm' with rfl | hm'
    · obtain ⟨data, outboard, hupdate⟩ := hcompletes
      rw [hcmd] at hupdate
      cases hupdate
      exact Or.inl (isComplete_entryState.mpr (Or.inr (isComplete_update hhandled (Or.inr ⟨rfl, data, outboard, rfl⟩))))
    · rw [← hmailbox'] at hm'
      exact Or.inr ⟨m', hm', hcompletes⟩

/-- Only read-write commands complete entries. -/
private theorem not_completes {m : Message} (h : ∀ cmd, m.cmd ≠ .readWrite cmd) : ¬ Completes hash m := by
  rintro ⟨data, outboard, hupdate⟩
  exact h _ hupdate

/-- The first message is handled. -/
private theorem Inv.pop {m : Message} {mailbox : List Message} (h : Inv hash s) (hmailbox : s.mailbox = m :: mailbox)
    (hmailbox' : s'.mailbox = mailbox) (hbacked : NotOutlived hash s')
    (hload : s'.load.IsComplete → Backed hash s') : Inv hash s' := by
  have hrest : ∀ m' ∈ s'.mailbox, m' ∈ s.mailbox := by
    intro m' hm'
    rw [hmailbox'] at hm'
    rw [hmailbox]
    exact List.mem_cons_of_mem _ hm'
  exact ⟨fun m' hm' => h.sets m' (hrest m' hm'), fun m' hm' => h.loader m' (hrest m' hm'), hbacked, hload⟩

private theorem Inv.process (h : Inv hash s) (hok : KeepsEntry options hash s .process) (hstep : process s = some s') :
    Inv hash s' := by
  unfold HandleEntry.process at hstep
  cases hmailbox : s.mailbox with
  | nil =>
    rw [hmailbox] at hstep
    cases hstep
  | cons m mailbox =>
    have hmem : m ∈ s.mailbox := by
      rw [hmailbox]
      exact List.mem_cons_self
    simp only [hmailbox] at hstep
    split at hstep
    · rename_i cmd hcmd
      split at hstep
      · rename_i isProtected reply hhandled
        cases hstep
        have hpending : ¬ Completes hash m := not_completes fun _ => by simp [hcmd]
        refine h.pop hmailbox rfl ?_ ?_
        · exact fun storage hstorage => (h.handle storage hstorage).pop hmailbox rfl rfl hpending
        · intro hload
          dsimp only at hload
          split at hload
          · rename_i hto
            rcases h.loader m hmem hto with hget | ⟨state, hset⟩
            · -- the entry was read
              rw [hcmd] at hget
              cases hget
              simp only [handleReadonly] at hhandled
              split at hhandled
              · rename_i state hstate
                cases hhandled
                simp only [Load.receive] at hload
                rcases state with - | ⟨data, outboard⟩ | size
                · exact hload.elim
                · exact Or.inl (isComplete_entryState.mpr (Or.inr (isComplete_handleGet hstate)))
                · exact hload.elim
              · cases hhandled
            · rw [hcmd] at hset
              cases hset
          · exact (h.load hload).pop hmailbox rfl rfl hpending
      · cases hstep
    · rename_i cmd hcmd
      split at hstep
      · rename_i isProtected db reply hhandled
        cases hstep
        have hset : ∀ state, cmd = .set hash state → ∃ data outboard, state = .complete data outboard := by
          rintro state rfl
          exact h.sets m hmem state hcmd
        refine h.pop hmailbox rfl ?_ ?_
        · intro storage hstorage
          exact (h.handle storage hstorage).popReadWrite hmailbox hcmd hhandled rfl hset
            (fun hdeletes => hok m mailbox hmailbox hdeletes (Or.inl ⟨storage, hstorage⟩))
        · intro hload
          dsimp only at hload
          split at hload
          · rename_i hto
            rcases h.loader m hmem hto with hget | ⟨state, hcmd'⟩
            · rw [hcmd] at hget
              cases hget
            · -- the entry was set
              rw [hcmd] at hcmd'
              cases hcmd'
              exact Or.inl (isComplete_entryState.mpr
                (Or.inr (isComplete_set hhandled (fun _ => hset state rfl) (Or.inr rfl))))
          · exact (h.load hload).popReadWrite hmailbox hcmd hhandled rfl hset
              (fun hdeletes => hok m mailbox hmailbox hdeletes (Or.inr hload))
      · cases hstep
    · rename_i cmd hcmd
      cases hstep
      have hpending : ¬ Completes hash m := not_completes fun _ => by simp [hcmd]
      refine h.pop hmailbox rfl ?_ ?_
      · exact fun storage hstorage => (h.handle storage hstorage).pop hmailbox rfl rfl hpending
      · exact fun hload => (h.load hload).pop hmailbox rfl rfl hpending

/-! ### Runs -/

private theorem Inv.sendUpdate (h : Inv hash s) {handle : Handle H} {id : Nat}
    {state : EntryState (List UInt8)} {room : Bool}
    (hhandle : ∀ storage, handle.storage = .complete storage →
      Backed hash s ∨ room = true ∧ ∃ data outboard, state = .complete data outboard) :
    Inv hash ({ s with handle }.sendUpdate hash id state room) := by
  unfold Store.sendUpdate
  split
  · refine h.push rfl rfl ?_ ?_ ?_ (fun hload => hload)
    · exact fun _ hset => by cases hset
    · exact fun hto => by cases hto
    · intro storage hstorage
      rcases hhandle storage hstorage with hbacked | ⟨-, data, outboard, rfl⟩
      · exact Or.inl hbacked
      · exact Or.inr ⟨data, outboard, rfl⟩
  · rename_i hroom
    refine h.frame rfl rfl ?_ (fun hload => hload)
    intro storage hstorage
    rcases hhandle storage hstorage with hbacked | ⟨hcontra, -⟩
    · exact hbacked
    · exact absurd hcontra hroom

/-- A handle is opened as complete after its entry was read as complete or set to complete, or for the empty blob. -/
private theorem Inv.backed_of_canOpen (h : Inv hash s) {complete : CompleteStorage H}
    (hcan : canOpen hash s.load (some (.complete complete)) = true) : Backed hash s := by
  simp only [canOpen] at hcan
  split at hcan
  · -- the empty blob is not read from the database
    exact Or.inl (isComplete_entryState.mpr (Or.inl (of_decide_eq_true hcan)))
  · rename_i hload
    apply h.load
    rw [hload]
    trivial
  · rename_i hload
    apply h.load
    rw [hload]
    trivial
  · cases hcan

private theorem Inv.write (h : Inv hash s) {id : Nat} {disk : Files H} {batch : List (BaoContentItem H)}
    {update : Bitfield} {ok room : Bool} {data : DataLocation (List UInt8)} {outboard : OutboardLocation (List UInt8)}
    (hok : KeepsEntry options hash s (.write id disk batch update ok data outboard room))
    (hstep : step options hash s (.write id disk batch update ok data outboard room) = some s') : Inv hash s' := by
  simp only [HandleEntry.step, Option.ite_none_left_eq_some, Option.map_eq_some_iff] at hstep
  obtain ⟨-, handle, hhandle, hs'⟩ := hstep
  -- a handle that is completed by the batch tells the database
  have hcompletes : ∀ storage, handle.storage = .complete storage → Backed hash s ∨
      ok = true ∧ (s.handle.storage.writeBatch options disk batch update).2 = some .completeEntry := by
    intro storage hstorage
    rcases storage_of_write hhandle hstorage with hsame | hcomplete
    · exact Or.inl (h.handle storage hsame)
    · exact Or.inr hcomplete
  split at hs'
  · rename_i entry hentry
    subst hs'
    apply h.sendUpdate
    intro storage hstorage
    rcases hcompletes storage hstorage with hbacked | ⟨hok', hcomplete⟩
    · exact Or.inl hbacked
    · refine Or.inr ⟨hok hok' hcomplete, ?_⟩
      rw [hentry, Option.some.injEq] at hcomplete
      subst hcomplete
      exact ⟨data, outboard, rfl⟩
  · rename_i hnot
    subst hs'
    refine h.frame rfl rfl ?_ (fun hload => hload)
    intro storage hstorage
    rcases hcompletes storage hstorage with hbacked | ⟨hok', hcomplete⟩
    · exact hbacked
    · exact absurd hok' (hnot _ hcomplete)

private theorem Inv.step (h : Inv hash s) (hok : KeepsEntry options hash s a)
    (hstep : step options hash s a = some s') :
    Inv hash s' := by
  cases a with
  | task a =>
    simp only [HandleEntry.step, Option.ite_none_right_eq_some, Option.map_eq_some_iff] at hstep
    obtain ⟨hlocal, handle, hhandle, rfl⟩ := hstep
    refine h.frame rfl rfl ?_ (fun hload => hload)
    exact fun storage hstorage => h.handle storage (storage_of_local hlocal hhandle hstorage)
  | ask =>
    simp only [HandleEntry.step] at hstep
    split at hstep
    · split at hstep
      · cases hstep
      · cases hstep
        refine h.push rfl rfl ?_ ?_ ?_ (fun hload => hload.elim)
        · exact fun _ hset => by cases hset
        · exact fun _ => Or.inl rfl
        · exact fun storage hstorage => Or.inl (h.handle storage hstorage)
    · cases hstep
  | recover data outboard =>
    simp only [HandleEntry.step] at hstep
    split at hstep
    · cases hstep
      refine h.push rfl rfl ?_ ?_ ?_ (fun hload => hload.elim)
      · intro state hset
        cases hset
        exact ⟨_, _, rfl⟩
      · exact fun _ => Or.inr ⟨_, rfl⟩
      · exact fun storage hstorage => Or.inl (h.handle storage hstorage)
    · cases hstep
  | opened id opened =>
    simp only [HandleEntry.step, Option.ite_none_right_eq_some, Option.map_eq_some_iff] at hstep
    obtain ⟨hcan, handle, hhandle, rfl⟩ := hstep
    refine h.frame rfl rfl ?_ (fun hload => hload.elim)
    intro storage hstorage
    cases step_cases hhandle with
    | loaded id kind opened htask =>
      rcases opened with - | - | fs | complete
      · cases hstorage
      · cases hstorage
      · cases hstorage
      · exact h.backed_of_canOpen hcan
  | write id disk batch update ok data outboard room => exact h.write hok hstep
  | complete id storage data outboard room =>
    simp only [HandleEntry.step, Option.ite_none_left_eq_some, Option.map_eq_some_iff] at hstep
    obtain ⟨-, handle, hhandle, rfl⟩ := hstep
    apply h.sendUpdate
    intro storage' hstorage'
    cases step_cases hhandle with
    | complete _ _ htask =>
      rcases completeStorage_cases storage s.handle.storage with heq | ⟨hwritable, -⟩
      · exact Or.inl (h.handle storage' (heq.symm.trans hstorage'))
      · exact Or.inr ⟨hok hwritable, data, outboard, rfl⟩
  | exportPath id data outboard =>
    simp only [HandleEntry.step, Option.ite_none_right_eq_some, Option.some.injEq] at hstep
    obtain ⟨-, rfl⟩ := hstep
    refine h.pushOther rfl rfl rfl rfl ?_
    intro state hset
    cases hset
    exact ⟨_, _, rfl⟩
  | send id =>
    simp only [HandleEntry.step, Option.map_eq_some_iff] at hstep
    obtain ⟨state, -, rfl⟩ := hstep
    exact h.pushOther rfl rfl rfl rfl (fun _ hset => by cases hset)
  | command cmd =>
    simp only [HandleEntry.step, Option.ite_none_right_eq_some, Option.some.injEq] at hstep
    obtain ⟨hforeign, rfl⟩ := hstep
    refine h.pushOther rfl rfl rfl rfl ?_
    rintro state rfl
    simp [isForeign] at hforeign
  | process => exact h.process hok hstep

/-- In every run in which deletions and full mailboxes do not get between a complete handle and its entry, a complete
handle has a complete entry, or one that is about to be completed.  So an import that is answered on a complete handle
does not leave the blob absent. -/
theorem handle_does_not_outlive_entry {db : Db} {isProtected : Finset Hash} {as : List (Action H)}
    (hok : StateMachine.RunMeets (step options hash) (KeepsEntry options hash) (Store.new db isProtected) as)
    (hrun : StateMachine.run (step options hash) (Store.new db isProtected) as = some s) :
    NotOutlived hash s ∧ ∀ id s', step options hash s (.task (.answer id)) = some s' →
      (∃ storage, s.handle.storage = .complete storage) →
        entryState hash s'.db ≠ none ∨ ∃ m ∈ s'.mailbox, Completes hash m := by
  have hinv : Inv hash s := StateMachine.inv_of_run (step options hash) (fun hinv hok hstep => Inv.step hinv hok hstep)
    (Inv.new db isProtected) hok hrun
  refine ⟨hinv.handle, ?_⟩
  rintro id s' hstep ⟨storage, hstorage⟩
  simp only [step, Option.ite_none_right_eq_some, Option.map_eq_some_iff] at hstep
  obtain ⟨-, handle, -, rfl⟩ := hstep
  rcases hinv.handle storage hstorage with ⟨data, outboard, hentry⟩ | hpending
  · refine Or.inl ?_
    rw [hentry]
    exact Option.some_ne_none _
  · exact Or.inr hpending

end

/-- While an observer keeps the handle, a bao import writes the last chunk, and the partial entry is deleted.  Then the
handle is completed with another deletion in front of its update, and a second bao import joins. -/
def deletionsWhileObserved : List (Action Unit) :=
  [.task (.spawn 0 .observe), .ask, .process, .opened 0 (some .nonExisting), .task (.spawn 1 .importBao),
    .write 1 .empty lastChunkBatch lastChunkUpdate true (.owned 1025) .notNeeded true, .process, .task (.answer 1),
    .command (.readWrite (.deleteBlobs [.replicate 1] true)), .process, .task (.spawn 2 .finishImport),
    .command (.readWrite (.deleteBlobs [.replicate 1] true)),
      .complete 2 ⟨.empty, 1025, .empty⟩ (.owned 1025) .notNeeded true,
    .process, .process, .task (.stop 2), .task (.spawn 3 .importBao),
    .write 3 .empty lastChunkBatch lastChunkUpdate true (.owned 1025) .notNeeded true]

/-- The first deletion finds a handle that is not complete, and the second one has the update behind it. -/
theorem handle_does_not_outlive_entry_observed :
    ∃ s, StateMachine.run (step ⟨0, 0⟩ (.replicate 1)) (Store.new .empty ∅) deletionsWhileObserved = some s ∧
      NotOutlived (.replicate 1) s ∧ ∃ s', step ⟨0, 0⟩ (.replicate 1) s (.task (.answer 3)) = some s' ∧
        (entryState (.replicate 1) s'.db ≠ none ∨ ∃ m ∈ s'.mailbox, Completes (.replicate 1) m) := by
  have hok : StateMachine.RunMeets (step ⟨0, 0⟩ (.replicate 1)) (KeepsEntry ⟨0, 0⟩ (.replicate 1))
      (Store.new .empty ∅ : Store Unit) deletionsWhileObserved := by
    refine .cons _ trivial rfl (.cons _ trivial rfl (.cons _ ?_ rfl (.cons _ trivial rfl (.cons _ trivial rfl ?_))))
    · rintro m mailbox hmailbox ⟨-, hashes, force, hcmd, -⟩
      cases hmailbox
      cases hcmd
    refine .cons _ (fun _ _ => rfl) rfl (.cons _ ?_ rfl (.cons _ trivial rfl (.cons _ trivial rfl (.cons _ ?_ rfl ?_))))
    · rintro m mailbox hmailbox ⟨-, hashes, force, hcmd, -⟩
      cases hmailbox
      cases hcmd
    · rintro m mailbox - - (⟨storage, hstorage⟩ | hload)
      · cases hstorage
      · exact hload.elim
    refine .cons _ trivial rfl (.cons _ trivial rfl (.cons _ (fun _ => rfl) rfl (.cons _ ?_ rfl (.cons _ ?_ rfl ?_))))
    · rintro m mailbox hmailbox - -
      cases hmailbox
      exact ⟨_, List.mem_cons_self, _, _, rfl⟩
    · rintro m mailbox hmailbox ⟨-, hashes, force, hcmd, -⟩
      cases hmailbox
      cases hcmd
    exact .cons _ trivial rfl (.cons _ trivial rfl (.cons _ (fun _ _ => rfl) rfl trivial))
  have hkept := handle_does_not_outlive_entry hok rfl
  exact ⟨_, rfl, hkept.1, _, rfl, hkept.2 3 _ rfl ⟨_, rfl⟩⟩

/-- An observer loads the handle, and an import completes it. -/
def importWhileObserved : List (Action Unit) :=
  [.task (.spawn 0 .observe), .ask, .process, .opened 0 (some .nonExisting), .task (.spawn 1 .finishImport),
    .complete 1 ⟨.empty, 1, .empty⟩ (.owned 1) .notNeeded true, .process, .task (.stop 1)]

/-- The entry is deleted while the observer keeps the handle.  A bao import gets its batch acknowledged and is
answered with success, but the entry remains absent. -/
theorem not_handle_does_not_outlive_entry_deleted :
    ¬ ∀ (as : List (Action Unit)) (s : Store Unit),
      StateMachine.run (step ⟨0, 0⟩ (.replicate 1)) (Store.new .empty ∅) as = some s →
        NotOutlived (.replicate 1) s := by
  intro h
  have hbacked := h (importWhileObserved ++ [.command (.readWrite (.deleteBlobs [.replicate 1] true)), .process,
    .task (.spawn 2 .importBao), .write 2 .empty oneByteBatch oneByteUpdate true (.owned 1) .notNeeded true,
    .task (.answer 2)]) _ rfl _ rfl
  rcases hbacked with ⟨data, outboard, hentry⟩ | ⟨m, hm, -⟩
  · cases hentry
  · cases hm

end HandleEntry

end IrohBlobs
