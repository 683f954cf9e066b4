import IrohBlobs.MetaActor

/-!
# The rows of inline entries

An entry of the metadata database says where its data and its outboard are; the bytes of inline data and outboards are
rows of tables of their own.  If all updates of a hash agree on its size, every inline location has its row, with the
bytes of the last update that carried them (`RowsInv`).  So reading an entry finds its rows, entries can always be
merged, and no command ends the actor with an inconsistent database.
-/

namespace IrohBlobs

namespace Meta

open BatchedActor (Command Handlers)

/-! ### Entry states that agree on the size -/

def DataAgrees (n : Nat) : DataLocation (List UInt8) → Prop
  | .inline data => data.length = n
  | .owned size => size = n
  | .external _ size => size = n

/-- An entry state of a blob of size `n`. -/
def Agrees (n : Nat) : EntryState (List UInt8) → Prop
  | .complete dataLocation _ => DataAgrees n dataLocation
  | .partialState size => ∀ m, size = some m → m = n

/-- All updates of the command agree on the size of the hash. -/
def CommandAgrees (size : Hash → Nat) : Command ReadOnlyCommand ReadWriteCommand TopLevelCommand → Prop
  | .readWrite (.update hash state) => Agrees (size hash) state
  | .readWrite (.set hash state) => Agrees (size hash) state
  | _ => True

/-! ### The bytes of the updates -/

/-- The data and the outboard that commands have carried for a hash. -/
structure InlineBytes where
  data : Hash → Option (List UInt8)
  outboard : Hash → Option (List UInt8)

namespace InlineBytes

def empty : InlineBytes := ⟨fun _ => none, fun _ => none⟩

/-- Take the bytes of a state, where it has them inline. -/
def update (bytes : InlineBytes) (hash : Hash) (state : EntryState (List UInt8)) : InlineBytes :=
  ⟨insertIfSome bytes.data hash (splitState state).2.1, insertIfSome bytes.outboard hash (splitState state).2.2⟩

def record (bytes : InlineBytes) : Command ReadOnlyCommand ReadWriteCommand TopLevelCommand → InlineBytes
  | .readWrite (.update hash state) => bytes.update hash state
  | .readWrite (.set hash state) => bytes.update hash state
  | _ => bytes

/-- The last bytes that the commands carry for each hash. -/
def ofCommands (cmds : List (Command ReadOnlyCommand ReadWriteCommand TopLevelCommand)) : InlineBytes :=
  cmds.foldl record empty

private theorem ofCommands_concat (cmds : List (Command ReadOnlyCommand ReadWriteCommand TopLevelCommand))
    (cmd : Command ReadOnlyCommand ReadWriteCommand TopLevelCommand) :
    ofCommands (cmds ++ [cmd]) = (ofCommands cmds).record cmd := by
  unfold ofCommands
  rw [List.foldl_append]
  rfl

end InlineBytes

/-! ### Rows -/

/-- Inline data has its row; all others have the size. -/
def DataRow (n : Nat) (row : Option (List UInt8)) : DataLocation Unit → Prop
  | .inline _ => row.isSome
  | .owned size => size = n
  | .external _ size => size = n

/-- An inline outboard has its row. -/
def OutboardRow (row : Option (List UInt8)) : OutboardLocation Unit → Prop
  | .inline _ => row.isSome
  | .owned => True
  | .notNeeded => True

def EntryRows (n : Nat) (data outboard : Option (List UInt8)) : EntryState Unit → Prop
  | .complete dataLocation outboardLocation => DataRow n data dataLocation ∧ OutboardRow outboard outboardLocation
  | .partialState size => ∀ m, size = some m → m = n

/-- All entries have their rows, and a row has the bytes that the last update carried. -/
structure RowsInv (size : Hash → Nat) (bytes : InlineBytes) (tables : Tables) : Prop where
  entry : ∀ hash entry, tables.blobs hash = some entry →
    EntryRows (size hash) (tables.inlineData hash) (tables.inlineOutboard hash) entry
  data : ∀ hash row, tables.inlineData hash = some row → bytes.data hash = some row
  outboard : ∀ hash row, tables.inlineOutboard hash = some row → bytes.outboard hash = some row

variable {size : Hash → Nat} {bytes : InlineBytes} {tables : Tables} {hash : Hash}

private theorem rowsInv_empty : RowsInv size .empty Db.empty.tables := by
  constructor
  · intro hash entry h
    cases h
  · intro hash row h
    cases h
  · intro hash row h
    cases h

private theorem insertIfSome_self (table : Hash → Option (List UInt8)) (hash : Hash) (value : Option (List UInt8)) :
    insertIfSome table hash value hash = value.or (table hash) := by
  cases value <;> simp [insertIfSome]

private theorem insertIfSome_of_ne (table : Hash → Option (List UInt8)) {h : Hash} (hne : h ≠ hash)
    (value : Option (List UInt8)) : insertIfSome table hash value h = table h := by
  cases value <;> simp [insertIfSome, hne]

/-- Writing the same bytes on both sides. -/
private theorem insertIfSome_mono {table table' : Hash → Option (List UInt8)}
    (h : ∀ hash row, table hash = some row → table' hash = some row) (hash : Hash) (value : Option (List UInt8)) :
    ∀ h row, insertIfSome table hash value h = some row → insertIfSome table' hash value h = some row := by
  intro h' row hrow
  by_cases hne : h' = hash
  · subst hne
    rw [insertIfSome_self] at hrow ⊢
    cases value with
    | some v => exact hrow
    | none => exact h h' row hrow
  · rw [insertIfSome_of_ne _ hne] at hrow ⊢
    exact h h' row hrow

/-- Writing an entry together with its rows. -/
theorem RowsInv.insert (h : RowsInv size bytes tables) {state : EntryState (List UInt8)} {entry : EntryState Unit}
    (hentry : EntryRows (size hash) ((splitState state).2.1.or (tables.inlineData hash))
      ((splitState state).2.2.or (tables.inlineOutboard hash)) entry) :
    RowsInv size (bytes.update hash state) ⟨Function.update tables.blobs hash (some entry),
      insertIfSome tables.inlineData hash (splitState state).2.1,
      insertIfSome tables.inlineOutboard hash (splitState state).2.2⟩ := by
  constructor
  · intro h' entry' hlookup
    by_cases hne : h' = hash
    · subst hne
      simp only [Function.update_self, Option.some.injEq] at hlookup
      subst hlookup
      simp only [insertIfSome_self]
      exact hentry
    · simp only [Function.update_of_ne hne] at hlookup
      simp only [insertIfSome_of_ne _ hne]
      exact h.entry h' entry' hlookup
  · exact insertIfSome_mono h.data hash _
  · exact insertIfSome_mono h.outboard hash _

/-! ### Merging entries -/

variable {n : Nat} {data outboard : Option (List UInt8)}

/-- A row that was there stays. -/
private theorem EntryRows.or {entry : EntryState Unit} (h : EntryRows n data outboard entry)
    (data' outboard' : Option (List UInt8)) : EntryRows n (data'.or data) (outboard'.or outboard) entry := by
  cases entry with
  | partialState size => exact h
  | complete dl ol =>
    obtain ⟨hdata, houtboard⟩ := h
    constructor
    · cases dl with
      | inline u =>
        have hrow : data.isSome := hdata
        simp [DataRow, hrow]
      | owned size => exact hdata
      | external paths size => exact hdata
    · cases ol with
      | inline u =>
        have hrow : outboard.isSome := houtboard
        simp [OutboardRow, hrow]
      | owned => trivial
      | notNeeded => trivial

/-- The entry of a new state, after its bytes are written. -/
theorem entryRows_split {state : EntryState (List UInt8)} (h : Agrees n state) (data outboard : Option (List UInt8)) :
    EntryRows n ((splitState state).2.1.or data) ((splitState state).2.2.or outboard) (splitState state).1 := by
  cases state with
  | partialState size => exact h
  | complete dl ol =>
    constructor
    · cases dl with
      | inline data => exact rfl
      | owned size => exact h
      | external paths size => exact h
    · cases ol with
      | inline outboard => exact rfl
      | owned => trivial
      | notNeeded => trivial

/-- The union of two locations is one of them, or has the external paths of both; it exists if the sizes agree. -/
private theorem union_dataRow {a b : DataLocation Unit} (ha : DataRow n data a) (hb : DataRow n data b) :
    ∃ r, a.union b = .ok r ∧ DataRow n data r := by
  cases a with
  | external paths aSize =>
    cases b with
    | external bPaths bSize =>
      have hsize : aSize = bSize := ha.trans hb.symm
      exact ⟨_, if_neg (not_not.mpr hsize), ha⟩
    | owned size => exact ⟨_, rfl, hb⟩
    | inline u => exact ⟨_, rfl, hb⟩
  | owned aSize =>
    cases b with
    | external bPaths bSize => exact ⟨_, rfl, ha⟩
    | owned size => exact ⟨_, rfl, hb⟩
    | inline u => exact ⟨_, rfl, ha⟩
  | inline u =>
    cases b with
    | external bPaths bSize => exact ⟨_, rfl, ha⟩
    | owned size => exact ⟨_, rfl, hb⟩
    | inline u => exact ⟨_, rfl, hb⟩

/-- Entries of the same size can be merged. -/
private theorem union_entryRows {a b : EntryState Unit} (ha : EntryRows n data outboard a)
    (hb : EntryRows n data outboard b) :
    ∃ r, a.union b = .ok r ∧ EntryRows n data outboard r := by
  cases a with
  | complete dl ol =>
    cases b with
    | complete bdl bol =>
      obtain ⟨r, hr, hrow⟩ := union_dataRow ha.1 hb.1
      exact ⟨.complete r ol, by simp only [EntryState.union, hr], hrow, ha.2⟩
    | partialState size => exact ⟨_, rfl, ha⟩
  | partialState aSize =>
    cases b with
    | complete bdl bol =>
      refine ⟨.complete bdl bol, ?_, hb⟩
      cases aSize <;> rfl
    | partialState bSize =>
      cases aSize with
      | none =>
        refine ⟨.partialState bSize, ?_, hb⟩
        cases bSize <;> rfl
      | some a =>
        cases bSize with
        | none => exact ⟨_, rfl, ha⟩
        | some b =>
          have hsize : a = b := (ha a rfl).trans (hb b rfl).symm
          exact ⟨_, if_neg (not_not.mpr hsize), ha⟩

/-! ### Commands -/

private theorem handleUpdate_rows {txn : Txn} (h : RowsInv size bytes txn.tables) {state : EntryState (List UInt8)}
    (hstate : Agrees (size hash) state) :
    ∃ txn', handleUpdate txn hash state = .ok txn' ∧ RowsInv size (bytes.update hash state) txn'.tables := by
  have hnew := entryRows_split hstate (txn.tables.inlineData hash) (txn.tables.inlineOutboard hash)
  unfold handleUpdate
  cases hold : txn.tables.blobs hash with
  | none => exact ⟨_, rfl, h.insert hnew⟩
  | some old =>
    have hkept := (h.entry hash old hold).or (splitState state).2.1 (splitState state).2.2
    obtain ⟨r, hr, hrows⟩ := union_entryRows hkept hnew
    simp only [hr]
    exact ⟨_, rfl, h.insert hrows⟩

private theorem handleSet_rows {txn : Txn} (h : RowsInv size bytes txn.tables) {state : EntryState (List UInt8)}
    (hstate : Agrees (size hash) state) : RowsInv size (bytes.update hash state) (handleSet txn hash state).tables :=
  h.insert (entryRows_split hstate _ _)

/-- A table of rows without the row of a hash. -/
def Removed (hash : Hash) (table table' : Hash → Option (List UInt8)) : Prop :=
  table' = table ∨ table' = Function.update table hash none

private theorem Removed.of_ne {table table' : Hash → Option (List UInt8)} (h : Removed hash table table') {h' : Hash}
    (hne : h' ≠ hash) : table' h' = table h' := by
  rcases h with rfl | rfl
  · rfl
  · exact Function.update_of_ne hne _ _

private theorem Removed.eq_some {table table' : Hash → Option (List UInt8)} (h : Removed hash table table') {h' : Hash}
    {row : List UInt8} (hrow : table' h' = some row) : table h' = some row := by
  rcases h with rfl | rfl
  · exact hrow
  · by_cases hne : h' = hash
    · subst hne
      simp at hrow
    · rwa [Function.update_of_ne hne] at hrow

/-- An entry is removed, with or without its rows. -/
private theorem RowsInv.remove (h : RowsInv size bytes tables) {inlineData inlineOutboard : Hash → Option (List UInt8)}
    (hdata : Removed hash tables.inlineData inlineData)
    (houtboard : Removed hash tables.inlineOutboard inlineOutboard) :
    RowsInv size bytes ⟨Function.update tables.blobs hash none, inlineData, inlineOutboard⟩ := by
  constructor
  · intro h' entry hlookup
    by_cases hne : h' = hash
    · subst hne
      simp at hlookup
    · simp only [Function.update_of_ne hne] at hlookup
      simp only [hdata.of_ne hne, houtboard.of_ne hne]
      exact h.entry h' entry hlookup
  · intro h' row hrow
    exact h.data h' row (hdata.eq_some hrow)
  · intro h' row hrow
    exact h.outboard h' row (houtboard.eq_some hrow)

private theorem deleteHash_rows {txn : Txn} (h : RowsInv size bytes txn.tables) (force : Bool) (hash : Hash) :
    RowsInv size bytes (deleteHash force txn hash).tables := by
  unfold deleteHash
  split
  · exact h
  · cases txn.tables.blobs hash with
    | none => exact h
    | some entry =>
      apply h.remove
      · cases entry with
        | partialState size => exact Or.inl rfl
        | complete dl ol =>
          cases dl with
          | inline u => exact Or.inr rfl
          | owned size => exact Or.inl rfl
          | external paths size => exact Or.inl rfl
      · cases entry with
        | partialState size => exact Or.inl rfl
        | complete dl ol =>
          cases ol with
          | inline u => exact Or.inr rfl
          | owned => exact Or.inl rfl
          | notNeeded => exact Or.inl rfl

private theorem delete_rows {txn : Txn} (h : RowsInv size bytes txn.tables) (hashes : List Hash) (force : Bool) :
    RowsInv size bytes (delete txn hashes force).tables := by
  induction hashes generalizing txn with
  | nil => exact h
  | cons hash hashes ih => exact ih (deleteHash_rows h force hash)

private theorem loadData_rows {dl : DataLocation Unit} (h : DataRow n (tables.inlineData hash) dl) :
    ∃ d, loadData tables hash dl = .ok d := by
  cases dl with
  | inline u =>
    obtain ⟨row, hrow⟩ := Option.isSome_iff_exists.mp h
    refine ⟨.inline row, ?_⟩
    simp only [loadData, hrow]
  | owned size => exact ⟨_, rfl⟩
  | external paths size => exact ⟨_, rfl⟩

private theorem loadOutboard_rows {ol : OutboardLocation Unit} (h : OutboardRow (tables.inlineOutboard hash) ol) :
    ∃ o, loadOutboard tables hash ol = .ok o := by
  cases ol with
  | inline u =>
    obtain ⟨row, hrow⟩ := Option.isSome_iff_exists.mp h
    refine ⟨.inline row, ?_⟩
    simp only [loadOutboard, hrow]
  | owned => exact ⟨_, rfl⟩
  | notNeeded => exact ⟨_, rfl⟩

private theorem handleGet_rows (h : RowsInv size bytes tables) (hash : Hash) :
    ∃ state, handleGet tables hash = .ok state := by
  unfold handleGet
  cases hentry : tables.blobs hash with
  | none => exact ⟨_, rfl⟩
  | some entry =>
    have hrows := h.entry hash entry hentry
    cases entry with
    | partialState size => exact ⟨_, rfl⟩
    | complete dl ol =>
      obtain ⟨d, hd⟩ := loadData_rows hrows.1
      obtain ⟨o, ho⟩ := loadOutboard_rows hrows.2
      refine ⟨some (.complete d o), ?_⟩
      simp only [bind, Except.bind, hd, ho]

private theorem handleGetBlobStatus_rows (h : RowsInv size bytes tables) (hash : Hash) :
    ∃ status, handleGetBlobStatus tables hash = .ok status := by
  unfold handleGetBlobStatus
  cases hentry : tables.blobs hash with
  | none => exact ⟨_, rfl⟩
  | some entry =>
    have hrows := h.entry hash entry hentry
    cases entry with
    | partialState size => exact ⟨_, rfl⟩
    | complete dl ol =>
      cases dl with
      | inline u =>
        obtain ⟨row, hrow⟩ := Option.isSome_iff_exists.mp hrows.1
        refine ⟨.complete row.length, ?_⟩
        simp only [hrow]
      | owned size => exact ⟨_, rfl⟩
      | external paths size => exact ⟨_, rfl⟩

/-! ### Runs of the actor -/

variable {isProtected : Finset Hash} {db : Db}

/-- A command that reads does not find an inconsistent database. -/
private theorem handleReadonly_rows (h : RowsInv size bytes db.tables) (cmd : ReadOnlyCommand) :
    ∃ r, handleReadonly isProtected db cmd = .ok r := by
  cases cmd with
  | get hash =>
    obtain ⟨state, hstate⟩ := handleGet_rows h hash
    refine ⟨(isProtected, .state state), ?_⟩
    simp only [handleReadonly, hstate]
  | dump => exact ⟨_, rfl⟩
  | listTags lower upper raw hashSeq => exact ⟨_, rfl⟩
  | clearProtected => exact ⟨_, rfl⟩
  | getBlobStatus hash =>
    obtain ⟨status, hstatus⟩ := handleGetBlobStatus_rows h hash
    refine ⟨(isProtected, .status status), ?_⟩
    simp only [handleReadonly, hstatus]

/-- A command that writes keeps the rows.  It fails only if it exits the process. -/
private theorem handleReadwrite_rows (h : RowsInv size bytes db.tables) {cmd : ReadWriteCommand}
    (hcmd : CommandAgrees size (.readWrite cmd)) :
    (∃ isProtected' db' reply, handleReadwrite isProtected db cmd = .ok (isProtected', db', reply) ∧
      RowsInv size (bytes.record (.readWrite cmd)) db'.tables) ∨
    ∃ code, cmd = .processExit code := by
  cases cmd with
  | update hash state =>
    have htxn : RowsInv size bytes (Txn.mk db.tables ∅ isProtected).tables := h
    obtain ⟨txn, heq, hrows⟩ := handleUpdate_rows htxn hcmd
    refine Or.inl ⟨txn.isProtected, { db with tables := txn.tables }, .done, ?_, hrows⟩
    simp only [handleReadwrite, heq]
  | set hash state =>
    have htxn : RowsInv size bytes (Txn.mk db.tables ∅ isProtected).tables := h
    exact Or.inl ⟨_, _, _, rfl, handleSet_rows htxn hcmd⟩
  | deleteBlobs hashes force =>
    have htxn : RowsInv size bytes (Txn.mk db.tables ∅ isProtected).tables := h
    exact Or.inl ⟨_, _, _, rfl, delete_rows htxn hashes force⟩
  | setTag name value => exact Or.inl ⟨_, _, _, rfl, h⟩
  | createTag now value => exact Or.inl ⟨_, _, _, rfl, h⟩
  | deleteTags lower upper => exact Or.inl ⟨_, _, _, rfl, h⟩
  | renameTag source target =>
    simp only [handleReadwrite]
    cases renameTag db.tags source target with
    | some tags => exact Or.inl ⟨_, _, _, rfl, h⟩
    | none => exact Or.inl ⟨_, _, _, rfl, h⟩
  | processExit code => exact Or.inr ⟨code, rfl⟩

/-- One command keeps the rows. -/
private theorem exec_rows {s : BatchedActor.Serial Db (Finset Hash) Reply Failure} (hended : s.ended = none)
    (h : RowsInv size bytes s.db.tables) {cmd : Command ReadOnlyCommand ReadWriteCommand TopLevelCommand}
    (hcmd : CommandAgrees size cmd) :
    RowsInv size (bytes.record cmd) (handlers.exec s cmd).db.tables ∧
      ∀ e, (handlers.exec s cmd).ended ≠ some (.failed (.error e)) := by
  unfold Handlers.exec
  rw [hended]
  cases cmd with
  | readOnly cmd =>
    obtain ⟨r, hr⟩ := handleReadonly_rows h cmd
    have hhandler : handlers.handleReadonly s.kept s.db cmd = .ok r := hr
    simp only [hhandler]
    exact ⟨h, fun e => by simp⟩
  | readWrite cmd =>
    rcases handleReadwrite_rows h hcmd with ⟨kept, db, reply, hr, hrows⟩ | ⟨code, rfl⟩
    · have hhandler : handlers.handleReadwrite s.kept s.db cmd = .ok (kept, db, reply) := hr
      simp only [hhandler]
      exact ⟨hrows, fun e => by simp⟩
    · refine ⟨h, ?_⟩
      intro e he
      cases he
  | topLevel cmd =>
    refine ⟨h, ?_⟩
    intro e he
    simp only at he
    split at he <;> cases he

/-- The commands one at a time keep the rows.  `before` are those that were executed. -/
private theorem execAll_rows (isProtected : Finset Hash)
    {cmds : List (Command ReadOnlyCommand ReadWriteCommand TopLevelCommand)}
    (hcmds : ∀ cmd ∈ cmds, CommandAgrees size cmd) :
    (∃ before, before <+: cmds ∧ ((handlers.execAll Db.empty isProtected cmds).ended = none → before = cmds) ∧
      RowsInv size (.ofCommands before) (handlers.execAll Db.empty isProtected cmds).db.tables) ∧
    ∀ e, (handlers.execAll Db.empty isProtected cmds).ended ≠ some (.failed (.error e)) := by
  induction cmds using List.reverseRecOn with
  | nil =>
    refine ⟨⟨[], List.prefix_rfl, fun _ => rfl, rowsInv_empty⟩, ?_⟩
    intro e h
    cases h
  | append_singleton cmds cmd ih =>
    obtain ⟨⟨before, hprefix, hall, hrows⟩, hok⟩ := ih (fun cmd' h => hcmds cmd' (List.mem_append_left _ h))
    have hcmd : CommandAgrees size cmd := hcmds cmd (by simp)
    rw [Handlers.execAll_concat]
    generalize handlers.execAll Db.empty isProtected cmds = s at hall hrows hok ⊢
    have hbefore : before <+: cmds ++ [cmd] := hprefix.trans (List.prefix_append _ _)
    cases hended : s.ended with
    | some e =>
      rw [Handlers.exec_of_ended hended]
      refine ⟨⟨before, hbefore, ?_, hrows⟩, hok⟩
      intro hnone
      rw [hended] at hnone
      cases hnone
    | none =>
      obtain ⟨hnext, hok'⟩ := exec_rows hended (hall hended ▸ hrows) hcmd
      rw [← InlineBytes.ofCommands_concat] at hnext
      exact ⟨⟨cmds ++ [cmd], List.prefix_rfl, fun _ => rfl, hnext⟩, hok'⟩

/-- What a command may find in a database with all its rows. -/
structure Consistent (size : Hash → Nat) (bytes : InlineBytes) (db : Db) : Prop where
  rows : RowsInv size bytes db.tables
  get : ∀ hash, ∃ state, handleGet db.tables hash = .ok state
  status : ∀ hash, ∃ status, handleGetBlobStatus db.tables hash = .ok status
  update : ∀ isProtected hash state, Agrees (size hash) state →
    ∃ txn, handleUpdate ⟨db.tables, ∅, isProtected⟩ hash state = .ok txn

private theorem RowsInv.consistent (h : RowsInv size bytes db.tables) : Consistent size bytes db where
  rows := h
  get := handleGet_rows h
  status := handleGetBlobStatus_rows h
  update := by
    intro isProtected hash state hstate
    have htxn : RowsInv size bytes (Txn.mk db.tables ∅ isProtected).tables := h
    obtain ⟨txn, heq, -⟩ := handleUpdate_rows htxn hstate
    exact ⟨txn, heq⟩

/-- The actor starts with an empty database.  In every state that it reaches with commands that agree on the sizes, both
the committed tables and those of the open transaction have the rows of all inline entries, with the bytes that the
commands before have carried.  No command ends the actor with an error. -/
theorem inline_rows_present (options : BatchedActor.BatchOptions) (size : Hash → Nat) (isProtected : Finset Hash)
    (cmds : List (Command ReadOnlyCommand ReadWriteCommand TopLevelCommand))
    (hcmds : ∀ cmd ∈ cmds, CommandAgrees size cmd)
    (timeouts : List Bool)
    (a : BatchedActor.Actor Db (Finset Hash) ReadOnlyCommand ReadWriteCommand TopLevelCommand Reply Failure)
    (hrun : StateMachine.run (BatchedActor.step handlers options)
      (BatchedActor.start Db.empty isProtected cmds) timeouts =
      some a) :
    (∃ before, before <+: a.handled ∧ Consistent size (.ofCommands before) a.db) ∧
    (∀ n db, a.phase = .reading n db ∨ a.phase = .writing n db → Consistent size (.ofCommands a.handled) db) ∧
    ∀ e, a.phase ≠ .ended (some (.failed (.error e))) := by
  have hinv := BatchedActor.run_inv hrun
  have hhandled : ∀ cmd ∈ a.handled, CommandAgrees size cmd := by
    intro cmd h
    apply hcmds
    rw [← hinv.order]
    exact List.mem_append_left _ h
  obtain ⟨⟨executed, -, hall, hrows⟩, hok⟩ := execAll_rows isProtected hhandled
  have hphase := hinv.phase
  refine ⟨?_, ?_, ?_⟩
  · obtain ⟨committed, hcommitted, hdb⟩ := hinv.committed
    have hcommands : ∀ cmd ∈ committed, CommandAgrees size cmd := fun cmd h => hhandled cmd (hcommitted.subset h)
    obtain ⟨⟨before, hbefore, -, hrows⟩, -⟩ := execAll_rows isProtected hcommands
    rw [← hdb] at hrows
    exact ⟨before, hbefore.trans hcommitted, hrows.consistent⟩
  · rintro n db (hopen | hopen)
    · rw [hopen] at hphase
      obtain ⟨-, rfl, hended⟩ := hphase
      rw [hall hended] at hrows
      exact hrows.consistent
    · rw [hopen] at hphase
      obtain ⟨rfl, hended⟩ := hphase
      rw [hall hended] at hrows
      exact hrows.consistent
  · intro e hfailed
    rw [hfailed] at hphase
    exact hok e hphase

/-- A blob is imported inline, referenced from outside, and deleted. -/
def inlineThenExternal : List (Command ReadOnlyCommand ReadWriteCommand TopLevelCommand) :=
  [.readWrite (.update (.replicate 1) (.complete (.inline [7]) .notNeeded)),
    .readWrite (.update (.replicate 1) (.complete (.external [(.ofBytes [47, 97])] 1) .notNeeded)),
    .readOnly (.get (.replicate 1)), .readWrite (.deleteBlobs [.replicate 1] true)]

theorem inline_rows_present_inlineThenExternal :
    (∀ cmd ∈ inlineThenExternal, CommandAgrees (fun _ => 1) cmd) ∧
    ∃ a, StateMachine.run (BatchedActor.step handlers ⟨2, 2⟩) (BatchedActor.start Db.empty ∅ inlineThenExternal)
      [false, false, false] = some a ∧ a.db.tables.inlineData (.replicate 1) = some [7] ∧
      ∃ before, before <+: a.handled ∧ Consistent (fun _ => 1) (.ofCommands before) a.db := by
  have hcmds : ∀ cmd ∈ inlineThenExternal, CommandAgrees (fun _ => 1) cmd := by
    simp [inlineThenExternal, CommandAgrees, Agrees, DataAgrees]
  refine ⟨hcmds, _, rfl, rfl, ?_⟩
  exact (inline_rows_present ⟨2, 2⟩ (fun _ => 1) ∅ inlineThenExternal hcmds [false, false, false] _ rfl).1

end Meta

end IrohBlobs
