import IrohBlobs.BitfieldFile
import IrohBlobs.Meta
import IrohBlobs.Reconstruct
import IrohBlobs.StateMachine
import IrohBlobs.UnsyncedFile

/-!
# The files of a partial entry

The file operations behind the handle of an entry, for one hash: `PartialFileStorage` and `PartialMemStorage` of
`store/fs/bao_file.rs`, `EntityApi::persist` of `store/fs.rs`, and what the metadata actor does to the entry and to
its files.  In contrast to `BaoFileStorage`, where a storage is what a reader sees, the handle has open files here,
each with writes that are not synced, and the paths may be linked to other files or to none.

A step is a list of operations, and may stop after any of them: then the next one has failed, or the store crashes.
Updates of the entry are sent to the metadata actor, and handled by it in order.  It commits now and then; the files
that are marked for deletion are removed after that, one by one.  A crash loses what is not synced and what is not
committed.

Imports of whole blobs (`finish_import`) are not modelled.
-/

namespace IrohBlobs

namespace FsDisk

open Merkle BaoTree ImportBao Meta

variable {C H : Type}

/-! ### Files -/

structure Disk (C H : Type) where
  data : PathFiles UInt8
  outboard : PathFiles H
  sizes : PathFiles Nat
  bitfield : Option (ChecksummedFile C)

inductive DiskOp (C H : Type)
  | data (op : PathFiles.Op UInt8)
  | outboard (op : PathFiles.Op H)
  | sizes (op : PathFiles.Op Nat)
  | bitfield (op : Checksummed.Op C)

/-- The open files of a handle. -/
structure OpenFiles where
  data : Nat
  outboard : Nat
  sizes : Nat

/-- What happens in a step: after how many operations one fails, the cells that `write_at` leaves out when a sparse
file is persisted, whether files can be read, and whether the metadata actor gets an update. -/
structure Io where
  stop : Option Nat
  omitsData : Nat → Bool
  omitsOutboard : Nat → Bool
  reads : Bool
  sends : Bool

/-- Nothing fails. -/
def Io.working : Io := ⟨none, fun _ => false, fun _ => false, true, true⟩

namespace Disk

def empty : Disk C H := ⟨.empty, .empty, .empty, none⟩

def apply (disk : Disk C H) : DiskOp C H → Disk C H
  | .data op => { disk with data := disk.data.apply op }
  | .outboard op => { disk with outboard := disk.outboard.apply op }
  | .sizes op => { disk with sizes := disk.sizes.apply op }
  | .bitfield op => { disk with bitfield := Checksummed.apply disk.bitfield op }

def run (disk : Disk C H) (ops : List (DiskOp C H)) : Disk C H := ops.foldl apply disk

/-- Whether the operations succeed. -/
def succeeds (ops : List (DiskOp C H)) (stop : Option Nat) : Bool := stop.all fun n => decide (ops.length ≤ n)

/-- The operations up to the first one that fails. -/
def perform (disk : Disk C H) (ops : List (DiskOp C H)) (stop : Option Nat) : Disk C H :=
  disk.run (match stop with | some n => ops.take n | none => ops)

/-- The files that `create_read_write` opens. -/
def opened (disk : Disk C H) : OpenFiles := ⟨disk.data.opened, disk.outboard.opened, disk.sizes.opened⟩

/-- What is read of open files.  `zero` is read of an outboard where no hash was written. -/
def source (disk : Disk C H) (zero root : H) (files : OpenFiles) (reads : Bool) : ExportSource H where
  size := if reads then readSize ((disk.sizes.file files.sizes).view.fill 0) else 0
  root := root
  data := (disk.data.file files.data).view.fill 0
  outboard := (disk.outboard.file files.outboard).view.fill zero

def remove (disk : Disk C H) : BaoFilePart → Disk C H
  | .data => { disk with data := disk.data.remove }
  | .outboard => { disk with outboard := disk.outboard.remove }
  | .sizes => { disk with sizes := disk.sizes.remove }
  | .bitfield => { disk with bitfield := none }

end Disk

/-! ### Operations -/

/-- `PartialFileStorage`: the open files, and the bitfield. -/
structure PartialFile where
  files : OpenFiles
  bitfield : Bitfield

def createOps : List (DiskOp C H) := [.data .create, .outboard .create, .sizes .create]

def syncOps (files : OpenFiles) : List (DiskOp C H) :=
  [.data (.sync files.data), .outboard (.sync files.outboard), .sizes (.sync files.sizes)]

/-- `PartialFileStorage::sync_all`.  The bitfield is written only if the syncs were successful. -/
def syncAllOps (blake3 : List UInt8 → C) (s : PartialFile) : List (DiskOp C H) :=
  syncOps s.files ++ (Checksummed.writeOps blake3 s.bitfield).map .bitfield

def itemOps (files : OpenFiles) (size : Nat) (item : BaoContentItem H) : List (DiskOp C H) :=
  (PathFiles.writeOps files.outboard (outboardWrites size item)).map .outboard ++
    (PathFiles.writeOps files.data (dataWrites item)).map .data ++
    (PathFiles.writeOps files.sizes (sizesWrites size item)).map .sizes

/-- `PartialFileStorage::write_batch`. -/
def batchOps (files : OpenFiles) (size : Nat) (batch : List (BaoContentItem H)) : List (DiskOp C H) :=
  batch.flatMap (itemOps files size)

/-- `SparseMemFile::persist` of the data. -/
def copyData (io : Io) (id : Nat) (data : Content UInt8) : List (DiskOp C H) :=
  (PathFiles.writeOps id (data.cellWrites.filter fun w => !io.omitsData w.1)).map .data

/-- `SparseMemFile::persist` of the outboard. -/
def copyOutboard (io : Io) (id : Nat) (outboard : Content H) : List (DiskOp C H) :=
  (PathFiles.writeOps id (outboard.cellWrites.filter fun w => !io.omitsOutboard w.1)).map .outboard

/-- `PartialMemStorage::persist`. -/
def persistOps (io : Io) (files : OpenFiles) (ms : PartialMemStorage H) : List (DiskOp C H) :=
  createOps ++ copyData io files.data ms.data ++ copyOutboard io files.outboard ms.outboard ++
    [.sizes (.write files.sizes (ms.size.offset / 16) [ms.size.size])] ++ syncOps files

/-- `PartialMemStorage::into_complete`. -/
def intoCompleteOps (options : InlineOptions) (io : Io) (files : OpenFiles) (ms : PartialMemStorage H) :
    List (DiskOp C H) :=
  (if options.isInlinedData ms.currentSize then [] else .data .create :: copyData io files.data ms.data) ++
    if options.isInlinedOutboard (rawOutboardSize ms.currentSize) then []
    else .outboard .create :: copyOutboard io files.outboard ms.outboard

/-- The state of a complete entry of a size. -/
def completeState (options : InlineOptions) (size : Nat) : EntryState Unit :=
  .complete (if options.isInlinedData size then .inline () else .owned size)
    (if options.isInlinedOutboard (rawOutboardSize size) then if rawOutboardSize size = 0 then
      .notNeeded else .inline ()
    else .owned)

/-- `PartialFileStorage::into_complete` for an entry of a size: what is inlined is read back. -/
def canComplete (options : InlineOptions) (io : Io) (size : Nat) : Bool :=
  io.reads || !(options.isInlinedData size ||
    (options.isInlinedOutboard (rawOutboardSize size) && rawOutboardSize size ≠ 0))

/-! ### The handle -/

inductive Handle
  | initial
  | nonExisting
  | partialFile (storage : PartialFile)
  | complete
  | poisoned

/-- The result of a write. -/
structure Written (C H : Type) where
  disk : Disk C H
  handle : Handle
  /-- What the database is told. -/
  update : Option (EntryState Unit)
  /-- The deletion of the files is cancelled. -/
  protects : Bool
  ok : Bool

/-- A write that performs operations.  If one of them fails, or what comes after them, the handle is poisoned. -/
def write (io : Io) (disk : Disk C H) (ops : List (DiskOp C H)) (rest : Bool) (handle : Handle)
    (update : Option (EntryState Unit)) (protects : Bool) : Written C H :=
  if Disk.succeeds ops io.stop && rest then ⟨disk.perform ops io.stop, handle, update, protects, true⟩
  else ⟨disk.perform ops io.stop, .poisoned, none, protects, false⟩

/-- The state of the handle after files got a batch. -/
def afterFileBatch (s : PartialFile) : Handle := if s.bitfield.isComplete then .complete else .partialFile s

/-- `BaoFileStorage::write_batch`. -/
def writeBatch (options : InlineOptions) (io : Io) (disk : Disk C H) (batch : List (BaoContentItem H))
    (update : Bitfield) :
    Handle → Written C H
  | .nonExisting =>
    let files := disk.opened
    if maxOffset batch ≤ options.maxDataInlined then
      let ms := PartialMemStorage.default.writeBatch update.size batch
      let ms := { ms with bitfield := (ms.bitfield.update update).1 }
      if ms.bitfield.isComplete then
        write io disk (intoCompleteOps options io files ms) true .complete
          (some (completeState options ms.currentSize)) false
      else
        write io disk (persistOps io files ms) true (.partialFile ⟨files, ms.bitfield⟩)
          (some (.partialState ms.bitfield.validatedSize)) true
    else
      -- first switch to file mode, then write the batch
      let s : PartialFile := ⟨files, (Bitfield.empty.update update).1⟩
      write io disk (persistOps io files .default ++ batchOps files update.size batch)
        (!s.bitfield.isComplete || canComplete options io s.bitfield.size) (afterFileBatch s)
        (some (if s.bitfield.isComplete then completeState options s.bitfield.size
          else .partialState s.bitfield.validatedSize)) true
  | .partialFile s =>
    let wasValidated := s.bitfield.isValidated
    let s : PartialFile := { s with bitfield := (s.bitfield.update update).1 }
    write io disk (batchOps s.files update.size batch)
      (!s.bitfield.isComplete || canComplete options io s.bitfield.size) (afterFileBatch s)
      (if s.bitfield.isComplete then some (completeState options s.bitfield.size)
      -- still partial, but now the size is known
      else if s.bitfield.isValidated && !wasValidated then some (.partialState s.bitfield.validatedSize)
      else none) false
  -- complete entries ignore the write, and so do poisoned ones
  | handle => ⟨disk, handle, none, false, true⟩

/-! ### The database -/

/-- The entry in the open transaction and the committed one, the files that are marked for deletion, and whether the
hash is protected from deletions that are not forced. -/
structure Database where
  row : Option (EntryState Unit)
  committed : Option (EntryState Unit)
  marks : List BaoFilePart
  isProtected : Bool

namespace Database

def empty : Database := ⟨none, none, [], false⟩

/-- What is not committed is lost. -/
def abort (db : Database) : Database := ⟨db.committed, db.committed, [], db.isProtected⟩

/-- `handle_update`.  An error ends the transaction. -/
def update (db : Database) (state : EntryState Unit) : Database :=
  match db.row with
  | none => { db with row := some state, isProtected := true }
  | some old =>
    match old.union state with
    | .error _ => db.abort
    | .ok res =>
      { db with
        row := some res
        marks := if old.isPartial && state.isComplete then db.marks ∪ [.sizes, .bitfield] else db.marks
        isProtected := true }

/-- `handle_set`. -/
def set (db : Database) (state : EntryState Unit) : Database := { db with row := some state, isProtected := true }

/-- `Actor::delete`. -/
def delete (db : Database) (force : Bool) : Database :=
  if !force && db.isProtected then db
  else
    match db.row with
    | none => db
    | some entry => { db with row := none, marks := db.marks ∪ markedParts entry }

end Database

/-! ### The store -/

structure Store (C H : Type) where
  disk : Disk C H
  handle : Handle
  streams : List (Nat × ImportStream H)
  /-- Updates that are sent to the metadata actor. -/
  updates : List (EntryState Unit)
  db : Database

namespace Store

def new : Store C H := ⟨.empty, .initial, [], [], .empty⟩

def stream (s : Store C H) (id : Nat) : Option (ImportStream H) := s.streams.lookup id

def endStream (s : Store C H) (id : Nat) : Store C H := { s with streams := s.streams.filter fun p => p.1 ≠ id }

def setStream (s : Store C H) (id : Nat) (st : ImportStream H) : Store C H :=
  { s with streams := (id, st) :: (s.endStream id).streams }

end Store

/-- What a store is given: the hash functions, the hash of the entry, the options, what is read of an outboard where
no hash was written, the hash of payloads, and `valid_ranges`. -/
structure Env (C H : Type) where
  f : HashFns UInt8 H
  root : H
  options : InlineOptions
  zero : H
  blake3 : List UInt8 → C
  validRanges : ExportSource H → List (Option (Nat × Nat))

section

variable [DecidableEq C] [DecidableEq H] (env : Env C H)

/-- The hash of the empty blob. -/
def Env.emptyHash : H := hashSubtree env.f 0 [] true

/-- `PartialFileStorage::load`.  Nothing is loaded if a file cannot be opened; if the bitfield cannot be read or
truncated it is reconstructed. -/
def loadPartial (disk : Disk C H) (io : Io) : Disk C H × Option PartialFile :=
  let ops := createOps ++ Checksummed.truncateOps.map .bitfield
  let disk' := disk.perform ops io.stop
  if Disk.succeeds (C := C) (H := H) createOps io.stop then
    let reconstructed := reconstruct env.validRanges (disk'.source env.zero env.root disk.opened io.reads)
    let bitfield :=
      if Disk.succeeds ops io.stop then
        match Checksummed.read env.blake3 disk.bitfield with
        | .ok bitfield => bitfield
        | .error _ => reconstructed
      else reconstructed
    (disk', some ⟨disk.opened, bitfield⟩)
  else (disk', none)

/-- `BaoFileStorage::open` for the entry in the database.  The flag says whether a complete entry can be opened, and
whether the database can be told that an entry turned out to be complete. -/
def load (s : Store C H) (io : Io) (ok : Bool) : Store C H :=
  if env.root = env.emptyHash then { s with handle := .complete }
  else
    match s.db.row with
    | none => { s with handle := if ok then .nonExisting else .poisoned }
    | some (.complete _ _) => { s with handle := if ok then .complete else .poisoned }
    | some (.partialState _) =>
      match loadPartial env s.disk io with
      | (disk, none) => { s with disk, handle := .poisoned }
      | (disk, some storage) =>
        if storage.bitfield.isComplete then
          if canComplete env.options io storage.bitfield.size && ok then
            { s with disk, handle := .complete, db := s.db.set (completeState env.options storage.bitfield.size) }
          else { s with disk, handle := .poisoned }
        else { s with disk, handle := .partialFile storage }

/-- An item is added to the batch of an import. -/
def push (s : Store C H) (id : Nat) (st : ImportStream H) : BaoContentItem H → Store C H
  | .leaf leaf =>
    if invalidSize st.decoder.size leaf then s.endStream id
    else s.setStream id { st with ranges := st.ranges ∪ chunkRange leaf, batch := st.batch ++ [.leaf leaf] }
  | .parent parent => s.setStream id { st with batch := st.batch ++ [.parent parent] }

/-- The store after a write, and after its update was sent if it can be sent. -/
def afterWrite (s : Store C H) (written : Written C H) (sends : Bool) : Store C H :=
  { s with
    disk := written.disk
    handle := written.handle
    updates := if sends then s.updates ++ written.update.toList else s.updates
    db := if written.protects then { s.db with marks := [] } else s.db }

/-- The batch of an import is written, and the import goes on if that succeeds. -/
def flush (s : Store C H) (id : Nat) (st : ImportStream H) (io : Io) (next : Store C H → ImportStream H → Store C H) :
    Store C H :=
  let written := writeBatch env.options io s.disk st.batch ⟨st.decoder.size, st.ranges⟩ s.handle
  if written.ok && (written.update.isNone || io.sends) then
    next (afterWrite s written io.sends) { st with batch := [], ranges := ∅ }
  else (afterWrite s written io.sends).endStream id

/-- An import receives an item.  A parent after a leaf starts a new batch. -/
def recv (s : Store C H) (id : Nat) (st : ImportStream H) (item : BaoContentItem H) (io : Io) : Store C H :=
  if (st.batch.getLast?.map BaoContentItem.isLeaf).getD false && item.isParent then
    flush env s id st io fun s st => push s id st item
  else push s id st item

/-- An import is at its end: the last batch is written. -/
def finish (s : Store C H) (id : Nat) (st : ImportStream H) (io : Io) : Store C H :=
  if st.batch.isEmpty then s.endStream id else flush env s id st io fun s _ => s.endStream id

/-- `EntityApi::persist`. -/
def persist (s : Store C H) (stop : Option Nat) : Store C H :=
  { s with
    disk := match s.handle with
      | .partialFile storage => s.disk.perform (syncAllOps env.blake3 storage) stop
      | _ => s.disk
    handle := .initial }

/-- A content that a crash may leave of the bitfield file. -/
def tornBitfield (disk : Disk C H) (content : Checksummed C) : Bool :=
  disk.bitfield.all fun file => decide (Checksummed.Torn file content)

inductive Action (C H : Type)
  | load (io : Io) (ok : Bool)
  | start (id size : Nat)
  | parent (id : Nat) (path : List Bool) (pair : H × H) (io : Io)
  | leaf (id : Nat) (path : List Bool) (data : List UInt8)
  | finish (id : Nat) (io : Io)
  | stop (id : Nat)
  /-- The first update is handled. -/
  | deliver
  | delete (force : Bool)
  | clearProtected
  /-- The transaction is committed, and these of the marked files are removed. -/
  | commit (removed : List BaoFilePart)
  /-- The last import has ended, and the handle is persisted and reset. -/
  | persist (stop : Option Nat)
  /-- These writes are kept, and this is left of the bitfield file. -/
  | crash (data : List (Nat × List UInt8)) (outboard : List (Nat × List H)) (sizes : List (Nat × List Nat))
      (bitfield : Checksummed C)

def step (s : Store C H) : Action C H → Option (Store C H)
  | .load io ok =>
    match s.handle with
    -- the entry is read from the database after all updates that were sent before
    | .initial => if s.updates.isEmpty then some (load env s io ok) else none
    | _ => none
  | .start id size =>
    match s.handle with
    | .initial => none
    | _ => if 0 < size ∧ (s.stream id).isNone then some (s.setStream id ⟨⟨size, env.root, []⟩, [], ∅⟩) else none
  | .parent id path pair io =>
    (s.stream id).bind fun st =>
      (st.decoder.parent env.f path pair).map fun decoder =>
        recv env s id { st with decoder } (.parent ⟨nodeAt (treeChunks st.decoder.size) path, pair⟩) io
  | .leaf id path data =>
    (s.stream id).bind fun st =>
      if st.decoder.leaf env.f 16 path data then
        some (push s id st (.leaf ⟨(sub (treeChunks st.decoder.size) path).1 * 1024, data⟩))
      else none
  | .finish id io => (s.stream id).map fun st => finish env s id st io
  | .stop id => (s.stream id).map fun _ => s.endStream id
  | .deliver =>
    match s.updates with
    | [] => none
    | update :: updates => some { s with updates, db := s.db.update update }
  | .delete force => some { s with db := s.db.delete force }
  | .clearProtected => some { s with db := { s.db with isProtected := false } }
  | .commit removed =>
    if removed ⊆ s.db.marks then
      some { s with disk := removed.foldl Disk.remove s.disk, db := { s.db with committed := s.db.row, marks := [] } }
    else none
  | .persist stop => if s.streams.isEmpty then some (persist env s stop) else none
  | .crash data outboard sizes bitfield =>
    if data.isSublist s.disk.data.pending ∧ outboard.isSublist s.disk.outboard.pending ∧
        sizes.isSublist s.disk.sizes.pending ∧ tornBitfield s.disk bitfield then
      some ⟨⟨s.disk.data.crash data, s.disk.outboard.crash outboard, s.disk.sizes.crash sizes,
        s.disk.bitfield.map fun _ => ⟨bitfield, bitfield⟩⟩, .initial, [], [], { s.db.abort with isProtected := false }⟩
    else none

end

end FsDisk

end IrohBlobs
