import IrohBlobs.BaoTree
import IrohBlobs.Bitfield
import IrohBlobs.Content
import IrohBlobs.ExportBao

/-!
# The storage of a bao file

The model of `store/fs/bao_file.rs` and `store/util/partial_mem_storage.rs`: the states of an entry, and how a batch of
verified items is written.  The data file is a sequence of bytes, the outboard a sequence of hashes (two for each stored
node), and the sizes file a sequence of sizes (one for each chunk group).

The position of a parent in the outboard is computed from the size that the import claims, which may be wrong.
-/

namespace IrohBlobs

open Merkle (chunks treeChunks)
open BaoTree (preOrderOffset outboardPairs)

/-- An item of an import: a parent or a leaf. -/
inductive BaoContentItem (H : Type)
  | parent (parent : Parent H)
  | leaf (leaf : Leaf)

namespace BaoContentItem

variable {H : Type}

def isLeaf : BaoContentItem H → Bool
  | .leaf _ => true
  | .parent _ => false

def isParent : BaoContentItem H → Bool
  | .parent _ => true
  | .leaf _ => false

end BaoContentItem

/-- What is kept in memory or in the database, by size. -/
structure InlineOptions where
  maxDataInlined : Nat
  maxOutboardInlined : Nat

namespace InlineOptions

def isInlinedData (options : InlineOptions) (size : Nat) : Bool := decide (size ≤ options.maxDataInlined)

def isInlinedOutboard (options : InlineOptions) (size : Nat) : Bool := decide (size ≤ options.maxOutboardInlined)

end InlineOptions

/-- The size of the outboard in bytes. -/
def rawOutboardSize (size : Nat) : Nat := 64 * outboardPairs (treeChunks size)

section

variable {H : Type}

/-! ### Partial entries in memory -/

/-- The most precise size that is known. -/
structure SizeInfo where
  offset : Nat
  size : Nat

namespace SizeInfo

/-- The size at the highest offset is kept. -/
def write (info : SizeInfo) (offset size : Nat) : SizeInfo := if info.offset ≤ offset then ⟨offset, size⟩ else info

/-- The slot is `offset >> 4`, in contrast to the slots of `PartialFileStorage::write_batch`. -/
def persist (info : SizeInfo) (target : Content Nat) : Content Nat := target.write (info.offset / 16) [info.size]

end SizeInfo

structure PartialMemStorage (H : Type) where
  data : Content UInt8
  outboard : Content H
  size : SizeInfo
  bitfield : Bitfield

namespace PartialMemStorage

def default : PartialMemStorage H := ⟨.empty, .empty, ⟨0, 0⟩, .empty⟩

def currentSize (s : PartialMemStorage H) : Nat := s.bitfield.size

def writeItem (size : Nat) (s : PartialMemStorage H) : BaoContentItem H → PartialMemStorage H
  | .parent parent =>
    match preOrderOffset (treeChunks size) parent.node with
    | some offset => { s with outboard := s.outboard.write (2 * offset) [parent.pair.1, parent.pair.2] }
    | none => s
  | .leaf leaf => { s with size := s.size.write leaf.offset size, data := s.data.write leaf.offset leaf.data }

def writeBatch (size : Nat) (batch : List (BaoContentItem H)) (s : PartialMemStorage H) : PartialMemStorage H :=
  batch.foldl (writeItem size) s

theorem writeBatch_cons (size : Nat) (item : BaoContentItem H) (batch : List (BaoContentItem H))
    (s : PartialMemStorage H) :
    s.writeBatch size (item :: batch) = (s.writeItem size item).writeBatch size batch := rfl

end PartialMemStorage

/-! ### Partial entries on disk -/

/-- The cells that `write_at` leaves out when a sparse file is copied.  Its result, the number of bytes that were
written, is ignored. -/
structure Omits where
  data : RangeSet
  outboard : RangeSet
  deriving DecidableEq

namespace Omits

def none : Omits := ⟨∅, ∅⟩

/-- Nothing is left out. -/
def WritesAll (omits : Omits) : Prop := omits = none

instance (omits : Omits) : Decidable omits.WritesAll := inferInstanceAs (Decidable (omits = none))

theorem WritesAll.eq_none {omits : Omits} (h : omits.WritesAll) : omits = none := h

theorem WritesAll.data {omits : Omits} (h : omits.WritesAll) (i : Nat) : omits.data.contains i = false := by
  rw [h.eq_none]
  rfl

theorem WritesAll.outboard {omits : Omits} (h : omits.WritesAll) (i : Nat) : omits.outboard.contains i = false := by
  rw [h.eq_none]
  rfl

end Omits

/-- The files of an entry at their canonical paths, and what is left out when sparse files are copied to them. -/
structure Files (H : Type) where
  data : Content UInt8
  outboard : Content H
  sizes : Content Nat
  omits : Omits

/-- There are no files yet. -/
def Files.new (omits : Omits) : Files H := ⟨.empty, .empty, .empty, omits⟩

def Files.empty : Files H := .new .none

structure PartialFileStorage (H : Type) where
  data : Content UInt8
  outboard : Content H
  sizes : Content Nat
  bitfield : Bitfield

structure CompleteStorage (H : Type) where
  data : Content UInt8
  size : Nat
  outboard : Content H

def CompleteStorage.bitfield (s : CompleteStorage H) : Bitfield := .complete s.size

/-- The last size in the sizes file. -/
def readSize (sizes : Content Nat) : Nat := if sizes.len = 0 then 0 else (sizes.cell (sizes.len - 1)).getD 0

/-- The writes to the outboard for an item: one for each of the two hashes. -/
def outboardWrites (size : Nat) : BaoContentItem H → List (Nat × List H)
  | .parent parent =>
    match preOrderOffset (treeChunks size) parent.node with
    | some offset => [(2 * offset, [parent.pair.1]), (2 * offset + 1, [parent.pair.2])]
    | none => []
  | .leaf _ => []

def dataWrites : BaoContentItem H → List (Nat × List UInt8)
  | .leaf leaf => [(leaf.offset, leaf.data)]
  | .parent _ => []

/-- The claimed size is written for the chunk group of a leaf. -/
def sizesWrites (size : Nat) : BaoContentItem H → List (Nat × List Nat)
  | .leaf leaf => [(leaf.offset / 16384, [size])]
  | .parent _ => []

namespace PartialFileStorage

def currentSize (s : PartialFileStorage H) : Nat := readSize s.sizes

def writeItem (size : Nat) (s : PartialFileStorage H) (item : BaoContentItem H) : PartialFileStorage H :=
  { s with
    data := s.data.writes (dataWrites item)
    outboard := s.outboard.writes (outboardWrites size item)
    sizes := s.sizes.writes (sizesWrites size item) }

def writeBatch (size : Nat) (batch : List (BaoContentItem H)) (s : PartialFileStorage H) : PartialFileStorage H :=
  batch.foldl (writeItem size) s

def intoComplete (s : PartialFileStorage H) (size : Nat) (options : InlineOptions) : CompleteStorage H :=
  let data := if options.isInlinedData size then s.data.readToEnd size else s.data
  { data
    size := if options.isInlinedData size then data.len else size
    outboard :=
      if options.isInlinedOutboard (rawOutboardSize size) then
        s.outboard.readToEnd (2 * outboardPairs (treeChunks size))
      else s.outboard }

end PartialFileStorage

namespace PartialMemStorage

/-- Complete entries that are not inlined go to the files, which may have old contents. -/
def intoComplete (s : PartialMemStorage H) (disk : Files H) (options : InlineOptions) : CompleteStorage H :=
  { data := if options.isInlinedData s.currentSize then s.data else s.data.persist disk.omits.data.contains disk.data
    size := if options.isInlinedData s.currentSize then s.data.len else s.currentSize
    outboard :=
      if options.isInlinedOutboard (rawOutboardSize s.currentSize) then
        if 0 < rawOutboardSize s.currentSize then s.outboard else .empty
      else s.outboard.persist disk.omits.outboard.contains disk.outboard }

/-- Persist the entry to disk. -/
def persist (s : PartialMemStorage H) (disk : Files H) : PartialFileStorage H :=
  ⟨s.data.persist disk.omits.data.contains disk.data, s.outboard.persist disk.omits.outboard.contains disk.outboard,
    s.size.persist disk.sizes, s.bitfield⟩

end PartialMemStorage

/-! ### Entries -/

/-- The storage of an entry. -/
inductive BaoFileStorage (H : Type)
  | initial
  | loading
  | nonExisting
  | partialMem (storage : PartialMemStorage H)
  | partialFile (storage : PartialFileStorage H)
  | complete (storage : CompleteStorage H)
  | poisoned

/-- What the metadata database is told. -/
inductive EntryUpdate
  | partialEntry (size : Option Nat)
  | completeEntry
  deriving DecidableEq

/-- The end of the last leaf of a batch. -/
def maxOffset (batch : List (BaoContentItem H)) : Nat :=
  (batch.filterMap (fun | .leaf leaf => some (leaf.offset + leaf.data.length) | .parent _ => none)).foldl max 0

namespace BaoFileStorage

/-- The bitfield of an entry; nothing where the source panics. -/
def bitfield : BaoFileStorage H → Option Bitfield
  | .nonExisting => some .empty
  | .partialMem s => some s.bitfield
  | .partialFile s => some s.bitfield
  | .complete s => some s.bitfield
  | .initial | .loading | .poisoned => none

/-- The most precise known size of the data; nothing where the source returns an error. -/
def currentSize : BaoFileStorage H → Option Nat
  | .complete s => some s.size
  | .partialMem s => some s.currentSize
  | .partialFile s => some s.currentSize
  | .initial | .loading | .nonExisting | .poisoned => none

/-- The state after a file storage got a batch. -/
def afterFileBatch (options : InlineOptions) (s : PartialFileStorage H) : BaoFileStorage H :=
  if s.bitfield.isComplete then .complete (s.intoComplete s.bitfield.size options) else .partialFile s

/-- The state after a memory storage got a batch. -/
def afterMemBatch (options : InlineOptions) (disk : Files H) (s : PartialMemStorage H) : BaoFileStorage H :=
  if s.bitfield.isComplete then .complete (s.intoComplete disk options) else .partialFile (s.persist disk)

def writeBatchMem (options : InlineOptions) (disk : Files H) (batch : List (BaoContentItem H)) (bitfield : Bitfield)
    (ms : PartialMemStorage H) : BaoFileStorage H × Option EntryUpdate :=
  -- check whether to switch to file mode, otherwise write to memory
  if maxOffset batch ≤ options.maxDataInlined then
    let ms := ms.writeBatch bitfield.size batch
    let ms := { ms with bitfield := (ms.bitfield.update bitfield).1 }
    (afterMemBatch options disk ms,
      some (if ms.bitfield.isComplete then .completeEntry else .partialEntry ms.bitfield.validatedSize))
  else
    -- first switch to file mode, then write the batch
    let fs := (ms.persist disk).writeBatch bitfield.size batch
    let fs := { fs with bitfield := (fs.bitfield.update bitfield).1 }
    (afterFileBatch options fs,
      some (if fs.bitfield.isComplete then .completeEntry else .partialEntry fs.bitfield.validatedSize))

def writeBatch (options : InlineOptions) (disk : Files H) (batch : List (BaoContentItem H)) (bitfield : Bitfield) :
    BaoFileStorage H → BaoFileStorage H × Option EntryUpdate
  | .nonExisting => writeBatchMem options disk batch bitfield .default
  | .partialMem ms => writeBatchMem options disk batch bitfield ms
  | .partialFile fs =>
    let wasValidated := fs.bitfield.isValidated
    let fs := fs.writeBatch bitfield.size batch
    let fs := { fs with bitfield := (fs.bitfield.update bitfield).1 }
    (afterFileBatch options fs,
      if fs.bitfield.isComplete then some .completeEntry
      -- still partial, but now the size is known
      else if fs.bitfield.isValidated && !wasValidated then some (.partialEntry fs.bitfield.validatedSize)
      else none)
  -- complete entries ignore the write, and so do poisoned ones
  | state => (state, none)

end BaoFileStorage

end

end IrohBlobs
