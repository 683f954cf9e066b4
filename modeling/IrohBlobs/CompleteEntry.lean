import IrohBlobs.CurrentSize
import IrohBlobs.ImportStream
import IrohBlobs.InitOutboard
import IrohBlobs.Meta
import IrohBlobs.Outboard

/-!
# Complete entries

There are three ways to a complete entry.  `PartialMemStorage::into_complete` and `PartialFileStorage::into_complete` of
`store/fs/bao_file.rs` complete an entry that is synced, in memory or in files; `finish_import_impl` of `store/fs.rs`
integrates what the functions of `store/fs/import.rs` have read.  Each of them decides on its own what is inlined, and
collects the bytes on its own.

All of them give the entry of the data (`IsEntryOf`); two such entries differ only in the files they have and in what is
written beyond the end (`SameEntry`).
-/

namespace IrohBlobs

namespace CompleteEntry

open Merkle BaoTree Provable ImportBao Outboard

inductive MemOrFile (M F : Type)
  | mem (m : M)
  | file (f : F)

def MemOrFile.isMem {M F : Type} : MemOrFile M F → Bool
  | mem _ => true
  | file _ => false

/-- A data file, with the size of the data. -/
structure FixedSize where
  file : Content UInt8
  size : Nat

/-- A complete entry: the storage, and the state that the database is told. -/
structure Entry (H : Type) where
  data : MemOrFile (List UInt8) FixedSize
  outboard : MemOrFile (List H) (Content H)
  dataLocation : Meta.DataLocation (List UInt8)
  outboardLocation : Meta.OutboardLocation (List H)

/-- The cells up to the end.  Cells that were not written are zero. -/
def bytes {α : Type} (zero : α) (c : Content α) : List α := (List.range c.len).map fun i => (c.cell i).getD zero

/-- A file with the given content. -/
def ofList {α : Type} (l : List α) : Content α := ⟨l.length, fun i => l[i]?⟩

section

variable {H : Type} (zero : H) (options : InlineOptions)

/-! ### Completing an entry that is synced -/

/-- `PartialFileStorage::into_complete`. -/
def intoCompleteFile (s : PartialFileStorage H) (size : Nat) : Entry H :=
  let outboardSize := rawOutboardSize size
  let (data, dataLocation) :=
    if options.isInlinedData size then
      let data := bytes 0 (s.data.readToEnd size)
      (MemOrFile.mem data, Meta.DataLocation.inline data)
    else (.file ⟨s.data, size⟩, .owned size)
  let (outboard, outboardLocation) :=
    if options.isInlinedOutboard outboardSize then
      if outboardSize = 0 then (MemOrFile.mem [], Meta.OutboardLocation.notNeeded)
      else
        -- a hash has 32 bytes
        let outboard := bytes zero (s.outboard.readToEnd (outboardSize / 32))
        (.mem outboard, .inline outboard)
    else (.file s.outboard, .owned)
  { data, outboard, dataLocation, outboardLocation }

/-- `PartialMemStorage::into_complete`.  What is not inlined goes to the files, which may have old contents. -/
def intoCompleteMem (disk : Files H) (s : PartialMemStorage H) : Entry H :=
  let size := s.currentSize
  let outboardSize := rawOutboardSize size
  let (data, dataLocation) :=
    if options.isInlinedData size then
      let data := bytes 0 s.data
      (MemOrFile.mem data, Meta.DataLocation.inline data)
    else (.file ⟨s.data.persist disk.omits.data.contains disk.data, size⟩, .owned size)
  let (outboard, outboardLocation) :=
    if options.isInlinedOutboard outboardSize then
      if outboardSize > 0 then
        let outboard := bytes zero s.outboard
        (MemOrFile.mem outboard, Meta.OutboardLocation.inline outboard)
      else (.mem [], .notNeeded)
    else
      (.file (s.outboard.persist disk.omits.outboard.contains disk.outboard),
        if outboardSize = 0 then .notNeeded else .owned)
  { data, outboard, dataLocation, outboardLocation }

def completionFile (fs : PartialFileStorage H) : Option (Entry H) :=
  if fs.bitfield.isComplete then some (intoCompleteFile zero options fs fs.bitfield.size) else none

def completionMem (disk : Files H) (batch : List (BaoContentItem H)) (bitfield : Bitfield) (ms : PartialMemStorage H) :
    Option (Entry H) :=
  if maxOffset batch ≤ options.maxDataInlined then
    let ms := ms.writeBatch bitfield.size batch
    let ms := { ms with bitfield := (ms.bitfield.update bitfield).1 }
    if ms.bitfield.isComplete then some (intoCompleteMem zero options disk ms) else none
  else
    let fs := (ms.persist disk).writeBatch bitfield.size batch
    completionFile zero options { fs with bitfield := (fs.bitfield.update bitfield).1 }

/-- The complete entry that `write_batch` makes, if it completes the entry. -/
def completion (disk : Files H) (batch : List (BaoContentItem H)) (bitfield : Bitfield) :
    BaoFileStorage H → Option (Entry H)
  | .nonExisting => completionMem zero options disk batch bitfield .default
  | .partialMem ms => completionMem zero options disk batch bitfield ms
  | .partialFile fs =>
    let fs := fs.writeBatch bitfield.size batch
    completionFile zero options { fs with bitfield := (fs.bitfield.update bitfield).1 }
  | _ => none

/-- Write the batches of imports that claim a size.  The entry, and the complete entries that were made. -/
def sync (disk : Files H) (size : Nat) : BaoFileStorage H → List (List (BaoContentItem H)) →
    BaoFileStorage H × List (Entry H)
  | entry, [] => (entry, [])
  | entry, batch :: batches =>
    let bitfield : Bitfield := ⟨size, CurrentSize.batchRanges batch⟩
    let completed := completion zero options disk batch bitfield entry
    let (entry, rest) := sync disk size (entry.writeBatch options disk batch bitfield).1 batches
    (entry, completed.toList ++ rest)

/-- A batch completes an entry if and only if there is a complete entry to tell the database. -/
theorem completion_isSome_iff (disk : Files H) (batch : List (BaoContentItem H)) (bitfield : Bitfield)
    (entry : BaoFileStorage H) :
    (completion zero options disk batch bitfield entry).isSome = true ↔
      (entry.writeBatch options disk batch bitfield).2 = some .completeEntry := by
  have hfile : ∀ fs : PartialFileStorage H, (completionFile zero options fs).isSome = true ↔
    fs.bitfield.isComplete = true := by
    intro fs
    unfold completionFile
    split
    · rename_i h
      exact iff_of_true rfl h
    · rename_i h
      exact iff_of_false Bool.false_ne_true h
  have hmem : ∀ ms : PartialMemStorage H, (completionMem zero options disk batch bitfield ms).isSome = true ↔
      (BaoFileStorage.writeBatchMem options disk batch bitfield ms).2 = some .completeEntry := by
    intro ms
    unfold completionMem BaoFileStorage.writeBatchMem
    split
    · simp only
      split
      · simp
      · simp
    · rw [hfile]
      simp only
      split
      · rename_i h
        exact iff_of_true h rfl
      · rename_i h
        exact iff_of_false h (by simp)
  cases entry with
  | nonExisting => exact hmem .default
  | partialMem ms => exact hmem ms
  | partialFile fs =>
    simp only [completion, BaoFileStorage.writeBatch, hfile]
    split
    · rename_i h
      exact iff_of_true h rfl
    · rename_i h
      refine iff_of_false h ?_
      split <;> simp
  | complete s => exact iff_of_false Bool.false_ne_true (by simp [BaoFileStorage.writeBatch])
  | initial => exact iff_of_false Bool.false_ne_true (by simp [BaoFileStorage.writeBatch])
  | loading => exact iff_of_false Bool.false_ne_true (by simp [BaoFileStorage.writeBatch])
  | poisoned => exact iff_of_false Bool.false_ne_true (by simp [BaoFileStorage.writeBatch])

end

/-! ### Importing locally -/

/-- What the tree library computes: the items of a tree in post order, and `PreOrderMemOutboard::create`. -/
structure TreeLib (H : Type) where
  postOrderChunks : Nat → List InitOutboard.BaoChunk
  create : List UInt8 → H × List H

/-- The result of an import: what `ImportEntry` has of the data. -/
structure ImportEntry (H : Type) where
  hash : H
  source : ImportStream.ImportSource
  outboard : MemOrFile (List H) (Content H)

inductive ImportError
  | source (e : ImportStream.IoError)
  | outboard (e : InitOutboard.Failure)

section

variable {H : Type} (f : HashFns UInt8 H) (zero : H) (lib : TreeLib H) (options : InlineOptions)

/-- What `PreOrderOutboard::save` writes for the pairs that are saved. -/
def savedOutboard (size : Nat) (saved : List (Nat × (H × H))) : Content H :=
  Content.empty.writes
    ((saved.map fun (node, pair) => BaoContentItem.parent ⟨node, pair⟩).flatMap (memOutboardWrites size))

/-- `compute_outboard`, in an environment that does not fail. -/
def computeOutboard (source : ImportStream.ImportSource) : Except ImportError (ImportEntry H) :=
  let size := source.size
  match InitOutboard.initOutboard f .working size (lib.postOrderChunks size) source.content with
  | .error e => .error (.outboard e)
  | .ok (hash, saved) =>
    let outboardFile := savedOutboard size saved
    .ok {
      hash
      source
      outboard :=
        if rawOutboardSize size > options.maxOutboardInlined then .file outboardFile
        else .mem (bytes zero outboardFile) }

/-- `import_byte_stream_impl`. -/
def importByteStream (env : ImportStream.Env) (chunks : List (List UInt8)) : Except ImportError (ImportEntry H) :=
  match ImportStream.getImportSource env options.maxDataInlined (chunks.map .ok) with
  | .error e => .error (.source e)
  | .ok source => computeOutboard f zero lib options source

/-- `import_bytes_tiny_impl`. -/
def importBytesTiny (data : List UInt8) : ImportEntry H :=
  if rawOutboardSize data.length = 0 then
    -- the data is so small that it does not need an outboard
    { hash := hashSubtree f 0 data true, source := .memory data, outboard := .mem [] }
  else
    let (root, outboard) := lib.create data
    { hash := root, source := .memory data, outboard := .mem outboard }

/-- `import_bytes`. -/
def importBytes (env : ImportStream.Env) (data : List UInt8) : Except ImportError (ImportEntry H) :=
  if options.isInlinedData data.length && options.isInlinedOutboard (rawOutboardSize data.length) then
    .ok (importBytesTiny f lib data)
  else importByteStream f zero lib options env [data]

/-- `import_path_impl` of a file that is copied. -/
def importPathCopy (data : List UInt8) : Except ImportError (ImportEntry H) :=
  let source : ImportStream.ImportSource :=
    if data.length ≤ options.maxDataInlined then .memory data else .tempFile data data.length
  computeOutboard f zero lib options source

/-- The data is imported from memory, from a stream, or from a file that is copied. -/
inductive Imported (data : List UInt8) (entry : ImportEntry H) : Prop
  | bytes (env : ImportStream.Env) (h : importBytes f zero lib options env data = .ok entry)
  | byteStream (env : ImportStream.Env) (chunks : List (List UInt8)) (hchunks : chunks.flatten = data)
    (h : importByteStream f zero lib options env chunks = .ok entry)
  | path (h : importPathCopy f zero lib options data = .ok entry)

/-- `finish_import_impl`.  Files are moved to their canonical paths. -/
def finishImport (entry : ImportEntry H) : Entry H where
  data :=
    match entry.source with
    | .memory data => .mem data
    | .tempFile content size => .file ⟨ofList content, size⟩
  outboard := entry.outboard
  dataLocation :=
    match entry.source with
    | .memory data => .inline data
    | .tempFile _ size => .owned size
  outboardLocation :=
    match entry.outboard with
    | .mem bytes => if bytes.isEmpty then .notNeeded else .inline bytes
    | .file _ => .owned

end

/-! ### The entry of the data -/

section

variable {H : Type} {f : HashFns UInt8 H} {zero : H} {lib : TreeLib H} {options : InlineOptions} {blob : List UInt8}

/-- The data in memory, or a file that starts with it. -/
def IsData (blob : List UInt8) : MemOrFile (List UInt8) FixedSize → Prop
  | .mem data => data = blob
  | .file data => data.size = blob.length ∧ ∀ i, i < blob.length → data.file.cell i = blob[i]?

/-- The outboard in memory, or a file that starts with it. -/
def IsOutboard (f : HashFns UInt8 H) (blob : List UInt8) : MemOrFile (List H) (Content H) → Prop
  | .mem outboard => outboard = outboardOf f blob
  | .file outboard => ∀ i, i < (outboardOf f blob).length → outboard.cell i = (outboardOf f blob)[i]?

/-- The entry of the data, as the options say. -/
structure IsEntryOf (f : HashFns UInt8 H) (options : InlineOptions) (blob : List UInt8) (e : Entry H) : Prop where
  data : IsData blob e.data
  data_isMem : e.data.isMem = options.isInlinedData blob.length
  outboard : IsOutboard f blob e.outboard
  outboard_isMem : e.outboard.isMem = options.isInlinedOutboard (rawOutboardSize blob.length)
  dataLocation : e.dataLocation = if options.isInlinedData blob.length then .inline blob else .owned blob.length
  outboardLocation : e.outboardLocation =
    if rawOutboardSize blob.length = 0 then .notNeeded
    else if options.isInlinedOutboard (rawOutboardSize blob.length) then .inline (outboardOf f blob)
    else .owned

/-- Two entries are the same: the locations with the inlined bytes, where the storage is, and what it starts with. -/
structure SameEntry (f : HashFns UInt8 H) (blob : List UInt8) (a b : Entry H) : Prop where
  dataLocation : a.dataLocation = b.dataLocation
  outboardLocation : a.outboardLocation = b.outboardLocation
  data_isMem : a.data.isMem = b.data.isMem
  data : IsData blob a.data ∧ IsData blob b.data
  outboard_isMem : a.outboard.isMem = b.outboard.isMem
  outboard : IsOutboard f blob a.outboard ∧ IsOutboard f blob b.outboard

theorem IsEntryOf.same {a b : Entry H} (ha : IsEntryOf f options blob a) (hb : IsEntryOf f options blob b) :
    SameEntry f blob a b :=
  ⟨ha.dataLocation.trans hb.dataLocation.symm, ha.outboardLocation.trans hb.outboardLocation.symm,
    ha.data_isMem.trans hb.data_isMem.symm, ⟨ha.data, hb.data⟩, ha.outboard_isMem.trans hb.outboard_isMem.symm,
    ha.outboard, hb.outboard⟩

theorem rawOutboardSize_eq_zero : rawOutboardSize blob.length = 0 ↔ outboardOf f blob = [] := by
  rw [outboardOf_nil_iff]
  unfold rawOutboardSize
  omega

theorem rawOutboardSize_div : rawOutboardSize blob.length / 32 = (outboardOf f blob).length := by
  rw [length_outboardOf]
  unfold rawOutboardSize
  omega

/-- A file with the length and the cells of a list. -/
theorem bytes_eq {α : Type} {zero : α} {c : Content α} {l : List α} (hlen : c.len = l.length)
    (hcell : ∀ i, i < l.length → c.cell i = l[i]?) : bytes zero c = l := by
  unfold bytes
  apply List.ext_getElem?
  intro i
  rw [List.getElem?_map]
  by_cases hi : i < l.length
  · rw [List.getElem?_range (by omega), Option.map_some, hcell i hi, List.getElem?_eq_getElem hi, Option.getD_some]
  · rw [List.getElem?_eq_none (by rw [List.length_range]; omega), List.getElem?_eq_none (by omega), Option.map_none]

/-- A file that starts with a list is at least as long. -/
theorem length_le_len {α : Type} {c : Content α} {l : List α} (hc : c.Bounded)
    (hcell : ∀ i, i < l.length → c.cell i = l[i]?) : l.length ≤ c.len := by
  rcases Nat.eq_zero_or_pos l.length with h | h
  · omega
  · have hlast := hc (l.length - 1) (by rw [hcell _ (by omega), List.getElem?_eq_getElem (by omega)]; rfl)
    omega

/-- The first cells of a file that starts with a list. -/
theorem bytes_readToEnd {α : Type} {zero : α} {c : Content α} {l : List α} (hc : c.Bounded)
    (hcell : ∀ i, i < l.length → c.cell i = l[i]?) : bytes zero (c.readToEnd l.length) = l := by
  apply bytes_eq
  · exact Nat.min_eq_right (length_le_len hc hcell)
  · intro i hi
    rw [Content.readToEnd]
    simp only [if_pos hi, hcell i hi]

end

end CompleteEntry

end IrohBlobs
