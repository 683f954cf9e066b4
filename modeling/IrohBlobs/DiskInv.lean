import IrohBlobs.FsDisk
import IrohBlobs.ImportFs

/-!
# What is kept on disk

The invariants of the files of an entry and of its handle.  Of every bitfield that can be read from the bitfield file,
also after a crash, what it names is durable (`OnDisk`).  A bitfield is written only after the files were synced, so
what its handle shows (`Shown`) is durable then, if the handle has the files at the paths open.  All other operations
keep what is durable, since they write only what is true (`DiskOp.Keeps`).
-/

namespace IrohBlobs

namespace FsDisk

open Merkle BaoTree Provable ImportBao

variable {C H : Type}

/-! ### What a bitfield names -/

section Named

variable (f : HashFns UInt8 H) (blob : List UInt8)

/-- The bytes of the chunks of a bitfield. -/
def NamedData (bitfield : Bitfield) (i : Nat) (x : UInt8) : Prop := i / 1024 ∈ bitfield.ranges ∧ TrueData blob i x

/-- The hashes of the pairs above the chunks of a bitfield. -/
def NamedPairs (bitfield : Bitfield) (i : Nat) (x : H) : Prop :=
  ∃ p, IsStored blob p ∧
    (∃ y ∈ bitfield.ranges, y < chunks blob.length ∧ (sub (treeChunks blob.length) p).1 ≤ y ∧
      y < (sub (treeChunks blob.length) p).1 + (sub (treeChunks blob.length) p).2) ∧
    ((i = 2 * slot (treeChunks blob.length) p ∧ x = nodeHash f blob (p ++ [false])) ∨
      (i = 2 * slot (treeChunks blob.length) p + 1 ∧ x = nodeHash f blob (p ++ [true])))

variable {f blob} {bitfield : Bitfield} {zero : H} {data data' : Content UInt8} {outboard outboard' : Content H}

private theorem NamedData.unique {i : Nat} {x : UInt8} (h : NamedData blob bitfield i x) :
    ∀ y, TrueData blob i y → y = x :=
  h.2.unique

private theorem NamedPairs.unique {i : Nat} {x : H} (h : NamedPairs f blob bitfield i x) :
    ∀ y, TrueOutboard f blob i y → y = x := by
  obtain ⟨p, hp, -, hx⟩ := h
  exact TrueOutboard.unique ⟨p, hp, hx⟩

/-- The chunks of a bitfield are provable if and only if what it names can be read. -/
theorem hasBitfield_iff : HasBitfield f blob (data.fill 0) (outboard.fill zero) bitfield ↔
    data.Reads 0 (NamedData blob bitfield) ∧ outboard.Reads zero (NamedPairs f blob bitfield) := by
  constructor
  · intro h
    refine ⟨?_, ?_⟩
    · rintro i x ⟨hmem, hx⟩
      have hi : i < blob.length := (List.getElem?_eq_some_iff.mp hx).1
      have hlt : i / 1024 < chunks blob.length := by
        unfold chunks
        omega
      rw [(h _ hmem hlt).data i (by omega) (by omega) hi]
      exact hx
    · rintro i x ⟨p, hp, ⟨y, hy, hlt, h1, h2⟩, hx⟩
      obtain ⟨hl, hr⟩ := (h y hy hlt).pairs p hp h1 h2
      rcases hx with ⟨rfl, rfl⟩ | ⟨rfl, rfl⟩
      · exact hl
      · exact hr
  · rintro ⟨hdata, houtboard⟩ y hy hlt
    refine ⟨?_, ?_⟩
    · intro i h1 h2 h3
      have hi : i / 1024 = y := by omega
      have hx : blob[i]? = some blob[i] := List.getElem?_eq_getElem h3
      rw [hx]
      exact hdata i _ ⟨by rw [hi]; exact hy, hx⟩
    · intro p hp h1 h2
      exact ⟨houtboard _ _ ⟨p, hp, ⟨y, hy, hlt, h1, h2⟩, Or.inl ⟨rfl, rfl⟩⟩,
        houtboard _ _ ⟨p, hp, ⟨y, hy, hlt, h1, h2⟩, Or.inr ⟨rfl, rfl⟩⟩⟩

/-- Provable chunks stay provable where the cells stay. -/
theorem HasBitfield.mono (h : HasBitfield f blob data outboard bitfield)
    (hdata : ∀ i x, data.cell i = some x → data'.cell i = some x)
    (houtboard : ∀ i x, outboard.cell i = some x → outboard'.cell i = some x) :
    HasBitfield f blob data' outboard' bitfield := by
  intro y hy hlt
  obtain ⟨h1, h2⟩ := h y hy hlt
  refine ⟨?_, ?_⟩
  · intro i h3 h4 h5
    have hi := h1 i h3 h4 h5
    rw [List.getElem?_eq_getElem h5] at hi ⊢
    exact hdata i _ hi
  · intro p hp h3 h4
    exact ⟨houtboard _ _ (h2 p hp h3 h4).1, houtboard _ _ (h2 p hp h3 h4).2⟩

private theorem fits_of_new (h : Fits blob.length (fun _ _ => True) bitfield) :
    Fits blob.length (fun _ _ => True) (.new bitfield.ranges bitfield.size) := (fits_new h).1

/-- A bitfield in canonical form names no more. -/
private theorem mem_of_mem_new (h : Fits blob.length (fun _ _ => True) bitfield) {y : Nat}
    (hy : y ∈ (Bitfield.new bitfield.ranges bitfield.size).ranges) (hlt : y < chunks blob.length) :
    y ∈ bitfield.ranges := by
  rcases (fits_new h).2 y hy with hy | ⟨hle, -⟩
  · exact hy
  · omega

private theorem HasBitfield.new (h : HasBitfield f blob data outboard bitfield)
    (hfits : Fits blob.length (fun _ _ => True) bitfield) :
    HasBitfield f blob data outboard (.new bitfield.ranges bitfield.size) :=
  fun y hy hlt => h y (mem_of_mem_new hfits hy hlt) hlt

end Named

/-! ### Operations on the disk -/

section Disk

variable (env : Env C H) (blob : List UInt8)

/-- What the bitfield names is durable. -/
structure OnDisk (disk : Disk C H) (bitfield : Bitfield) : Prop where
  fits : Fits blob.length (fun _ _ => True) bitfield
  data : disk.data.Durable 0 (NamedData blob bitfield)
  outboard : disk.outboard.Durable env.zero (NamedPairs env.f blob bitfield)

/-- All unsynced writes are true, and what can be read from the bitfield file is durable. -/
structure DiskInv (disk : Disk C H) : Prop where
  data : disk.data.Clean (TrueData blob)
  outboard : disk.outboard.Clean (TrueOutboard env.f blob)
  bitfield : ∀ payload bitfield, Checksummed.MayRead env.blake3 disk.bitfield payload →
    Checksummed.deserialize payload = some bitfield → OnDisk env blob disk bitfield

/-- The open files of a handle show what its bitfield names. -/
structure Shown (disk : Disk C H) (s : PartialFile) : Prop where
  fits : Fits blob.length (fun _ _ => True) s.bitfield
  data : disk.data.Shows 0 (NamedData blob s.bitfield) s.files.data
  outboard : disk.outboard.Shows env.zero (NamedPairs env.f blob s.bitfield) s.files.outboard

/-- An operation writes only what is true, and only bitfields of a kind. -/
def DiskOp.Keeps (kind : Bitfield → Prop) : DiskOp C H → Prop
  | .data op => op.Keeps (TrueData blob)
  | .outboard op => op.Keeps (TrueOutboard env.f blob)
  | .sizes _ => True
  | .bitfield op => ∀ content payload bitfield, op = .write content → content.checksum = some (env.blake3 payload) →
      Checksummed.deserialize payload = some bitfield → kind bitfield

variable {env blob} {disk : Disk C H} {kind : Bitfield → Prop} {op : DiskOp C H} {ops : List (DiskOp C H)}

private theorem OnDisk.apply (hdisk : DiskInv env blob disk) {bitfield : Bitfield} (h : OnDisk env blob disk bitfield) :
    OnDisk env blob (disk.apply op) bitfield := by
  cases op with
  | data op => exact ⟨h.fits, h.data.apply (fun _ _ hx => hx.unique) hdisk.data, h.outboard⟩
  | outboard op => exact ⟨h.fits, h.data, h.outboard.apply (fun _ _ hx => hx.unique) hdisk.outboard⟩
  | sizes op => exact ⟨h.fits, h.data, h.outboard⟩
  | bitfield op => exact ⟨h.fits, h.data, h.outboard⟩

/-- An operation keeps the invariant, if the bitfields that it may write are durable. -/
theorem DiskInv.apply (h : DiskInv env blob disk) (hkind : ∀ bitfield, kind bitfield → OnDisk env blob disk bitfield)
    (hop : op.Keeps env blob kind) : DiskInv env blob (disk.apply op) := by
  have hdurable : ∀ bitfield, OnDisk env blob disk bitfield → OnDisk env blob (disk.apply op) bitfield :=
    fun bitfield hb => hb.apply h
  cases op with
  | data op => exact ⟨h.data.apply hop, h.outboard, fun p b hp hb => hdurable b (h.bitfield p b hp hb)⟩
  | outboard op => exact ⟨h.data, h.outboard.apply hop, fun p b hp hb => hdurable b (h.bitfield p b hp hb)⟩
  | sizes op => exact ⟨h.data, h.outboard, fun p b hp hb => hdurable b (h.bitfield p b hp hb)⟩
  | bitfield op =>
    refine ⟨h.data, h.outboard, fun payload bitfield hpayload hbitfield => hdurable bitfield ?_⟩
    rcases Checksummed.mayRead_apply hpayload with hread | ⟨content, rfl, hchecksum⟩
    · exact h.bitfield payload bitfield hread hbitfield
    · exact hkind bitfield (hop content payload bitfield rfl hchecksum hbitfield)

private theorem DiskInv.run (h : DiskInv env blob disk)
    (hkind : ∀ bitfield, kind bitfield → OnDisk env blob disk bitfield)
    (hops : ∀ op ∈ ops, op.Keeps env blob kind) : DiskInv env blob (disk.run ops) := by
  induction ops generalizing disk with
  | nil => exact h
  | cons op ops ih =>
    refine ih (h.apply hkind (hops op List.mem_cons_self)) (fun bitfield hb => (hkind bitfield hb).apply h) ?_
    exact fun op' hop' => hops op' (List.mem_cons_of_mem _ hop')

private theorem OnDisk.run (hdisk : DiskInv env blob disk) {bitfield : Bitfield} (h : OnDisk env blob disk bitfield)
    (hops : ∀ op ∈ ops, op.Keeps env blob fun _ => False) : OnDisk env blob (disk.run ops) bitfield := by
  induction ops generalizing disk with
  | nil => exact h
  | cons op ops ih =>
    refine ih (hdisk.apply (fun _ => False.elim) (hops op List.mem_cons_self)) (h.apply hdisk) ?_
    exact fun op' hop' => hops op' (List.mem_cons_of_mem _ hop')

/-- It does not matter where the operations stop. -/
theorem DiskInv.perform (h : DiskInv env blob disk) (hkind : ∀ bitfield, kind bitfield → OnDisk env blob disk bitfield)
    (hops : ∀ op ∈ ops, op.Keeps env blob kind) (stop : Option Nat) : DiskInv env blob (disk.perform ops stop) := by
  unfold Disk.perform
  cases stop with
  | none => exact h.run hkind hops
  | some n => exact h.run hkind fun op hop => hops op (List.mem_of_mem_take hop)

private theorem run_append (disk : Disk C H) (ops ops' : List (DiskOp C H)) :
    disk.run (ops ++ ops') = (disk.run ops).run ops' :=
  List.foldl_append

private theorem perform_append (disk : Disk C H) (ops ops' : List (DiskOp C H)) (stop : Option Nat) :
    disk.perform (ops ++ ops') stop =
      if Disk.succeeds ops stop then (disk.run ops).perform ops' (stop.map fun n => n - ops.length)
      else disk.perform ops stop := by
  cases stop with
  | none => exact run_append disk ops ops'
  | some n =>
    simp only [Disk.succeeds, Option.all_some, decide_eq_true_iff, Disk.perform, Option.map_some]
    by_cases hle : ops.length ≤ n
    · rw [if_pos hle, List.take_append, List.take_of_length_le hle]
      exact run_append disk ops _
    · rw [if_neg hle, List.take_append_of_le_length (by omega)]

private theorem perform_of_succeeds {stop : Option Nat} (h : Disk.succeeds ops stop = true) :
    disk.perform ops stop = disk.run ops := by
  cases stop with
  | none => rfl
  | some n =>
    simp only [Disk.succeeds, Option.all_some, decide_eq_true_iff] at h
    rw [Disk.perform]
    simp only [List.take_of_length_le h]

end Disk

/-! ### The operations on one kind of file -/

section Parts

def DiskOp.data? : DiskOp C H → Option (PathFiles.Op UInt8)
  | .data op => some op
  | .outboard _ | .sizes _ | .bitfield _ => none

def DiskOp.outboard? : DiskOp C H → Option (PathFiles.Op H)
  | .outboard op => some op
  | .data _ | .sizes _ | .bitfield _ => none

variable {disk : Disk C H} {ops : List (DiskOp C H)} {files : OpenFiles} {size : Nat} {batch : List (BaoContentItem H)}

theorem data_run : (disk.run ops).data = disk.data.run (ops.filterMap DiskOp.data?) := by
  induction ops generalizing disk with
  | nil => rfl
  | cons op ops ih => cases op <;> exact ih

private theorem outboard_run : (disk.run ops).outboard = disk.outboard.run (ops.filterMap DiskOp.outboard?) := by
  induction ops generalizing disk with
  | nil => rfl
  | cons op ops ih => cases op <;> exact ih

@[simp] theorem data?_map_data (ops : List (PathFiles.Op UInt8)) :
    (ops.map (DiskOp.data (C := C) (H := H))).filterMap DiskOp.data? = ops := by
  rw [List.filterMap_map]
  exact List.filterMap_some

@[simp] theorem data?_map_outboard (ops : List (PathFiles.Op H)) :
    (ops.map (DiskOp.outboard (C := C))).filterMap DiskOp.data? = [] := by
  rw [List.filterMap_map]
  exact List.filterMap_eq_nil_iff.mpr fun _ _ => rfl

@[simp] theorem data?_map_sizes (ops : List (PathFiles.Op Nat)) :
    (ops.map (DiskOp.sizes (C := C) (H := H))).filterMap DiskOp.data? = [] := by
  rw [List.filterMap_map]
  exact List.filterMap_eq_nil_iff.mpr fun _ _ => rfl

@[simp] theorem outboard?_map_data (ops : List (PathFiles.Op UInt8)) :
    (ops.map (DiskOp.data (C := C) (H := H))).filterMap DiskOp.outboard? = [] := by
  rw [List.filterMap_map]
  exact List.filterMap_eq_nil_iff.mpr fun _ _ => rfl

@[simp] theorem outboard?_map_outboard (ops : List (PathFiles.Op H)) :
    (ops.map (DiskOp.outboard (C := C))).filterMap DiskOp.outboard? = ops := by
  rw [List.filterMap_map]
  exact List.filterMap_some

@[simp] theorem outboard?_map_sizes (ops : List (PathFiles.Op Nat)) :
    (ops.map (DiskOp.sizes (C := C) (H := H))).filterMap DiskOp.outboard? = [] := by
  rw [List.filterMap_map]
  exact List.filterMap_eq_nil_iff.mpr fun _ _ => rfl

theorem data?_batchOps : (batchOps (C := C) files size batch).filterMap DiskOp.data? =
    PathFiles.writeOps files.data (batch.flatMap dataWrites) := by
  induction batch with
  | nil => rfl
  | cons item batch ih =>
    have hcons : batchOps (C := C) files size (item :: batch) = itemOps files size item ++
      batchOps files size batch := rfl
    rw [hcons, List.filterMap_append, ih, List.flatMap_cons, PathFiles.writeOps_append]
    simp only [itemOps, List.filterMap_append, data?_map_outboard, data?_map_data, data?_map_sizes, List.nil_append,
      List.append_nil]

private theorem outboard?_batchOps : (batchOps (C := C) files size batch).filterMap DiskOp.outboard? =
    PathFiles.writeOps files.outboard (batch.flatMap (outboardWrites size)) := by
  induction batch with
  | nil => rfl
  | cons item batch ih =>
    have hcons : batchOps (C := C) files size (item :: batch) = itemOps files size item ++
      batchOps files size batch := rfl
    rw [hcons, List.filterMap_append, ih, List.flatMap_cons, PathFiles.writeOps_append]
    simp only [itemOps, List.filterMap_append, outboard?_map_outboard, outboard?_map_data, outboard?_map_sizes,
      List.append_nil]

/-- Operations on the bitfield file do not touch the others. -/
theorem run_map_bitfield (disk : Disk C H) (ops : List (Checksummed.Op C)) :
    disk.run (ops.map .bitfield) = { disk with bitfield := ops.foldl Checksummed.apply disk.bitfield } := by
  induction ops generalizing disk with
  | nil => rfl
  | cons op ops ih => exact ih _

end Parts

/-! ### Writing a batch -/

section Batch

/-- What is read of the outboard of a handle. -/
def outboardOf (env : Env C H) (disk : Disk C H) (s : PartialFile) : Content H :=
  (disk.outboard.file s.files.outboard).view.fill env.zero

variable {env : Env C H} {blob : List UInt8} {disk : Disk C H} {s : PartialFile} {st : ImportStream H}
  {kind : Bitfield → Prop}

private theorem keeps_data {ops : List (PathFiles.Op UInt8)} (h : ∀ op ∈ ops, op.Keeps (TrueData blob)) :
    ∀ op ∈ ops.map DiskOp.data, op.Keeps env blob kind := by
  intro op hop
  obtain ⟨fileOp, hmem, rfl⟩ := List.mem_map.mp hop
  exact h fileOp hmem

private theorem keeps_outboard {ops : List (PathFiles.Op H)} (h : ∀ op ∈ ops, op.Keeps (TrueOutboard env.f blob)) :
    ∀ op ∈ ops.map DiskOp.outboard, op.Keeps env blob kind := by
  intro op hop
  obtain ⟨fileOp, hmem, rfl⟩ := List.mem_map.mp hop
  exact h fileOp hmem

private theorem keeps_append {ops ops' : List (DiskOp C H)} (h : ∀ op ∈ ops, op.Keeps env blob kind)
    (h' : ∀ op ∈ ops', op.Keeps env blob kind) : ∀ op ∈ ops ++ ops', op.Keeps env blob kind := by
  intro op hop
  rcases List.mem_append.mp hop with hop | hop
  · exact h op hop
  · exact h' op hop

private theorem keeps_batchOps {files : OpenFiles} {size : Nat} {batch : List (BaoContentItem H)}
    (h : ∀ item ∈ batch, TrueItem env.f blob size item) : ∀ op ∈ batchOps files size batch, op.Keeps env blob kind := by
  intro op hop
  obtain ⟨item, hitem, hop⟩ := List.mem_flatMap.mp hop
  have hone : ∀ item' ∈ [item], TrueItem env.f blob size item' := by
    intro item' hmem
    rw [List.mem_singleton.mp hmem]
    exact h item hitem
  have hdata := respects_dataWrites hone
  have houtboard := respects_outboardWrites outboardWriter_file hone
  rw [List.flatMap_singleton] at hdata houtboard
  have hsizes : ∀ op ∈ (PathFiles.writeOps files.sizes (sizesWrites size item)).map (DiskOp.sizes (C := C) (H := H)),
      op.Keeps env blob kind := by
    intro op hop
    obtain ⟨fileOp, -, rfl⟩ := List.mem_map.mp hop
    trivial
  exact keeps_append (keeps_append (keeps_outboard (PathFiles.keeps_writeOps houtboard))
    (keeps_data (PathFiles.keeps_writeOps hdata))) hsizes op hop

private theorem Shown.hasBitfield (h : Shown env blob disk s) :
    HasBitfield env.f blob ((disk.data.file s.files.data).view.fill 0) (outboardOf env disk s) s.bitfield :=
  hasBitfield_iff.mpr ⟨h.data, h.outboard⟩

private theorem view_data_batchOps (disk : Disk C H) (files : OpenFiles) (size : Nat)
    (batch : List (BaoContentItem H)) :
    ((disk.run (batchOps files size batch)).data.file files.data).view =
      (disk.data.file files.data).view.writes (batch.flatMap dataWrites) := by
  rw [data_run, data?_batchOps, PathFiles.view_run_writeOps]

private theorem view_outboard_batchOps (disk : Disk C H) (files : OpenFiles) (size : Nat)
    (batch : List (BaoContentItem H)) :
    ((disk.run (batchOps files size batch)).outboard.file files.outboard).view =
      (disk.outboard.file files.outboard).view.writes (batch.flatMap (outboardWrites size)) := by
  rw [outboard_run, outboard?_batchOps, PathFiles.view_run_writeOps]

/-- What the updated bitfield names is shown after the batch is written. -/
theorem Shown.batch (h : Shown env blob disk s)
    (hst : StreamInv env.f blob (HasPair env.f blob (outboardOf env disk s)) st) :
    Shown env blob (disk.run (batchOps s.files st.decoder.size st.batch))
      ⟨s.files, (s.bitfield.update ⟨st.decoder.size, st.ranges⟩).1⟩ := by
  have hfits : Fits blob.length (fun _ _ => True) ⟨st.decoder.size, st.ranges⟩ := hst.fits fun _ _ _ _ _ _ _ => trivial
  have hb := hst.hasBitfield outboardWriter_file h.hasBitfield h.fits (fun x hx _ => hx) hfits
  obtain ⟨hdata, houtboard⟩ := hasBitfield_iff.mp (HasBitfield.mono hb (fun i x => Content.cell_fill_writes _)
    (fun i x => Content.cell_fill_writes _))
  refine ⟨(fits_combine h.fits hfits).1, ?_, ?_⟩
  · rw [PathFiles.Shows, view_data_batchOps]
    exact hdata
  · rw [PathFiles.Shows, view_outboard_batchOps]
    exact houtboard

/-- Pairs stay stored when a batch is written. -/
private theorem hasPair_batch (hst : StreamInv env.f blob (HasPair env.f blob (outboardOf env disk s)) st)
    {q : List Bool}
    (hq : IsStored blob q) (h : HasPair env.f blob (outboardOf env disk s) q) {bitfield : Bitfield} :
    HasPair env.f blob (outboardOf env (disk.run (batchOps s.files st.decoder.size st.batch)) ⟨s.files, bitfield⟩)
      q := by
  obtain ⟨hl, hr⟩ := HasPair.writes h hq (respects_outboardWrites outboardWriter_file hst.items)
  rw [outboardOf, view_outboard_batchOps]
  exact ⟨Content.cell_fill_writes _ hl, Content.cell_fill_writes _ hr⟩

/-- The pairs of an import are stored after its batch is written. -/
theorem pairs_stored_batch (hst : StreamInv env.f blob (HasPair env.f blob (outboardOf env disk s)) st) {q : List Bool}
    {pair : H × H} (hmem : (q, pair) ∈ st.decoder.pairs) (hlt : 16 < (sub (treeChunks st.decoder.size) q).2)
    {bitfield : Bitfield} :
    HasPair env.f blob (outboardOf env (disk.run (batchOps s.files st.decoder.size st.batch)) ⟨s.files, bitfield⟩)
      q := by
  obtain ⟨hl, hr⟩ := hst.pairs_stored outboardWriter_file hmem hlt
  rw [outboardOf, view_outboard_batchOps]
  exact ⟨Content.cell_fill_writes _ hl, Content.cell_fill_writes _ hr⟩

end Batch

/-! ### Leaving memory -/

section Copy

variable {env : Env C H} {blob : List UInt8} {disk : Disk C H} {ms : PartialMemStorage H} {io : Io}
  {kind : Bitfield → Prop}

/-- No call of `write_at` leaves out bytes. -/
def Io.WritesAll (io : Io) : Prop := (∀ i, io.omitsData i = false) ∧ ∀ i, io.omitsOutboard i = false

/-- The cells of a memory storage are true, and before the ends. -/
structure MemTrue (f : HashFns UInt8 H) (blob : List UInt8) (ms : PartialMemStorage H) : Prop where
  data : ∀ i x, ms.data.cell i = some x → TrueData blob i x
  outboard : ∀ i x, ms.outboard.cell i = some x → TrueOutboard f blob i x
  boundedData : ms.data.Bounded
  boundedOutboard : ms.outboard.Bounded

private theorem memTrue_default : MemTrue env.f blob .default :=
  ⟨(fun _ _ h => by cases h), (fun _ _ h => by cases h), Content.bounded_empty, Content.bounded_empty⟩

/-- What is written to new contents is all that they have. -/
private theorem of_cell_writes {α : Type} {R : Nat → α → Prop} {ws : List (Nat × List α)}
    (h : Content.Respects R ws) {i : Nat}
    {x : α} (hx : (Content.empty.writes ws).cell i = some x) : R i x := by
  rcases Content.cell_writes_cases h (c := Content.empty) i with hcell | ⟨y, hcell, hy⟩
  · rw [hcell] at hx
    cases hx
  · rw [hcell] at hx
    cases hx
    exact hy

private theorem memTrue_writeBatch {size : Nat} {batch : List (BaoContentItem H)}
    (h : ∀ item ∈ batch, TrueItem env.f blob size item)
    (bitfield : Bitfield) :
    MemTrue env.f blob { PartialMemStorage.default.writeBatch size batch with bitfield := bitfield } := by
  obtain ⟨hdata, houtboard, -⟩ := writeBatch_eq_mem size batch (PartialMemStorage.default (H := H))
  refine ⟨fun i x hx => ?_, fun i x hx => ?_, ?_, ?_⟩
  · rw [hdata] at hx
    exact of_cell_writes (respects_dataWrites h) hx
  · rw [houtboard] at hx
    exact of_cell_writes (respects_outboardWrites outboardWriter_mem h) hx
  · rw [hdata]
    exact Content.bounded_empty.writes _
  · rw [houtboard]
    exact Content.bounded_empty.writes _

private theorem keeps_createOps : ∀ op ∈ createOps, DiskOp.Keeps env blob kind op := by
  intro op hop
  simp only [createOps, List.mem_cons, List.not_mem_nil, or_false] at hop
  rcases hop with rfl | rfl | rfl <;> trivial

private theorem keeps_syncOps (files : OpenFiles) : ∀ op ∈ syncOps files, DiskOp.Keeps env blob kind op := by
  intro op hop
  simp only [syncOps, List.mem_cons, List.not_mem_nil, or_false] at hop
  rcases hop with rfl | rfl | rfl <;> trivial

private theorem keeps_copyData (h : MemTrue env.f blob ms) (id : Nat) :
    ∀ op ∈ copyData io id ms.data, DiskOp.Keeps env blob kind op :=
  keeps_data (PathFiles.keeps_writeOps ((Content.respects_cellWrites h.data).sublist List.filter_sublist))

private theorem keeps_copyOutboard (h : MemTrue env.f blob ms) (id : Nat) :
    ∀ op ∈ copyOutboard io id ms.outboard, DiskOp.Keeps env blob kind op :=
  keeps_outboard (PathFiles.keeps_writeOps ((Content.respects_cellWrites h.outboard).sublist List.filter_sublist))

private theorem keeps_persistOps (h : MemTrue env.f blob ms) (files : OpenFiles) :
    ∀ op ∈ persistOps io files ms, DiskOp.Keeps env blob kind op := by
  have hsize : ∀ op ∈ [DiskOp.sizes (C := C) (H := H) (.write files.sizes (ms.size.offset / 16) [ms.size.size])],
      op.Keeps env blob kind := by
    intro op hop
    rw [List.mem_singleton.mp hop]
    trivial
  exact keeps_append (keeps_append (keeps_append (keeps_append keeps_createOps (keeps_copyData h _))
    (keeps_copyOutboard h _)) hsize) (keeps_syncOps files)

private theorem keeps_intoCompleteOps (h : MemTrue env.f blob ms) (options : InlineOptions) (files : OpenFiles) :
    ∀ op ∈ intoCompleteOps options io files ms, DiskOp.Keeps env blob kind op := by
  refine keeps_append ?_ ?_
  · split
    · simp
    · exact List.forall_mem_cons.mpr ⟨trivial, keeps_copyData h _⟩
  · split
    · simp
    · exact List.forall_mem_cons.mpr ⟨trivial, keeps_copyOutboard h _⟩

private theorem data?_persistOps (hio : io.WritesAll) (files : OpenFiles) :
    (persistOps (C := C) io files ms).filterMap DiskOp.data? =
    .create :: (PathFiles.writeOps files.data ms.data.cellWrites ++ [.sync files.data]) := by
  have hcreate : (createOps (C := C) (H := H)).filterMap DiskOp.data? = [.create] := rfl
  have hsync : (DiskOp.sizes (C := C) (H := H) (.write files.sizes (ms.size.offset / 16) [ms.size.size]) ::
      syncOps files).filterMap DiskOp.data? = [.sync files.data] := rfl
  simp only [persistOps, copyData, copyOutboard, List.filterMap_append, hcreate, hsync, data?_map_data,
    data?_map_outboard, hio.1, Bool.not_false, List.filter_true, List.nil_append, List.append_assoc,
    List.cons_append]

private theorem outboard?_persistOps (hio : io.WritesAll) (files : OpenFiles) :
    (persistOps (C := C) io files ms).filterMap DiskOp.outboard? =
      .create :: (PathFiles.writeOps files.outboard ms.outboard.cellWrites ++ [.sync files.outboard]) := by
  have hcreate : (createOps (C := C) (H := H)).filterMap DiskOp.outboard? = [.create] := rfl
  have hsync : (DiskOp.sizes (C := C) (H := H) (.write files.sizes (ms.size.offset / 16) [ms.size.size]) ::
      syncOps files).filterMap DiskOp.outboard? = [.sync files.outboard] := rfl
  simp only [persistOps, copyData, copyOutboard, List.filterMap_append, hcreate, hsync, outboard?_map_data,
    outboard?_map_outboard, hio.2, Bool.not_false, List.filter_true, List.nil_append, List.append_assoc,
    List.cons_append]

private theorem view_data_persistOps (hio : io.WritesAll) :
    ((disk.run (persistOps io disk.opened ms)).data.file disk.opened.data).view =
      ((disk.data.apply .create).file disk.opened.data).view.writes ms.data.cellWrites := by
  rw [data_run, data?_persistOps hio, PathFiles.run_cons, PathFiles.run_append, PathFiles.run_cons, PathFiles.run_nil,
    PathFiles.view_sync_self, PathFiles.view_run_writeOps]

private theorem view_outboard_persistOps (hio : io.WritesAll) :
    ((disk.run (persistOps io disk.opened ms)).outboard.file disk.opened.outboard).view =
      ((disk.outboard.apply .create).file disk.opened.outboard).view.writes ms.outboard.cellWrites := by
  rw [outboard_run, outboard?_persistOps hio, PathFiles.run_cons, PathFiles.run_append, PathFiles.run_cons,
    PathFiles.run_nil, PathFiles.view_sync_self, PathFiles.view_run_writeOps]

/-- The files that are opened are at the paths. -/
theorem path_persistOps (hio : io.WritesAll) :
    (disk.run (persistOps io disk.opened ms)).data.path = some disk.opened.data ∧
      (disk.run (persistOps io disk.opened ms)).outboard.path = some disk.opened.outboard := by
  constructor
  · rw [data_run, data?_persistOps hio, PathFiles.run_cons, PathFiles.run_append, PathFiles.run_cons, PathFiles.run_nil,
      PathFiles.path_sync, PathFiles.path_run_writeOps, PathFiles.path_create]
    rfl
  · rw [outboard_run, outboard?_persistOps hio, PathFiles.run_cons, PathFiles.run_append, PathFiles.run_cons,
      PathFiles.run_nil, PathFiles.path_sync, PathFiles.path_run_writeOps, PathFiles.path_create]
    rfl

private theorem cell_data_persistOps (h : MemTrue env.f blob ms) (hio : io.WritesAll) {i : Nat} {x : UInt8}
    (hx : ms.data.cell i = some x) :
    (((disk.run (persistOps io disk.opened ms)).data.file disk.opened.data).view.fill 0).cell i = some x := by
  rw [view_data_persistOps hio]
  exact Content.cell_fill (Content.cell_writes_of_sets (Content.respects_cellWrites h.data) (h.data i x hx).unique
    (Content.sets_cellWrites h.boundedData hx))

private theorem cell_outboard_persistOps (h : MemTrue env.f blob ms) (hio : io.WritesAll) {i : Nat} {x : H}
    (hx : ms.outboard.cell i = some x) {bitfield : Bitfield} :
    (outboardOf env (disk.run (persistOps io disk.opened ms)) ⟨disk.opened, bitfield⟩).cell i = some x := by
  rw [outboardOf, view_outboard_persistOps hio]
  exact Content.cell_fill (Content.cell_writes_of_sets (Content.respects_cellWrites h.outboard)
    (h.outboard i x hx).unique
    (Content.sets_cellWrites h.boundedOutboard hx))

/-- What a memory storage has is shown after it is persisted. -/
theorem shown_persistOps (h : MemTrue env.f blob ms) (hio : io.WritesAll)
    (hb : HasBitfield env.f blob ms.data ms.outboard ms.bitfield)
    (hfits : Fits blob.length (fun _ _ => True) ms.bitfield) :
    Shown env blob (disk.run (persistOps io disk.opened ms)) ⟨disk.opened, ms.bitfield⟩ := by
  have hshown : HasBitfield env.f blob
    (((disk.run (persistOps io disk.opened ms)).data.file disk.opened.data).view.fill 0)
      (outboardOf env (disk.run (persistOps io disk.opened ms)) ⟨disk.opened, ms.bitfield⟩) ms.bitfield :=
    HasBitfield.mono hb (fun i x hx => cell_data_persistOps h hio hx) (fun i x hx => cell_outboard_persistOps h hio hx)
  obtain ⟨hdata, houtboard⟩ := hasBitfield_iff.mp hshown
  exact ⟨hfits, hdata, houtboard⟩

end Copy

/-! ### Writes of the handle -/

section Write

variable (env : Env C H) (blob : List UInt8)

def HandleInv (disk : Disk C H) : Handle → Prop
  | .partialFile s => Shown env blob disk s
  | .initial | .nonExisting | .complete | .poisoned => True

/-- The pair of a node is stored, as far as that matters: handles that ignore writes do not need it. -/
def PairStored (disk : Disk C H) : Handle → List Bool → Prop
  | .nonExisting, _ => False
  | .partialFile s, q => HasPair env.f blob (outboardOf env disk s) q
  | .initial, _ | .complete, _ | .poisoned, _ => True

/-- What holds of the result of a write by an import. -/
structure WriteInv (disk : Disk C H) (handle : Handle) (st : ImportStream H) (w : Written C H) : Prop where
  diskInv : DiskInv env blob w.disk
  handleInv : HandleInv env blob w.disk w.handle
  mono : ∀ q, IsStored blob q → PairStored env blob disk handle q → PairStored env blob w.disk w.handle q
  stored : w.ok = true → ∀ q pair, (q, pair) ∈ st.decoder.pairs → 16 < (sub (treeChunks st.decoder.size) q).2 →
    PairStored env blob w.disk w.handle q
  initial : w.handle = .initial → handle = .initial

variable {env blob} {disk : Disk C H} {handle : Handle} {st : ImportStream H} {io : Io} {ops : List (DiskOp C H)}

/-- Only the case that the write succeeds has to be looked at. -/
theorem writeInv_write (hdisk : DiskInv env blob disk) (hops : ∀ op ∈ ops, op.Keeps env blob fun _ => False)
    {handle' : Handle} {update : Option (Meta.EntryState Unit)} {rest protects : Bool} (hne : handle' ≠ .initial)
    (hhandle : HandleInv env blob (disk.run ops) handle')
    (hmono : ∀ q, IsStored blob q → PairStored env blob disk handle q → PairStored env blob (disk.run ops) handle' q)
    (hstored : ∀ q pair, (q, pair) ∈ st.decoder.pairs → 16 < (sub (treeChunks st.decoder.size) q).2 →
      PairStored env blob (disk.run ops) handle' q) :
    WriteInv env blob disk handle st (write io disk ops rest handle' update protects) := by
  have hperform := hdisk.perform (fun _ => False.elim) hops io.stop
  unfold write
  split
  · rename_i hsucceeds
    rw [Bool.and_eq_true] at hsucceeds
    rw [perform_of_succeeds hsucceeds.1] at hperform ⊢
    exact ⟨hperform, hhandle, hmono, fun _ => hstored, fun h => absurd h hne⟩
  · exact ⟨hperform, trivial, fun _ _ _ => trivial, fun h => (by cases h), fun h => (by cases h)⟩

private theorem afterFileBatch_ne_initial (s : PartialFile) : afterFileBatch s ≠ .initial := by
  unfold afterFileBatch
  split <;> simp

private theorem handleInv_afterFileBatch {s : PartialFile} (h : Shown env blob disk s) :
    HandleInv env blob disk (afterFileBatch s) := by
  unfold afterFileBatch
  split
  · trivial
  · exact h

private theorem pairStored_afterFileBatch {s : PartialFile} {q : List Bool}
    (h : HasPair env.f blob (outboardOf env disk s) q) : PairStored env blob disk (afterFileBatch s) q := by
  unfold afterFileBatch
  split
  · trivial
  · exact h

/-- A batch is written to the open files. -/
private theorem writeInv_partialFile (options : InlineOptions) (hdisk : DiskInv env blob disk) {s : PartialFile}
    (hs : Shown env blob disk s) (hst : StreamInv env.f blob (PairStored env blob disk (.partialFile s)) st) :
    WriteInv env blob disk (.partialFile s) st
      (writeBatch options io disk st.batch ⟨st.decoder.size, st.ranges⟩ (.partialFile s)) :=
  writeInv_write hdisk (keeps_batchOps hst.items) (afterFileBatch_ne_initial _)
    (handleInv_afterFileBatch (hs.batch hst))
    (fun _ hq hpair => pairStored_afterFileBatch (hasPair_batch hst hq hpair))
    (fun _ _ hmem hlt => pairStored_afterFileBatch (pairs_stored_batch hst hmem hlt))

/-- A memory storage is completed or persisted. -/
private theorem writeInv_leaveMem (options : InlineOptions) (hdisk : DiskInv env blob disk) (hio : io.WritesAll)
    {ms : PartialMemStorage H} (hms : MemTrue env.f blob ms)
    (hb : HasBitfield env.f blob ms.data ms.outboard ms.bitfield)
    (hfits : Fits blob.length (fun _ _ => True) ms.bitfield)
    (hpairs : ∀ q pair, (q, pair) ∈ st.decoder.pairs → 16 < (sub (treeChunks st.decoder.size) q).2 →
      HasPair env.f blob ms.outboard q) {update update' : Option (Meta.EntryState Unit)} :
    WriteInv env blob disk .nonExisting st
      (if ms.bitfield.isComplete then
        write io disk (intoCompleteOps options io disk.opened ms) true .complete update false
      else write io disk (persistOps io disk.opened ms) true
        (.partialFile ⟨disk.opened, ms.bitfield⟩) update' true) := by
  split
  · exact writeInv_write hdisk (keeps_intoCompleteOps hms _ _) (by simp) trivial (fun _ _ _ => trivial)
      (fun _ _ _ _ => trivial)
  · refine writeInv_write hdisk (keeps_persistOps hms _) (by simp) (shown_persistOps hms hio hb hfits)
      (fun _ _ => False.elim) (fun q pair hmem hlt => ?_)
    obtain ⟨hl, hr⟩ := hpairs q pair hmem hlt
    exact ⟨cell_outboard_persistOps hms hio hl, cell_outboard_persistOps hms hio hr⟩

/-- The first batch of an entry is written to memory. -/
private theorem writeInv_mem (options : InlineOptions) (hdisk : DiskInv env blob disk) (hio : io.WritesAll)
    (hst : StreamInv env.f blob (PairStored env blob disk .nonExisting) st)
    (hle : maxOffset st.batch ≤ options.maxDataInlined) :
    WriteInv env blob disk .nonExisting st
      (writeBatch options io disk st.batch ⟨st.decoder.size, st.ranges⟩ .nonExisting) := by
  have hst' : StreamInv env.f blob (HasPair env.f blob Content.empty) st := hst.mono fun _ _ => False.elim
  obtain ⟨hdata, houtboard, hbitfield⟩ :=
    writeBatch_eq_mem st.decoder.size st.batch (PartialMemStorage.default (H := H))
  have hfits : Fits blob.length (fun _ _ => True) ⟨st.decoder.size, st.ranges⟩ := hst.fits fun _ _ _ _ _ _ _ => trivial
  have hb := hst'.hasBitfield outboardWriter_mem (hasBitfield_empty .empty .empty) fits_empty (fun x hx _ => hx) hfits
  have hpairs := fun q pair (hmem : (q, pair) ∈ st.decoder.pairs) => hst'.pairs_stored outboardWriter_mem hmem
  have hdata' : (PartialMemStorage.default.writeBatch st.decoder.size st.batch).data =
      Content.empty.writes (st.batch.flatMap dataWrites) := hdata
  have houtboard' : (PartialMemStorage.default.writeBatch st.decoder.size st.batch).outboard =
      Content.empty.writes (st.batch.flatMap (memOutboardWrites st.decoder.size)) := houtboard
  have hupdate : ((PartialMemStorage.default.writeBatch st.decoder.size st.batch).bitfield.update
      ⟨st.decoder.size, st.ranges⟩).1 = Bitfield.empty.combine ⟨st.decoder.size, st.ranges⟩ := by
    rw [hbitfield]
    rfl
  rw [← hdata', ← houtboard'] at hb
  rw [← houtboard'] at hpairs
  simp only [writeBatch, if_pos hle, hupdate]
  exact writeInv_leaveMem options hdisk hio (memTrue_writeBatch hst.items _) hb (fits_combine fits_empty hfits).1 hpairs

/-- The first batch of an entry is written to files. -/
private theorem writeInv_switch (options : InlineOptions) (hdisk : DiskInv env blob disk) (hio : io.WritesAll)
    (hst : StreamInv env.f blob (PairStored env blob disk .nonExisting) st)
    (hlt : ¬ maxOffset st.batch ≤ options.maxDataInlined) :
    WriteInv env blob disk .nonExisting st
      (writeBatch options io disk st.batch ⟨st.decoder.size, st.ranges⟩ .nonExisting) := by
  have hops : ∀ op ∈ persistOps io disk.opened .default, DiskOp.Keeps env blob (fun _ => False) op :=
    keeps_persistOps memTrue_default disk.opened
  have hs : Shown env blob (disk.run (persistOps io disk.opened .default)) ⟨disk.opened, .empty⟩ :=
    shown_persistOps memTrue_default hio (hasBitfield_empty _ _) fits_empty
  have hst' : StreamInv env.f blob
      (HasPair env.f blob (outboardOf env (disk.run (persistOps io disk.opened .default)) ⟨disk.opened, .empty⟩)) st :=
    hst.mono fun _ _ => False.elim
  simp only [writeBatch, if_neg hlt]
  refine writeInv_write hdisk (keeps_append hops (keeps_batchOps hst.items)) (afterFileBatch_ne_initial _) ?_
    (fun _ _ => False.elim) ?_
  · rw [run_append]
    exact handleInv_afterFileBatch (hs.batch hst')
  · intro q pair hmem hq
    rw [run_append]
    exact pairStored_afterFileBatch (pairs_stored_batch hst' hmem hq)

/-- Every write of an import keeps the invariant. -/
theorem writeBatch_inv (options : InlineOptions) (hdisk : DiskInv env blob disk)
    (hhandle : HandleInv env blob disk handle)
    (hio : handle = .nonExisting → io.WritesAll) (hst : StreamInv env.f blob (PairStored env blob disk handle) st) :
    WriteInv env blob disk handle st (writeBatch options io disk st.batch ⟨st.decoder.size, st.ranges⟩ handle) := by
  cases handle with
  | nonExisting =>
    by_cases hle : maxOffset st.batch ≤ options.maxDataInlined
    · exact writeInv_mem options hdisk (hio rfl) hst hle
    · exact writeInv_switch options hdisk (hio rfl) hst hle
  | partialFile s => exact writeInv_partialFile options hdisk hhandle hst
  | initial => exact ⟨hdisk, trivial, fun _ _ h => h, fun _ _ _ _ _ => trivial, fun h => h⟩
  | complete => exact ⟨hdisk, trivial, fun _ _ h => h, fun _ _ _ _ _ => trivial, fun h => h⟩
  | poisoned => exact ⟨hdisk, trivial, fun _ _ h => h, fun _ _ _ _ _ => trivial, fun h => h⟩

end Write

/-! ### Loading and persisting the handle -/

section Load

variable {env : Env C H} {blob : List UInt8} {disk : Disk C H} {s : PartialFile}

private theorem keeps_bitfieldOps {kind : Bitfield → Prop} {ops : List (Checksummed.Op C)}
    (h : ∀ content payload bitfield, .write content ∈ ops → content.checksum = some (env.blake3 payload) →
      Checksummed.deserialize payload = some bitfield → kind bitfield) :
    ∀ op ∈ ops.map DiskOp.bitfield, DiskOp.Keeps env blob kind op := by
  intro op hop
  obtain ⟨fileOp, hmem, rfl⟩ := List.mem_map.mp hop
  rintro content payload bitfield rfl hchecksum hbitfield
  exact h content payload bitfield hmem hchecksum hbitfield

private theorem Shown.new (h : Shown env blob disk s) :
    Shown env blob disk ⟨s.files, .new s.bitfield.ranges s.bitfield.size⟩ := by
  obtain ⟨hdata, houtboard⟩ := hasBitfield_iff.mp (HasBitfield.new h.hasBitfield h.fits)
  exact ⟨fits_of_new h.fits, hdata, houtboard⟩

/-- What a handle shows is durable after its files are synced, if they are the files at the paths. -/
private theorem Shown.sync (h : Shown env blob disk s) (hdata : disk.data.path = some s.files.data)
    (houtboard : disk.outboard.path = some s.files.outboard) :
    OnDisk env blob (disk.run (syncOps s.files)) s.bitfield :=
  ⟨h.fits, h.data.sync hdata, h.outboard.sync houtboard⟩

/-- The bitfield is written after the files are synced. -/
theorem persist_inv (hblake3 : Function.Injective env.blake3) (hdisk : DiskInv env blob disk)
    (hs : Shown env blob disk s)
    (hdata : disk.data.path = some s.files.data) (houtboard : disk.outboard.path = some s.files.outboard)
    (stop : Option Nat) : DiskInv env blob (disk.perform (syncAllOps env.blake3 s) stop) := by
  rw [syncAllOps, perform_append]
  split
  · have hsync : OnDisk env blob (disk.run (syncOps s.files)) (.new s.bitfield.ranges s.bitfield.size) :=
      hs.new.sync hdata houtboard
    have hrun : DiskInv env blob (disk.run (syncOps s.files)) :=
      hdisk.run (fun _ => False.elim) (keeps_syncOps s.files)
    refine hrun.perform (fun bitfield (hb : bitfield =
      .new s.bitfield.ranges s.bitfield.size) => by rw [hb]; exact hsync)
      (keeps_bitfieldOps fun content payload bitfield hmem hchecksum hbitfield => ?_) _
    have hpayload := hblake3 (Checksummed.checksum_of_mem_writeOps hmem hchecksum)
    rw [hpayload, Checksummed.deserialize_serialize] at hbitfield
    exact (Option.some.inj hbitfield).symm
  · exact hdisk.perform (fun _ => False.elim) (keeps_syncOps s.files) stop

/-- The operations of `sync_all`, one after the other. -/
theorem run_syncAllOps (disk : Disk C H) (hash : List UInt8 → C) (s : PartialFile) :
    disk.run (syncAllOps hash s) =
      ⟨disk.data.apply (.sync s.files.data), disk.outboard.apply (.sync s.files.outboard),
        disk.sizes.apply (.sync s.files.sizes),
        (Checksummed.writeOps hash s.bitfield).foldl Checksummed.apply disk.bitfield⟩ := by
  rw [syncAllOps, run_append, run_map_bitfield]
  rfl

private theorem keeps_truncateOps {kind : Bitfield → Prop} :
    ∀ op ∈ (Checksummed.truncateOps (C := C)).map DiskOp.bitfield, DiskOp.Keeps env blob kind op := by
  refine keeps_bitfieldOps fun content payload bitfield hmem => ?_
  simp [Checksummed.truncateOps] at hmem

private theorem run_truncateOps (disk : Disk C H) (n : Option Nat) :
    (disk.perform (Checksummed.truncateOps.map .bitfield) n).data = disk.data ∧
      (disk.perform (Checksummed.truncateOps.map .bitfield) n).outboard = disk.outboard := by
  unfold Disk.perform
  cases n with
  | none =>
    rw [run_map_bitfield]
    exact ⟨rfl, rfl⟩
  | some n =>
    simp only [← List.map_take, run_map_bitfield, and_self]

/-- What is durable is shown by the files that are opened. -/
private theorem OnDisk.shown (hdisk : DiskInv env blob disk) {bitfield : Bitfield} (h : OnDisk env blob disk bitfield) :
    Shown env blob disk ⟨disk.opened, bitfield⟩ :=
  ⟨h.fits, h.data.shows (fun _ _ hx => hx.unique) hdisk.data, h.outboard.shows (fun _ _ hx => hx.unique) hdisk.outboard⟩

private theorem opened_createOps (disk : Disk C H) : (disk.run createOps).data.opened = disk.data.opened ∧
    (disk.run createOps).outboard.opened = disk.outboard.opened :=
  ⟨PathFiles.opened_create disk.data, PathFiles.opened_create disk.outboard⟩

variable [DecidableEq C] [DecidableEq H]

omit [DecidableEq H] in
/-- What the bitfield file is accepted with is shown after the files are opened. -/
theorem shown_of_read (hdisk : DiskInv env blob disk) {bitfield : Bitfield}
    (h : Checksummed.read env.blake3 disk.bitfield = .ok bitfield) :
    Shown env blob (disk.run createOps) ⟨disk.opened, bitfield⟩ := by
  obtain ⟨payload, hpayload, hbitfield⟩ := Checksummed.mayRead_of_read h
  have hcreate : ∀ op ∈ createOps, DiskOp.Keeps env blob (fun _ => False) op := keeps_createOps
  have hondisk := (hdisk.bitfield payload bitfield hpayload hbitfield).run hdisk hcreate
  obtain ⟨hfits, hdata, houtboard⟩ := hondisk.shown (hdisk.run (fun _ => False.elim) hcreate)
  obtain ⟨h1, h2⟩ := opened_createOps disk
  simp only [Disk.opened, h1, h2] at hdata houtboard
  exact ⟨hfits, hdata, houtboard⟩

theorem loadPartial_inv (hf : CollisionFree env.f) (hvalid : ValidatesRanges env.f env.validRanges)
    (hroot : env.root = nodeHash env.f blob []) (hdisk : DiskInv env blob disk) (io : Io) :
    DiskInv env blob (loadPartial env disk io).1 ∧
      ∀ s, (loadPartial env disk io).2 = some s → Shown env blob (loadPartial env disk io).1 s := by
  have hops : ∀ op ∈ createOps ++ Checksummed.truncateOps.map DiskOp.bitfield,
    DiskOp.Keeps env blob (fun _ => False) op :=
    keeps_append keeps_createOps keeps_truncateOps
  have hperform := hdisk.perform (fun _ => False.elim) hops io.stop
  unfold loadPartial
  simp only
  split
  · rename_i hcreated
    refine ⟨hperform, fun s hs => ?_⟩
    cases hs
    rw [perform_append, if_pos hcreated] at hperform ⊢
    obtain ⟨hdata, houtboard⟩ := run_truncateOps (disk.run createOps)
      (io.stop.map fun n => n - (createOps (C := C) (H := H)).length)
    have hreconstructed : ∀ disk' : Disk C H,
        Shown env blob disk'
          ⟨disk.opened, reconstruct env.validRanges (disk'.source env.zero env.root disk.opened io.reads)⟩ := by
      intro disk'
      have hroot' : (disk'.source env.zero env.root disk.opened io.reads).root = nodeHash env.f blob [] := hroot
      obtain ⟨hb, hfits⟩ := reconstruct_sound hf hvalid hroot'
      obtain ⟨h1, h2⟩ := hasBitfield_iff.mp hb
      exact ⟨hfits, h1, h2⟩
    split
    · split
      · rename_i hread
        obtain ⟨hfits, h1, h2⟩ := shown_of_read hdisk hread
        refine ⟨hfits, ?_, ?_⟩
        · rw [hdata]
          exact h1
        · rw [houtboard]
          exact h2
      · exact hreconstructed _
    · exact hreconstructed _
  · exact ⟨hperform, fun s hs => by cases hs⟩

end Load

/-! ### Removed files and crashes -/

section Crash

variable {env : Env C H} {blob : List UInt8} {disk : Disk C H} {removed : List Meta.BaoFilePart}

/-- A bitfield may be read from the bitfield file, now or after a crash. -/
def MayLoad (env : Env C H) (disk : Disk C H) (bitfield : Bitfield) : Prop :=
  ∃ payload, Checksummed.MayRead env.blake3 disk.bitfield payload ∧ Checksummed.deserialize payload = some bitfield

/-- What is removed: the data and the outboard are left, or no bitfield can be read afterwards. -/
def Spares (env : Env C H) (disk : Disk C H) (removed : List Meta.BaoFilePart) : Prop :=
  (.data ∉ removed ∧ .outboard ∉ removed) ∨ .bitfield ∈ removed ∨ ∀ bitfield, ¬ MayLoad env disk bitfield

theorem file_foldl_remove (disk : Disk C H) (removed : List Meta.BaoFilePart) :
    (removed.foldl Disk.remove disk).data.file = disk.data.file ∧
      (removed.foldl Disk.remove disk).outboard.file = disk.outboard.file := by
  induction removed generalizing disk with
  | nil => exact ⟨rfl, rfl⟩
  | cons part removed ih =>
    rw [List.foldl_cons, (ih _).1, (ih _).2]
    cases part <;> exact ⟨rfl, rfl⟩

private theorem data_foldl_remove (h : .data ∉ removed) : (removed.foldl Disk.remove disk).data = disk.data := by
  induction removed generalizing disk with
  | nil => rfl
  | cons part removed ih =>
    rw [List.mem_cons, not_or] at h
    rw [List.foldl_cons, ih h.2]
    cases part with
    | data => exact absurd rfl h.1
    | outboard => rfl
    | sizes => rfl
    | bitfield => rfl

private theorem outboard_foldl_remove (h : .outboard ∉ removed) :
    (removed.foldl Disk.remove disk).outboard = disk.outboard := by
  induction removed generalizing disk with
  | nil => rfl
  | cons part removed ih =>
    rw [List.mem_cons, not_or] at h
    rw [List.foldl_cons, ih h.2]
    cases part with
    | outboard => exact absurd rfl h.1
    | data => rfl
    | sizes => rfl
    | bitfield => rfl

private theorem bitfield_foldl_remove : (removed.foldl Disk.remove disk).bitfield = disk.bitfield ∨
    (removed.foldl Disk.remove disk).bitfield = none := by
  induction removed generalizing disk with
  | nil => exact Or.inl rfl
  | cons part removed ih =>
    rw [List.foldl_cons]
    rcases ih with h | h
    · rw [h]
      cases part with
      | bitfield => exact Or.inr rfl
      | data => exact Or.inl rfl
      | outboard => exact Or.inl rfl
      | sizes => exact Or.inl rfl
    · exact Or.inr h

private theorem bitfield_foldl_remove_of_mem (h : .bitfield ∈ removed) :
    (removed.foldl Disk.remove disk).bitfield = none := by
  induction removed generalizing disk with
  | nil => cases h
  | cons part removed ih =>
    rw [List.foldl_cons]
    rcases List.mem_cons.mp h with rfl | h
    · exact bitfield_foldl_remove.elim id id
    · exact ih h

theorem remove_inv (hdisk : DiskInv env blob disk) (h : Spares env disk removed) :
    DiskInv env blob (removed.foldl Disk.remove disk) := by
  obtain ⟨hfile, hfile'⟩ := file_foldl_remove disk removed
  refine ⟨fun id => ?_, fun id => ?_, fun payload bitfield hpayload hbitfield => ?_⟩
  · rw [hfile]
    exact hdisk.data id
  · rw [hfile']
    exact hdisk.outboard id
  · -- the bitfield file is as before
    have hsame : (removed.foldl Disk.remove disk).bitfield = disk.bitfield := by
      have hcases : (removed.foldl Disk.remove disk).bitfield = disk.bitfield ∨
          (removed.foldl Disk.remove disk).bitfield = none := bitfield_foldl_remove
      rcases hcases with hsame | hnone
      · exact hsame
      · obtain ⟨file, hsome, -⟩ := hpayload
        rw [hnone] at hsome
        cases hsome
    have hread : Checksummed.MayRead env.blake3 disk.bitfield payload := by
      rw [hsame] at hpayload
      exact hpayload
    rcases h with ⟨hdata, houtboard⟩ | hmem | hnone
    · obtain ⟨hfits, h1, h2⟩ := hdisk.bitfield payload bitfield hread hbitfield
      refine ⟨hfits, ?_, ?_⟩
      · rw [data_foldl_remove hdata]
        exact h1
      · rw [outboard_foldl_remove houtboard]
        exact h2
    · obtain ⟨file, hsome, -⟩ := hpayload
      rw [bitfield_foldl_remove_of_mem hmem] at hsome
      cases hsome
    · exact absurd ⟨payload, hread, hbitfield⟩ (hnone bitfield)

/-- A crash keeps what is durable, and lets no other bitfield be read. -/
theorem crash_inv [DecidableEq C] (hdisk : DiskInv env blob disk) {data : List (Nat × List UInt8)}
    {outboard : List (Nat × List H)} {sizes : List (Nat × List Nat)} {bitfield : Checksummed C}
    (hdata : data.Sublist disk.data.pending) (houtboard : outboard.Sublist disk.outboard.pending)
    (hbitfield : tornBitfield disk bitfield = true) :
    DiskInv env blob ⟨disk.data.crash data, disk.outboard.crash outboard, disk.sizes.crash sizes,
      disk.bitfield.map fun _ => ⟨bitfield, bitfield⟩⟩ := by
  refine ⟨PathFiles.clean_crash _ _, PathFiles.clean_crash _ _, fun payload b hpayload hb => ?_⟩
  obtain ⟨file, hfile, hchecksum⟩ := hpayload
  obtain ⟨before, hbefore, rfl⟩ := Option.map_eq_some_iff.mp hfile
  have htorn : Checksummed.Torn before bitfield := by
    rw [tornBitfield, hbefore, Option.all_some, decide_eq_true_iff] at hbitfield
    exact hbitfield
  have hread : Checksummed.MayRead env.blake3 disk.bitfield payload := by
    rw [hbefore]
    exact Checksummed.mayRead_torn htorn ⟨_, rfl, hchecksum⟩
  obtain ⟨hfits, h1, h2⟩ := hdisk.bitfield payload b hread hb
  exact ⟨hfits, h1.crash (fun _ _ hx => hx.unique) hdisk.data hdata,
    h2.crash (fun _ _ hx => hx.unique) hdisk.outboard houtboard⟩

end Crash

end FsDisk

end IrohBlobs
