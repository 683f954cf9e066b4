import IrohBlobs.DiskInv
import IrohBlobs.StaysProvable

/-!
# Bitfields that are loaded

A bitfield file that is accepted must name only chunks whose data and pairs are in the files.  Three things go wrong
(`Meets`): the position of a parent may be computed from a wrong size, `write_at` may leave out bytes when a sparse
file is persisted, and files are removed without regard to what is left: the handle of a deleted entry writes its
bitfield at the end all the same, and a commit that does not get to the bitfield file leaves it there.
-/

namespace IrohBlobs

namespace FsDisk

open Merkle BaoTree Provable ImportBao StateMachine

variable {C H : Type}

/-! ### Steps of the store -/

section Step

variable (env : Env C H) (blob : List UInt8)

/-- The invariant of the store. -/
structure Inv (s : Store C H) : Prop where
  disk : DiskInv env blob s.disk
  handle : HandleInv env blob s.disk s.handle
  streams : ∀ p ∈ s.streams, StreamInv env.f blob (PairStored env blob s.disk s.handle) p.2
  initial : s.handle = .initial → s.streams = []

variable {env blob} {s : Store C H} {id : Nat} {st : ImportStream H}

/-- A store without imports. -/
theorem inv_of_idle (hdisk : DiskInv env blob s.disk) (hhandle : HandleInv env blob s.disk s.handle)
    (hidle : s.streams = []) :
    Inv env blob s := by
  refine ⟨hdisk, hhandle, fun p hp => ?_, fun _ => hidle⟩
  rw [hidle] at hp
  cases hp

private theorem inv_new : Inv env blob (Store.new : Store C H) := by
  refine inv_of_idle ⟨PathFiles.clean_empty, PathFiles.clean_empty, fun payload bitfield hpayload _ => ?_⟩ trivial rfl
  obtain ⟨file, hfile, -⟩ := hpayload
  cases hfile

private theorem mem_streams (h : s.stream id = some st) : (id, st) ∈ s.streams := by
  obtain ⟨before, after, hstreams, -⟩ := List.lookup_eq_some_iff.mp h
  rw [hstreams]
  exact List.mem_append_right _ List.mem_cons_self

/-- There is an import only while the entry is loaded. -/
private theorem Inv.ne_initial (h : Inv env blob s) (hst : s.stream id = some st) : s.handle ≠ .initial := by
  intro hinitial
  have hmem := mem_streams hst
  rw [h.initial hinitial] at hmem
  cases hmem

private theorem Inv.endStream (h : Inv env blob s) (id : Nat) : Inv env blob (s.endStream id) := by
  refine ⟨h.disk, h.handle, fun p hp => h.streams p (List.mem_filter.mp hp).1, fun hinitial => ?_⟩
  rw [Store.endStream, h.initial hinitial]
  rfl

private theorem Inv.setStream (h : Inv env blob s) (hne : s.handle ≠ .initial)
    (hst : StreamInv env.f blob (PairStored env blob s.disk s.handle) st) (id : Nat) :
    Inv env blob (s.setStream id st) := by
  refine ⟨h.disk, h.handle, fun p hp => ?_, fun hinitial => absurd hinitial hne⟩
  rcases List.mem_cons.mp hp with rfl | hp
  · exact hst
  · exact h.streams p (List.mem_filter.mp hp).1

/-- The database does not matter. -/
private theorem Inv.congr {t : Store C H} (h : Inv env blob s) (hdisk : t.disk = s.disk) (hhandle : t.handle = s.handle)
    (hstreams : t.streams = s.streams) : Inv env blob t := by
  refine ⟨?_, ?_, ?_, ?_⟩
  · rw [hdisk]
    exact h.disk
  · rw [hdisk, hhandle]
    exact h.handle
  · rw [hdisk, hhandle, hstreams]
    exact h.streams
  · rw [hhandle, hstreams]
    exact h.initial

private theorem Inv.afterWrite (h : Inv env blob s) (hne : s.handle ≠ .initial) {w : Written C H}
    (hw : WriteInv env blob s.disk s.handle st w) (sends : Bool) : Inv env blob (afterWrite s w sends) :=
  ⟨hw.diskInv, hw.handleInv, fun p hp => (h.streams p hp).mono hw.mono,
    fun hinitial => absurd (hw.initial hinitial) hne⟩

/-- The batch of an import is written; what comes next may use that all of its pairs are stored.  The decoder may be
ahead of the batch. -/
private theorem Inv.flush (h : Inv env blob s) (hne : s.handle ≠ .initial) {io : Io}
    (hio : s.handle = .nonExisting → io.WritesAll)
    (hst : StreamInv env.f blob (PairStored env blob s.disk s.handle) st) {decoder : Decoder H}
    (hsize : decoder.size = st.decoder.size) {next : Store C H → ImportStream H → Store C H}
    (hnext : ∀ t, Inv env blob t → t.handle ≠ .initial →
      StreamInv env.f blob (PairStored env blob t.disk t.handle) { st with batch := [], ranges := ∅ } →
      Inv env blob (next t { st with decoder, batch := [], ranges := ∅ })) :
    Inv env blob (flush env s id { st with decoder } io next) := by
  have hw := writeBatch_inv env.options h.disk h.handle hio hst
  unfold FsDisk.flush
  simp only [hsize]
  split
  · rename_i hok
    rw [Bool.and_eq_true] at hok
    refine hnext _ (h.afterWrite hne hw io.sends) (fun hinitial => hne (hw.initial hinitial)) ?_
    exact (hst.mono hw.mono).flushed (hw.stored hok.1)
  · exact (h.afterWrite hne hw io.sends).endStream id

/-! ### The theorem -/

/-- The handle is loaded from the files of the entry. -/
def LoadsFiles (env : Env C H) (s : Store C H) : Prop :=
  s.handle = .initial ∧ s.updates = [] ∧ env.root ≠ env.emptyHash ∧ ∃ size, s.db.row = some (.partialState size)

/-- The data and the outboard that are opened when the entry is loaded. -/
def current (env : Env C H) (s : Store C H) : ExportSource H :=
  (s.disk.run createOps).source env.zero env.root s.disk.opened true

/-- If the bitfield file is accepted when the entry is loaded, the chunks that it names below its size are chunks of
the blob, with their data in the data file and the pairs above them in the outboard file. -/
def NoOverclaim [DecidableEq C] (env : Env C H) (blob : List UInt8) (s : Store C H) : Prop :=
  LoadsFiles env s → ∀ bitfield, Checksummed.read env.blake3 s.disk.bitfield = .ok bitfield →
    ∀ x ∈ bitfield.ranges, x < chunks bitfield.size →
      x < chunks blob.length ∧ HasChunk env.f blob (current env s).data (current env s).outboard x

/-- The condition on a step: a parent belongs where the claimed size puts it; the first batch of an entry is persisted
without leaving out bytes; files are removed with the bitfield file; and a handle is persisted only if it has the
files at the paths open. -/
def Meets (env : Env C H) (blob : List UInt8) (s : Store C H) : Action C H → Prop
  | .parent id path _ io =>
    (∀ st, s.stream id = some st → PlacedAt blob st.decoder.size path) ∧ (s.handle = .nonExisting → io.WritesAll)
  | .finish _ io => s.handle = .nonExisting → io.WritesAll
  | .commit removed => Spares env s.disk removed
  | .persist _ => ∀ storage, s.handle = .partialFile storage →
      s.disk.data.path = some storage.files.data ∧ s.disk.outboard.path = some storage.files.outboard
  | .load _ _ | .start _ _ | .leaf _ _ _ | .stop _ | .deliver | .delete _ | .clearProtected | .crash _ _ _ _ => True

variable [DecidableEq C] [DecidableEq H]

private theorem load_inv (hf : CollisionFree env.f) (hvalid : ValidatesRanges env.f env.validRanges)
    (hroot : env.root = nodeHash env.f blob []) (h : Inv env blob s) (hidle : s.streams = []) (io : Io) (ok : Bool) :
    Inv env blob (load env s io ok) := by
  have hload := loadPartial_inv hf hvalid hroot h.disk io
  unfold load
  split
  · exact inv_of_idle h.disk trivial hidle
  · split
    · refine inv_of_idle h.disk ?_ hidle
      simp only
      split <;> trivial
    · refine inv_of_idle h.disk ?_ hidle
      simp only
      split <;> trivial
    · split
      · rename_i heq
        rw [heq] at hload
        exact inv_of_idle hload.1 trivial hidle
      · rename_i heq
        rw [heq] at hload
        split
        · split
          · exact inv_of_idle hload.1 trivial hidle
          · exact inv_of_idle hload.1 trivial hidle
        · exact inv_of_idle hload.1 (hload.2 _ rfl) hidle

/-- Files are removed at their paths; the opened ones stay as they are. -/
private theorem Inv.commit {removed : List Meta.BaoFilePart} {s' : Store C H} (h : Inv env blob s)
    (hmeets : Meets env blob s (.commit removed)) (hstep : step env s (.commit removed) = some s') :
    Inv env blob s' := by
  simp only [FsDisk.step] at hstep
  split at hstep
  · cases hstep
    obtain ⟨hfile, hfile'⟩ := file_foldl_remove s.disk removed
    have hpairs : ∀ q, PairStored env blob s.disk s.handle q →
        PairStored env blob (removed.foldl Disk.remove s.disk) s.handle q := by
      intro q hq
      cases hhandle : s.handle with
      | partialFile storage =>
        rw [hhandle] at hq
        simp only [PairStored, outboardOf, hfile'] at hq ⊢
        exact hq
      | nonExisting =>
        rw [hhandle] at hq
        exact hq
      | initial => trivial
      | complete => trivial
      | poisoned => trivial
    refine ⟨remove_inv h.disk hmeets, ?_, fun p hp => (h.streams p hp).mono fun q _ => hpairs q, h.initial⟩
    have hhandle := h.handle
    cases hcases : s.handle with
    | partialFile storage =>
      rw [hcases] at hhandle
      obtain ⟨hfits, h1, h2⟩ := hhandle
      refine ⟨hfits, ?_, ?_⟩
      · rw [PathFiles.Shows, hfile]
        exact h1
      · rw [PathFiles.Shows, hfile']
        exact h2
    | nonExisting => trivial
    | initial => trivial
    | complete => trivial
    | poisoned => trivial
  · cases hstep

/-- Every step under the condition keeps the invariant. -/
private theorem Inv.step (hf : CollisionFree env.f) (hblake3 : Function.Injective env.blake3)
    (hvalid : ValidatesRanges env.f env.validRanges) (hroot : env.root = nodeHash env.f blob []) {a : Action C H}
    {s' : Store C H} (h : Inv env blob s) (hmeets : Meets env blob s a) (hstep : step env s a = some s') :
    Inv env blob s' := by
  cases a with
  | load io ok =>
    simp only [FsDisk.step] at hstep
    split at hstep
    · rename_i hinitial
      split at hstep
      · cases hstep
        exact load_inv hf hvalid hroot h (h.initial hinitial) io ok
      · cases hstep
    · cases hstep
  | start id size =>
    simp only [FsDisk.step] at hstep
    split at hstep
    · cases hstep
    · rename_i hne
      split at hstep
      · rename_i hpos
        cases hstep
        exact h.setStream (fun hinitial => hne hinitial) (streamInv_start hroot hpos.1) id
      · cases hstep
  | parent id path pair io =>
    obtain ⟨st, hst, hstep⟩ := Option.bind_eq_some_iff.mp hstep
    obtain ⟨decoder, hdecoder, rfl⟩ := Option.map_eq_some_iff.mp hstep
    have hinv : StreamInv env.f blob (PairStored env blob s.disk s.handle) st := h.streams _ (mem_streams hst)
    have hne := h.ne_initial hst
    have hplaced := hmeets.1 st hst
    have hsize : decoder.size = st.decoder.size := by rw [(parent_eq_some hdecoder).1]
    unfold recv
    split
    · refine h.flush hne hmeets.2 hinv hsize (fun t ht hne' hflushed => ?_)
      exact ht.setStream hne' (hflushed.pushParent hf hdecoder hplaced) id
    · exact h.setStream hne (hinv.pushParent hf hdecoder hplaced) id
  | leaf id path data =>
    obtain ⟨st, hst, hstep⟩ := Option.bind_eq_some_iff.mp hstep
    have hinv : StreamInv env.f blob (PairStored env blob s.disk s.handle) st := h.streams _ (mem_streams hst)
    split at hstep
    · rename_i hleaf
      cases hstep
      simp only [push]
      split
      · exact h.endStream id
      · exact h.setStream (h.ne_initial hst) (hinv.pushLeaf hf hleaf rfl) id
    · cases hstep
  | finish id io =>
    obtain ⟨st, hst, rfl⟩ := Option.map_eq_some_iff.mp hstep
    unfold finish
    split
    · exact h.endStream id
    · have hinv : StreamInv env.f blob (PairStored env blob s.disk s.handle) st := h.streams _ (mem_streams hst)
      exact h.flush (h.ne_initial hst) hmeets hinv rfl (fun t ht _ _ => ht.endStream id)
  | stop id =>
    obtain ⟨st, hst, rfl⟩ := Option.map_eq_some_iff.mp hstep
    exact h.endStream id
  | deliver =>
    simp only [FsDisk.step] at hstep
    split at hstep
    · cases hstep
    · cases hstep
      exact h.congr rfl rfl rfl
  | delete force =>
    cases hstep
    exact h.congr rfl rfl rfl
  | clearProtected =>
    cases hstep
    exact h.congr rfl rfl rfl
  | commit removed => exact h.commit hmeets hstep
  | persist stop =>
    simp only [FsDisk.step] at hstep
    split at hstep
    · rename_i hidle
      cases hstep
      refine inv_of_idle ?_ trivial (List.isEmpty_iff.mp hidle)
      have hhandle := h.handle
      unfold persist
      simp only
      split
      · rename_i storage hstorage
        rw [hstorage] at hhandle
        obtain ⟨hdata, houtboard⟩ := hmeets storage hstorage
        exact persist_inv hblake3 h.disk hhandle hdata houtboard stop
      · exact h.disk
    · cases hstep
  | crash data outboard sizes bitfield =>
    simp only [FsDisk.step] at hstep
    split at hstep
    · rename_i hcrash
      obtain ⟨hdata, houtboard, -, hbitfield⟩ := hcrash
      cases hstep
      exact inv_of_idle (crash_inv h.disk (List.isSublist_iff_sublist.mp hdata)
        (List.isSublist_iff_sublist.mp houtboard)
        hbitfield) trivial rfl
    · cases hstep

omit [DecidableEq H] in
/-- What can be read from the bitfield file is in the files that are opened. -/
private theorem Inv.noOverclaim (h : Inv env blob s) : NoOverclaim env blob s := by
  intro _ bitfield hread x hx hlt
  obtain ⟨hfits, hdata, houtboard⟩ := shown_of_read h.disk hread
  have hlt' : x < chunks blob.length := by
    rcases hfits with hsize | hfits
    · simp only at hsize
      rw [← hsize]
      exact hlt
    · have := (hfits x hx).2.1
      omega
  have hb : HasBitfield env.f blob (current env s).data (current env s).outboard bitfield :=
    hasBitfield_iff.mpr ⟨hdata, houtboard⟩
  exact ⟨hlt', hb x hx hlt'⟩

/-- In every run whose steps meet the condition, a bitfield that is loaded names only what is in the files. -/
theorem no_overclaim (hf : CollisionFree env.f) (hblake3 : Function.Injective env.blake3)
    (hvalid : ValidatesRanges env.f env.validRanges) (hroot : env.root = nodeHash env.f blob [])
    {as : List (Action C H)}
    {s : Store C H} (hmeets : StateMachine.RunMeets (FsDisk.step env) (Meets env blob) Store.new as)
    (hrun : StateMachine.run (FsDisk.step env) Store.new as = some s) : NoOverclaim env blob s :=
  have hinv : Inv env blob s := StateMachine.inv_of_run (FsDisk.step env)
    (fun h hmeets hstep => h.step hf hblake3 hvalid hroot hmeets hstep) inv_new hmeets hrun
  hinv.noOverclaim

end Step

/-! ### A deleted entry -/

/-- A blob with two chunks. -/
def blob1025 : List UInt8 := List.replicate 1025 0

/-- Payloads are their own hashes, and no valid ranges are found. -/
def termEnv : Env (List UInt8) HashTerm :=
  ⟨termHash, nodeHash termHash blob1025 [], ⟨16384, 16384⟩, .chunk 0 [] false, id, fun _ => []⟩

private theorem length_blob1025 : blob1025.length = 1025 := List.length_replicate

private theorem leafAt_blob1025 : leafAt blob1025 [true] = ⟨1024, [0]⟩ := by
  rw [leafAt, length_blob1025, show sub (treeChunks 1025) [true] = (1, 1) by decide, region, blob1025,
    List.drop_replicate, List.take_replicate]
  rfl

private theorem root_ne_emptyHash : termEnv.root ≠ termEnv.emptyHash := by
  intro h
  have hnil : blob1025 = [] :=
    (hashSubtree_inj collisionFree_termHash ((nodeHash_nil termHash blob1025).symm.trans h)).2
  have hlen := length_blob1025
  rw [hnil] at hlen
  cases hlen

section

variable {s : Store (List UInt8) HashTerm} {id : Nat}

private theorem step_load (hhandle : s.handle = .initial) (hupdates : s.updates = []) (hrow : s.db.row = none) :
    step termEnv s (.load .working true) = some { s with handle := .nonExisting } := by
  simp only [step, hhandle, hupdates, List.isEmpty_nil, if_true, load, if_neg root_ne_emptyHash, hrow]

private theorem step_start {size : Nat} (hhandle : s.handle ≠ .initial) (hsize : 0 < size) (hst : s.stream id = none) :
    step termEnv s (.start id size) = some (s.setStream id (honest termHash blob1025 size [])) := by
  have hnew : 0 < size ∧ (s.stream id).isNone = true := ⟨hsize, by rw [hst]; rfl⟩
  cases hcases : s.handle with
  | initial => exact absurd hcases hhandle
  | nonExisting | partialFile | complete | poisoned =>
    simp only [step, hcases, if_pos hnew]
    rfl

private theorem step_root (hst : s.stream id = some (honest termHash blob1025 1025 [])) (io : Io) :
    step termEnv s (.parent id [] (pairAt termHash blob1025 []) io) =
      some (s.setStream id (honest termHash blob1025 1025 [[]])) := by
  have hd : (honest termHash blob1025 1025 []).decoder.parent termHash [] (pairAt termHash blob1025 []) =
      some (honest termHash blob1025 1025 [[]]).decoder :=
    parent_honest (by rw [length_blob1025]; decide) (Or.inl rfl)
  simp only [step, hst, Option.bind_some]
  rw [show termEnv.f = termHash from rfl, hd]
  rfl

/-- An import that has received the root pair and the last chunk. -/
def lastStream : ImportStream HashTerm :=
  ⟨(honest termHash blob1025 1025 [[]]).decoder, (honest termHash blob1025 1025 [[]]).batch ++ [.leaf ⟨1024, [0]⟩],
    ∅ ∪ chunkRange ⟨1024, [0]⟩⟩

private theorem step_lastLeaf (hst : s.stream id = some (honest termHash blob1025 1025 [[]])) :
    step termEnv s (.leaf id [true] [0]) = some (s.setStream id lastStream) := by
  have hleaf : IsPath 1 (treeChunks blob1025.length) [true] ∧ (sub (treeChunks blob1025.length) [true]).2 ≤ 16 := by
    rw [length_blob1025]
    decide
  have hd : (honest termHash blob1025 1025 [[]]).decoder.leaf termHash 16 [true] [0] = true := by
    have h := leaf_honest (f := termHash) hleaf (Or.inr (List.mem_singleton.mpr rfl))
    rw [length_blob1025, leafAt_blob1025] at h
    exact h
  have hsize : (honest termHash blob1025 1025 [[]]).decoder.size = 1025 := rfl
  have hoffset : (sub (treeChunks 1025) [true]).1 * 1024 = 1024 := by decide
  have hvalid : invalidSize 1025 ⟨1024, [0]⟩ = false := by decide
  simp only [step, hst, Option.bind_some]
  rw [show termEnv.f = termHash from rfl, hd, if_pos rfl, push, hsize, hoffset, hvalid, if_neg (by simp)]
  rfl

/-- The open files after that, with the bitfield. -/
def rootFile : PartialFile := ⟨⟨0, 0, 0⟩, ⟨1025, ∅⟩⟩

/-- The open files after an import has received the last chunk too. -/
def lastFile : PartialFile := ⟨⟨0, 0, 0⟩, ⟨1025, RangeSet.rangeFrom 1⟩⟩

/-- The first import ends after a pair that is not stored: the entry is partial, and its bitfield is empty. -/
private theorem writeBatch_root : ∃ disk,
    writeBatch termEnv.options .working (.empty : Disk (List UInt8) HashTerm) (honest termHash blob1025 1025 [[]]).batch
      ⟨1025, ∅⟩ .nonExisting = ⟨disk, .partialFile rootFile, some (.partialState none), true, true⟩ := by
  have hmax : maxOffset (honest termHash blob1025 1025 [[]]).batch ≤ termEnv.options.maxDataInlined := by decide
  have hbitfield : ((PartialMemStorage.default.writeBatch 1025
    (honest termHash blob1025 1025 [[]]).batch).bitfield.update
      ⟨1025, ∅⟩).1 = ⟨1025, ∅⟩ := by
    rw [(writeBatch_eq_mem _ _ _).2.2]
    decide
  simp only [writeBatch, if_pos hmax, hbitfield]
  rw [if_neg (by decide)]
  exact ⟨_, rfl⟩

private theorem update_lastStream :
    (Bitfield.update ⟨1025, ∅⟩ ⟨lastStream.decoder.size, lastStream.ranges⟩).1 = ⟨1025, RangeSet.rangeFrom 1⟩ := by
  decide

private theorem writeBatch_last (disk : Disk (List UInt8) HashTerm) :
    writeBatch termEnv.options .working disk lastStream.batch ⟨lastStream.decoder.size, lastStream.ranges⟩
      (.partialFile rootFile) =
      ⟨disk.run (batchOps ⟨0, 0, 0⟩ 1025 lastStream.batch), .partialFile lastFile,
        some (.partialState (some 1025)), false, true⟩ := by
  have hincomplete : ¬ (⟨1025, RangeSet.rangeFrom 1⟩ : Bitfield).isComplete = true := by decide
  have hafter : afterFileBatch ⟨⟨0, 0, 0⟩, ⟨1025, RangeSet.rangeFrom 1⟩⟩ = .partialFile lastFile := if_neg hincomplete
  simp only [writeBatch, rootFile, update_lastStream, hafter, if_neg hincomplete]
  rw [if_pos (by decide)]
  rfl

private theorem writeBatch_mem : ∃ ms : PartialMemStorage HashTerm,
    writeBatch termEnv.options .working (.empty : Disk (List UInt8) HashTerm) lastStream.batch
      ⟨lastStream.decoder.size, lastStream.ranges⟩ .nonExisting =
    ⟨Disk.empty.run (persistOps .working ⟨0, 0, 0⟩ ms), .partialFile lastFile,
      some (.partialState (some 1025)), true, true⟩ := by
  have hmax : maxOffset lastStream.batch ≤ termEnv.options.maxDataInlined := by decide
  have hincomplete : ¬ (⟨1025, RangeSet.rangeFrom 1⟩ : Bitfield).isComplete = true := by decide
  have hbitfield : ((PartialMemStorage.default.writeBatch lastStream.decoder.size lastStream.batch).bitfield.update
      ⟨lastStream.decoder.size, lastStream.ranges⟩).1 = ⟨1025, RangeSet.rangeFrom 1⟩ := by
    rw [(writeBatch_eq_mem _ _ _).2.2]
    decide
  refine ⟨{ PartialMemStorage.default.writeBatch lastStream.decoder.size lastStream.batch with
    bitfield := ⟨1025, RangeSet.rangeFrom 1⟩ }, ?_⟩
  simp only [writeBatch, if_pos hmax, hbitfield, if_neg hincomplete]
  rfl

end

/-- An import ends after the first pair, and the entry is deleted while its handle is alive.  Then another import
receives the last chunk, and the handle is persisted. -/
def deletedRun : List (Action (List UInt8) HashTerm) :=
  [.load .working true, .start 0 1025, .parent 0 [] (pairAt termHash blob1025 []) .working,
    .finish 0 .working, .deliver, .delete true, .commit [.outboard, .data, .sizes, .bitfield], .start 1 1025,
    .parent 1 [] (pairAt termHash blob1025 []) .working, .leaf 1 [true] [0], .finish 1 .working,
      .deliver, .persist none]

/-- The first import of a new store receives the pair of the root. -/
theorem firstPair_steps :
    step termEnv Store.new (.load .working true) = some ⟨.empty, .nonExisting, [], [], .empty⟩ ∧
    step termEnv ⟨.empty, .nonExisting, [], [], .empty⟩ (.start 0 1025) =
      some ⟨.empty, .nonExisting, [(0, honest termHash blob1025 1025 [])], [], .empty⟩ ∧
    step termEnv ⟨.empty, .nonExisting, [(0, honest termHash blob1025 1025 [])], [], .empty⟩
      (.parent 0 [] (pairAt termHash blob1025 []) .working) =
      some ⟨.empty, .nonExisting, [(0, honest termHash blob1025 1025 [[]])], [], .empty⟩ :=
  ⟨step_load rfl rfl rfl, step_start (by simp) (by omega) rfl, step_root rfl _⟩

private theorem step_finish {disk disk' : Disk (List UInt8) HashTerm} {handle : Handle}
    {streams : List (Nat × ImportStream HashTerm)}
    {updates : List (Meta.EntryState Unit)} {db db' : Database} {id : Nat} {st : ImportStream HashTerm}
    (hst : streams.lookup id = some st) (hbatch : st.batch ≠ []) {storage : PartialFile} {update : Meta.EntryState Unit}
    {protects : Bool} (hwrite : writeBatch termEnv.options .working disk st.batch ⟨st.decoder.size, st.ranges⟩ handle =
      ⟨disk', .partialFile storage, some update, protects, true⟩)
    (hdb : (if protects then { db with marks := [] } else db) = db') :
    step termEnv ⟨disk, handle, streams, updates, db⟩ (.finish id .working) =
      some ⟨disk', .partialFile storage, streams.filter fun p => p.1 ≠ id, updates ++ [update], db'⟩ := by
  have hne : st.batch.isEmpty = false := List.isEmpty_eq_false_iff.mpr hbatch
  simp only [step, Store.stream, hst, Option.map_some, finish, hne, flush, hwrite, ← hdb]
  rfl

private theorem deletedRun_run : ∃ disk : Disk (List UInt8) HashTerm, ∃ db, disk.data.path = none ∧
    db.row = some (.partialState (some 1025)) ∧
    StateMachine.run (step termEnv) Store.new deletedRun =
      some ⟨disk.perform (syncAllOps id lastFile) none, .initial, [], [], db⟩ := by
  obtain ⟨disk, hwrite⟩ := writeBatch_root
  have hpair : (honest termHash blob1025 1025 [[]]).batch ≠ [] := by simp [honest]
  have hlast : lastStream.batch ≠ [] := by simp [lastStream]
  obtain ⟨h1, h2, h3⟩ := firstPair_steps
  have h4 : step termEnv ⟨.empty, .nonExisting, [(0, honest termHash blob1025 1025 [[]])], [], .empty⟩
    (.finish 0 .working) =
      some ⟨disk, .partialFile rootFile, [], [.partialState none], .empty⟩ :=
    step_finish rfl hpair hwrite rfl
  -- the entry is deleted, but its handle goes on
  have h5 : step termEnv ⟨disk, .partialFile rootFile, [], [.partialState none], .empty⟩ .deliver =
      some ⟨disk, .partialFile rootFile, [], [], ⟨some (.partialState none), none, [], true⟩⟩ := rfl
  have h6 : step termEnv ⟨disk, .partialFile rootFile, [], [], ⟨some (.partialState none), none, [], true⟩⟩
      (.delete true) =
      some ⟨disk, .partialFile rootFile, [], [], ⟨none, none, [.outboard, .data, .sizes, .bitfield], true⟩⟩ := rfl
  have h7 : step termEnv ⟨disk, .partialFile rootFile, [], [],
      ⟨none, none, [.outboard, .data, .sizes, .bitfield], true⟩⟩ (.commit [.outboard, .data, .sizes, .bitfield]) =
      some ⟨[.outboard, .data, .sizes, .bitfield].foldl Disk.remove disk, .partialFile rootFile, [], [],
        ⟨none, none, [], true⟩⟩ := rfl
  generalize hremoved : [.outboard, .data, .sizes, .bitfield].foldl Disk.remove disk = removed at h7
  have hpath : removed.data.path = none := by
    rw [← hremoved]
    rfl
  have h8 : step termEnv ⟨removed, .partialFile rootFile, [], [], ⟨none, none, [], true⟩⟩ (.start 1 1025) =
      some ⟨removed, .partialFile rootFile, [(1, honest termHash blob1025 1025 [])], [],
        ⟨none, none, [], true⟩⟩ := step_start (by simp) (by omega) rfl
  have h9 : step termEnv ⟨removed, .partialFile rootFile, [(1, honest termHash blob1025 1025 [])], [],
      ⟨none, none, [], true⟩⟩ (.parent 1 [] (pairAt termHash blob1025 []) .working) =
      some ⟨removed, .partialFile rootFile, [(1, honest termHash blob1025 1025 [[]])], [],
        ⟨none, none, [], true⟩⟩ := step_root rfl _
  have h10 : step termEnv ⟨removed, .partialFile rootFile, [(1, honest termHash blob1025 1025 [[]])], [],
      ⟨none, none, [], true⟩⟩ (.leaf 1 [true] [0]) =
      some ⟨removed, .partialFile rootFile, [(1, lastStream)], [], ⟨none, none, [], true⟩⟩ := step_lastLeaf rfl
  have h11 : step termEnv ⟨removed, .partialFile rootFile, [(1, lastStream)], [], ⟨none, none, [], true⟩⟩
      (.finish 1 .working) =
      some ⟨removed.run (batchOps ⟨0, 0, 0⟩ 1025 lastStream.batch), .partialFile lastFile, [],
        [.partialState (some 1025)], ⟨none, none, [], true⟩⟩ :=
    step_finish rfl hlast (writeBatch_last removed) rfl
  generalize hlater : removed.run (batchOps ⟨0, 0, 0⟩ 1025 lastStream.batch) = later at h11
  have h12 : step termEnv ⟨later, .partialFile lastFile, [], [.partialState (some 1025)],
      ⟨none, none, [], true⟩⟩ .deliver =
      some ⟨later, .partialFile lastFile, [], [],
        ⟨some (.partialState (some 1025)), none, [], true⟩⟩ := rfl
  have h13 : step termEnv ⟨later, .partialFile lastFile, [], [],
      ⟨some (.partialState (some 1025)), none, [], true⟩⟩ (.persist none) =
      some ⟨later.perform (syncAllOps id lastFile) none, .initial, [], [],
        ⟨some (.partialState (some 1025)), none, [], true⟩⟩ := rfl
  rw [deletedRun, run_of_step h1, run_of_step h2, run_of_step h3, run_of_step h4, run_of_step h5, run_of_step h6,
    run_of_step h7, run_of_step h8, run_of_step h9, run_of_step h10, run_of_step h11, run_of_step h12, run_of_step h13,
    StateMachine.run]
  refine ⟨later, ⟨some (.partialState (some 1025)), none, [], true⟩, ?_, rfl, rfl⟩
  rw [← hlater, data_run, data?_batchOps, PathFiles.path_run_writeOps]
  exact hpath

/-- A data file that is created when the entry is loaded is empty. -/
private theorem cell_current_data (env : Env C H) {s : Store C H} (hpath : s.disk.data.path = none) (i : Nat) :
    (current env s).data.cell i = none := by
  have hdata : (s.disk.run createOps).data = s.disk.data.apply .create := by
    rw [data_run]
    rfl
  have hopened : s.disk.opened.data = s.disk.data.next := by
    rw [Disk.opened, PathFiles.opened, hpath]
    rfl
  simp only [current, Disk.source, hdata, hopened, PathFiles.apply, hpath, Function.update_self]
  rfl

private theorem new_rangeFrom : Bitfield.new (RangeSet.rangeFrom 1) 1025 = ⟨1025, RangeSet.rangeFrom 1⟩ := by
  decide

/-- The bitfield names the last chunk, but the data file is empty. -/
theorem not_no_overclaim_deleted : CollisionFree termEnv.f ∧ Function.Injective termEnv.blake3 ∧
    ValidatesRanges termEnv.f termEnv.validRanges ∧ termEnv.root = nodeHash termEnv.f blob1025 [] ∧
    ∃ s, StateMachine.run (step termEnv) Store.new deletedRun = some s ∧ ¬ NoOverclaim termEnv blob1025 s := by
  refine ⟨collisionFree_termHash, Function.injective_id, ?_, rfl, ?_⟩
  · intro src range hmem
    cases hmem
  · obtain ⟨disk, db, hpath, hrow, hrun⟩ := deletedRun_run
    refine ⟨_, hrun, fun h => ?_⟩
    have hread : Checksummed.read termEnv.blake3 (disk.perform (syncAllOps id lastFile)
        none).bitfield = .ok ⟨1025, RangeSet.rangeFrom 1⟩ := by
      rw [← new_rangeFrom, Disk.perform, run_syncAllOps]
      exact Checksummed.read_writeOps _ _
    obtain ⟨-, hchunk⟩ := h ⟨rfl, rfl, root_ne_emptyHash, _, hrow⟩ _ hread 1 (by decide) (by decide)
    have hbyte := hchunk.data 1024 (by omega) (by omega) (by rw [length_blob1025]; omega)
    have hnone : (disk.perform (syncAllOps id lastFile) none).data.path = none := by
      rw [Disk.perform, run_syncAllOps]
      exact hpath
    rw [cell_current_data termEnv hnone, blob1025, List.getElem?_replicate] at hbyte
    cases hbyte

/-- An import receives the last chunk, and the handle is persisted. -/
def lastChunkRun : List (Action (List UInt8) HashTerm) :=
  [.load .working true, .start 0 1025, .parent 0 [] (pairAt termHash blob1025 []) .working, .leaf 0 [true] [0],
    .finish 0 .working, .deliver, .commit [], .persist none]

private theorem lastChunkRun_run : ∃ s : Store (List UInt8) HashTerm,
    StateMachine.RunMeets (step termEnv) (Meets termEnv blob1025) Store.new lastChunkRun ∧
    StateMachine.run (step termEnv) Store.new lastChunkRun = some s ∧ LoadsFiles termEnv s ∧
    Checksummed.read termEnv.blake3 s.disk.bitfield = .ok ⟨1025, RangeSet.rangeFrom 1⟩ := by
  obtain ⟨ms, hwrite⟩ := writeBatch_mem
  have hio : Io.working.WritesAll := ⟨fun _ => rfl, fun _ => rfl⟩
  have hlast : lastStream.batch ≠ [] := by simp [lastStream]
  have hpath : ((Disk.empty : Disk (List UInt8) HashTerm).run (persistOps .working ⟨0, 0, 0⟩ ms)).data.path = some 0 ∧
      ((Disk.empty : Disk (List UInt8) HashTerm).run (persistOps .working ⟨0, 0, 0⟩ ms)).outboard.path = some 0 :=
    path_persistOps hio
  generalize (Disk.empty : Disk (List UInt8) HashTerm).run (persistOps .working ⟨0, 0, 0⟩ ms) = disk at hwrite hpath
  obtain ⟨h1, h2, h3⟩ := firstPair_steps
  have h4 : step termEnv ⟨.empty, .nonExisting, [(0, honest termHash blob1025 1025 [[]])], [], .empty⟩
    (.leaf 0 [true] [0]) =
      some ⟨.empty, .nonExisting, [(0, lastStream)], [], .empty⟩ := step_lastLeaf rfl
  have h5 : step termEnv ⟨.empty, .nonExisting, [(0, lastStream)], [], .empty⟩ (.finish 0 .working) =
      some ⟨disk, .partialFile lastFile, [], [.partialState (some 1025)], .empty⟩ :=
    step_finish rfl hlast hwrite rfl
  have h6 : step termEnv ⟨disk, .partialFile lastFile, [], [.partialState (some 1025)], .empty⟩
      .deliver =
      some ⟨disk, .partialFile lastFile, [], [],
        ⟨some (.partialState (some 1025)), none, [], true⟩⟩ := rfl
  have h7 : step termEnv ⟨disk, .partialFile lastFile, [], [],
      ⟨some (.partialState (some 1025)), none, [], true⟩⟩ (.commit []) =
      some ⟨disk, .partialFile lastFile, [], [],
        ⟨some (.partialState (some 1025)), some (.partialState (some 1025)), [], true⟩⟩ := rfl
  have h8 : step termEnv ⟨disk, .partialFile lastFile, [], [],
      ⟨some (.partialState (some 1025)), some (.partialState (some 1025)), [], true⟩⟩ (.persist none) =
      some ⟨disk.run (syncAllOps id lastFile), .initial, [], [],
        ⟨some (.partialState (some 1025)), some (.partialState (some 1025)), [], true⟩⟩ := rfl
  refine ⟨⟨disk.run (syncAllOps id lastFile), .initial, [], [],
    ⟨some (.partialState (some 1025)), some (.partialState (some 1025)), [], true⟩⟩, ?_, ?_,
    ⟨rfl, rfl, root_ne_emptyHash, _, rfl⟩, ?_⟩
  · refine .cons _ trivial h1 (.cons _ trivial h2 (.cons _ ⟨fun st hst => ?_, fun _ => hio⟩ h3 (.cons _ trivial h4
      (.cons _ (fun _ => hio) h5 (.cons _ trivial h6 (.cons _ ?_ h7 (.cons _ ?_ h8 trivial)))))))
    · -- the pair of the root is not stored
      cases hst
      intro hlt
      exact absurd hlt (by decide)
    · exact Or.inl ⟨List.not_mem_nil, List.not_mem_nil⟩
    · rintro storage ⟨⟩
      exact hpath
  · rw [lastChunkRun, run_of_step h1, run_of_step h2, run_of_step h3, run_of_step h4, run_of_step h5, run_of_step h6,
      run_of_step h7, run_of_step h8, StateMachine.run]
  · rw [← new_rangeFrom, run_syncAllOps]
    exact Checksummed.read_writeOps _ _

/-- A bitfield with the last chunk is loaded. -/
theorem no_overclaim_lastChunk : ∃ s : Store (List UInt8) HashTerm,
    StateMachine.run (step termEnv) Store.new lastChunkRun = some s ∧ LoadsFiles termEnv s ∧
    Checksummed.read termEnv.blake3 s.disk.bitfield = .ok ⟨1025, RangeSet.rangeFrom 1⟩ ∧
    NoOverclaim termEnv blob1025 s := by
  obtain ⟨s, hmeets, hrun, hloads, hread⟩ := lastChunkRun_run
  have hvalid : ValidatesRanges termEnv.f termEnv.validRanges := fun _ _ hmem => by cases hmem
  exact ⟨s, hrun, hloads, hread,
    no_overclaim collisionFree_termHash Function.injective_id hvalid rfl hmeets hrun⟩

end FsDisk

end IrohBlobs
