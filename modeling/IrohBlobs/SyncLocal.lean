import IrohBlobs.CompleteEntry

/-!
# Syncing and importing end in the same entry

`Written` says what the files of an entry have after some items of imports with the right size: the chunks of the leaves
are provable, and the pairs of the parents are in place.  It holds in memory and in files, and a switch from memory to
files keeps it, so that a complete entry always has the data and the outboard (`Written.content`).

A local import saves the pairs of all parents, so its outboard is the same.
-/

namespace IrohBlobs

namespace CompleteEntry

open Merkle BaoTree Provable ImportBao Outboard

variable {H : Type} {f : HashFns UInt8 H} {zero : H} {lib : TreeLib H} {options : InlineOptions} {blob : List UInt8}

/-! ### Importing locally -/

/-- The library computes what it says for the data. -/
structure TreeLib.Lawful (lib : TreeLib H) (f : HashFns UInt8 H) (blob : List UInt8) : Prop where
  postOrder : InitOutboard.PostOrder blob.length [] (lib.postOrderChunks blob.length)
  create : lib.create blob = (hashSubtree f 0 blob true, outboardOf f blob)

/-- The parents of the blob, as items of an import with the right size. -/
theorem trueParent {p : List Bool} (hp : IsPath 16 (treeChunks blob.length) p)
    (hlt : 16 < (sub (treeChunks blob.length) p).2) :
    TrueParent f blob blob.length p
      ⟨nodeAt (treeChunks blob.length) p, (nodeHash f blob (p ++ [false]), nodeHash f blob (p ++ [true]))⟩ :=
  ⟨hp.mono (by omega), by omega, rfl, rfl, fun _ => ⟨⟨hp, hlt⟩, rfl⟩⟩

private theorem trueOutboard_lt {i : Nat} {x : H} (h : TrueOutboard f blob i x) : i < (outboardOf f blob).length := by
  obtain ⟨p, hp, hx⟩ := h
  have hlt := slot_lt hp.1 hp.2
  rw [length_outboardOf]
  omega

/-- A file in which the outboard was written from the start. -/
private theorem bytes_outboard {ws : List (Nat × List H)} (hws : Content.Respects (TrueOutboard f blob) ws)
    (hpairs : ∀ p, IsStored blob p → HasPair f blob (Content.empty.writes ws) p) :
    bytes zero (Content.empty.writes ws) = outboardOf f blob := by
  have hcell : ∀ i, i < (outboardOf f blob).length → (Content.empty.writes ws).cell i = (outboardOf f blob)[i]? := by
    intro i hi
    rw [length_outboardOf] at hi
    exact cell_eq_of_hasPair hpairs hi
  have hle : (Content.empty.writes ws).len ≤ (outboardOf f blob).length :=
    Content.len_writes_le (Nat.zero_le _) (fun i x h => trueOutboard_lt h) hws
  exact bytes_eq (Nat.le_antisymm hle (length_le_len (Content.bounded_empty.writes ws) hcell)) hcell

variable (zero options) in
/-- `compute_outboard` computes the outboard of the data. -/
theorem computeOutboard_ok {source : ImportStream.ImportSource} (hlib : lib.Lawful f blob)
    (hcontent : source.content = blob)
    (hsize : source.size = blob.length) : ∃ entry, computeOutboard f zero lib options source = .ok entry ∧
      entry.hash = hashSubtree f 0 blob true ∧ entry.source = source ∧ IsOutboard f blob entry.outboard ∧
      entry.outboard.isMem = options.isInlinedOutboard (rawOutboardSize blob.length) := by
  obtain ⟨-, saved, hinit, -, hsaved⟩ := InitOutboard.initOutboard_root f blob hlib.postOrder
  unfold computeOutboard
  rw [hsize, hcontent]
  simp only [hinit]
  refine ⟨_, rfl, rfl, rfl, ?_⟩
  have htrue : ∀ item ∈ saved.map (fun x => BaoContentItem.parent ⟨x.1, x.2⟩), TrueItem f blob blob.length item := by
    intro item hitem
    obtain ⟨⟨node, pair⟩, hmem, rfl⟩ := List.mem_map.mp hitem
    obtain ⟨p, hp, hlt, rfl, rfl⟩ := (hsaved node pair).mp hmem
    exact ⟨p, trueParent hp hlt⟩
  have hpairs : ∀ p, IsStored blob p → HasPair f blob (savedOutboard blob.length saved) p := by
    intro p hp
    have hmem := (hsaved _ _).mpr ⟨p, hp.1, hp.2, rfl, rfl⟩
    exact hasPair_of_mem outboardWriter_mem htrue (List.mem_map.mpr ⟨_, hmem, rfl⟩) (trueParent hp.1 hp.2) hp.2 .empty
  have hinlined : options.isInlinedOutboard (rawOutboardSize blob.length) =
      decide (rawOutboardSize blob.length ≤ options.maxOutboardInlined) := rfl
  rw [hinlined]
  split
  · rename_i h
    refine ⟨?_, by simp only [MemOrFile.isMem]; rw [eq_comm, decide_eq_false_iff_not]; omega⟩
    intro i hi
    rw [length_outboardOf] at hi
    exact cell_eq_of_hasPair hpairs hi
  · rename_i h
    refine ⟨?_, by simp only [MemOrFile.isMem]; rw [eq_comm, decide_eq_true_iff]; omega⟩
    exact bytes_outboard (respects_outboardWrites outboardWriter_mem htrue) hpairs

/-- An import of the data has its hash, source and outboard. -/
structure IsImport (f : HashFns UInt8 H) (options : InlineOptions) (blob : List UInt8)
    (entry : ImportEntry H) : Prop where
  hash : entry.hash = hashSubtree f 0 blob true
  content : entry.source.content = blob
  size : entry.source.size = blob.length
  isMem : entry.source.isMem = options.isInlinedData blob.length
  outboard : IsOutboard f blob entry.outboard
  outboard_isMem : entry.outboard.isMem = options.isInlinedOutboard (rawOutboardSize blob.length)

private theorem isImport_of_computeOutboard {source : ImportStream.ImportSource} {entry : ImportEntry H}
    (hlib : lib.Lawful f blob)
    (hcontent : source.content = blob) (hsize : source.size = blob.length)
    (hmem : source.isMem = options.isInlinedData blob.length)
    (h : computeOutboard f zero lib options source = .ok entry) : IsImport f options blob entry := by
  obtain ⟨entry', hok, hhash, hsource, houtboard, hout⟩ := computeOutboard_ok zero options hlib hcontent hsize
  rw [h, Except.ok.injEq] at hok
  subst hok
  exact ⟨hhash, by rw [hsource, hcontent], by rw [hsource, hsize], by rw [hsource, hmem], houtboard, hout⟩

private theorem isImport_of_byteStream {env : ImportStream.Env} {chunks : List (List UInt8)} {entry : ImportEntry H}
    (hlib : lib.Lawful f blob) (hchunks : chunks.flatten = blob)
    (h : importByteStream f zero lib options env chunks = .ok entry) : IsImport f options blob entry := by
  unfold importByteStream at h
  split at h
  · cases h
  · rename_i source hsource
    have hholds := ImportStream.getImportSource_ok hsource
    rw [hchunks] at hholds
    exact isImport_of_computeOutboard hlib hholds.content hholds.size hholds.isMem h

private theorem isImport_tiny (hlib : lib.Lawful f blob) (hdata : options.isInlinedData blob.length = true)
    (houtboard : options.isInlinedOutboard (rawOutboardSize blob.length) = true) :
    IsImport f options blob (importBytesTiny f lib blob) := by
  unfold importBytesTiny
  split
  · rename_i h
    refine ⟨rfl, rfl, rfl, hdata.symm, ?_, houtboard.symm⟩
    exact (rawOutboardSize_eq_zero.mp h).symm
  · rw [hlib.create]
    exact ⟨rfl, rfl, rfl, hdata.symm, rfl, houtboard.symm⟩

private theorem Imported.isImport {entry : ImportEntry H} (hlib : lib.Lawful f blob)
    (h : Imported f zero lib options blob entry) :
    IsImport f options blob entry := by
  cases h with
  | bytes env h =>
    unfold importBytes at h
    split at h
    · rename_i hinlined
      rw [Bool.and_eq_true] at hinlined
      cases h
      exact isImport_tiny hlib hinlined.1 hinlined.2
    · exact isImport_of_byteStream hlib (by simp) h
  | byteStream env chunks hchunks h => exact isImport_of_byteStream hlib hchunks h
  | path h =>
    unfold importPathCopy at h
    have hinlined : options.isInlinedData blob.length = decide (blob.length ≤ options.maxDataInlined) := rfl
    refine isImport_of_computeOutboard hlib ?_ ?_ ?_ h
    · split <;> rfl
    · split <;> rfl
    · rw [hinlined]
      split
      · rename_i hle
        exact (decide_eq_true hle).symm
      · rename_i hle
        exact (decide_eq_false hle).symm

/-- The data can be imported. -/
theorem exists_imported (hlib : lib.Lawful f blob) : ∃ entry, Imported f zero lib options blob entry := by
  have hcontent : (if blob.length ≤ options.maxDataInlined then ImportStream.ImportSource.memory blob
      else .tempFile blob blob.length).content = blob := by
    split <;> rfl
  have hsize : (if blob.length ≤ options.maxDataInlined then ImportStream.ImportSource.memory blob
      else .tempFile blob blob.length).size = blob.length := by
    split <;> rfl
  obtain ⟨entry, h, -⟩ := computeOutboard_ok zero options hlib hcontent hsize
  exact ⟨entry, .path h⟩

/-- The entry after a local import. -/
private theorem IsImport.entry {entry : ImportEntry H} (h : IsImport f options blob entry) :
    IsEntryOf f options blob (finishImport entry) := by
  obtain ⟨hash, source, outboard⟩ := entry
  obtain ⟨-, hcontent, hsize, hmem, hout, houtMem⟩ := h
  simp only at hcontent hsize hmem hout houtMem
  have hdata : IsData blob (finishImport ⟨hash, source, outboard⟩).data ∧
      (finishImport ⟨hash, source, outboard⟩).data.isMem = options.isInlinedData blob.length ∧
      (finishImport ⟨hash, source, outboard⟩).dataLocation =
        if options.isInlinedData blob.length then .inline blob else .owned blob.length := by
    rw [← hmem]
    cases source with
    | memory data =>
      cases hcontent
      exact ⟨rfl, rfl, rfl⟩
    | tempFile content size =>
      cases hcontent
      have hlen : size = content.length := hsize
      subst hlen
      exact ⟨⟨rfl, fun i _ => rfl⟩, rfl, rfl⟩
  refine ⟨hdata.1, hdata.2.1, hout, houtMem, hdata.2.2, ?_⟩
  rw [← houtMem]
  cases outboard with
  | mem bytes =>
    cases hout
    simp only [finishImport, MemOrFile.isMem, if_true, List.isEmpty_iff, ← rawOutboardSize_eq_zero]
  | file content =>
    simp only [finishImport, MemOrFile.isMem, Bool.false_eq_true, if_false]
    have hpos : ¬ rawOutboardSize blob.length = 0 := by
      intro hzero
      rw [hzero] at houtMem
      simp [MemOrFile.isMem, InlineOptions.isInlinedOutboard] at houtMem
    rw [if_neg hpos]

/-! ### Syncing -/

/-- The files of an entry at their canonical paths, before the entry exists. -/
structure Disk (H : Type) where
  files : Files H
  data_bounded : files.data.Bounded
  outboard_bounded : files.outboard.Bounded

/-- The parents of a leaf come before it. -/
def ParentsFirst (f : HashFns UInt8 H) (blob : List UInt8) (items : List (BaoContentItem H)) : Prop :=
  ∀ before leaf after p, items = before ++ .leaf leaf :: after → TrueLeaf blob blob.length p leaf →
    ∀ q b r, p = q ++ b :: r → IsStored blob q → ∃ parent, .parent parent ∈ before ∧
      TrueParent f blob blob.length q parent

/-- The leaves have all chunks of the blob. -/
def LeavesCover (blob : List UInt8) (items : List (BaoContentItem H)) : Prop :=
  ∀ x, x < chunks blob.length → ∃ leaf, .leaf leaf ∈ items ∧ x ∈ chunkRange leaf

/-- What the files of an entry have after some items. -/
structure Written (f : HashFns UInt8 H) (blob : List UInt8) (items : List (BaoContentItem H)) (data : Content UInt8)
    (outboard : Content H) (bitfield : Bitfield) : Prop where
  chunks : HasBitfield f blob data outboard bitfield
  fits : Fits blob.length (fun _ _ => True) bitfield
  ranges : ∀ x, x < Merkle.chunks blob.length → (x ∈ bitfield.ranges ↔ ∃ leaf, .leaf leaf ∈ items ∧ x ∈ chunkRange leaf)
  pairs : ∀ p parent, .parent parent ∈ items → TrueParent f blob blob.length p parent →
    16 < (sub (treeChunks blob.length) p).2 → HasPair f blob outboard p
  data_bounded : data.Bounded
  outboard_bounded : outboard.Bounded

variable {items items' : List (BaoContentItem H)} {data : Content UInt8} {outboard : Content H} {bitfield : Bitfield}

private theorem written_nil (hdata : data.Bounded) (houtboard : outboard.Bounded) :
    Written f blob [] data outboard .empty where
  chunks := hasBitfield_empty data outboard
  fits := fits_empty
  ranges x _ := iff_of_false (RangeSet.not_mem_empty x) (by simp)
  pairs p parent h := by cases h
  data_bounded := hdata
  outboard_bounded := houtboard

/-- The batch of an import with the right size fits the blob. -/
private theorem fits_batch (blob : List UInt8) (ranges : ChunkRanges) :
    Fits blob.length (fun _ _ => True) ⟨blob.length, ranges⟩ := Or.inl rfl

/-- Writing a batch. -/
theorem Written.write {write : Nat → BaoContentItem H → List (Nat × List H)} (hw : OutboardWriter write)
    (h : Written f blob items data outboard bitfield) (htrue : ∀ item ∈ items', TrueItem f blob blob.length item)
    (hparents : ParentsFirst f blob (items ++ items')) :
    Written f blob (items ++ items') (data.writes (items'.flatMap dataWrites))
      (outboard.writes (items'.flatMap (write blob.length)))
      (bitfield.combine ⟨blob.length, CurrentSize.batchRanges items'⟩) := by
  have hdws := respects_dataWrites htrue
  have hows := respects_outboardWrites hw htrue
  obtain ⟨hfits, hnew⟩ := fits_combine h.fits (fits_batch blob (CurrentSize.batchRanges items'))
  have hpairs : ∀ p parent, .parent parent ∈ items ++ items' → TrueParent f blob blob.length p parent →
      16 < (sub (treeChunks blob.length) p).2 →
        HasPair f blob (outboard.writes (items'.flatMap (write blob.length))) p := by
    intro p parent hmem hp hlt
    rcases List.mem_append.mp hmem with hmem | hmem
    · exact (h.pairs p parent hmem hp hlt).writes (hp.placed hlt).1 hows
    · exact hasPair_of_mem hw htrue hmem hp hlt outboard
  -- a chunk of a leaf of the batch is provable, since the parents of the leaf are there
  have hleaf : ∀ leaf, .leaf leaf ∈ items' → ∀ x ∈ chunkRange leaf,
      HasChunk f blob (data.writes (items'.flatMap dataWrites))
        (outboard.writes (items'.flatMap (write blob.length))) x := by
    intro leaf hmem x hx
    obtain ⟨p, hp⟩ := htrue _ hmem
    obtain ⟨h1, h2⟩ := (mem_chunkRange hp).mp hx
    refine hasChunk_of_leaf htrue hmem hp ?_ h1 h2
    intro q b r hq hlt hstored
    obtain ⟨before, after, hsplit⟩ := List.append_of_mem (List.mem_append_right items hmem)
    obtain ⟨parent, hparent, htrueParent⟩ := hparents before leaf after p hsplit hp q b r hq hstored
    exact hpairs q parent (by rw [hsplit]; exact List.mem_append_left _ hparent) htrueParent hlt
  refine ⟨?_, hfits, ?_, hpairs, h.data_bounded.writes _, h.outboard_bounded.writes _⟩
  · intro x hx hlt
    rcases hnew x hx with hx | ⟨hle, -⟩
    · rcases RangeSet.mem_union.mp hx with hx | hx
      · exact (h.chunks x hx hlt).writes hdws hows
      · obtain ⟨leaf, hmem, hx⟩ := CurrentSize.mem_batchRanges.mp hx
        exact hleaf leaf hmem x hx
    · omega
  · intro x hlt
    have hunion : x ∈ (bitfield.combine ⟨blob.length, CurrentSize.batchRanges items'⟩).ranges ↔
        x ∈ bitfield.ranges ∨ x ∈ CurrentSize.batchRanges items' := by
      constructor
      · intro hx
        rcases hnew x hx with hx | ⟨hle, -⟩
        · exact RangeSet.mem_union.mp hx
        · omega
      · intro hx
        exact Bitfield.mem_new_of_mem (RangeSet.mem_union.mpr hx)
    rw [hunion, h.ranges x hlt, CurrentSize.mem_batchRanges]
    simp only [List.mem_append, or_and_right, exists_or]

/-- A copy that leaves nothing out has all that was written. -/
theorem cell_persist_of_some {α : Type} {c target : Content α} {omits : Nat → Bool} (hb : c.Bounded)
    (hw : ∀ i, omits i = false) {i : Nat} {x : α} (h : c.cell i = some x) :
    (c.persist omits target).cell i = some x := by
  rw [Content.cell_persist hb, hw, if_neg Bool.false_ne_true, h, Option.some_or]

/-- A switch from memory to files. -/
private theorem Written.persist (h : Written f blob items data outboard bitfield) {omits : Omits} (hw : omits.WritesAll)
    {target : Content UInt8} {target' : Content H} (hbounded : target.Bounded) (hbounded' : target'.Bounded) :
    Written f blob items (data.persist omits.data.contains target)
      (outboard.persist omits.outboard.contains target') bitfield where
  chunks x hx hlt := by
    have hchunk := h.chunks x hx hlt
    refine ⟨?_, ?_⟩
    · intro i h1 h2 h3
      rw [List.getElem?_eq_getElem h3]
      refine cell_persist_of_some h.data_bounded hw.data ?_
      rw [hchunk.data i h1 h2 h3, List.getElem?_eq_getElem h3]
    · intro p hp h1 h2
      obtain ⟨hl, hr⟩ := hchunk.pairs p hp h1 h2
      exact ⟨cell_persist_of_some h.outboard_bounded hw.outboard hl,
        cell_persist_of_some h.outboard_bounded hw.outboard hr⟩
  fits := h.fits
  ranges := h.ranges
  pairs p parent hmem hp hlt := by
    obtain ⟨hl, hr⟩ := h.pairs p parent hmem hp hlt
    exact ⟨cell_persist_of_some h.outboard_bounded hw.outboard hl,
      cell_persist_of_some h.outboard_bounded hw.outboard hr⟩
  data_bounded := hbounded.persist _
  outboard_bounded := hbounded'.persist _

/-- The entry is complete when the leaves have all chunks. -/
theorem Written.bitfield_isComplete_iff (h : Written f blob items data outboard bitfield) (hpos : 0 < blob.length) :
    bitfield.isComplete = true ↔ LeavesCover blob items := by
  constructor
  · intro hcomplete x hx
    exact (h.ranges x hx).mp ((complete_of_fits h.fits hcomplete).2 x hx)
  · intro hcovers
    have hall : ∀ x, x < Merkle.chunks blob.length → x ∈ bitfield.ranges :=
      fun x hx => (h.ranges x hx).mpr (hcovers x hx)
    have hchunks := Bitfield.chunks_pos hpos
    have hsize : bitfield.size = blob.length := by
      rcases h.fits with hsize | hwrong
      · exact hsize
      · have hlast := hwrong _ (hall (Merkle.chunks blob.length - 1) (by omega))
        omega
    unfold Bitfield.isComplete
    rw [hsize, if_neg (by omega), RangeSet.isSubset_iff]
    intro x hx
    rw [RangeSet.mem_range] at hx
    exact hall x hx.2

/-- What a complete entry has. -/
structure HasContent (f : HashFns UInt8 H) (blob : List UInt8) (data : Content UInt8)
    (outboard : Content H) : Prop where
  data : ∀ i, i < blob.length → data.cell i = blob[i]?
  outboard : ∀ i, i < (outboardOf f blob).length → outboard.cell i = (outboardOf f blob)[i]?

private theorem Written.content (h : Written f blob items data outboard bitfield)
    (hcomplete : bitfield.isComplete = true) :
    bitfield.size = blob.length ∧ HasContent f blob data outboard := by
  obtain ⟨hsize, hall⟩ := complete_of_fits h.fits hcomplete
  refine ⟨hsize, ?_, ?_⟩
  · intro i hi
    have hx : i / 1024 < Merkle.chunks blob.length := by
      unfold Merkle.chunks
      omega
    exact (h.chunks _ (hall _ hx) hx).data i (by omega) (by omega) hi
  · intro i hi
    rw [length_outboardOf] at hi
    refine cell_eq_of_hasPair ?_ hi
    intro p hp
    have hn : 0 < treeChunks blob.length := by unfold treeChunks; omega
    have hbounds := sub_bounds hn (hp.1.mono (by omega))
    have hlt := hp.2
    have hx : (sub (treeChunks blob.length) p).1 < Merkle.chunks blob.length := by
      have e : treeChunks blob.length = max 1 (Merkle.chunks blob.length) := rfl
      omega
    exact (h.chunks _ (hall _ hx) hx).pairs p hp (Nat.le_refl _) (by omega)

/-! ### Completing -/

/-- The data of a complete entry: it is inlined, or a file starts with it. -/
def DataPart (options : InlineOptions) (blob : List UInt8) (e : Entry H) : Prop :=
  if options.isInlinedData blob.length then e.data = .mem blob ∧ e.dataLocation = .inline blob
  else ∃ c : Content UInt8, (∀ i, i < blob.length → c.cell i = blob[i]?) ∧ e.data = .file ⟨c, blob.length⟩ ∧
    e.dataLocation = .owned blob.length

/-- The outboard of a complete entry: it is not needed, or inlined, or a file starts with it. -/
def OutboardPart (f : HashFns UInt8 H) (options : InlineOptions) (blob : List UInt8) (e : Entry H) : Prop :=
  if rawOutboardSize blob.length = 0 then e.outboard = .mem [] ∧ e.outboardLocation = .notNeeded
  else if options.isInlinedOutboard (rawOutboardSize blob.length) then
    e.outboard = .mem (outboardOf f blob) ∧ e.outboardLocation = .inline (outboardOf f blob)
  else ∃ c : Content H, (∀ i, i < (outboardOf f blob).length → c.cell i = (outboardOf f blob)[i]?) ∧
    e.outboard = .file c ∧
    e.outboardLocation = .owned

private theorem isEntryOf_of_parts {e : Entry H} (hdata : DataPart options blob e)
    (houtboard : OutboardPart f options blob e) :
    IsEntryOf f options blob e := by
  obtain ⟨data, outboard, dataLocation, outboardLocation⟩ := e
  have hfirst : IsData blob data ∧ data.isMem = options.isInlinedData blob.length ∧
      dataLocation = if options.isInlinedData blob.length then .inline blob else .owned blob.length := by
    unfold DataPart at hdata
    split at hdata
    · rename_i h
      obtain ⟨rfl, rfl⟩ := hdata
      exact ⟨rfl, h.symm, by rw [if_pos h]⟩
    · rename_i h
      obtain ⟨c, hc, rfl, rfl⟩ := hdata
      exact ⟨⟨rfl, hc⟩, (Bool.eq_false_iff.mpr h).symm, by rw [if_neg h]⟩
  have hsecond : IsOutboard f blob outboard ∧ outboard.isMem = options.isInlinedOutboard (rawOutboardSize blob.length) ∧
      outboardLocation = if rawOutboardSize blob.length = 0 then .notNeeded
        else if options.isInlinedOutboard (rawOutboardSize blob.length) then
          .inline (outboardOf f blob) else .owned := by
    unfold OutboardPart at houtboard
    split at houtboard
    · rename_i hzero
      obtain ⟨rfl, rfl⟩ := houtboard
      have hinlined : options.isInlinedOutboard (rawOutboardSize blob.length) = true := by
        rw [hzero]
        exact decide_eq_true (Nat.zero_le _)
      exact ⟨(rawOutboardSize_eq_zero.mp hzero).symm, hinlined.symm, by rw [if_pos hzero]⟩
    · rename_i hzero
      rw [if_neg hzero]
      split at houtboard
      · rename_i h
        obtain ⟨rfl, rfl⟩ := houtboard
        exact ⟨rfl, h.symm, by rw [if_pos h]⟩
      · rename_i h
        obtain ⟨c, hc, rfl, rfl⟩ := houtboard
        exact ⟨hc, (Bool.eq_false_iff.mpr h).symm, by rw [if_neg h]⟩
  exact ⟨hfirst.1, hfirst.2.1, hsecond.1, hsecond.2.1, hfirst.2.2, hsecond.2.2⟩

variable (zero options) in
/-- Files that start with the data and the outboard give the entry. -/
private theorem isEntryOf_intoCompleteFile {s : PartialFileStorage H} (h : HasContent f blob s.data s.outboard)
    (hdata : s.data.Bounded) (houtboard : s.outboard.Bounded) :
    IsEntryOf f options blob (intoCompleteFile zero options s blob.length) := by
  have hbytes : bytes 0 (s.data.readToEnd blob.length) = blob := bytes_readToEnd hdata h.data
  have hhashes : bytes zero (s.outboard.readToEnd (rawOutboardSize blob.length / 32)) = outboardOf f blob := by
    rw [rawOutboardSize_div (f := f)]
    exact bytes_readToEnd houtboard h.outboard
  apply isEntryOf_of_parts
  · unfold DataPart
    split
    · rename_i hinlined
      simp only [intoCompleteFile, hinlined, if_true, hbytes, and_self]
    · rename_i hinlined
      refine ⟨s.data, h.data, ?_⟩
      simp only [intoCompleteFile, hinlined, Bool.false_eq_true, if_false, and_self]
  · unfold OutboardPart
    split
    · rename_i hzero
      have hinlined : options.isInlinedOutboard 0 = true := decide_eq_true (Nat.zero_le _)
      simp only [intoCompleteFile, hzero, hinlined, if_true, and_self]
    · rename_i hzero
      split
      · rename_i hinlined
        simp only [intoCompleteFile, hinlined, if_true, if_neg hzero, hhashes, and_self]
      · rename_i hinlined
        refine ⟨s.outboard, h.outboard, ?_⟩
        simp only [intoCompleteFile, hinlined, Bool.false_eq_true, if_false, and_self]

private theorem cell_persist_of_eq {α : Type} {c target : Content α} {omits : Nat → Bool} {l : List α} (hb : c.Bounded)
    (hw : ∀ i, omits i = false) (h : ∀ i, i < l.length → c.cell i = l[i]?) :
    ∀ i, i < l.length → (c.persist omits target).cell i = l[i]? := by
  intro i hi
  rw [List.getElem?_eq_getElem hi]
  refine cell_persist_of_some hb hw ?_
  rw [h i hi, List.getElem?_eq_getElem hi]

variable (zero options) in
/-- Memory that holds the data and the outboard gives the entry. -/
private theorem isEntryOf_intoCompleteMem {s : PartialMemStorage H} {disk : Files H} (hw : disk.omits.WritesAll)
    (hsize : s.bitfield.size = blob.length) (h : HasContent f blob s.data s.outboard) (hdata : s.data.len = blob.length)
    (houtboard : s.outboard.len = (outboardOf f blob).length) (hb : s.data.Bounded) (hb' : s.outboard.Bounded) :
    IsEntryOf f options blob (intoCompleteMem zero options disk s) := by
  have hbytes : bytes 0 s.data = blob := bytes_eq hdata h.data
  have hhashes : bytes zero s.outboard = outboardOf f blob := bytes_eq houtboard h.outboard
  apply isEntryOf_of_parts
  · unfold DataPart
    split
    · rename_i hinlined
      simp only [intoCompleteMem, PartialMemStorage.currentSize, hsize, hinlined, if_true, hbytes, and_self]
    · rename_i hinlined
      refine ⟨s.data.persist disk.omits.data.contains disk.data, cell_persist_of_eq hb hw.data h.data, ?_⟩
      simp only [intoCompleteMem, PartialMemStorage.currentSize, hsize, hinlined, Bool.false_eq_true,
        if_false, and_self]
  · unfold OutboardPart
    split
    · rename_i hzero
      have hinlined : options.isInlinedOutboard 0 = true := decide_eq_true (Nat.zero_le _)
      simp only [intoCompleteMem, PartialMemStorage.currentSize, hsize, hzero, hinlined, if_true,
        gt_iff_lt, Nat.lt_irrefl, if_false, and_self]
    · rename_i hzero
      split
      · rename_i hinlined
        simp only [intoCompleteMem, PartialMemStorage.currentSize, hsize, hinlined, if_true, gt_iff_lt,
          Nat.pos_of_ne_zero hzero, hhashes, and_self]
      · rename_i hinlined
        refine ⟨s.outboard.persist disk.omits.outboard.contains disk.outboard,
          cell_persist_of_eq hb' hw.outboard h.outboard, ?_⟩
        simp only [intoCompleteMem, PartialMemStorage.currentSize, hsize, hinlined, Bool.false_eq_true, if_false,
          if_neg hzero, and_self]

/-! ### Every sequence of batches -/

/-- What holds of an entry after some items.  Entries are in memory only while a batch is written. -/
def Synced (f : HashFns UInt8 H) (blob : List UInt8) (items : List (BaoContentItem H)) : BaoFileStorage H → Prop
  | .nonExisting => items = []
  | .partialFile fs => Written f blob items fs.data fs.outboard fs.bitfield ∧ ¬ LeavesCover blob items
  | .complete _ => LeavesCover blob items
  | .initial | .loading | .partialMem _ | .poisoned => False

/-- What a batch does: the entry after it, and the complete entry if the batch completes it. -/
structure AfterBatch (f : HashFns UInt8 H) (options : InlineOptions) (blob : List UInt8)
    (items : List (BaoContentItem H))
    (entry : BaoFileStorage H) (completed : Option (Entry H)) : Prop where
  synced : Synced f blob items entry
  entryOf : ∀ e, completed = some e → IsEntryOf f options blob e
  isSome : completed.isSome = true ↔ LeavesCover blob items

private theorem LeavesCover.append (h : LeavesCover blob items) : LeavesCover blob (items ++ items') := by
  intro x hx
  obtain ⟨leaf, hmem, hx⟩ := h x hx
  exact ⟨leaf, List.mem_append_left _ hmem, hx⟩

private theorem ParentsFirst.of_append (h : ParentsFirst f blob (items ++ items')) : ParentsFirst f blob items := by
  intro before leaf after p hsplit
  exact h before leaf (after ++ items') p (by rw [hsplit, List.append_assoc]; rfl)

private theorem not_leavesCover_nil (hpos : 0 < blob.length) : ¬ LeavesCover blob ([] : List (BaoContentItem H)) := by
  intro h
  obtain ⟨leaf, hmem, -⟩ := h 0 (Bitfield.chunks_pos hpos)
  cases hmem

variable (zero options) in
/-- The entry after files were written. -/
private theorem afterBatch_file (hpos : 0 < blob.length) {fs : PartialFileStorage H}
    (h : Written f blob items fs.data fs.outboard fs.bitfield) :
    AfterBatch f options blob items (BaoFileStorage.afterFileBatch options fs) (completionFile zero options fs) := by
  have hiff := h.bitfield_isComplete_iff hpos
  unfold BaoFileStorage.afterFileBatch completionFile
  split
  · rename_i hcomplete
    obtain ⟨hsize, hcontent⟩ := h.content hcomplete
    refine ⟨hiff.mp hcomplete, ?_, iff_of_true rfl (hiff.mp hcomplete)⟩
    intro e he
    cases he
    rw [hsize]
    exact isEntryOf_intoCompleteFile zero options hcontent h.data_bounded h.outboard_bounded
  · rename_i hcomplete
    have hnot : ¬ LeavesCover blob items := fun hcovers => hcomplete (hiff.mpr hcovers)
    refine ⟨⟨h, hnot⟩, ?_, iff_of_false Bool.false_ne_true hnot⟩
    intro e he
    cases he

variable (zero options) in
/-- A batch is written to files. -/
theorem afterBatch_partialFile (hpos : 0 < blob.length) {fs : PartialFileStorage H}
    (h : Written f blob items fs.data fs.outboard fs.bitfield)
    (htrue : ∀ item ∈ items', TrueItem f blob blob.length item)
    (hparents : ParentsFirst f blob (items ++ items')) :
    ∀ fs' : PartialFileStorage H, fs' = { fs.writeBatch blob.length items' with
        bitfield :=
  ((fs.writeBatch blob.length items').bitfield.update ⟨blob.length, CurrentSize.batchRanges items'⟩).1 } →
      AfterBatch f options blob (items ++ items') (BaoFileStorage.afterFileBatch options fs')
        (completionFile zero options fs') := by
  intro fs' hfs'
  rw [writeBatch_eq_file] at hfs'
  subst hfs'
  exact afterBatch_file zero options hpos (h.write outboardWriter_file htrue hparents)

variable (zero options) in
/-- The first batch of an entry. -/
private theorem afterBatch_nonExisting (hpos : 0 < blob.length) (disk : Disk H)
    (hcopies : maxOffset items' ≤ options.maxDataInlined → disk.files.omits.WritesAll)
    (htrue : ∀ item ∈ items', TrueItem f blob blob.length item) (hparents : ParentsFirst f blob items') :
    AfterBatch f options blob items'
      (BaoFileStorage.writeBatchMem options disk.files items' ⟨blob.length, CurrentSize.batchRanges items'⟩ .default).1
      (completionMem zero options disk.files items' ⟨blob.length, CurrentSize.batchRanges items'⟩ .default) := by
  have hstart : Written f blob [] (Content.empty) (Content.empty : Content H) .empty :=
    written_nil Content.bounded_empty Content.bounded_empty
  unfold BaoFileStorage.writeBatchMem completionMem
  split
  · rename_i hmem
    have hw := hcopies hmem
    have h := hstart.write outboardWriter_mem htrue hparents
    obtain ⟨hdata, houtboard, hbitfield⟩ := writeBatch_eq_mem blob.length items' (PartialMemStorage.default (H := H))
    rw [List.nil_append] at h
    simp only
    generalize hms : PartialMemStorage.writeBatch blob.length items' (PartialMemStorage.default (H := H)) = ms at *
    have hwritten : Written f blob items' ms.data ms.outboard
        (ms.bitfield.update ⟨blob.length, CurrentSize.batchRanges items'⟩).1 := by
      rw [hdata, houtboard, hbitfield]
      exact h
    have hiff := hwritten.bitfield_isComplete_iff hpos
    have hlen : ms.data.len ≤ blob.length := by
      rw [hdata]
      exact Content.len_writes_le (Nat.zero_le _) (fun i x hx => (List.getElem?_eq_some_iff.mp hx).1)
        (respects_dataWrites htrue)
    have hlen' : ms.outboard.len ≤ (outboardOf f blob).length := by
      rw [houtboard]
      exact Content.len_writes_le (Nat.zero_le _) (fun i x hx => trueOutboard_lt hx)
        (respects_outboardWrites outboardWriter_mem htrue)
    unfold BaoFileStorage.afterMemBatch
    split
    · rename_i hcomplete
      obtain ⟨hsize, hcontent⟩ := hwritten.content hcomplete
      refine ⟨hiff.mp hcomplete, ?_, iff_of_true rfl (hiff.mp hcomplete)⟩
      intro e he
      cases he
      exact isEntryOf_intoCompleteMem zero options hw hsize hcontent
        (Nat.le_antisymm hlen (length_le_len hwritten.data_bounded hcontent.data))
        (Nat.le_antisymm hlen' (length_le_len hwritten.outboard_bounded hcontent.outboard)) hwritten.data_bounded
        hwritten.outboard_bounded
    · rename_i hcomplete
      have hnot : ¬ LeavesCover blob items' := fun hcovers => hcomplete (hiff.mpr hcovers)
      refine ⟨⟨hwritten.persist hw disk.data_bounded disk.outboard_bounded, hnot⟩, ?_,
        iff_of_false Bool.false_ne_true hnot⟩
      intro e he
      cases he
  · -- nothing is copied
    have hfile : Written f blob [] ((PartialMemStorage.default (H := H)).persist disk.files).data
        ((PartialMemStorage.default (H := H)).persist disk.files).outboard
        ((PartialMemStorage.default (H := H)).persist disk.files).bitfield :=
      written_nil disk.data_bounded disk.outboard_bounded
    exact afterBatch_partialFile zero options hpos hfile htrue hparents _ rfl

variable (zero options) in
/-- One batch: the entry stays synced, and is completed if and only if the leaves have all chunks for the first time. -/
private theorem sync_step (hpos : 0 < blob.length) (disk : Disk H) {entry : BaoFileStorage H}
    (h : Synced f blob items entry)
    (hcopies : entry = .nonExisting → maxOffset items' ≤ options.maxDataInlined → disk.files.omits.WritesAll)
    (htrue : ∀ item ∈ items', TrueItem f blob blob.length item) (hparents : ParentsFirst f blob (items ++ items')) :
    Synced f blob (items ++ items')
        (entry.writeBatch options disk.files items' ⟨blob.length, CurrentSize.batchRanges items'⟩).1 ∧
      (∀ e, completion zero options disk.files items' ⟨blob.length, CurrentSize.batchRanges items'⟩ entry = some e →
        IsEntryOf f options blob e) ∧
      ((completion zero options disk.files items' ⟨blob.length, CurrentSize.batchRanges items'⟩ entry).isSome = true ↔
        ¬ LeavesCover blob items ∧ LeavesCover blob (items ++ items')) := by
  cases entry with
  | nonExisting =>
    have hnil : items = [] := h
    subst hnil
    have hafter := afterBatch_nonExisting zero options hpos disk (hcopies rfl) htrue hparents
    exact ⟨hafter.synced, hafter.entryOf, hafter.isSome.trans (and_iff_right (not_leavesCover_nil hpos)).symm⟩
  | partialFile fs =>
    obtain ⟨hwritten, hnot⟩ := h
    have hafter := afterBatch_partialFile zero options hpos hwritten htrue hparents _ rfl
    exact ⟨hafter.synced, hafter.entryOf, hafter.isSome.trans (and_iff_right hnot).symm⟩
  | complete s =>
    have hcovers : LeavesCover blob items := h
    refine ⟨hcovers.append, ?_, iff_of_false Bool.false_ne_true (fun hnot => hnot.1 hcovers)⟩
    intro e he
    cases he
  | partialMem s => exact False.elim h
  | initial => exact False.elim h
  | loading => exact False.elim h
  | poisoned => exact False.elim h

/-- The first batch makes files, or completes the entry. -/
private theorem writeBatch_ne_nonExisting (disk : Files H) (batch : List (BaoContentItem H)) (bitfield : Bitfield)
    (h : Synced f blob items entry) : (entry.writeBatch options disk batch bitfield).1 ≠ .nonExisting := by
  have hfile : ∀ fs : PartialFileStorage H, BaoFileStorage.afterFileBatch options fs ≠ .nonExisting := by
    intro fs
    unfold BaoFileStorage.afterFileBatch
    split <;> simp
  have hmem : ∀ ms : PartialMemStorage H, BaoFileStorage.afterMemBatch options disk ms ≠ .nonExisting := by
    intro ms
    unfold BaoFileStorage.afterMemBatch
    split <;> simp
  cases entry with
  | nonExisting =>
    simp only [BaoFileStorage.writeBatch, BaoFileStorage.writeBatchMem]
    split
    · exact hmem _
    · exact hfile _
  | partialFile fs => exact hfile _
  | complete s => simp [BaoFileStorage.writeBatch]
  | partialMem s => exact False.elim h
  | initial => exact False.elim h
  | loading => exact False.elim h
  | poisoned => exact False.elim h

/-- If the first batch is written to memory and then copied to the files, the copy leaves nothing out. -/
def CopiesFirst (options : InlineOptions) (omits : Omits) (batches : List (List (BaoContentItem H))) : Prop :=
  ∀ batch ∈ batches.head?, maxOffset batch ≤ options.maxDataInlined → omits.WritesAll

variable (zero options) in
/-- All batches: one complete entry is made, when the leaves have all chunks for the first time. -/
private theorem sync_run (hpos : 0 < blob.length) (disk : Disk H) {batches : List (List (BaoContentItem H))}
    {entry : BaoFileStorage H} (h : Synced f blob items entry)
    (hcopies : entry = .nonExisting → CopiesFirst options disk.files.omits batches)
    (htrue : ∀ batch ∈ batches, ∀ item ∈ batch, TrueItem f blob blob.length item)
    (hparents : ParentsFirst f blob (items ++ batches.flatten)) :
    Synced f blob (items ++ batches.flatten) (sync zero options disk.files blob.length entry batches).1 ∧
      (∀ e ∈ (sync zero options disk.files blob.length entry batches).2, IsEntryOf f options blob e) ∧
      (LeavesCover blob items → (sync zero options disk.files blob.length entry batches).2 = []) ∧
      (¬ LeavesCover blob items → LeavesCover blob (items ++ batches.flatten) →
        ∃ e, (sync zero options disk.files blob.length entry batches).2 = [e]) := by
  induction batches generalizing items entry with
  | nil =>
    rw [List.flatten_nil, List.append_nil]
    refine ⟨h, ?_, fun _ => rfl, fun hnot hcovers => absurd hcovers hnot⟩
    intro e he
    cases he
  | cons batch batches ih =>
    rw [List.flatten_cons, ← List.append_assoc] at hparents ⊢
    obtain ⟨hsynced, hentry, hsome⟩ :=
      sync_step zero options hpos disk h (fun hnew => hcopies hnew batch rfl) (htrue batch List.mem_cons_self)
        hparents.of_append
    obtain ⟨hsynced', hentries, hdone, htodo⟩ :=
      ih hsynced (fun hnew => absurd hnew (writeBatch_ne_nonExisting _ _ _ h))
        (fun batch hbatch => htrue batch (List.mem_cons_of_mem _ hbatch)) hparents
    simp only [sync]
    generalize completion zero options disk.files batch
      ⟨blob.length, CurrentSize.batchRanges batch⟩ entry = completed at *
    refine ⟨hsynced', ?_, ?_, ?_⟩
    · intro e he
      rcases List.mem_append.mp he with he | he
      · exact hentry e (Option.mem_toList.mp he)
      · exact hentries e he
    · intro hcovers
      have hnone : completed = none := by
        rw [← Option.not_isSome_iff_eq_none]
        exact fun hsome' => (hsome.mp hsome').1 hcovers
      rw [hnone, hdone hcovers.append]
      rfl
    · intro hnot hcovers
      by_cases hbatch : LeavesCover blob (items ++ batch)
      · obtain ⟨e, he⟩ := Option.isSome_iff_exists.mp (hsome.mpr ⟨hnot, hbatch⟩)
        rw [he, hdone hbatch]
        exact ⟨e, rfl⟩
      · have hnone : completed = none := by
          rw [← Option.not_isSome_iff_eq_none]
          exact fun hsome' => hbatch (hsome.mp hsome').2
        rw [hnone]
        exact htodo hbatch hcovers

/-- Batches with the right size whose leaves have all chunks, with parents before their leaves, complete the entry
once, in memory or in files.  The complete entry is the same as that of any local import of the data, if a copy of the
first batch leaves nothing out. -/
theorem sync_eq_local (f : HashFns UInt8 H) (zero : H) (options : InlineOptions) (lib : TreeLib H) {blob : List UInt8}
    (hpos : 0 < blob.length) (hlib : lib.Lawful f blob) (disk : Disk H) {batches : List (List (BaoContentItem H))}
    (hcopies : CopiesFirst options disk.files.omits batches)
    (htrue : ∀ batch ∈ batches, ∀ item ∈ batch, TrueItem f blob blob.length item)
    (hparents : ParentsFirst f blob batches.flatten) (hcovers : LeavesCover blob batches.flatten) :
    ∃ storage entry, sync zero options disk.files blob.length .nonExisting batches = (.complete storage, [entry]) ∧
      (∃ imported, Imported f zero lib options blob imported) ∧
      ∀ imported, Imported f zero lib options blob imported →
        imported.hash = hashSubtree f 0 blob true ∧ SameEntry f blob entry (finishImport imported) := by
  have hstart : Synced f blob [] (.nonExisting : BaoFileStorage H) := rfl
  have hparents' : ParentsFirst f blob ([] ++ batches.flatten) := hparents
  obtain ⟨hsynced, hentries, -, htodo⟩ := sync_run zero options hpos disk hstart (fun _ => hcopies) htrue hparents'
  obtain ⟨entry, hentry⟩ := htodo (not_leavesCover_nil hpos) hcovers
  have hentryOf := hentries entry (by rw [hentry]; exact List.mem_cons_self)
  generalize sync zero options disk.files blob.length .nonExisting batches = result at *
  obtain ⟨state, completed⟩ := result
  simp only [List.nil_append] at hentry hsynced
  subst hentry
  cases state with
  | complete storage =>
    refine ⟨storage, entry, rfl, exists_imported hlib, ?_⟩
    intro imported himported
    have himport := himported.isImport hlib
    exact ⟨himport.hash, hentryOf.same himport.entry⟩
  | nonExisting =>
    have hnil : batches.flatten = [] := hsynced
    rw [hnil] at hcovers
    exact absurd hcovers (not_leavesCover_nil hpos)
  | partialFile fs => exact absurd hcovers hsynced.2
  | partialMem s => exact False.elim hsynced
  | initial => exact False.elim hsynced
  | loading => exact False.elim hsynced
  | poisoned => exact False.elim hsynced

/-! ### Two chunk groups -/

section

open InitOutboard (countFns twoGroups length_twoGroups postOrder_two)

/-- The library on a blob with two chunk groups. -/
def twoGroupsLib : TreeLib Nat where
  postOrderChunks _ := [.leaf 0 16384 false, .leaf 16 1 false, .parent 15 true]
  create data := (hashSubtree countFns 0 data true, outboardOf countFns data)

private theorem lawful_twoGroups : twoGroupsLib.Lawful countFns twoGroups where
  postOrder := by
    rw [length_twoGroups]
    exact postOrder_two
  create := rfl

/-- The pair of the root. -/
def pairTwo : Parent Nat := ⟨15, (nodeHash countFns twoGroups [false], nodeHash countFns twoGroups [true])⟩

def firstLeaf : Leaf := ⟨0, List.replicate 16384 7⟩

def secondLeaf : Leaf := ⟨16384, [7]⟩

private theorem treeChunks_twoGroups : treeChunks twoGroups.length = 17 := by
  rw [length_twoGroups]
  decide

private theorem region_twoGroups (s m : Nat) :
    region twoGroups s m = List.replicate (min (m * 1024) (16385 - s * 1024)) 7 := by
  rw [region, twoGroups, List.drop_replicate, List.take_replicate]

private theorem isStored_twoGroups {q : List Bool} (h : IsStored twoGroups q) : q = [] := by
  cases q with
  | nil => rfl
  | cons b r =>
    obtain ⟨hpath, hlt⟩ := h
    rw [treeChunks_twoGroups] at hpath hlt
    have hle : (sub 17 [b]).2 ≤ 16 := by cases b <;> decide
    rw [← List.singleton_append] at hpath hlt
    cases r with
    | nil => exact absurd hlt (Nat.not_lt.mpr hle)
    | cons c r => exact absurd (isPath_append.mp hpath).2.lt (Nat.not_lt.mpr hle)

private theorem trueItem_pairTwo : TrueParent countFns twoGroups twoGroups.length [] pairTwo := by
  have h := @trueParent _ countFns twoGroups [] trivial (by rw [treeChunks_twoGroups]; decide)
  rw [treeChunks_twoGroups] at h
  exact h

private theorem trueLeaf_firstLeaf : TrueLeaf twoGroups twoGroups.length [false] firstLeaf where
  path := by rw [treeChunks_twoGroups]; decide
  path' := by rw [treeChunks_twoGroups]; decide
  sub_eq := rfl
  le := by rw [treeChunks_twoGroups]; decide
  offset := by rw [treeChunks_twoGroups]; decide
  data := by
    rw [treeChunks_twoGroups, region_twoGroups]
    exact congrArg (List.replicate · 7) (by decide)
  ne_nil := List.ne_nil_of_length_pos (by rw [length_twoGroups]; decide)
  last := fun _ => rfl

private theorem trueLeaf_secondLeaf : TrueLeaf twoGroups twoGroups.length [true] secondLeaf where
  path := by rw [treeChunks_twoGroups]; decide
  path' := by rw [treeChunks_twoGroups]; decide
  sub_eq := rfl
  le := by rw [treeChunks_twoGroups]; decide
  offset := by rw [treeChunks_twoGroups]; decide
  data := by
    rw [treeChunks_twoGroups, region_twoGroups]
    exact congrArg (List.replicate · 7) (show 1 = min (1 * 1024) (16385 - 16 * 1024) by decide)
  ne_nil := List.ne_nil_of_length_pos (by rw [length_twoGroups]; decide)
  last := fun _ => rfl

/-- The items of an import of both groups, in the order of the stream. -/
private theorem parentsFirst_twoGroups :
    ParentsFirst countFns twoGroups [.parent pairTwo, .leaf firstLeaf, .leaf secondLeaf] := by
  intro before leaf after p hsplit _ q b r _ hq
  have hnil := isStored_twoGroups hq
  subst hnil
  cases before with
  | nil => simp at hsplit
  | cons item before =>
    rw [List.cons_append, List.cons.injEq] at hsplit
    obtain ⟨rfl, -⟩ := hsplit
    exact ⟨pairTwo, List.mem_cons_self, trueItem_pairTwo⟩

private theorem leavesCover_twoGroups :
    LeavesCover twoGroups [.parent pairTwo, .leaf firstLeaf, .leaf secondLeaf] := by
  have hchunks : chunks twoGroups.length = 17 := by
    rw [length_twoGroups]
    decide
  have hfirst : chunkRange firstLeaf = RangeSet.range 0 16 := by
    rw [chunkRange, firstLeaf, List.length_replicate]
    decide
  intro x hx
  rw [hchunks] at hx
  by_cases hlt : x < 16
  · refine ⟨firstLeaf, by simp, ?_⟩
    rw [hfirst, RangeSet.mem_range]
    exact ⟨Nat.zero_le x, hlt⟩
  · refine ⟨secondLeaf, by simp, ?_⟩
    rw [show x = 16 by omega]
    decide

private theorem trueItems_twoGroups : ∀ batch ∈ [[.parent pairTwo, .leaf firstLeaf], [.leaf secondLeaf]],
    ∀ item ∈ batch,
    TrueItem countFns twoGroups twoGroups.length item := by
  intro batch hbatch item hitem
  have hmem : item = .parent pairTwo ∨ item = .leaf firstLeaf ∨ item = .leaf secondLeaf := by
    simp only [List.mem_cons, List.not_mem_nil, or_false] at hbatch
    rcases hbatch with rfl | rfl
    · simp only [List.mem_cons, List.not_mem_nil, or_false] at hitem
      rcases hitem with rfl | rfl
      · exact Or.inl rfl
      · exact Or.inr (Or.inl rfl)
    · exact Or.inr (Or.inr (List.mem_singleton.mp hitem))
  rcases hmem with rfl | rfl | rfl
  · exact ⟨[], trueItem_pairTwo⟩
  · exact ⟨[false], trueLeaf_firstLeaf⟩
  · exact ⟨[true], trueLeaf_secondLeaf⟩

/-- The first batch is written in memory and copied to files, the second completes the files.  There was an older,
longer data file. -/
theorem sync_eq_local_twoGroups :
    ∃ storage entry, sync 0 ⟨16384, 0⟩ ⟨ofList (List.replicate 20000 9), .empty, .empty, .none⟩ twoGroups.length
        (.nonExisting : BaoFileStorage Nat) [[.parent pairTwo, .leaf firstLeaf], [.leaf secondLeaf]] =
          (.complete storage, [entry]) ∧
      (∃ imported, Imported countFns 0 twoGroupsLib ⟨16384, 0⟩ twoGroups imported) ∧
      ∀ imported, Imported countFns 0 twoGroupsLib ⟨16384, 0⟩ twoGroups imported →
        imported.hash = hashSubtree countFns 0 twoGroups true ∧
          SameEntry countFns twoGroups entry (finishImport imported) := by
  have hbounded : (ofList (List.replicate 20000 (9 : UInt8))).Bounded := by
    intro i hi
    exact (List.getElem?_eq_some_iff.mp (Option.isSome_iff_exists.mp hi).choose_spec).1
  exact sync_eq_local countFns 0 ⟨16384, 0⟩ twoGroupsLib (by rw [length_twoGroups]; decide) lawful_twoGroups
    ⟨⟨ofList (List.replicate 20000 9), .empty, .empty, .none⟩, hbounded, Content.bounded_empty⟩
    (fun _ _ _ => rfl) trueItems_twoGroups parentsFirst_twoGroups leavesCover_twoGroups

/-! ### A copy that leaves bytes out -/

/-- `write_at` writes 8192 bytes of the data. -/
def shortWrite : Omits := ⟨RangeSet.rangeFrom 8192, ∅⟩

/-- A first batch that is written in memory, copied to files, and does not complete the entry. -/
private theorem firstBatch {H : Type} (zero : H) (options : InlineOptions) (disk : Files H)
    (batch : List (BaoContentItem H)) (bitfield : Bitfield) (hmax : maxOffset batch ≤ options.maxDataInlined)
    (hincomplete : (Bitfield.empty.update bitfield).1.isComplete = false) : ∃ fs : PartialFileStorage H,
    ((.nonExisting : BaoFileStorage H).writeBatch options disk batch bitfield).1 = .partialFile fs ∧
      completion zero options disk batch bitfield .nonExisting = none ∧
        fs.bitfield = (Bitfield.empty.update bitfield).1 ∧
      fs.data = (Content.empty.writes (batch.flatMap dataWrites)).persist disk.omits.data.contains disk.data := by
  obtain ⟨hdata, -, hb⟩ := writeBatch_eq_mem bitfield.size batch (PartialMemStorage.default (H := H))
  have hb' : (PartialMemStorage.default (H := H)).bitfield = .empty := rfl
  simp only [BaoFileStorage.writeBatch, BaoFileStorage.writeBatchMem, completion, completionMem, if_pos hmax,
    BaoFileStorage.afterMemBatch, hb, hb', hincomplete, Bool.false_eq_true, if_false]
  exact ⟨_, rfl, trivial, rfl, congrArg (Content.persist disk.omits.data.contains · disk.data) hdata⟩

/-- A batch that is written to files and completes the entry, which is too large to be inlined. -/
private theorem lastBatch {H : Type} (zero : H) (options : InlineOptions) (disk : Files H)
    (batch : List (BaoContentItem H)) (bitfield : Bitfield) {fs : PartialFileStorage H}
    (hcomplete : (fs.bitfield.update bitfield).1.isComplete = true)
    (hlarge : options.isInlinedData (fs.bitfield.update bitfield).1.size = false) : ∃ storage entry,
    ((.partialFile fs : BaoFileStorage H).writeBatch options disk batch bitfield).1 = .complete storage ∧
      completion zero options disk batch bitfield (.partialFile fs) = some entry ∧
      entry.data = .file ⟨fs.data.writes (batch.flatMap dataWrites), (fs.bitfield.update bitfield).1.size⟩ := by
  simp only [BaoFileStorage.writeBatch, completion, completionFile, BaoFileStorage.afterFileBatch, writeBatch_eq_file,
    hcomplete, if_true]
  refine ⟨_, _, rfl, rfl, ?_⟩
  simp only [intoCompleteFile, hlarge, Bool.false_eq_true, if_false]

/-- The two batches of the same items, with a first copy that leaves half of the first group out.  The entry is
completed, but its data file does not have the data. -/
theorem not_same_shortWrite :
    0 < twoGroups.length ∧ twoGroupsLib.Lawful countFns twoGroups ∧
      (∀ batch ∈ [[.parent pairTwo, .leaf firstLeaf], [.leaf secondLeaf]], ∀ item ∈ batch,
        TrueItem countFns twoGroups twoGroups.length item) ∧
      ParentsFirst countFns twoGroups [.parent pairTwo, .leaf firstLeaf, .leaf secondLeaf] ∧
      LeavesCover twoGroups [.parent pairTwo, .leaf firstLeaf, .leaf secondLeaf] ∧
      (∃ imported, Imported countFns 0 twoGroupsLib ⟨16384, 16384⟩ twoGroups imported) ∧
      ∃ storage entry, sync 0 ⟨16384, 16384⟩ (.new shortWrite) twoGroups.length (.nonExisting : BaoFileStorage Nat)
          [[.parent pairTwo, .leaf firstLeaf], [.leaf secondLeaf]] = (.complete storage, [entry]) ∧
        ∀ imported, Imported countFns 0 twoGroupsLib ⟨16384, 16384⟩ twoGroups imported →
          ¬ SameEntry countFns twoGroups entry (finishImport imported) := by
  refine ⟨by rw [length_twoGroups]; decide, lawful_twoGroups, trueItems_twoGroups, parentsFirst_twoGroups,
    leavesCover_twoGroups, exists_imported lawful_twoGroups, ?_⟩
  have hmax : maxOffset [.parent pairTwo, .leaf firstLeaf] ≤ 16384 := by
    simp only [maxOffset, List.filterMap_cons, List.filterMap_nil, List.foldl_cons, List.foldl_nil, firstLeaf,
      List.length_replicate]
    decide
  have hrange : CurrentSize.batchRanges [.parent pairTwo, .leaf firstLeaf] = RangeSet.range 0 16 := by
    simp only [CurrentSize.batchRanges, List.foldl_cons, List.foldl_nil, chunkRange, firstLeaf, List.length_replicate]
    decide
  have hrange' : CurrentSize.batchRanges [.leaf secondLeaf (H := Nat)] = RangeSet.range 16 17 := by decide
  have hbitfield : (Bitfield.empty.update ⟨16385, RangeSet.range 0 16⟩).1 = ⟨16385, RangeSet.range 0 16⟩ := by decide
  have hbitfield' : (Bitfield.update ⟨16385, RangeSet.range 0 16⟩ ⟨16385, RangeSet.range 16 17⟩).1 =
    .complete 16385 := by
    decide
  obtain ⟨fs, hfirst, hnone, hb, hdata⟩ :=
    firstBatch 0 ⟨16384, 16384⟩ (.new shortWrite) [.parent pairTwo, .leaf firstLeaf]
    ⟨16385, RangeSet.range 0 16⟩ hmax (by rw [hbitfield]; decide)
  obtain ⟨storage, entry, hsecond, hsome, hfile⟩ := @lastBatch _ 0 ⟨16384, 16384⟩ (.new shortWrite) [.leaf secondLeaf]
    ⟨16385, RangeSet.range 16 17⟩ fs (by rw [hb, hbitfield, hbitfield']; decide)
    (by rw [hb, hbitfield, hbitfield']; decide)
  rw [length_twoGroups]
  refine ⟨storage, entry, ?_, fun imported _ hsame => ?_⟩
  · simp only [sync, hrange, hrange', hfirst, hnone, hsecond, hsome]
    rfl
  · -- the file has nothing where the data has a byte
    have hcell : (fs.data.writes [(16384, [7])]).cell 8192 = none := by
      rw [Content.writes_cons, Content.writes_nil, Content.cell_write, if_neg (by decide), hdata,
        Content.cell_persist (Content.bounded_empty.writes _), if_pos]
      · rfl
      · decide
    have hsame' := hsame.data.1
    rw [hfile] at hsame'
    have hbyte := hsame'.2 8192 (by rw [length_twoGroups]; decide)
    rw [twoGroups, List.getElem?_replicate, if_pos (by decide)] at hbyte
    cases hcell.symm.trans hbyte

end

end CompleteEntry

end IrohBlobs
