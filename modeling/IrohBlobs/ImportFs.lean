import IrohBlobs.ImportBao

/-!
# Imports into the file store

The invariant of the file store: the chunks of the bitfield are provable (`EntryInv`), and the pairs that an import has
verified are in its batch or in the outboard (`StreamInv` with `PairStored`).  Every write of a batch preserves it
(`preserved_provable`), in memory mode and in file mode, as long as the parents of the batch are placed.
-/

namespace IrohBlobs

namespace ImportBao

open Merkle BaoTree Provable

section Fs

variable {H : Type} (f : HashFns UInt8 H) (blob : List UInt8)

/-- The chunks of the bitfield of an entry are provable. -/
def EntryProvable : BaoFileStorage H → Prop
  | .partialMem s => HasBitfield f blob s.data s.outboard s.bitfield
  | .partialFile s => HasBitfield f blob s.data s.outboard s.bitfield
  | .complete s => HasBitfield f blob s.data s.outboard s.bitfield
  | .initial | .loading | .nonExisting | .poisoned => True

/-- The invariant of an entry.  Partial entries are in memory only while a batch is written. -/
def EntryInv : BaoFileStorage H → Prop
  | .partialMem _ => False
  | .partialFile s =>
    HasBitfield f blob s.data s.outboard s.bitfield ∧ Fits blob.length (fun _ _ => True) s.bitfield
  | .complete s => HasBitfield f blob s.data s.outboard s.bitfield
  | .initial | .loading | .nonExisting | .poisoned => True

/-- The pair of a node is stored, as far as that matters: entries that ignore writes do not need it. -/
def PairStored : BaoFileStorage H → List Bool → Prop
  | .nonExisting, _ => False
  | .partialMem s, q => HasPair f blob s.outboard q
  | .partialFile s, q => HasPair f blob s.outboard q
  | .initial, _ | .loading, _ | .complete _, _ | .poisoned, _ => True

variable {f blob}

theorem EntryInv.provable {entry : BaoFileStorage H} (h : EntryInv f blob entry) : EntryProvable f blob entry := by
  cases entry with
  | partialMem s => exact False.elim h
  | partialFile s => exact h.1
  | complete s => exact h
  | initial => trivial
  | loading => trivial
  | nonExisting => trivial
  | poisoned => trivial

/-! ### Completing an entry -/

private theorem HasPair.congr {outboard outboard' : Content H} {p : List Bool} (h : HasPair f blob outboard p)
    (hp : IsStored blob p)
    (heq : ∀ i, i < 2 * outboardPairs (treeChunks blob.length) → outboard'.cell i = outboard.cell i) :
    HasPair f blob outboard' p := by
  have hlt := slot_lt hp.1 hp.2
  exact ⟨by rw [heq _ (by omega)]; exact h.1, by rw [heq _ (by omega)]; exact h.2⟩

/-- Only the cells of the blob and of its outboard matter. -/
theorem HasChunk.congr {data data' : Content UInt8} {outboard outboard' : Content H} {x : Nat}
    (h : HasChunk f blob data outboard x) (hd : ∀ i, i < blob.length → data'.cell i = data.cell i)
    (ho : ∀ i, i < 2 * outboardPairs (treeChunks blob.length) → outboard'.cell i = outboard.cell i) :
    HasChunk f blob data' outboard' x :=
  ⟨fun i h1 h2 h3 => by rw [hd i h3]; exact h.data i h1 h2 h3,
    fun p hp h1 h2 => HasPair.congr (h.pairs p hp h1 h2) hp ho⟩

private theorem hasBitfield_complete_file {s : PartialFileStorage H} {reaches : Nat → Nat → Prop}
    (h : HasBitfield f blob s.data s.outboard s.bitfield) (hfits : Fits blob.length reaches s.bitfield)
    (hc : s.bitfield.isComplete = true) (options : InlineOptions) :
    HasBitfield f blob (s.intoComplete s.bitfield.size options).data (s.intoComplete s.bitfield.size options).outboard
      (s.intoComplete s.bitfield.size options).bitfield := by
  intro x _ hlt
  obtain ⟨hsize, hall⟩ := complete_of_fits hfits hc
  rw [hsize]
  refine HasChunk.congr (h x (hall x hlt) hlt) (fun i hi => ?_) (fun i hi => ?_)
  · simp only [PartialFileStorage.intoComplete]
    split
    · simp only [Content.readToEnd, if_pos hi]
    · rfl
  · simp only [PartialFileStorage.intoComplete]
    split
    · simp only [Content.readToEnd, if_pos hi]
    · rfl

private theorem hasBitfield_complete_mem {s : PartialMemStorage H} {reaches : Nat → Nat → Prop}
    (h : HasBitfield f blob s.data s.outboard s.bitfield) (hfits : Fits blob.length reaches s.bitfield)
    (hc : s.bitfield.isComplete = true) (hdata : s.data.Bounded) (houtboard : s.outboard.Bounded)
    (options : InlineOptions) :
    HasBitfield f blob (s.intoComplete .empty options).data (s.intoComplete .empty options).outboard
      (s.intoComplete .empty options).bitfield := by
  intro x _ hlt
  obtain ⟨hsize, hall⟩ := complete_of_fits hfits hc
  refine HasChunk.congr (h x (hall x hlt) hlt) (fun i hi => ?_) (fun i hi => ?_)
  · simp only [PartialMemStorage.intoComplete]
    split
    · rfl
    · exact Content.cell_persist_new hdata i
  · simp only [PartialMemStorage.intoComplete, PartialMemStorage.currentSize, hsize, rawOutboardSize]
    split
    · rw [if_pos (by omega)]
    · exact Content.cell_persist_new houtboard i

/-! ### Writing a batch -/

theorem hasBitfield_empty (data : Content UInt8) (outboard : Content H) :
    HasBitfield f blob data outboard .empty :=
  fun x hx => absurd hx (RangeSet.not_mem_empty x)

theorem fits_empty {S : Nat} {reaches : Nat → Nat → Prop} : Fits S reaches .empty :=
  Or.inr (fun x hx => absurd hx (RangeSet.not_mem_empty x))

/-- All pairs of an import are stored after its batch is written. -/
theorem StreamInv.pairs_stored {st : ImportStream H} {write : Nat → BaoContentItem H → List (Nat × List H)}
    (hw : OutboardWriter write) {outboard : Content H} (h : StreamInv f blob (HasPair f blob outboard) st)
    {q : List Bool} {pair : H × H} (hmem : (q, pair) ∈ st.decoder.pairs)
    (hlt : 16 < (sub (treeChunks st.decoder.size) q).2) :
    HasPair f blob (outboard.writes (st.batch.flatMap (write st.decoder.size))) q := by
  have hp := h.placed q pair hmem
  rcases h.stored q pair hmem hlt with hin | hhas
  · exact hasPair_of_mem hw h.items hin hp hlt outboard
  · exact hhas.writes (hp.placed hlt).1 (respects_outboardWrites hw h.items)

variable {st : ImportStream H} {options : InlineOptions}

/-- What holds after the batch of an import is written to files. -/
theorem afterFileBatch_inv {fs : PartialFileStorage H} (h : StreamInv f blob (HasPair f blob fs.outboard) st)
    (hb : HasBitfield f blob fs.data fs.outboard fs.bitfield) (hfits : Fits blob.length (fun _ _ => True) fs.bitfield) :
    ∀ fs' entry, fs' = { fs.writeBatch st.decoder.size st.batch with
        bitfield := ((fs.writeBatch st.decoder.size st.batch).bitfield.update ⟨st.decoder.size, st.ranges⟩).1 } →
      entry = BaoFileStorage.afterFileBatch options fs' →
      EntryInv f blob entry ∧ (∀ q, IsStored blob q → HasPair f blob fs.outboard q → PairStored f blob entry q) ∧
        ∀ q pair, (q, pair) ∈ st.decoder.pairs → 16 < (sub (treeChunks st.decoder.size) q).2 →
          PairStored f blob entry q := by
  intro fs' entry hfs' hentry
  rw [writeBatch_eq_file] at hfs'
  have hfits' : Fits blob.length (fun _ _ => True) ⟨st.decoder.size, st.ranges⟩ := h.fits (fun _ _ _ _ _ _ _ => trivial)
  have hb' := h.hasBitfield outboardWriter_file hb hfits (fun x hx _ => hx) hfits'
  have hrespects := respects_outboardWrites outboardWriter_file h.items
  subst hfs' hentry
  unfold BaoFileStorage.afterFileBatch
  split
  · exact ⟨hasBitfield_complete_file hb' (fits_combine hfits hfits').1 ‹_› options, fun _ _ _ => trivial,
      fun _ _ _ _ => trivial⟩
  · exact ⟨⟨hb', (fits_combine hfits hfits').1⟩, fun q hq hpair => hpair.writes hq hrespects,
      fun q pair hmem hlt => h.pairs_stored outboardWriter_file hmem hlt⟩

/-- What holds after the batch of an import is written to memory. -/
private theorem afterMemBatch_inv (h : StreamInv f blob (fun _ => False) st) :
    ∀ ms : PartialMemStorage H, ms.data = Content.empty.writes (st.batch.flatMap dataWrites) →
      ms.outboard = Content.empty.writes (st.batch.flatMap (memOutboardWrites st.decoder.size)) →
      ms.bitfield = Bitfield.empty.combine ⟨st.decoder.size, st.ranges⟩ →
      EntryInv f blob (BaoFileStorage.afterMemBatch options .empty ms) ∧
        ∀ q pair, (q, pair) ∈ st.decoder.pairs → 16 < (sub (treeChunks st.decoder.size) q).2 →
          PairStored f blob (BaoFileStorage.afterMemBatch options .empty ms) q := by
  intro ms h1 h2 h3
  have hdata : ms.data.Bounded := h1 ▸ Content.bounded_empty.writes _
  have houtboard : ms.outboard.Bounded := h2 ▸ Content.bounded_empty.writes _
  have hst : StreamInv f blob (HasPair f blob (Content.empty)) st := h.mono (fun _ _ => False.elim)
  have hfits' : Fits blob.length (fun _ _ => True) ⟨st.decoder.size, st.ranges⟩ := h.fits (fun _ _ _ _ _ _ _ => trivial)
  have hb := hst.hasBitfield outboardWriter_mem (hasBitfield_empty .empty .empty) fits_empty (fun x hx _ => hx) hfits'
  have hfits := (fits_combine (fits_empty) hfits').1
  have hpairs := fun q pair (hmem : (q, pair) ∈ st.decoder.pairs) => hst.pairs_stored outboardWriter_mem hmem
  rw [← h1, ← h2, ← h3] at hb
  rw [← h2] at hpairs
  rw [← h3] at hfits
  unfold BaoFileStorage.afterMemBatch
  split
  · rename_i hc
    exact ⟨hasBitfield_complete_mem hb hfits hc hdata houtboard options, fun _ _ _ _ => trivial⟩
  · refine ⟨⟨fun x hx hlt => HasChunk.congr (hb x hx hlt) (fun i _ => Content.cell_persist_new hdata i)
      (fun i _ => Content.cell_persist_new houtboard i), hfits⟩, fun q pair hmem hlt => ?_⟩
    exact HasPair.congr (hpairs q pair hmem hlt) ((h.placed q pair hmem).placed hlt).1
      (fun i _ => Content.cell_persist_new houtboard i)

/-- What holds after the batch of an import is written to a new entry. -/
private theorem writeBatchMem_inv (h : StreamInv f blob (fun _ => False) st) {omits : Omits}
    (hcopies : maxOffset st.batch ≤ options.maxDataInlined → omits.WritesAll) :
    ∀ entry, entry = (BaoFileStorage.writeBatchMem options (.new omits) st.batch
      ⟨st.decoder.size, st.ranges⟩ .default).1 →
      EntryInv f blob entry ∧ ∀ q pair, (q, pair) ∈ st.decoder.pairs → 16 < (sub (treeChunks st.decoder.size) q).2 →
        PairStored f blob entry q := by
  intro entry hentry
  unfold BaoFileStorage.writeBatchMem at hentry
  split at hentry
  · rename_i hmem
    obtain ⟨h1, h2, h3⟩ := writeBatch_eq_mem st.decoder.size st.batch (PartialMemStorage.default (H := H))
    rw [(hcopies hmem).eq_none] at hentry
    subst hentry
    exact afterMemBatch_inv h _ h1 h2 (congrArg (Bitfield.combine · _) h3)
  · have hst : StreamInv f blob (HasPair f blob ((PartialMemStorage.default (H := H)).persist (.new omits)).outboard)
      st :=
      h.mono (fun _ _ => False.elim)
    obtain ⟨h1, -, h3⟩ := afterFileBatch_inv hst (hasBitfield_empty _ _) fits_empty _ _ rfl hentry
    exact ⟨h1, h3⟩

/-- Writing a batch to files. -/
theorem writeBatch_partialFile (options : InlineOptions) (fs : PartialFileStorage H) (batch : List (BaoContentItem H))
    (bitfield : Bitfield) (omits : Omits) :
    writeBatch options (.partialFile fs) batch bitfield (some omits) = (BaoFileStorage.afterFileBatch options
      ⟨fs.data.writes (batch.flatMap dataWrites), fs.outboard.writes (batch.flatMap (outboardWrites bitfield.size)),
        fs.sizes.writes (batch.flatMap (sizesWrites bitfield.size)), fs.bitfield.combine bitfield⟩, true) := by
  simp only [writeBatch, BaoFileStorage.writeBatch, writeBatch_eq_file]
  rfl

/-- A large batch is written to files that are empty but for a size of zero. -/
theorem writeBatch_nonExisting {batch : List (BaoContentItem H)}
    (h : options.maxDataInlined < maxOffset batch) (bitfield : Bitfield) (omits : Omits) :
    writeBatch options .nonExisting batch bitfield (some omits) =
      writeBatch options (.partialFile (PartialMemStorage.default.persist .empty)) batch bitfield (some omits) := by
  simp only [writeBatch, BaoFileStorage.writeBatch, BaoFileStorage.writeBatchMem]
  rw [if_neg (by omega)]
  rfl

variable (options) in
/-- Writing a batch keeps the invariant, and stores the pairs of the import. -/
theorem writeBatch_inv {entry entry' : BaoFileStorage H} {io : Option Omits} {written : Bool}
    (he : EntryInv f blob entry)
    (h : StreamInv f blob (PairStored f blob entry) st) (hcopies : CopiesAll options entry st io)
    (hwrite : writeBatch options entry st.batch ⟨st.decoder.size, st.ranges⟩ io = (entry', written)) :
    EntryInv f blob entry' ∧ (∀ q, IsStored blob q → PairStored f blob entry q → PairStored f blob entry' q) ∧
      (written = true → ∀ q pair, (q, pair) ∈ st.decoder.pairs → 16 < (sub (treeChunks st.decoder.size) q).2 →
        PairStored f blob entry' q) := by
  cases entry with
  | partialMem s => exact False.elim he
  | complete s =>
    cases hwrite
    exact ⟨he, fun _ _ _ => trivial, fun _ _ _ _ _ => trivial⟩
  | poisoned =>
    cases hwrite
    exact ⟨trivial, fun _ _ _ => trivial, fun _ _ _ _ _ => trivial⟩
  | initial =>
    cases hwrite
    exact ⟨trivial, fun _ _ _ => trivial, fun _ _ _ _ _ => trivial⟩
  | loading =>
    cases hwrite
    exact ⟨trivial, fun _ _ _ => trivial, fun _ _ _ _ _ => trivial⟩
  | nonExisting =>
    simp only [writeBatch] at hwrite
    split at hwrite
    · rename_i omits
      cases hwrite
      obtain ⟨h1, h2⟩ := writeBatchMem_inv h (fun hmem => hcopies hmem omits rfl)
        (BaoFileStorage.writeBatchMem options _ _ _ _).1 rfl
      exact ⟨h1, fun _ _ => False.elim, fun _ => h2⟩
    · cases hwrite
      exact ⟨trivial, fun _ _ _ => trivial, fun hw => by cases hw⟩
  | partialFile fs =>
    simp only [writeBatch] at hwrite
    split at hwrite
    · cases hwrite
      obtain ⟨h1, h2, h3⟩ := afterFileBatch_inv h he.1 he.2 _ (BaoFileStorage.afterFileBatch options _) rfl rfl
      exact ⟨h1, h2, fun _ => h3⟩
    · cases hwrite
      exact ⟨trivial, fun _ _ _ => trivial, fun hw => by cases hw⟩

variable [DecidableEq H]

/-- The condition on the steps: parents are placed, and the first batch is copied as a whole. -/
def placed (options : InlineOptions) (blob : List UInt8) :
    Condition H := ⟨PlacedAt blob, fun _ _ => True, CopiesAll options⟩

/-- The invariant is preserved by every step that meets the condition. -/
theorem preserved_provable (hf : CollisionFree f) (c : Condition H)
    (hc : ∀ size p, c.parent size p → PlacedAt blob size p)
    (hcopies : ∀ entry st io, c.batch entry st io → CopiesAll options entry st io) :
    Preserved f (nodeHash f blob []) options c (EntryInv f blob)
      (fun entry => StreamInv f blob (PairStored f blob entry)) where
  start _ _ hsize := streamInv_start rfl hsize
  parent _ _ p _ _ h hplaced hd := h.pushParent hf hd (hc _ p hplaced)
  leaf _ _ _ _ _ h _ hd hleaf := h.pushLeaf hf hd hleaf
  write entry st io entry' written he h hc' hwrite := by
    obtain ⟨h1, h2, h3⟩ := writeBatch_inv options he h (hcopies entry st io hc') hwrite
    exact ⟨h1, fun st' hst' => hst'.mono h2, fun hw => h.flushed (h3 hw)⟩

end Fs

end ImportBao

end IrohBlobs
