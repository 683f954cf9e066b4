import IrohBlobs.ImportFs

/-!
# Exports from the file store

An export needs more than that the chunks of the bitfield are provable: the whole chunk groups must be there, and the
size that is read from the sizes file must belong to a leaf at or after them.  This is a second invariant of the file
store (`FileExport`), preserved if imports have whole chunk groups only and if the size info of a batch in memory is
that of its last group (`placedWhole`).
-/

namespace IrohBlobs

namespace ImportBao

open Merkle BaoTree Provable

section

variable {H : Type} (blob : List UInt8)

/-- The set has whole chunk groups.  Chunks beyond the end stand for the last chunk. -/
def GroupClosed (r : ChunkRanges) : Prop :=
  ∀ x ∈ r, ∀ y, y < chunks blob.length → y / 16 = min x (chunks blob.length - 1) / 16 → y ∈ r

/-- The size was claimed by an import with a leaf in the group. -/
def GoodSize (z group : Nat) : Prop := z = blob.length ∨ (0 < z ∧ ∃ y, y / 16 = group ∧ Reaches blob 16 z y)

/-- The last size of a sizes file is good. -/
def LastSize (sizes : Content Nat) : Prop := ∃ z, sizes.cell (sizes.len - 1) = some z ∧ GoodSize blob z (sizes.len - 1)

/-- What an export needs of a partial entry. -/
structure FileExport (s : PartialFileStorage H) : Prop where
  bounded : s.data.Bounded
  closed : GroupClosed blob s.bitfield.ranges
  sizes : LastSize blob s.sizes ∨ (s.sizes.len ≤ 1 ∧ ∀ x, x ∉ s.bitfield.ranges)
  reach : ∀ x ∈ s.bitfield.ranges, min x (chunks blob.length - 1) / 16 < s.sizes.len

/-- What an export needs of an entry. -/
def EntryExport : BaoFileStorage H → Prop
  | .partialFile s => FileExport blob s
  | .complete s => s.size = blob.length
  | .partialMem _ => False
  | .initial | .loading | .nonExisting | .poisoned => True

/-- The leaves of a batch are whole chunk groups. -/
structure StreamExport (st : ImportStream H) : Prop where
  leaves : ∀ leaf, .leaf leaf ∈ st.batch →
    ∃ p, TrueLeaf blob st.decoder.size p leaf ∧ IsPath 16 (treeChunks st.decoder.size) p
  closed : GroupClosed blob st.ranges

variable {blob} {f : HashFns UInt8 H} {st : ImportStream H}

/-! ### Chunk groups -/

private theorem GroupClosed.union {a b : ChunkRanges} (ha : GroupClosed blob a) (hb : GroupClosed blob b) :
    GroupClosed blob (a ∪ b) := by
  intro x hx y hy hxy
  rw [RangeSet.mem_union] at *
  exact hx.imp (fun hx => ha x hx y hy hxy) (fun hx => hb x hx y hy hxy)

/-- Every chunk of a combined bitfield stands for one that was there before. -/
theorem exists_of_mem_combine {reaches : Nat → Nat → Prop} {a b : Bitfield} (ha : Fits blob.length reaches a)
    (hb : Fits blob.length reaches b) {x : Nat} (hx : x ∈ (a.combine b).ranges) :
    ∃ y, (y ∈ a.ranges ∨ y ∈ b.ranges) ∧ min x (chunks blob.length - 1) = min y (chunks blob.length - 1) := by
  rcases (fits_combine ha hb).2 x hx with hx | ⟨hle, hlast⟩
  · exact ⟨x, RangeSet.mem_union.mp hx, rfl⟩
  · exact ⟨chunks blob.length - 1, RangeSet.mem_union.mp hlast, by omega⟩

theorem GroupClosed.combine {reaches : Nat → Nat → Prop} {a b : Bitfield} (ha : GroupClosed blob a.ranges)
    (hb : GroupClosed blob b.ranges) (hfa : Fits blob.length reaches a) (hfb : Fits blob.length reaches b) :
    GroupClosed blob (a.combine b).ranges := by
  intro x hx y hy hxy
  obtain ⟨x', hx', hmin⟩ := exists_of_mem_combine hfa hfb hx
  exact Bitfield.mem_combine (ha.union hb x' (RangeSet.mem_union.mpr hx') y hy (by rw [hxy, hmin]))

/-- A verified leaf that is a chunk group of the claimed tree is one of the blob. -/
theorem isPath_of_trueLeaf {size : Nat} {p : List Bool} {leaf : Leaf} (h : TrueLeaf blob size p leaf)
    (hp : IsPath 16 (treeChunks size) p) : IsPath 16 (treeChunks blob.length) p :=
  IsPath.congr (k := 4) hp h.path (agrees_of_sub_eq h.path' h.path h.sub_eq)

/-- The chunks of a leaf that is a chunk group. -/
theorem mem_chunkRange_group {size : Nat} {p : List Bool} {leaf : Leaf} (h : TrueLeaf blob size p leaf)
    (hp : IsPath 16 (treeChunks size) p) {x : Nat} :
    x ∈ chunkRange leaf ↔ x < chunks blob.length ∧ x / 16 = leaf.offset / 16384 := by
  have hn : 0 < treeChunks blob.length := by unfold treeChunks; omega
  have hpath := isPath_of_trueLeaf h hp
  have hb := (sub_bounds hn h.path).2
  have hlen := treeChunks_eq (List.length_pos_iff.mpr h.ne_nil)
  rw [mem_chunkRange h, h.offset]
  constructor
  · intro hx
    have := (mem_group_iff hn hpath h.le (by omega)).mp hx
    omega
  · rintro ⟨h1, h2⟩
    exact (mem_group_iff hn hpath h.le (by omega)).mpr (by omega)

private theorem groupClosed_chunkRange {size : Nat} {p : List Bool} {leaf : Leaf} (h : TrueLeaf blob size p leaf)
    (hp : IsPath 16 (treeChunks size) p) : GroupClosed blob (chunkRange leaf) := by
  intro x hx y hy hxy
  rw [mem_chunkRange_group h hp] at *
  exact ⟨hy, by rw [hxy, ← hx.2]; congr 1; omega⟩

/-! ### Sizes -/

private theorem goodSize_of_leaf {size : Nat} (hpos : 0 < size) {p : List Bool} {leaf : Leaf}
    (h : TrueLeaf blob size p leaf)
    (hp : IsPath 16 (treeChunks size) p) : GoodSize blob size (leaf.offset / 16384) := by
  have hn : 0 < treeChunks blob.length := by unfold treeChunks; omega
  have hpath := isPath_of_trueLeaf h hp
  have hb := sub_bounds hn h.path
  refine Or.inr ⟨hpos, (sub (treeChunks blob.length) p).1, ?_, p, hp, hpath, h.sub_eq, h.le,
    Nat.le_refl _, by omega, h.last⟩
  rw [h.offset]
  omega

/-- Writing good sizes keeps the last size good. -/
private theorem lastSize_writes {sizes : Content Nat} {ws : List (Nat × List Nat)}
    (h : LastSize blob sizes ∨ sizes.len ≤ 1)
    (hws : ∀ w ∈ ws, ∃ z, w.2 = [z] ∧ GoodSize blob z w.1) :
    (ws ≠ [] ∨ LastSize blob sizes → LastSize blob (sizes.writes ws)) ∧ sizes.len ≤ (sizes.writes ws).len ∧
      ∀ w ∈ ws, w.1 < (sizes.writes ws).len := by
  induction ws generalizing sizes with
  | nil => exact ⟨fun h => h.resolve_left (by simp), Nat.le_refl _, by simp⟩
  | cons w ws ih =>
    obtain ⟨g, data⟩ := w
    obtain ⟨z, hz, hgood⟩ := hws _ List.mem_cons_self
    simp only at hz hgood
    subst hz
    have hlen : (sizes.write g [z]).len = max sizes.len (g + 1) := rfl
    have hlast : LastSize blob (sizes.write g [z]) := by
      unfold LastSize
      rw [hlen, Content.cell_write]
      by_cases hg : sizes.len ≤ g + 1
      · refine ⟨z, ?_, ?_⟩
        · rw [if_pos (by simp; omega), show max sizes.len (g + 1) - 1 - g = 0 by omega]
          rfl
        · rwa [show max sizes.len (g + 1) - 1 = g by omega]
      · obtain ⟨z', hcell, hgood'⟩ := h.resolve_right (by omega)
        rw [if_neg (by simp; omega), show max sizes.len (g + 1) - 1 = sizes.len - 1 by omega]
        exact ⟨z', hcell, hgood'⟩
    obtain ⟨h1, h2, h3⟩ := ih (Or.inl hlast) (fun w hw => hws w (List.mem_cons_of_mem _ hw))
    refine ⟨fun _ => h1 (Or.inr hlast), le_trans (by omega) h2, fun w hw => ?_⟩
    rcases List.mem_cons.mp hw with rfl | hw
    · exact lt_of_lt_of_le (by rw [hlen]; simp only; omega) h2
    · exact h3 w hw

/-- The sizes that a batch of whole groups writes are good. -/
private theorem StreamExport.goodSizes (h : StreamExport blob st) (hpos : 0 < st.decoder.size) :
    ∀ w ∈ st.batch.flatMap (sizesWrites st.decoder.size), ∃ z, w.2 = [z] ∧ GoodSize blob z w.1 := by
  intro w hw
  obtain ⟨item, hmem, hw⟩ := List.mem_flatMap.mp hw
  cases item with
  | parent parent => simp [sizesWrites] at hw
  | leaf leaf =>
    simp only [sizesWrites, List.mem_singleton] at hw
    obtain ⟨p, hp, hpath⟩ := h.leaves leaf hmem
    subst hw
    exact ⟨_, rfl, goodSize_of_leaf hpos hp hpath⟩

/-- Every chunk of a batch has a leaf, whose group the chunk belongs to. -/
theorem StreamExport.exists_leaf {stored : List Bool → Prop} (h : StreamExport blob st)
    (hst : StreamInv f blob stored st)
    {x : Nat} (hx : x ∈ st.ranges) : ∃ leaf, .leaf leaf ∈ st.batch ∧ x < chunks blob.length ∧
      x / 16 = leaf.offset / 16384 := by
  obtain ⟨p, leaf, hmem, hleaf, h1, h2⟩ := hst.ranges x hx
  obtain ⟨p', hp', hpath'⟩ := h.leaves leaf hmem
  have hx' : x ∈ chunkRange leaf := (mem_chunkRange hleaf.leaf).mpr ⟨h1, h2⟩
  exact ⟨leaf, hmem, (mem_chunkRange_group hp' hpath').mp hx'⟩

/-! ### Data -/

/-- A file with all data of the blob reaches to its end. -/
theorem length_le_of_hasBitfield {data : Content UInt8} {outboard : Content H} {bitfield : Bitfield}
    (hb : HasBitfield f blob data outboard bitfield) (hbounded : data.Bounded)
    (hall : ∀ x, x < chunks blob.length → x ∈ bitfield.ranges) : blob.length ≤ data.len := by
  rcases Nat.eq_zero_or_pos blob.length with h0 | hpos
  · omega
  · have hlast : (blob.length - 1) / 1024 < chunks blob.length := by
      unfold chunks
      omega
    have hcell := (hb _ (hall _ hlast) hlast).data (blob.length - 1) (by omega) (by omega) (by omega)
    have := hbounded (blob.length - 1) (by rw [hcell, List.getElem?_eq_getElem (by omega)]; rfl)
    omega

/-! ### Batches -/

variable {options : InlineOptions}

/-- What an export needs holds after a batch is written to files. -/
theorem afterFileBatch_export {fs : PartialFileStorage H} (h : StreamInv f blob (HasPair f blob fs.outboard) st)
    (hb : HasBitfield f blob fs.data fs.outboard fs.bitfield) (hfits : Fits blob.length (fun _ _ => True) fs.bitfield)
    (hst : StreamExport blob st) (hfs : FileExport blob fs) :
    ∀ fs' entry, fs' = { fs.writeBatch st.decoder.size st.batch with
        bitfield := ((fs.writeBatch st.decoder.size st.batch).bitfield.update ⟨st.decoder.size, st.ranges⟩).1 } →
      entry = BaoFileStorage.afterFileBatch options fs' → EntryExport blob entry := by
  intro fs' entry hfs' hentry
  rw [writeBatch_eq_file] at hfs'
  have hfits' : Fits blob.length (fun _ _ => True) ⟨st.decoder.size, st.ranges⟩ := h.fits (fun _ _ _ _ _ _ _ => trivial)
  have hb' := h.hasBitfield outboardWriter_file hb hfits (fun x hx _ => hx) hfits'
  obtain ⟨hlast, hlen, hslot⟩ := lastSize_writes (hfs.sizes.imp_right And.left) (hst.goodSizes h.size_pos)
  -- the size is written for the groups of the batch
  have hwritten : ∀ x ∈ st.ranges, min x (chunks blob.length - 1) / 16 <
      (fs.sizes.writes (st.batch.flatMap (sizesWrites st.decoder.size))).len := by
    intro x hx
    obtain ⟨leaf, hmem, hlt, hgroup⟩ := hst.exists_leaf h hx
    rw [Nat.min_eq_left (by omega), hgroup]
    exact hslot (leaf.offset / 16384, [st.decoder.size]) (List.mem_flatMap.mpr ⟨_, hmem, by simp [sizesWrites]⟩)
  subst hfs' hentry
  unfold BaoFileStorage.afterFileBatch
  have hbounded := hfs.bounded.writes (st.batch.flatMap dataWrites)
  split
  · rename_i hc
    obtain ⟨hsize, hall⟩ := complete_of_fits (fits_combine hfits hfits').1 hc
    simp only [EntryExport, PartialFileStorage.intoComplete]
    have hlen := length_le_of_hasBitfield hb' hbounded hall
    simp only [Bitfield.update, hsize]
    split
    · simp only [Content.readToEnd]
      omega
    · rfl
  · refine ⟨hbounded, hfs.closed.combine hst.closed hfits hfits', ?_, fun x hx => ?_⟩
    · by_cases hold : LastSize blob fs.sizes
      · exact Or.inl (hlast (Or.inr hold))
      · obtain ⟨hle, hempty⟩ := hfs.sizes.resolve_left hold
        by_cases hne : st.batch.flatMap (sizesWrites st.decoder.size) = []
        · refine Or.inr ⟨by rw [hne]; exact hle, fun x hx => ?_⟩
          obtain ⟨y, hy | hy, -⟩ := exists_of_mem_combine hfits hfits' hx
          · exact hempty y hy
          · obtain ⟨leaf, hmem, -⟩ := hst.exists_leaf h hy
            have hw := List.flatMap_eq_nil_iff.mp hne _ hmem
            simp [sizesWrites] at hw
        · exact Or.inl (hlast (Or.inl hne))
    · obtain ⟨y, hy, hmin⟩ := exists_of_mem_combine hfits hfits' hx
      rw [hmin]
      rcases hy with hy | hy
      · exact lt_of_lt_of_le (hfs.reach y hy) hlen
      · exact hwritten y hy

/-- The size info after a batch is that of the leaf with the highest offset. -/
private theorem sizeInfo_writeBatch (size : Nat) (batch : List (BaoContentItem H)) (s : PartialMemStorage H) :
    s.size.offset ≤ (s.writeBatch size batch).size.offset ∧
      (∀ leaf, .leaf leaf ∈ batch → leaf.offset ≤ (s.writeBatch size batch).size.offset) ∧
      (((s.writeBatch size batch).size = s.size ∧ (s.size.offset = 0 → ∀ leaf, .leaf leaf ∉ batch)) ∨
        ((s.writeBatch size batch).size.size = size ∧
          ∃ leaf, .leaf leaf ∈ batch ∧ (s.writeBatch size batch).size.offset = leaf.offset)) := by
  induction batch generalizing s with
  | nil => exact ⟨Nat.le_refl _, by simp, Or.inl ⟨rfl, by simp⟩⟩
  | cons item batch ih =>
    obtain ⟨h1, h2, h3⟩ := ih (s.writeItem size item)
    rw [← PartialMemStorage.writeBatch_cons] at h1 h2 h3
    cases item with
    | parent parent =>
      have hsize : (s.writeItem size (.parent parent)).size = s.size := by
        simp only [PartialMemStorage.writeItem]
        split <;> rfl
      rw [hsize] at h1 h3
      refine ⟨h1, fun leaf hmem => h2 leaf (by simpa using hmem), h3.imp ?_ ?_⟩
      · rintro ⟨h4, h5⟩
        exact ⟨h4, fun h0 leaf hmem => h5 h0 leaf (by simpa using hmem)⟩
      · rintro ⟨h4, leaf, hmem, h5⟩
        exact ⟨h4, leaf, List.mem_cons_of_mem _ hmem, h5⟩
    | leaf leaf =>
      have hsize : (s.writeItem size (.leaf leaf)).size = s.size.write leaf.offset size := rfl
      rw [hsize] at h1 h3
      unfold SizeInfo.write at h1 h3
      split at h1
      · rename_i hle
        rw [if_pos hle] at h3
        simp only at h1 h3
        refine ⟨by omega, fun leaf' hmem => ?_, Or.inr ?_⟩
        · rcases List.mem_cons.mp hmem with heq | hmem
          · cases heq
            exact h1
          · exact h2 leaf' hmem
        · rcases h3 with ⟨h4, -⟩ | ⟨h4, leaf', hmem, h5⟩
          · exact ⟨by rw [h4], leaf, List.mem_cons_self, by rw [h4]⟩
          · exact ⟨h4, leaf', List.mem_cons_of_mem _ hmem, h5⟩
      · rename_i hle
        rw [if_neg hle] at h3
        refine ⟨h1, fun leaf' hmem => ?_, h3.imp ?_ ?_⟩
        · rcases List.mem_cons.mp hmem with heq | hmem
          · cases heq
            omega
          · exact h2 leaf' hmem
        · rintro ⟨h4, -⟩
          exact ⟨h4, fun h0 => by omega⟩
        · rintro ⟨h4, leaf', hmem, h5⟩
          exact ⟨h4, leaf', List.mem_cons_of_mem _ hmem, h5⟩

/-- A batch is written in memory only if its size info says all: it has the first group only, or the right size. -/
def KnownSize (options : InlineOptions) (blob : List UInt8) : BaoFileStorage H → ImportStream H → Prop
  | .nonExisting, st => maxOffset st.batch ≤ options.maxDataInlined →
    st.decoder.size = blob.length ∨ ∀ leaf, .leaf leaf ∈ st.batch → leaf.offset = 0
  | _, _ => True

theorem knownSize_of_size_eq {entry : BaoFileStorage H} (h : st.decoder.size = blob.length) :
    KnownSize options blob entry st := by
  cases entry with
  | nonExisting => exact fun _ => Or.inl h
  | _ => trivial

/-- The sizes file of an entry that was persisted from memory. -/
private theorem persist_sizes {stored : List Bool → Prop} (h : StreamInv f blob stored st) (hst : StreamExport blob st)
    (hknown : st.decoder.size = blob.length ∨ ∀ leaf, .leaf leaf ∈ st.batch → leaf.offset = 0) :
    ∀ sizes : Content Nat, sizes = ((PartialMemStorage.default (H := H)).writeBatch st.decoder.size
      st.batch).size.persist .empty →
      (LastSize blob sizes ∨ (sizes.len ≤ 1 ∧ ∀ x, x ∉ st.ranges)) ∧
        ∀ x ∈ st.ranges, min x (chunks blob.length - 1) / 16 < sizes.len := by
  intro sizes hsizes
  obtain ⟨-, hmax, hcases⟩ := sizeInfo_writeBatch st.decoder.size st.batch (PartialMemStorage.default (H := H))
  generalize ((PartialMemStorage.default (H := H)).writeBatch st.decoder.size st.batch).size = info at *
  have hlen : sizes.len = info.offset / 16 + 1 := by
    rw [hsizes]
    show max 0 (info.offset / 16 + 1) = _
    omega
  have hcell : sizes.cell (sizes.len - 1) = some info.size := by
    rw [hlen, hsizes, SizeInfo.persist, Content.cell_write, if_pos (by simp)]
    simp
  refine ⟨?_, fun x hx => ?_⟩
  · rcases hcases with ⟨hinfo, hnone⟩ | ⟨hsize, leaf, hmem, hoffset⟩
    · refine Or.inr ⟨by rw [hlen, hinfo]; simp [PartialMemStorage.default], fun x hx => ?_⟩
      obtain ⟨leaf, hmem, -⟩ := hst.exists_leaf h hx
      exact hnone rfl leaf hmem
    · refine Or.inl ⟨info.size, hcell, ?_⟩
      rw [hsize, hlen, Nat.add_sub_cancel]
      rcases hknown with hknown | hknown
      · exact Or.inl hknown
      · obtain ⟨p, hp, hpath⟩ := hst.leaves leaf hmem
        have hgood := goodSize_of_leaf h.size_pos hp hpath
        rw [hoffset, hknown leaf hmem] at *
        exact hgood
  · obtain ⟨leaf, hmem, hlt, hgroup⟩ := hst.exists_leaf h hx
    have := hmax leaf hmem
    rw [hlen, Nat.min_eq_left (by omega), hgroup]
    omega

/-- What an export needs holds after a batch is written to memory. -/
private theorem afterMemBatch_export (h : StreamInv f blob (fun _ => False) st) (hst : StreamExport blob st)
    (hknown : st.decoder.size = blob.length ∨ ∀ leaf, .leaf leaf ∈ st.batch → leaf.offset = 0) :
    ∀ ms : PartialMemStorage H, ms.data = Content.empty.writes (st.batch.flatMap dataWrites) →
      ms.outboard = Content.empty.writes (st.batch.flatMap (memOutboardWrites st.decoder.size)) →
      ms.bitfield = Bitfield.empty.combine ⟨st.decoder.size, st.ranges⟩ →
      ms.size = ((PartialMemStorage.default (H := H)).writeBatch st.decoder.size st.batch).size →
      EntryExport blob (BaoFileStorage.afterMemBatch options .empty ms) := by
  intro ms h1 h2 h3 h4
  have hinv : StreamInv f blob (HasPair f blob (Content.empty)) st := h.mono (fun _ _ => False.elim)
  have hfits' : Fits blob.length (fun _ _ => True) ⟨st.decoder.size, st.ranges⟩ := h.fits (fun _ _ _ _ _ _ _ => trivial)
  have hb := hinv.hasBitfield outboardWriter_mem (hasBitfield_empty .empty .empty) fits_empty (fun x hx _ => hx) hfits'
  have hfits := (fits_combine (fits_empty) hfits').1
  have hbounded := (Content.bounded_empty (α := UInt8)).writes (st.batch.flatMap dataWrites)
  have hle : ms.data.len ≤ blob.length := by
    rw [h1]
    refine Content.len_writes_le (Nat.zero_le _) (fun i x hx => ?_) (respects_dataWrites h.items)
    exact (List.getElem?_eq_some_iff.mp hx).1
  rw [← h1, ← h2, ← h3] at hb
  rw [← h3] at hfits
  rw [← h1] at hbounded
  have hnone : ∀ x, x ∉ Bitfield.empty.ranges := RangeSet.not_mem_empty
  unfold BaoFileStorage.afterMemBatch
  split
  · rename_i hc
    obtain ⟨hsize, hall⟩ := complete_of_fits hfits hc
    have hge := length_le_of_hasBitfield hb hbounded hall
    simp only [EntryExport, PartialMemStorage.intoComplete, PartialMemStorage.currentSize, hsize]
    split
    · omega
    · rfl
  · obtain ⟨hlast, hreach⟩ := persist_sizes h hst hknown _ rfl
    rw [← h4] at hlast hreach
    have horigin : ∀ x ∈ ms.bitfield.ranges, ∃ y ∈ st.ranges,
      min x (chunks blob.length - 1) = min y (chunks blob.length - 1) := by
      intro x hx
      rw [h3] at hx
      obtain ⟨y, hy, hmin⟩ := exists_of_mem_combine (fits_empty) hfits' hx
      exact ⟨y, hy.resolve_left (hnone y), hmin⟩
    refine ⟨Content.bounded_empty.persist _, ?_, hlast.imp_right (And.imp_right fun hempty x hx => ?_), fun x hx => ?_⟩
    · show GroupClosed blob ms.bitfield.ranges
      rw [h3]
      exact GroupClosed.combine (fun x hx => absurd hx (hnone x)) hst.closed (fits_empty) hfits'
    · obtain ⟨y, hy, -⟩ := horigin x hx
      exact hempty y hy
    · obtain ⟨y, hy, hmin⟩ := horigin x hx
      rw [hmin]
      exact hreach y hy

/-- What an export needs holds after a batch is written to a new entry. -/
private theorem writeBatchMem_export (h : StreamInv f blob (fun _ => False) st) (hst : StreamExport blob st)
    (hknown : KnownSize options blob .nonExisting st) {omits : Omits}
    (hcopies : maxOffset st.batch ≤ options.maxDataInlined → omits.WritesAll) :
    EntryExport blob
      (BaoFileStorage.writeBatchMem options (.new omits) st.batch ⟨st.decoder.size, st.ranges⟩ .default).1 := by
  unfold BaoFileStorage.writeBatchMem
  split
  · rename_i hmem
    obtain ⟨h1, h2, h3⟩ := writeBatch_eq_mem st.decoder.size st.batch (PartialMemStorage.default (H := H))
    rw [(hcopies hmem).eq_none]
    exact afterMemBatch_export h hst (hknown hmem) _ h1 h2 (congrArg (Bitfield.combine · _) h3) rfl
  · have hst' : StreamInv f blob (HasPair f blob ((PartialMemStorage.default (H := H)).persist (.new omits)).outboard)
      st :=
      h.mono (fun _ _ => False.elim)
    refine afterFileBatch_export hst' (hasBitfield_empty _ _) fits_empty hst ?_ _ _ rfl rfl
    have hnone : ∀ x, x ∉ ((PartialMemStorage.default (H := H)).persist (.new omits)).bitfield.ranges :=
      RangeSet.not_mem_empty
    have hlen : ((PartialMemStorage.default (H := H)).persist (.new omits)).sizes.len ≤ 1 := by
      show max 0 (0 / 16 + 1) ≤ 1
      omega
    exact ⟨Content.bounded_empty.persist _, fun x hx => absurd hx (hnone x), Or.inr ⟨hlen, hnone⟩,
      fun x hx => absurd hx (hnone x)⟩

/-- Writing a batch keeps what an export needs. -/
private theorem writeBatch_export {entry entry' : BaoFileStorage H} {io : Option Omits} {written : Bool}
    (he : EntryInv f blob entry)
    (hx : EntryExport blob entry) (h : StreamInv f blob (PairStored f blob entry) st) (hst : StreamExport blob st)
    (hknown : KnownSize options blob entry st) (hcopies : CopiesAll options entry st io)
    (hwrite : writeBatch options entry st.batch ⟨st.decoder.size, st.ranges⟩ io = (entry', written)) :
    EntryExport blob entry' := by
  cases entry with
  | partialMem s => exact False.elim he
  | complete s =>
    cases hwrite
    exact hx
  | poisoned =>
    cases hwrite
    trivial
  | initial =>
    cases hwrite
    trivial
  | loading =>
    cases hwrite
    trivial
  | nonExisting =>
    simp only [writeBatch] at hwrite
    split at hwrite
    · rename_i omits
      cases hwrite
      exact writeBatchMem_export h hst hknown (fun hmem => hcopies hmem omits rfl)
    · cases hwrite
      trivial
  | partialFile fs =>
    simp only [writeBatch] at hwrite
    split at hwrite
    · cases hwrite
      exact afterFileBatch_export h he.1 he.2 hst hx _ _ rfl rfl
    · cases hwrite
      trivial

/-! ### Exports -/

/-- The chunks of the bitfield have provable groups. -/
theorem hasGroup_of_closed {data : Content UInt8} {outboard : Content H} {bitfield : Bitfield}
    (hb : HasBitfield f blob data outboard bitfield) (hc : GroupClosed blob bitfield.ranges) {x : Nat}
    (hx : x ∈ bitfield.ranges) : HasGroup f blob data outboard (min x (chunks blob.length - 1)) :=
  fun y hy hxy => hb y (hc x hx y hy hxy) hy

/-- A good size other than that of the blob does not belong to the last group. -/
private theorem GoodSize.lt_last {z group : Nat} (h : GoodSize blob z group) (hne : z ≠ blob.length) :
    group < (chunks blob.length - 1) / 16 := by
  obtain ⟨-, y, hy, p, hp', hp, hsub, hle, h1, h2, hlast⟩ := h.resolve_left hne
  have hn : 0 < treeChunks blob.length := by unfold treeChunks; omega
  have h3 := mt (sub_end_iff hn (hp.mono (by omega))).mp (fun hright => hne (hlast hright))
  have h4 := (sub_bounds hn (hp.mono (k := 1) (by omega))).2
  obtain ⟨⟨k, hk⟩, hend⟩ := group_aligned hn hp hle
  have e : treeChunks blob.length = max 1 (chunks blob.length) := rfl
  omega

/-- The selected chunks of a partial entry verify. -/
private theorem verifies_partialFile {s : PartialFileStorage H} (hb : HasBitfield f blob s.data s.outboard s.bitfield)
    (hs : FileExport blob s) {x : Nat} (hx : x ∈ s.bitfield.ranges) :
    ExportSource.Verifies f ⟨s.currentSize, nodeHash f blob [], s.data, s.outboard⟩
      (ExportSource.selected ⟨s.currentSize, nodeHash f blob [], s.data, s.outboard⟩ x) ∧
      (0 < s.currentSize ∨ s.currentSize = blob.length) := by
  obtain ⟨z, hcell, hgood⟩ := hs.sizes.resolve_right (fun h => h.2 x hx)
  have hreach := hs.reach x hx
  have hsize : s.currentSize = z := by
    rw [PartialFileStorage.currentSize, readSize, if_neg (by omega), hcell, Option.getD_some]
  have hgroup := hasGroup_of_closed hb hs.closed hx
  rw [hsize]
  by_cases hz : z = blob.length
  · exact ⟨verifies_selected_of_size_eq rfl hz hgroup, Or.inr hz⟩
  · have hlt := hgood.lt_last hz
    obtain ⟨hpos, y, hy, hyz⟩ := hgood.resolve_left hz
    rw [Nat.min_eq_left (by omega)] at hgroup hreach
    exact ⟨verifies_selected_of_reaches rfl hpos hyz (by omega) (by omega) hgroup, Or.inl hpos⟩

/-- The selected chunks of a complete entry verify. -/
theorem verifies_complete {s : CompleteStorage H} (hb : HasBitfield f blob s.data s.outboard s.bitfield)
    (hs : s.size = blob.length) (x : Nat) :
    ExportSource.Verifies f ⟨s.size, nodeHash f blob [], s.data, s.outboard⟩
      (ExportSource.selected ⟨s.size, nodeHash f blob [], s.data, s.outboard⟩ x) :=
  verifies_selected_of_size_eq rfl hs (fun y hy _ => hb y (RangeSet.mem_all y) hy)

/-! ### Runs -/

variable [DecidableEq H]

theorem StreamExport.pushLeaf {stored : List Bool → Prop} (hf : CollisionFree f) (hst : StreamExport blob st)
    (h : StreamInv f blob stored st) {p : List Bool} {data : List UInt8} {leaf : Leaf}
    (hd : st.decoder.leaf f 16 p data = true) (hpath : IsPath 16 (treeChunks st.decoder.size) p)
    (hleaf : leaf = ⟨(sub (treeChunks st.decoder.size) p).1 * 1024, data⟩) :
    StreamExport blob { st with ranges := st.ranges ∪ chunkRange leaf, batch := st.batch ++ [.leaf leaf] } := by
  have hof := (h.leafOf hf hd).leaf
  rw [← hleaf] at hof
  refine ⟨fun leaf' hmem => ?_, hst.closed.union (groupClosed_chunkRange hof hpath)⟩
  rcases List.mem_append.mp hmem with hmem | hmem
  · exact hst.leaves leaf' hmem
  · cases List.mem_singleton.mp hmem
    exact ⟨p, hof, hpath⟩

/-- The condition for exports: parents are placed, leaves are whole chunk groups, the size info is not lost, and the
first batch is copied as a whole. -/
def placedWhole (options : InlineOptions) (blob : List UInt8) : Condition H :=
  ⟨PlacedAt blob, fun size p => IsPath 16 (treeChunks size) p,
    fun entry st io => KnownSize options blob entry st ∧ CopiesAll options entry st io⟩

theorem preserved_export (hf : CollisionFree f) :
    Preserved f (nodeHash f blob []) options (placedWhole options blob)
      (fun entry => EntryInv f blob entry ∧ EntryExport blob entry)
      (fun entry st => StreamInv f blob (PairStored f blob entry) st ∧ StreamExport blob st) where
  start entry size hsize := ⟨streamInv_start rfl hsize, by simp, fun x hx => absurd hx (RangeSet.not_mem_empty x)⟩
  parent entry st p pair d' h hplaced hd := by
    refine ⟨h.1.pushParent hf hd hplaced, fun leaf hmem => ?_, h.2.closed⟩
    have hsize : d'.size = st.decoder.size := by rw [(parent_eq_some hd).1]
    rw [hsize]
    exact h.2.leaves leaf (by simpa using hmem)
  leaf entry st p data leaf h hpath hd hleaf := ⟨h.1.pushLeaf hf hd hleaf, h.2.pushLeaf hf h.1 hd hpath hleaf⟩
  write entry st io entry' written he h hc hwrite := by
    obtain ⟨h1, h2, h3⟩ := writeBatch_inv options he.1 h.1 hc.2 hwrite
    refine ⟨⟨h1, writeBatch_export he.1 he.2 h.1 h.2 hc.1 hc.2 hwrite⟩,
      fun st' hst' => ⟨hst'.1.mono h2, hst'.2⟩, fun hw => ?_⟩
    exact ⟨h.1.flushed (h3 hw), by simp, fun x hx => absurd hx (RangeSet.not_mem_empty x)⟩

/-- An export succeeds if all that it compares is equal. -/
private theorem succeeds_of_verifies {traverse : ExportSource H → ChunkRanges → List (EncodedItem H)}
    (ht : TraversesValidated f traverse) {entry : BaoFileStorage H} {src : ExportSource H} {ranges : ChunkRanges}
    (hsrc : entry.source (nodeHash f blob []) = some src)
    (h : ∀ x ∈ ranges, src.Verifies f (src.selected x) ∧ (0 < src.size ∨ src.size = blob.length)) :
    ExportSucceeds (exportBaoImpl traverse (nodeHash f [] []) (nodeHash f blob []) entry ranges) ranges := by
  obtain ⟨hdone, herr⟩ := ht src ranges (fun x hx => (h x hx).1)
  rw [exportBaoImpl, hsrc]
  simp only
  split
  · rename_i hzero
    refine ⟨by simp, fun ⟨x, hx⟩ => absurd ?_ hzero.2⟩
    -- only the empty blob has size zero
    rcases (h x hx).2 with hpos | hlen
    · omega
    · rw [List.length_eq_zero_iff.mp (hlen.symm.trans hzero.1)]
  · exact ⟨herr, fun _ => hdone⟩

/-- Exports of ranges of the bitfield succeed. -/
theorem export_succeeds {traverse : ExportSource H → ChunkRanges → List (EncodedItem H)}
    (ht : TraversesValidated f traverse)
    {entry : BaoFileStorage H} (he : EntryInv f blob entry) (hx : EntryExport blob entry) {b : Bitfield} {size : Nat}
    (hb : entry.bitfield = some b) (hsize : entry.currentSize = some size) {ranges : ChunkRanges}
    (hranges : ∀ x ∈ ranges, x ∈ b.ranges) :
    ExportSucceeds (exportBaoImpl traverse (nodeHash f [] []) (nodeHash f blob []) entry ranges) ranges := by
  cases entry with
  | partialMem s => exact False.elim hx
  | initial => cases hsize
  | loading => cases hsize
  | nonExisting => cases hsize
  | poisoned => cases hsize
  | complete s =>
    cases hb
    refine succeeds_of_verifies ht rfl (fun x _ => ⟨verifies_complete he hx x, Or.inr hx⟩)
  | partialFile s =>
    cases hb
    exact succeeds_of_verifies ht rfl (fun x hx' => verifies_partialFile he.1 hx (hranges x hx'))

end

end ImportBao

end IrohBlobs
