import IrohBlobs.ImportFs
import IrohBlobs.StateMachine

/-!
# The recorded size of a partial entry

A partial entry keeps the size that was claimed for its last leaf: in memory as a `SizeInfo` at the offset of the leaf,
on disk in the slot of its chunk group.  A sizes file is again a `SizeInfo`, with slots in place of offsets
(`lastInfo_writes`), so both are described by the write that decides: the last one to the highest position
(`writes_cases`).

`SizeInfo::persist` goes to the slot `offset >> 4` and not to that of the chunk group, which may lie beyond all chunk
groups of the blob.
-/

namespace IrohBlobs

/-! ### The deciding write -/

namespace SizeInfo

/-- A list of writes of sizes to positions, in order. -/
def writes (info : SizeInfo) (ws : List (Nat × Nat)) : SizeInfo := ws.foldl (fun info w => info.write w.1 w.2) info

variable {info : SizeInfo} {ws : List (Nat × Nat)}

private theorem writes_append (info : SizeInfo) (ws ws' : List (Nat × Nat)) :
    info.writes (ws ++ ws') = (info.writes ws).writes ws' := List.foldl_append

private theorem writes_of_lt (h : ∀ w ∈ ws, w.1 < info.offset) : info.writes ws = info := by
  induction ws with
  | nil => rfl
  | cons w ws ih =>
    have hw := h w List.mem_cons_self
    have hkeep : info.write w.1 w.2 = info := if_neg (by omega)
    show (info.write w.1 w.2).writes ws = info
    rw [hkeep]
    exact ih (fun v hv => h v (List.mem_cons_of_mem _ hv))

/-- The write decides: it is the last one to the highest position. -/
structure Decides (ws : List (Nat × Nat)) (w : Nat × Nat) : Prop where
  split : ∃ pre post, ws = pre ++ w :: post ∧ (∀ v ∈ pre, v.1 ≤ w.1) ∧ ∀ v ∈ post, v.1 < w.1

private theorem Decides.mem {w : Nat × Nat} (h : Decides ws w) : w ∈ ws := by
  obtain ⟨pre, post, rfl, -, -⟩ := h.split
  simp

/-- The size stays, or it is that of the deciding write. -/
theorem writes_cases (info : SizeInfo) (ws : List (Nat × Nat)) :
    (info.writes ws = info ∧ ∀ w ∈ ws, w.1 < info.offset) ∨
      ∃ w, Decides ws w ∧ info.offset ≤ w.1 ∧ info.writes ws = ⟨w.1, w.2⟩ := by
  induction ws generalizing info with
  | nil => exact Or.inl ⟨rfl, by simp⟩
  | cons v ws ih =>
    have hcons : info.writes (v :: ws) = (info.write v.1 v.2).writes ws := rfl
    rw [hcons]
    rcases Nat.lt_or_ge v.1 info.offset with hlt | hle
    · have hkeep : info.write v.1 v.2 = info := if_neg (by omega)
      rw [hkeep]
      rcases ih info with ⟨heq, hall⟩ | ⟨w, ⟨pre, post, rfl, hpre, hpost⟩, hoff, heq⟩
      · exact Or.inl ⟨heq, List.forall_mem_cons.mpr ⟨hlt, hall⟩⟩
      · refine Or.inr ⟨w, ⟨v :: pre, post, rfl, List.forall_mem_cons.mpr ⟨by omega, hpre⟩, hpost⟩, hoff, heq⟩
    · have hset : info.write v.1 v.2 = ⟨v.1, v.2⟩ := if_pos hle
      rw [hset]
      rcases ih ⟨v.1, v.2⟩ with ⟨heq, hall⟩ | ⟨w, ⟨pre, post, rfl, hpre, hpost⟩, hoff, heq⟩
      · exact Or.inr ⟨v, ⟨[], ws, rfl, by simp, hall⟩, hle, heq⟩
      · refine Or.inr ⟨w, ⟨v :: pre, post, rfl, List.forall_mem_cons.mpr ⟨hoff, hpre⟩, hpost⟩, le_trans hle hoff, heq⟩

private theorem writes_of_decides {w : Nat × Nat} (h : Decides ws w) (hoff : info.offset ≤ w.1) :
    info.writes ws = ⟨w.1, w.2⟩ := by
  obtain ⟨pre, post, rfl, hpre, hpost⟩ := h.split
  have hbefore : (info.writes pre).offset ≤ w.1 := by
    rcases writes_cases info pre with ⟨heq, -⟩ | ⟨v, hv, -, heq⟩
    · rw [heq]
      exact hoff
    · rw [heq]
      exact hpre v hv.mem
  have hset : (info.writes pre).write w.1 w.2 = ⟨w.1, w.2⟩ := if_pos hbefore
  rw [writes_append]
  show ((info.writes pre).write w.1 w.2).writes post = _
  rw [hset]
  exact writes_of_lt hpost

/-- A write at or beyond both positions makes two sizes equal. -/
private theorem writes_congr (info' : SizeInfo) (hle : info.offset ≤ info'.offset) (h : ∃ w ∈ ws, info'.offset ≤ w.1) :
    info.writes ws = info'.writes ws := by
  obtain ⟨v, hv, hoff⟩ := h
  rcases writes_cases info' ws with ⟨-, hall⟩ | ⟨w, hw, hle', heq⟩
  · have := hall v hv
    omega
  · rw [heq]
    exact writes_of_decides hw (by omega)

/-- No write is beyond the position that is kept. -/
private theorem le_offset_writes (info : SizeInfo) {w : Nat × Nat} (hw : w ∈ ws) : w.1 ≤ (info.writes ws).offset := by
  rcases writes_cases info ws with ⟨heq, hall⟩ | ⟨v, ⟨pre, post, rfl, hpre, hpost⟩, -, heq⟩
  · rw [heq]
    exact (hall w hw).le
  · rw [heq]
    rcases List.mem_append.mp hw with hw | hw
    · exact hpre w hw
    · rcases List.mem_cons.mp hw with rfl | hw
      · exact Nat.le_refl _
      · exact (hpost w hw).le

/-- If all writes are of one size, this is the size from then on, or nothing is written to the position or beyond. -/
theorem writes_uniform {z : Nat} (info : SizeInfo) (ws : List (Nat × Nat)) (h : ∀ w ∈ ws, w.2 = z) :
    (info.writes ws = info ∧ ∀ w ∈ ws, w.1 < info.offset) ∨
      ((info.writes ws).size = z ∧ ∃ w ∈ ws, (info.writes ws).offset = w.1) := by
  rcases writes_cases info ws with hkeep | ⟨w, hw, -, heq⟩
  · exact Or.inl hkeep
  · rw [heq]
    exact Or.inr ⟨h w hw.mem, w, hw.mem, rfl⟩

end SizeInfo

/-! ### Sizes files -/

namespace CurrentSize

open Merkle Provable ImportBao

/-- The last slot of a sizes file, and the size in it. -/
def lastInfo (sizes : Content Nat) : SizeInfo := ⟨sizes.len - 1, readSize sizes⟩

private theorem lastInfo_write (sizes : Content Nat) (slot size : Nat) :
    lastInfo (sizes.write slot [size]) = (lastInfo sizes).write slot size := by
  have hlen : (sizes.write slot [size]).len = max sizes.len (slot + 1) := rfl
  have hread : readSize (sizes.write slot [size]) =
      if sizes.len ≤ slot + 1 then size else (sizes.cell (sizes.len - 1)).getD 0 := by
    unfold readSize
    rw [hlen, if_neg (by omega), Content.cell_write]
    by_cases h : sizes.len ≤ slot + 1
    · rw [if_pos h, if_pos (by simp; omega), show max sizes.len (slot + 1) - 1 - slot = 0 by omega]
      rfl
    · rw [if_neg h, if_neg (by simp; omega), show max sizes.len (slot + 1) = sizes.len by omega]
  unfold lastInfo SizeInfo.write
  rw [hread, hlen]
  by_cases h : sizes.len ≤ slot + 1
  · rw [if_pos h, if_pos (by simp only; omega), show max sizes.len (slot + 1) - 1 = slot by omega]
  · rw [if_neg h, if_neg (by simp only; omega), show max sizes.len (slot + 1) = sizes.len by omega]
    unfold readSize
    rw [if_neg (by omega)]

/-- A sizes file keeps the size of the highest slot. -/
private theorem lastInfo_writes (sizes : Content Nat) (ws : List (Nat × Nat)) :
    lastInfo (sizes.writes (ws.map (fun w => (w.1, [w.2])))) = (lastInfo sizes).writes ws := by
  induction ws generalizing sizes with
  | nil => rfl
  | cons w ws ih =>
    rw [List.map_cons, Content.writes_cons, ih, lastInfo_write]
    rfl

private theorem lastInfo_persist (info : SizeInfo) :
    lastInfo (info.persist .empty) = ⟨info.offset / 16, info.size⟩ := by
  unfold SizeInfo.persist
  rw [lastInfo_write]
  exact if_pos (Nat.zero_le _)

section

variable {H : Type}

/-- The sizes that an item writes: by offset in memory, by the slot of the chunk group on disk. -/
def leafSizes (position : Nat → Nat) (size : Nat) : BaoContentItem H → List (Nat × Nat)
  | .leaf leaf => [(position leaf.offset, size)]
  | .parent _ => []

/-- The slot of a chunk group. -/
def slot (offset : Nat) : Nat := offset / 16384

private theorem mem_leafSizes {position : Nat → Nat} {size : Nat} {items : List (BaoContentItem H)} {w : Nat × Nat} :
    w ∈ items.flatMap (leafSizes position size) ↔ ∃ leaf, .leaf leaf ∈ items ∧ w = (position leaf.offset, size) := by
  rw [List.mem_flatMap]
  constructor
  · rintro ⟨item, hitem, hw⟩
    cases item with
    | leaf leaf => exact ⟨leaf, hitem, List.mem_singleton.mp hw⟩
    | parent parent => simp [leafSizes] at hw
  · rintro ⟨leaf, hleaf, rfl⟩
    exact ⟨.leaf leaf, hleaf, by simp [leafSizes]⟩

private theorem size_writeBatch (size : Nat) (items : List (BaoContentItem H)) (s : PartialMemStorage H) :
    (s.writeBatch size items).size = s.size.writes (items.flatMap (leafSizes id size)) := by
  induction items generalizing s with
  | nil => rfl
  | cons item items ih =>
    rw [PartialMemStorage.writeBatch_cons, ih, List.flatMap_cons, SizeInfo.writes_append]
    cases item with
    | leaf leaf => rfl
    | parent parent =>
      simp only [PartialMemStorage.writeItem]
      split <;> rfl

private theorem sizesWrites_eq (size : Nat) (items : List (BaoContentItem H)) :
    items.flatMap (sizesWrites size) = (items.flatMap (leafSizes slot size)).map (fun w => (w.1, [w.2])) := by
  rw [List.map_flatMap]
  congr 1
  funext item
  cases item <;> rfl

/-- The sizes file after a batch. -/
theorem lastInfo_writeBatch (size : Nat) (items : List (BaoContentItem H)) (s : PartialFileStorage H) :
    lastInfo (s.writeBatch size items).sizes = (lastInfo s.sizes).writes (items.flatMap (leafSizes slot size)) := by
  rw [writeBatch_eq_file, sizesWrites_eq, lastInfo_writes]

/-! ### Batches -/

/-- The extent of a leaf of a blob of size `S`: whole chunks of one chunk group. -/
structure LeafOf (S : Nat) (leaf : Leaf) : Prop where
  aligned : leaf.offset % 1024 = 0
  nonempty : 0 < leaf.data.length
  ends : leaf.offset + leaf.data.length = S ∨
    leaf.offset + leaf.data.length < S ∧ (leaf.offset + leaf.data.length) % 1024 = 0
  group : slot leaf.offset = slot (leaf.offset + leaf.data.length - 1)

/-- The chunks of the leaves of a batch, as collected by `import_bao_impl`. -/
def batchRanges (items : List (BaoContentItem H)) : ChunkRanges :=
  items.foldl (fun ranges item => match item with
    | .leaf leaf => ranges ∪ chunkRange leaf
    | .parent _ => ranges) ∅

theorem mem_batchRanges {items : List (BaoContentItem H)} {x : Nat} :
    x ∈ batchRanges items ↔ ∃ leaf, .leaf leaf ∈ items ∧ x ∈ chunkRange leaf := by
  have hgen : ∀ ranges : ChunkRanges, x ∈ items.foldl (fun ranges item => match item with
      | .leaf leaf => ranges ∪ chunkRange leaf
      | .parent _ => ranges) ranges ↔ x ∈ ranges ∨ ∃ leaf, .leaf leaf ∈ items ∧ x ∈ chunkRange leaf := by
    induction items with
    | nil => simp
    | cons item items ih =>
      intro ranges
      rw [List.foldl_cons, ih]
      cases item with
      | leaf leaf =>
        simp only [RangeSet.mem_union, List.mem_cons, BaoContentItem.leaf.injEq, or_and_right,
          exists_or, exists_eq_left]
        exact or_assoc
      | parent parent => simp
  rw [batchRanges, hgen]
  exact or_iff_right (RangeSet.not_mem_empty x)

/-- A batch of an import of a blob of size `S`.  The import claims a size; only with the right size it has a leaf that
covers the last chunk. -/
structure Batch (H : Type) (S : Nat) where
  size : Nat
  items : List (BaoContentItem H)
  size_pos : 0 < size
  leaves : ∀ leaf, .leaf leaf ∈ items → LeafOf S leaf
  claim : size = S ∨ ∀ leaf, .leaf leaf ∈ items → ∀ x ∈ chunkRange leaf, x + 1 < chunks S ∧ x + 1 < chunks size

variable {S : Nat}

/-- The update of the bitfield. -/
def Batch.bitfield (batch : Batch H S) : Bitfield := ⟨batch.size, batchRanges batch.items⟩

/-- Write a batch to an entry that had no files before. -/
def write (options : InlineOptions) (entry : BaoFileStorage H) (batch : Batch H S) : Option (BaoFileStorage H) :=
  some (entry.writeBatch options .empty batch.items batch.bitfield).1

/-- The slot of the last chunk group. -/
def lastSlot (S : Nat) : Nat := slot (S - 1)

private theorem LeafOf.slot_le {leaf : Leaf} (h : LeafOf S leaf) : slot leaf.offset ≤ lastSlot S := by
  rw [h.group]
  unfold lastSlot slot
  have := h.ends
  omega

/-- A leaf that covers the last chunk ends with the blob, in the last chunk group. -/
theorem LeafOf.of_last {leaf : Leaf} (h : LeafOf S leaf) (hlast : chunks S - 1 ∈ chunkRange leaf) :
    leaf.offset + leaf.data.length = S ∧ slot leaf.offset = lastSlot S := by
  have hend : leaf.offset + leaf.data.length = S := by
    rcases h.ends with hend | ⟨hlt, hmod⟩
    · exact hend
    · unfold chunkRange at hlast
      rw [RangeSet.mem_range] at hlast
      unfold chunks at hlast
      omega
  rw [h.group, hend]
  exact ⟨rfl, rfl⟩

private theorem Batch.fits (batch : Batch H S) : Fits S (fun _ _ => True) batch.bitfield := by
  refine batch.claim.imp_right (fun h x hx => ?_)
  obtain ⟨leaf, hleaf, hx⟩ := mem_batchRanges.mp hx
  obtain ⟨h1, h2⟩ := h leaf hleaf x hx
  exact ⟨h2, h1, x, Nat.le_refl x, trivial⟩

/-- A batch with the last chunk has the right size, and a leaf that ends with the blob. -/
theorem Batch.of_last (batch : Batch H S) (h : chunks S - 1 ∈ batch.bitfield.ranges) :
    batch.size = S ∧ ∃ leaf, .leaf leaf ∈ batch.items ∧ leaf.offset + leaf.data.length = S ∧
      slot leaf.offset = lastSlot S := by
  obtain ⟨leaf, hleaf, hx⟩ := mem_batchRanges.mp h
  constructor
  · refine batch.claim.resolve_right (fun hclaim => ?_)
    have := (hclaim leaf hleaf _ hx).1
    omega
  · exact ⟨leaf, hleaf, (batch.leaves leaf hleaf).of_last hx⟩

/-- All leaves lie within the blob. -/
private theorem Batch.dataWrites_le (batch : Batch H S) :
    Content.Respects (fun i _ => i < S) (batch.items.flatMap dataWrites) := by
  intro w hw j x hx
  obtain ⟨item, hitem, hw⟩ := List.mem_flatMap.mp hw
  cases item with
  | parent parent => simp [dataWrites] at hw
  | leaf leaf =>
    simp only [dataWrites, List.mem_singleton] at hw
    subst hw
    have hj := (List.getElem?_eq_some_iff.mp hx).1
    have := (batch.leaves leaf hitem).ends
    simp only at hj ⊢
    omega

/-- A file with the leaf that ends with the blob reaches to the end of the blob. -/
theorem Batch.le_len_writes (batch : Batch H S) {leaf : Leaf} (hleaf : .leaf leaf ∈ batch.items)
    (hend : leaf.offset + leaf.data.length = S) (data : Content UInt8) :
    S ≤ (data.writes (batch.items.flatMap dataWrites)).len := by
  have hw : (leaf.offset, leaf.data) ∈ batch.items.flatMap dataWrites :=
    List.mem_flatMap.mpr ⟨.leaf leaf, hleaf, List.mem_singleton.mpr rfl⟩
  have hne : leaf.data ≠ [] := List.length_pos_iff.mp (batch.leaves leaf hleaf).nonempty
  have := (Content.le_len_writes data _).2 _ hw hne
  simp only at this
  omega

/-! ### The invariant -/

/-- What holds of a partial entry on disk.  A last slot beyond the last chunk group has the right size. -/
structure FileInv (S : Nat) (fs : PartialFileStorage H) : Prop where
  fits : Fits S (fun _ _ => True) fs.bitfield
  pos : ∀ x ∈ fs.bitfield.ranges, 0 < S
  slots : (lastInfo fs.sizes).offset ≤ lastSlot S ∨ (lastInfo fs.sizes).size = S
  last : chunks S - 1 ∈ fs.bitfield.ranges → (lastInfo fs.sizes).size = S ∧ S ≤ fs.data.len

/-- What holds of an entry. -/
def EntryInv (S : Nat) : BaoFileStorage H → Prop
  | .nonExisting => True
  | .partialFile fs => FileInv S fs
  | .complete s => s.size = S
  | .initial | .loading | .partialMem _ | .poisoned => False

/-- What is left out.  A batch in memory with a wrong size may be persisted to a slot beyond the last chunk group, and a
batch with a wrong size may be written to the last slot when the size is already known. -/
def SizeKept (options : InlineOptions) : BaoFileStorage H → Batch H S → Prop
  | .nonExisting, batch => maxOffset batch.items ≤ options.maxDataInlined →
    batch.size = S ∨ ∀ leaf, .leaf leaf ∈ batch.items → leaf.offset / 16 ≤ lastSlot S
  | .partialFile fs, batch => fs.bitfield.isValidated = true →
    batch.size = S ∨ ∀ leaf, .leaf leaf ∈ batch.items → slot leaf.offset + 1 < fs.sizes.len
  | _, _ => True

/-- A validated bitfield has the right size and the last chunk. -/
theorem validated_iff {b : Bitfield} (h : Fits S (fun _ _ => True) b) (hpos : ∀ x ∈ b.ranges, 0 < S) :
    b.isValidated = true ↔ chunks S - 1 ∈ b.ranges ∧ b.size = S := by
  unfold Bitfield.isValidated
  constructor
  · intro hv
    rcases h with h | h
    · rw [h] at hv
      split at hv
      · exact ⟨RangeSet.isAll_iff.mp hv _, h⟩
      · exact ⟨RangeSet.mem_iff.mpr hv, h⟩
    · exfalso
      split at hv
      · rename_i hz
        have := (h 0 (RangeSet.isAll_iff.mp hv 0)).1
        rw [hz] at this
        simp [chunks] at this
      · rename_i hz
        have hc := Bitfield.chunks_pos (Nat.pos_of_ne_zero hz)
        have := (h _ (RangeSet.mem_iff.mpr hv)).1
        omega
  · rintro ⟨hlast, hsize⟩
    have := hpos _ hlast
    rw [hsize, if_neg (by omega)]
    exact RangeSet.mem_iff.mp hlast

/-- The last chunk comes with the right size. -/
theorem validated_of_last {b : Bitfield} (h : Fits S (fun _ _ => True) b) (hpos : ∀ x ∈ b.ranges, 0 < S)
    (hlast : chunks S - 1 ∈ b.ranges) : b.isValidated = true := by
  refine (validated_iff h hpos).mpr ⟨hlast, h.resolve_right (fun hwrong => ?_)⟩
  have := (hwrong _ hlast).2.1
  have := Bitfield.chunks_pos (hpos _ hlast)
  omega

private theorem Batch.pos (batch : Batch H S) {x : Nat} (hx : x ∈ batch.bitfield.ranges) : 0 < S := by
  obtain ⟨leaf, hleaf, -⟩ := mem_batchRanges.mp hx
  have h1 := (batch.leaves leaf hleaf).nonempty
  have h2 := (batch.leaves leaf hleaf).ends
  omega

/-- The bitfield of an entry after a batch. -/
theorem combine_inv {b : Bitfield} (h : Fits S (fun _ _ => True) b) (hpos : ∀ x ∈ b.ranges, 0 < S) (batch : Batch H S) :
    Fits S (fun _ _ => True) (b.combine batch.bitfield) ∧ (∀ x ∈ (b.combine batch.bitfield).ranges, 0 < S) ∧
      (chunks S - 1 ∈ (b.combine batch.bitfield).ranges →
        chunks S - 1 ∈ b.ranges ∨ chunks S - 1 ∈ batch.bitfield.ranges) := by
  obtain ⟨hfits, horigin⟩ := fits_combine h batch.fits
  have hunion : ∀ x ∈ b.ranges ∪ batch.bitfield.ranges, 0 < S := by
    intro x hx
    rcases RangeSet.mem_union.mp hx with hx | hx
    · exact hpos x hx
    · exact batch.pos hx
  refine ⟨hfits, fun x hx => ?_, fun hlast => ?_⟩
  · rcases horigin x hx with hx | ⟨-, hx⟩
    · exact hunion x hx
    · exact hunion _ hx
  · rcases horigin _ hlast with hx | ⟨-, hx⟩
    · exact RangeSet.mem_union.mp hx
    · exact RangeSet.mem_union.mp hx

/-- All sizes that a batch writes to the sizes file are those of the import, in slots of the blob. -/
private theorem Batch.slots (batch : Batch H S) {w : Nat × Nat}
    (hw : w ∈ batch.items.flatMap (leafSizes slot batch.size)) :
    w.1 ≤ lastSlot S ∧ w.2 = batch.size := by
  obtain ⟨leaf, hleaf, rfl⟩ := mem_leafSizes.mp hw
  exact ⟨(batch.leaves leaf hleaf).slot_le, rfl⟩

/-- Writing a batch to the files keeps the invariant. -/
private theorem FileInv.writeBatch {fs : PartialFileStorage H} (h : FileInv S fs) (batch : Batch H S)
    (hkept : fs.bitfield.isValidated = true →
      batch.size = S ∨ ∀ leaf, .leaf leaf ∈ batch.items → slot leaf.offset + 1 < fs.sizes.len) :
    FileInv S { fs.writeBatch batch.size batch.items with
      bitfield := ((fs.writeBatch batch.size batch.items).bitfield.update batch.bitfield).1 } := by
  obtain ⟨hfits, hpos, hlast⟩ := combine_inv h.fits h.pos batch
  have hbitfield : (fs.writeBatch batch.size batch.items).bitfield = fs.bitfield := by rw [writeBatch_eq_file]
  rw [hbitfield]
  have hdata : (fs.writeBatch batch.size batch.items).data = fs.data.writes (batch.items.flatMap dataWrites) := by
    rw [writeBatch_eq_file]
  have hinfo := lastInfo_writeBatch batch.size batch.items fs
  have hcases := SizeInfo.writes_uniform (lastInfo fs.sizes) _ (fun w hw => (batch.slots hw).2)
  rw [← hinfo] at hcases
  refine ⟨hfits, hpos, ?_, fun hmem => ?_⟩
  · rcases hcases with ⟨heq, -⟩ | ⟨-, w, hw, hoff⟩
    · show (lastInfo (fs.writeBatch batch.size batch.items).sizes).offset ≤ _ ∨ _
      rw [heq]
      exact h.slots
    · exact Or.inl (hoff.trans_le (batch.slots hw).1)
  · show (lastInfo (fs.writeBatch batch.size batch.items).sizes).size = S ∧
      S ≤ (fs.writeBatch batch.size batch.items).data.len
    rw [hdata]
    rcases hlast hmem with hold | hnew
    · -- the size was known before
      obtain ⟨hsize, hlen⟩ := h.last hold
      refine ⟨?_, le_trans hlen (Content.le_len_writes _ _).1⟩
      rcases hcases with ⟨heq, -⟩ | ⟨heq, w, hw, hoff⟩
      · rw [heq]
        exact hsize
      · rcases hkept (validated_of_last h.fits h.pos hold) with hS | hbelow
        · rw [heq, hS]
        · have hkeep : ∀ w ∈ batch.items.flatMap (leafSizes slot batch.size), w.1 < (lastInfo fs.sizes).offset := by
            intro w hw
            obtain ⟨leaf, hleaf, rfl⟩ := mem_leafSizes.mp hw
            have := hbelow leaf hleaf
            show slot leaf.offset < fs.sizes.len - 1
            omega
          rw [hinfo, SizeInfo.writes_of_lt hkeep]
          exact hsize
    · -- the batch has the last chunk, in the last slot
      obtain ⟨hS, leaf, hleaf, hend, hslot⟩ := batch.of_last hnew
      refine ⟨?_, batch.le_len_writes hleaf hend fs.data⟩
      rcases hcases with ⟨heq, hall⟩ | ⟨heq, -⟩
      · rw [heq]
        have hbeyond := hall (slot leaf.offset, batch.size) (mem_leafSizes.mpr ⟨leaf, hleaf, rfl⟩)
        simp only at hbeyond
        exact h.slots.resolve_left (by omega)
      · rw [heq, hS]

/-- The entry after a batch was written to the files. -/
private theorem FileInv.afterFileBatch {fs : PartialFileStorage H} (h : FileInv S fs) (options : InlineOptions) :
    EntryInv S (BaoFileStorage.afterFileBatch options fs) := by
  unfold BaoFileStorage.afterFileBatch
  split
  · rename_i hc
    obtain ⟨hsize, hall⟩ := complete_of_fits h.fits hc
    simp only [EntryInv, PartialFileStorage.intoComplete, hsize]
    split
    · have hlen : S ≤ fs.data.len := by
        rcases Nat.eq_zero_or_pos S with h0 | hS
        · omega
        · have hc := Bitfield.chunks_pos hS
          exact (h.last (hall _ (by omega))).2
      simp only [Content.readToEnd]
      omega
    · rfl
  · exact h

/-- The files of an entry that had nothing in memory. -/
private theorem fileInv_default : FileInv S ((PartialMemStorage.default (H := H)).persist .empty) := by
  have hnone : ∀ x, x ∉ ((PartialMemStorage.default (H := H)).persist .empty).bitfield.ranges := RangeSet.not_mem_empty
  refine ⟨fits_empty, fun x hx => absurd hx (hnone x), Or.inl ?_, fun hx => absurd hx (hnone _)⟩
  show (lastInfo (SizeInfo.persist ⟨0, 0⟩ .empty)).offset ≤ lastSlot S
  rw [lastInfo_persist]
  exact Nat.zero_le _

/-- The entry after its first batch, if that is written to memory. -/
private theorem afterMemBatch_inv (options : InlineOptions) (batch : Batch H S)
    (hkept : batch.size = S ∨ ∀ leaf, .leaf leaf ∈ batch.items → leaf.offset / 16 ≤ lastSlot S) :
    ∀ ms : PartialMemStorage H, ms.data = Content.empty.writes (batch.items.flatMap dataWrites) →
      ms.size = SizeInfo.writes ⟨0, 0⟩ (batch.items.flatMap (leafSizes id batch.size)) →
      ms.bitfield = Bitfield.empty.combine batch.bitfield →
      EntryInv S (BaoFileStorage.afterMemBatch options .empty ms) := by
  intro ms hdata hsize hbitfield
  have hnone : ∀ x, x ∉ Bitfield.empty.ranges := RangeSet.not_mem_empty
  obtain ⟨hfits, hpos, hlast⟩ := combine_inv fits_empty (fun x hx => absurd hx (hnone x)) batch
  rw [← hbitfield] at hfits hpos hlast
  have huniform : ∀ w ∈ batch.items.flatMap (leafSizes id batch.size), w.2 = batch.size := by
    intro w hw
    obtain ⟨leaf, -, rfl⟩ := mem_leafSizes.mp hw
    rfl
  have hcases := SizeInfo.writes_uniform ⟨0, 0⟩ _ huniform
  rw [← hsize] at hcases
  have hknown : chunks S - 1 ∈ ms.bitfield.ranges → ms.size.size = S ∧ S ≤ ms.data.len := by
    intro hmem
    obtain ⟨hS, leaf, hleaf, hend, -⟩ := batch.of_last ((hlast hmem).resolve_left (hnone _))
    rw [hdata]
    refine ⟨?_, batch.le_len_writes hleaf hend .empty⟩
    rcases hcases with ⟨-, hall⟩ | ⟨heq, -⟩
    · have := hall (leaf.offset, batch.size) (mem_leafSizes.mpr ⟨leaf, hleaf, rfl⟩)
      simp at this
    · rw [heq, hS]
  have hle : ms.data.len ≤ S := by
    rw [hdata]
    exact Content.len_writes_le (Nat.zero_le _) (fun i _ hi => hi) batch.dataWrites_le
  unfold BaoFileStorage.afterMemBatch
  split
  · rename_i hc
    obtain ⟨hs, hall⟩ := complete_of_fits hfits hc
    simp only [EntryInv, PartialMemStorage.intoComplete, PartialMemStorage.currentSize, hs]
    split
    · rcases Nat.eq_zero_or_pos S with h0 | hS
      · omega
      · have hc := Bitfield.chunks_pos hS
        have := (hknown (hall _ (by omega))).2
        omega
    · rfl
  · have hinfo := lastInfo_persist ms.size
    refine ⟨hfits, hpos, ?_, fun hmem => ?_⟩
    · show (lastInfo (ms.size.persist .empty)).offset ≤ _ ∨ (lastInfo (ms.size.persist .empty)).size = _
      rw [hinfo]
      rcases hcases with ⟨heq, -⟩ | ⟨heq, w, hw, hoff⟩
      · rw [heq]
        exact Or.inl (Nat.zero_le _)
      · obtain ⟨leaf, hleaf, rfl⟩ := mem_leafSizes.mp hw
        rcases hkept with hS | hslots
        · exact Or.inr (heq.trans hS)
        · refine Or.inl ?_
          rw [hoff]
          exact hslots leaf hleaf
    · have hcopy : (ms.persist .empty).data = ms.data := by
        refine Content.persist_new ?_ ?_
        · rw [hdata]
          exact Content.bounded_empty.writes _
        · rw [hdata]
          exact Content.tight_empty.writes _
      show (lastInfo (ms.size.persist .empty)).size = S ∧ S ≤ (ms.persist .empty).data.len
      rw [hinfo, hcopy]
      exact hknown hmem

/-- Batches of the right size do no harm. -/
theorem sizeKept_of_size_eq {options : InlineOptions} {entry : BaoFileStorage H} {batch : Batch H S}
    (h : batch.size = S) :
    SizeKept options entry batch := by
  cases entry with
  | nonExisting => exact fun _ => Or.inl h
  | partialFile fs => exact fun _ => Or.inl h
  | _ => trivial

/-- Writing a batch keeps the invariant. -/
theorem write_inv (options : InlineOptions) {entry entry' : BaoFileStorage H} {batch : Batch H S} (h : EntryInv S entry)
    (hkept : SizeKept options entry batch) (hwrite : write options entry batch = some entry') : EntryInv S entry' := by
  simp only [write, Option.some.injEq] at hwrite
  subst hwrite
  cases entry with
  | nonExisting =>
    show EntryInv S (BaoFileStorage.writeBatchMem options .empty batch.items batch.bitfield .default).1
    unfold BaoFileStorage.writeBatchMem
    split
    · rename_i hmem
      obtain ⟨hdata, -, hbitfield⟩ := writeBatch_eq_mem batch.size batch.items (PartialMemStorage.default (H := H))
      exact afterMemBatch_inv options batch (hkept hmem) _ hdata (size_writeBatch _ _ _)
        (congrArg (Bitfield.combine · _) hbitfield)
    · have hinv := (fileInv_default (S := S)).writeBatch batch (fun hv => by cases hv)
      exact hinv.afterFileBatch options
  | partialFile fs =>
    have hinv := FileInv.writeBatch h batch hkept
    exact hinv.afterFileBatch options
  | complete s => exact h
  | partialMem s => exact False.elim h
  | initial => exact False.elim h
  | loading => exact False.elim h
  | poisoned => exact False.elim h

/-! ### Persisting an entry in memory -/

/-- Batches that are written to memory. -/
def writeMem (batches : List (Batch H S)) : PartialMemStorage H :=
  batches.foldl (fun s batch => { s.writeBatch batch.size batch.items with
    bitfield := (s.bitfield.update batch.bitfield).1 }) .default

/-- Batches that are written to files. -/
def writeFile (batches : List (Batch H S)) (fs : PartialFileStorage H) : PartialFileStorage H :=
  batches.foldl (fun s batch => { s.writeBatch batch.size batch.items with
    bitfield := (s.bitfield.update batch.bitfield).1 }) fs

/-- The files of a new entry. -/
def newFiles : PartialFileStorage H := ⟨.empty, .empty, .empty, .empty⟩

/-- The sizes of all leaves of the batches, by position. -/
def batchSizes (position : Nat → Nat) (batches : List (Batch H S)) : List (Nat × Nat) :=
  batches.flatMap (fun batch => batch.items.flatMap (leafSizes position batch.size))

private theorem batchSizes_cons (position : Nat → Nat) (batch : Batch H S) (batches : List (Batch H S)) :
    batchSizes position (batch :: batches) =
      batch.items.flatMap (leafSizes position batch.size) ++ batchSizes position batches := rfl

private theorem mem_batchSizes {position : Nat → Nat} {batches : List (Batch H S)} {w : Nat × Nat} :
    w ∈ batchSizes position batches ↔
      ∃ batch ∈ batches, ∃ leaf, .leaf leaf ∈ batch.items ∧ w = (position leaf.offset, batch.size) := by
  simp only [batchSizes, List.mem_flatMap (f := fun batch : Batch H S => _), mem_leafSizes]

private theorem size_writeMem (batches : List (Batch H S)) :
    (writeMem batches).size = SizeInfo.writes ⟨0, 0⟩ (batchSizes id batches) := by
  have hgen : ∀ s : PartialMemStorage H, (batches.foldl (fun s batch => { s.writeBatch batch.size batch.items with
      bitfield := (s.bitfield.update batch.bitfield).1 }) s).size = s.size.writes (batchSizes id batches) := by
    induction batches with
    | nil => exact fun s => rfl
    | cons batch batches ih =>
      intro s
      rw [List.foldl_cons, ih, batchSizes_cons, SizeInfo.writes_append, ← size_writeBatch]
  exact hgen .default

private theorem lastInfo_writeFile (batches : List (Batch H S)) (fs : PartialFileStorage H) :
    lastInfo (writeFile batches fs).sizes = (lastInfo fs.sizes).writes (batchSizes slot batches) := by
  induction batches generalizing fs with
  | nil => rfl
  | cons batch batches ih =>
    rw [writeFile, List.foldl_cons, ← writeFile, ih, batchSizes_cons, SizeInfo.writes_append, ← lastInfo_writeBatch]

/-- The size that is kept in memory is also the one in the files: a later leaf lies at or beyond the slot that the
memory is persisted to, or the deciding leaf has the size that is kept in memory. -/
def SameSize (info : SizeInfo) (mem file : List (Batch H S)) : Prop :=
  (∃ batch ∈ file, ∃ leaf, .leaf leaf ∈ batch.items ∧ info.offset / 16 ≤ slot leaf.offset) ∨
    ∀ w, SizeInfo.Decides (batchSizes slot (mem ++ file)) w → w.2 = info.size

/-- The size after persisting an entry in memory is that of writing everything to files. -/
private theorem currentSize_persist_iff (mem file : List (Batch H S)) :
    (writeFile file ((writeMem mem).persist .empty)).currentSize = (writeFile (mem ++ file) newFiles).currentSize ↔
      SameSize (writeMem mem).size mem file := by
  have hinfo := size_writeMem mem
  generalize hz : (writeMem mem).size = info at *
  have hB : (writeFile file ((writeMem mem).persist .empty)).currentSize =
      (SizeInfo.writes ⟨info.offset / 16, info.size⟩ (batchSizes slot file)).size := by
    show (lastInfo (writeFile file ((writeMem mem).persist .empty)).sizes).size = _
    rw [lastInfo_writeFile]
    show ((lastInfo ((writeMem mem).size.persist .empty)).writes _).size = _
    rw [hz, lastInfo_persist]
  have hA : (writeFile (mem ++ file) newFiles).currentSize =
      (SizeInfo.writes ⟨0, 0⟩ (batchSizes slot (mem ++ file))).size := by
    show (lastInfo (writeFile (mem ++ file) newFiles).sizes).size = _
    rw [lastInfo_writeFile]
    rfl
  rw [hA, hB]
  -- the slots of the leaves in memory are not beyond the one that the memory is persisted to
  have hbefore : (SizeInfo.writes ⟨0, 0⟩ (batchSizes slot mem)).offset ≤ info.offset / 16 := by
    rcases SizeInfo.writes_cases ⟨0, 0⟩ (batchSizes slot mem) with ⟨heq, -⟩ | ⟨w, hw, -, heq⟩
    · rw [heq]
      exact Nat.zero_le _
    · rw [heq]
      obtain ⟨batch, hbatch, leaf, hleaf, rfl⟩ := mem_batchSizes.mp hw.mem
      have hw' : (leaf.offset, batch.size) ∈ batchSizes id mem := mem_batchSizes.mpr ⟨batch, hbatch, leaf, hleaf, rfl⟩
      have hle : leaf.offset ≤ info.offset := by
        rw [hinfo]
        exact SizeInfo.le_offset_writes ⟨0, 0⟩ hw'
      show leaf.offset / 16384 ≤ info.offset / 16
      omega
  have happend : batchSizes slot (mem ++ file) = batchSizes slot mem ++ batchSizes slot file := by
    simp [batchSizes]
  unfold SameSize
  by_cases hreach : ∃ batch ∈ file, ∃ leaf, .leaf leaf ∈ batch.items ∧ info.offset / 16 ≤ slot leaf.offset
  · refine iff_of_true ?_ (Or.inl hreach)
    obtain ⟨batch, hbatch, leaf, hleaf, hle⟩ := hreach
    have hw : (slot leaf.offset, batch.size) ∈ batchSizes slot file :=
      mem_batchSizes.mpr ⟨batch, hbatch, leaf, hleaf, rfl⟩
    have heq := SizeInfo.writes_congr ⟨info.offset / 16, info.size⟩ hbefore ⟨_, hw, hle⟩
    rw [happend, SizeInfo.writes_append, heq]
  · have hkeep : ∀ w ∈ batchSizes slot file, w.1 < info.offset / 16 := by
      intro w hw
      obtain ⟨batch, hbatch, leaf, hleaf, rfl⟩ := mem_batchSizes.mp hw
      by_contra hle
      exact hreach ⟨batch, hbatch, leaf, hleaf, Nat.le_of_not_lt hle⟩
    have hkept : SizeInfo.writes ⟨info.offset / 16, info.size⟩ (batchSizes slot file) = ⟨info.offset / 16, info.size⟩ :=
      SizeInfo.writes_of_lt hkeep
    rw [hkept, or_iff_right hreach]
    constructor
    · intro heq w hw
      rw [SizeInfo.writes_of_decides hw (Nat.zero_le _)] at heq
      exact heq.symm
    · intro hall
      rcases SizeInfo.writes_cases ⟨0, 0⟩ (batchSizes slot (mem ++ file)) with ⟨heq, hnone⟩ | ⟨w, hw, -, heq⟩
      · -- without leaves no size was written
        have hmem : batchSizes id mem = [] := by
          rw [List.eq_nil_iff_forall_not_mem]
          intro w hw
          obtain ⟨batch, hbatch, leaf, hleaf, rfl⟩ := mem_batchSizes.mp hw
          have hlt := hnone (slot leaf.offset, batch.size)
            (mem_batchSizes.mpr ⟨batch, List.mem_append_left _ hbatch, leaf, hleaf, rfl⟩)
          simp at hlt
        rw [heq, hinfo, hmem]
        rfl
      · rw [heq]
        exact (hall w hw).symm

/-! ### The recorded size -/

/-- The recorded size of an entry of a blob of size `S` is right once its bitfield is validated. -/
def RightSize (S : Nat) (entry : BaoFileStorage H) : Prop :=
  ∀ b, entry.bitfield = some b → b.isValidated = true → b.size = S ∧ entry.currentSize = some S

private theorem RightSize.currentSize {entry : BaoFileStorage H} (h : RightSize S entry)
    (hv : entry.bitfield.map Bitfield.isValidated = some true) : entry.currentSize = some S := by
  obtain ⟨b, hb, hv⟩ := Option.map_eq_some_iff.mp hv
  exact (h b hb hv).2

theorem EntryInv.rightSize {entry : BaoFileStorage H} (h : EntryInv S entry) : RightSize S entry := by
  intro b hb hv
  cases entry with
  | nonExisting =>
    cases hb
    cases hv
  | partialFile fs =>
    cases hb
    obtain ⟨hlast, hsize⟩ := (validated_iff h.fits h.pos).mp hv
    exact ⟨hsize, congrArg some (h.last hlast).1⟩
  | complete s =>
    cases hb
    exact ⟨h, congrArg some h⟩
  | partialMem s => exact False.elim h
  | initial => exact False.elim h
  | loading => exact False.elim h
  | poisoned => exact False.elim h

/-- In every run in which no batch of a wrong size is persisted beyond the last chunk group or written to the last slot
of a known size, the recorded size is right once it is validated.  The size of an entry that is persisted from memory
is that of an entry written to files exactly if a later leaf or the deciding leaf says so. -/
theorem recorded_size_right (options : InlineOptions) (S : Nat) :
    (∀ (batches : List (Batch H S)) (entry : BaoFileStorage H),
      StateMachine.run (write options) .nonExisting batches = some entry →
      StateMachine.RunMeets (write options) (SizeKept options) .nonExisting batches → RightSize S entry) ∧
    (∀ mem file : List (Batch H S),
      (writeFile file ((writeMem mem).persist .empty)).currentSize = (writeFile (mem ++ file) newFiles).currentSize ↔
        SameSize (writeMem mem).size mem file) := by
  constructor
  · intro batches entry hrun hmeets
    have hstart : EntryInv S (.nonExisting : BaoFileStorage H) := trivial
    have hinv := StateMachine.inv_of_run (write options) (write_inv options) hstart hmeets hrun
    exact hinv.rightSize
  · intro mem file
    exact currentSize_persist_iff mem file

end

/-- A batch with one leaf of a blob of three chunks. -/
def oneLeaf (size offset len : Nat) (hsize : 0 < size)
    (hleaf : offset % 1024 = 0 ∧ 0 < len ∧ (offset + len = 3000 ∨ offset + len < 3000 ∧ (offset + len) % 1024 = 0))
    (hclaim : size = 3000 ∨ offset + len < 2048 + 1 ∧ 3000 < size) : Batch Unit 3000 where
  size
  items := [.leaf ⟨offset, List.replicate len 0⟩]
  size_pos := hsize
  leaves leaf hmem := by
    rw [List.mem_singleton] at hmem
    cases hmem
    constructor <;> simp only [slot, List.length_replicate] <;> omega
  claim := hclaim.imp_right (fun h leaf hmem x hx => by
    rw [List.mem_singleton] at hmem
    cases hmem
    simp only [chunkRange, chunks, RangeSet.mem_range, List.length_replicate] at hx ⊢
    omega)

/-- The chunk at the offset, with a claimed size of 4000. -/
def wrongSize (offset : Nat) (h : offset = 0 ∨ offset = 1024) : Batch Unit 3000 :=
  oneLeaf 4000 offset 1024 (by omega) (by omega) (by omega)

/-- The last chunk, with the right size. -/
def lastChunk : Batch Unit 3000 := oneLeaf 3000 2048 952 (by omega) (by omega) (Or.inl rfl)

/-- The first chunk with a wrong size does no harm. -/
theorem recorded_size_right_firstChunk : ∃ entry,
    StateMachine.run (write ⟨16384, 16384⟩) .nonExisting [wrongSize 0 (Or.inl rfl), lastChunk] = some entry ∧
      entry.bitfield.map Bitfield.isValidated = some true ∧ entry.currentSize = some 3000 := by
  refine ⟨_, rfl, by decide +kernel, ?_⟩
  have hmeets : StateMachine.RunMeets (write ⟨16384, 16384⟩) (SizeKept ⟨16384, 16384⟩) .nonExisting
      [wrongSize 0 (Or.inl rfl), lastChunk] := by
    refine ⟨fun _ => Or.inr (fun leaf hleaf => ?_), fun entry _ => ⟨sizeKept_of_size_eq rfl, fun _ _ => trivial⟩⟩
    simp only [wrongSize, oneLeaf, List.mem_singleton] at hleaf
    cases hleaf
    exact Nat.zero_le _
  have hright := (recorded_size_right ⟨16384, 16384⟩ 3000).1 [wrongSize 0 (Or.inl rfl), lastChunk] _ rfl hmeets
  exact hright.currentSize (by decide +kernel)

/-- The second chunk with a wrong size goes to the slot 64, which is read from then on. -/
theorem not_rightSize_secondChunk : ¬ ∀ (options : InlineOptions) (S : Nat) (batches : List (Batch Unit S))
    (entry : BaoFileStorage Unit), StateMachine.run (write options) .nonExisting batches = some entry →
      RightSize S entry := by
  intro h
  have hright := h ⟨16384, 16384⟩ 3000 [wrongSize 1024 (Or.inr rfl), lastChunk] _ rfl
  have hsize := hright.currentSize (by decide +kernel)
  exact absurd hsize (by decide +kernel)

end CurrentSize

end IrohBlobs
