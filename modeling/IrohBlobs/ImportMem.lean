import IrohBlobs.FsExport

/-!
# Imports into the memory store

The model of `import_bao` and `export_bao` in `store/mem.rs`, for one hash.  Items are written as they arrive.  When the
last chunk arrives, the data and the outboard are taken out of the entry and turned into vectors, which panics if they
have gaps; the entry is then left without data.

The invariant is that of the file store, and in addition that the data and the outboard do not extend beyond those of
the blob, so that there are no gaps in the end (`noGaps_outboard`).
-/

namespace IrohBlobs

namespace ImportMem

open Merkle BaoTree Provable ImportBao

section

variable {H : Type}

/-- An entry of the memory store. -/
inductive MemStorage (H : Type)
  | partialEntry (storage : PartialMemStorage H)
  | complete (data : Content UInt8) (outboard : Content H)

namespace MemStorage

def bitfield : MemStorage H → Bitfield
  | .partialEntry s => s.bitfield
  | .complete data _ => .complete data.len

def size : MemStorage H → Nat
  | .partialEntry s => s.currentSize
  | .complete data _ => data.len

def data : MemStorage H → Content UInt8
  | .partialEntry s => s.data
  | .complete data _ => data

def outboard : MemStorage H → Content H
  | .partialEntry s => s.outboard
  | .complete _ outboard => outboard

/-- The claimed size of a new import. -/
def start (size : Nat) : MemStorage H → MemStorage H
  | .partialEntry s => .partialEntry { s with size := s.size.write 0 size }
  | state => state

/-- An item is written.  The flag is false if the import panics. -/
def recv (size : Nat) (item : BaoContentItem H) : MemStorage H → MemStorage H × Bool
  | .partialEntry s =>
    match item with
    | .parent parent =>
      match preOrderOffset (treeChunks size) parent.node with
      | some offset =>
        (.partialEntry { s with outboard := s.outboard.write (2 * offset) [parent.pair.1, parent.pair.2] }, true)
      | none => (.partialEntry s, true)
    | .leaf leaf =>
      let data := s.data.write leaf.offset leaf.data
      let bitfield := (s.bitfield.update (.new (chunkRange leaf) size)).1
      if bitfield.isComplete then
        if data.NoGaps ∧ s.outboard.NoGaps then (.complete data s.outboard, true)
        else (.partialEntry { s with data := .empty, outboard := .empty, bitfield }, false)
      else (.partialEntry { s with data, bitfield }, true)
  -- the entry was already completed
  | state => (state, true)

/-- The items of an export of ranges, with the given traversal. -/
def exportBao (traverse : ExportSource H → ChunkRanges → List (EncodedItem H)) (hash : H) (entry : MemStorage H)
    (ranges : ChunkRanges) : List (EncodedItem H) :=
  traverse ⟨entry.size, hash, entry.data, entry.outboard⟩ ranges

end MemStorage

/-- The entry of the hash, and the decoders of the imports that are running. -/
structure MemStore (H : Type) where
  entry : MemStorage H
  streams : Nat → Option (Decoder H)

inductive Action (H : Type)
  | start (id size : Nat)
  | parent (id : Nat) (path : List Bool) (pair : H × H)
  | leaf (id : Nat) (path : List Bool) (data : List UInt8)
  | stop (id : Nat)

/-- An import receives an item. -/
def recv (s : MemStore H) (id : Nat) (d : Decoder H) (item : BaoContentItem H) : MemStore H :=
  let (entry, alive) := s.entry.recv d.size item
  ⟨entry, Function.update s.streams id (if alive then some d else none)⟩

variable [DecidableEq H]

/-- One step.  Items that the decoder does not verify are not forwarded. -/
def memStep (f : HashFns UInt8 H) (root : H) (s : MemStore H) : Action H → Option (MemStore H)
  | .start id size =>
    if 0 < size ∧ (s.streams id).isNone then
      some ⟨s.entry.start size, Function.update s.streams id (some ⟨size, root, []⟩)⟩
    else none
  | .parent id path pair =>
    (s.streams id).bind fun d =>
      (d.parent f path pair).map fun d' => recv s id d' (.parent ⟨nodeAt (treeChunks d.size) path, pair⟩)
  | .leaf id path data =>
    (s.streams id).bind fun d =>
      if d.leaf f 16 path data then some (recv s id d (.leaf ⟨(sub (treeChunks d.size) path).1 * 1024, data⟩)) else none
  | .stop id => (s.streams id).map fun _ => { s with streams := Function.update s.streams id none }

/-- The condition on the steps: parents are placed, and if exports matter leaves are whole chunk groups. -/
def Meets (blob : List UInt8) (whole : Prop) (s : MemStore H) : Action H → Prop
  | .start _ _ | .stop _ => True
  | .parent id path _ => ∀ d, s.streams id = some d → PlacedAt blob d.size path
  | .leaf id path _ => ∀ d, s.streams id = some d → whole → IsPath 16 (treeChunks d.size) path

end

/-! ### The invariant -/

section

variable {H : Type} (f : HashFns UInt8 H) (blob : List UInt8) (whole : Prop)

/-- The invariant of a partial entry. -/
structure PartialInv (s : PartialMemStorage H) : Prop where
  bitfield : HasBitfield f blob s.data s.outboard s.bitfield
  fits : Fits blob.length (fun z y => whole → Reaches blob 16 z y) s.bitfield
  closed : whole → GroupClosed blob s.bitfield.ranges
  bounded : s.data.Bounded
  data_len : s.data.len ≤ blob.length
  outboard_len : s.outboard.len ≤ 2 * outboardPairs (treeChunks blob.length)

def MemInv : MemStorage H → Prop
  | .partialEntry s => PartialInv f blob whole s
  | .complete data outboard => HasBitfield f blob data outboard (.complete data.len) ∧ data.len = blob.length

/-- The pair of a node is stored, as far as that matters. -/
def PairStored : MemStorage H → List Bool → Prop
  | .partialEntry s, q => HasPair f blob s.outboard q
  | .complete _ _, _ => True

structure StoreInv (s : MemStore H) : Prop where
  entry : MemInv f blob whole s.entry
  streams : ∀ id d, s.streams id = some d → StreamInv f blob (PairStored f blob s.entry) ⟨d, [], ∅⟩

variable {f blob whole} {s : PartialMemStorage H}

theorem recv_parent (size : Nat) (parent : Parent H) (s : PartialMemStorage H) :
    MemStorage.recv size (.parent parent) (.partialEntry s) =
      (.partialEntry { s with
        outboard := s.outboard.writes ([BaoContentItem.parent parent].flatMap (memOutboardWrites size)) },
        true) := by
  cases ho : preOrderOffset (treeChunks size) parent.node with
  | none => simp [MemStorage.recv, memOutboardWrites, ho]
  | some offset => simp [MemStorage.recv, memOutboardWrites, ho]

private theorem TrueOutboard.lt {i : Nat} {x : H} (h : TrueOutboard f blob i x) :
    i < 2 * outboardPairs (treeChunks blob.length) := by
  obtain ⟨p, hp, hi⟩ := h
  have := slot_lt hp.1 hp.2
  rcases hi with ⟨hi, -⟩ | ⟨hi, -⟩ <;> omega

/-- Writing a placed parent keeps the invariant. -/
private theorem PartialInv.parent (hs : PartialInv f blob whole s) {stored : List Bool → Prop} {st : ImportStream H}
    (h : StreamInv f blob stored st) :
    PartialInv f blob whole
      { s with outboard := s.outboard.writes (st.batch.flatMap (memOutboardWrites st.decoder.size)) } := by
  have hrespects := respects_outboardWrites outboardWriter_mem h.items
  refine ⟨fun x hx hlt => ?_, hs.fits, hs.closed, hs.bounded, hs.data_len, ?_⟩
  · have hnil : Content.Respects (TrueData blob) [] := by simp [Content.Respects]
    exact (hs.bitfield x hx hlt).writes hnil hrespects
  · exact Content.len_writes_le hs.outboard_len (fun i x => TrueOutboard.lt) hrespects

/-- Nothing is missing in the data of a complete bitfield. -/
private theorem noGaps_data {data : Content UInt8} {outboard : Content H} {b : Bitfield}
    (hb : HasBitfield f blob data outboard b)
    (hall : ∀ x, x < chunks blob.length → x ∈ b.ranges) (hlen : data.len ≤ blob.length) : data.NoGaps := by
  intro i hi
  have hlt : i / 1024 < chunks blob.length := by
    unfold chunks
    omega
  rw [(hb _ (hall _ hlt) hlt).data i (by omega) (by omega) (by omega), List.getElem?_eq_getElem (by omega)]
  rfl

/-- Nothing is missing in the outboard of a complete bitfield, since every position belongs to a node. -/
private theorem noGaps_outboard {data : Content UInt8} {outboard : Content H} {b : Bitfield}
    (hb : HasBitfield f blob data outboard b) (hall : ∀ x, x < chunks blob.length → x ∈ b.ranges)
    (hlen : outboard.len ≤ 2 * outboardPairs (treeChunks blob.length)) : outboard.NoGaps := by
  intro i hi
  obtain ⟨p, hp, hlt, hslot⟩ := slot_surj (n := treeChunks blob.length) (j := i / 2) (by omega)
  have hn : 0 < treeChunks blob.length := by unfold treeChunks; omega
  obtain ⟨h1, h2⟩ := sub_bounds hn (hp.mono (k := 1) (by omega))
  have hx : (sub (treeChunks blob.length) p).1 < chunks blob.length := by
    have e : treeChunks blob.length = max 1 (chunks blob.length) := rfl
    omega
  obtain ⟨hl, hr⟩ := (hb _ (hall _ hx) hx).pairs p ⟨hp, hlt⟩ (Nat.le_refl _) (by omega)
  rcases Nat.mod_two_eq_zero_or_one i with hmod | hmod
  · rw [show i = 2 * slot (treeChunks blob.length) p by omega, hl]
    rfl
  · rw [show i = 2 * slot (treeChunks blob.length) p + 1 by omega, hr]
    rfl

/-- The canonical update for a leaf has the chunks of the leaf, as far as they are chunks of the blob. -/
private theorem groupClosed_new {reaches : Nat → Nat → Prop} {ranges : ChunkRanges} {size : Nat}
    (hfits : Fits blob.length reaches ⟨size, ranges⟩) (h : GroupClosed blob ranges) :
    GroupClosed blob (Bitfield.new ranges size).ranges := by
  intro x hx y hy hxy
  refine Bitfield.mem_new_of_mem ?_
  rcases (fits_new hfits).2 x hx with hx | ⟨hle, hlast⟩
  · exact h x hx y hy hxy
  · exact h _ hlast y hy (by rw [hxy]; congr 1; omega)

/-- Writing a verified leaf keeps the invariant and does not panic. -/
theorem PartialInv.leaf (hs : PartialInv f blob whole s) {d : Decoder H} {leaf : Leaf}
    (h : StreamInv f blob (HasPair f blob s.outboard) ⟨d, [.leaf leaf], chunkRange leaf⟩)
    (hwhole : whole → StreamExport blob ⟨d, [.leaf leaf], chunkRange leaf⟩) {entry : MemStorage H} {alive : Bool}
    (hrecv : MemStorage.recv d.size (.leaf leaf) (.partialEntry s) = (entry, alive)) :
    MemInv f blob whole entry ∧ alive = true ∧ ∀ q, HasPair f blob s.outboard q → PairStored f blob entry q := by
  have hfits : Fits blob.length (fun z y => whole → Reaches blob 16 z y) ⟨d.size, chunkRange leaf⟩ := by
    refine h.fits (fun p leaf' hmem hleaf y h1 h2 hw => ?_)
    cases List.mem_singleton.mp hmem
    obtain ⟨p', hp', hpath'⟩ := (hwhole hw).leaves leaf (by simp)
    obtain ⟨h3, h4⟩ := (mem_chunkRange hp').mp ((mem_chunkRange hleaf).mpr ⟨h1, h2⟩)
    exact ⟨p', hpath', isPath_of_trueLeaf hp' hpath', hp'.sub_eq, hp'.le, h3, h4, hp'.last⟩
  obtain ⟨hnew, hmem⟩ := fits_new hfits
  have hb := h.hasBitfield outboardWriter_mem hs.bitfield hs.fits
    (fun x hx hlt => (hmem x hx).resolve_right (by omega)) hnew
  have hfits' := (fits_combine hs.fits hnew).1
  have hlen : (s.data.write leaf.offset leaf.data).len ≤ blob.length := by
    have hrespects := respects_dataWrites h.items
    exact Content.len_write_le hs.data_len (fun j x hj =>
      (List.getElem?_eq_some_iff.mp (hrespects (leaf.offset, leaf.data) (by simp [dataWrites]) j x hj)).1)
  have hbounded := hs.bounded.write leaf.offset leaf.data
  simp only [MemStorage.recv] at hrecv
  split at hrecv
  · rename_i hc
    obtain ⟨hsize, hall⟩ := complete_of_fits hfits' hc
    rw [if_pos ⟨noGaps_data hb hall hlen, noGaps_outboard hb hall hs.outboard_len⟩] at hrecv
    cases hrecv
    have hge := length_le_of_hasBitfield hb hbounded hall
    exact ⟨⟨fun x _ hlt => hb x (hall x hlt) hlt, Nat.le_antisymm hlen hge⟩, rfl, fun _ _ => trivial⟩
  · cases hrecv
    refine ⟨⟨hb, hfits', fun hw => ?_, hbounded, hlen, hs.outboard_len⟩, rfl, fun _ hq => hq⟩
    exact (hs.closed hw).combine (groupClosed_new hfits (hwhole hw).closed) hs.fits hnew

/-! ### Steps and runs -/

variable {store : MemStore H}

private theorem StoreInv.update (h : StoreInv f blob whole store) {entry : MemStorage H} {id : Nat}
    {o : Option (Decoder H)}
    (hentry : MemInv f blob whole entry)
    (hmono : ∀ q, IsStored blob q → PairStored f blob store.entry q → PairStored f blob entry q)
    (ho : ∀ d, o = some d → StreamInv f blob (PairStored f blob entry) ⟨d, [], ∅⟩) :
    StoreInv f blob whole ⟨entry, Function.update store.streams id o⟩ := by
  refine ⟨hentry, fun id' d hd => ?_⟩
  by_cases hid : id' = id
  · subst hid
    exact ho d (by simpa using hd)
  · exact (h.streams id' d (by simpa [hid] using hd)).mono hmono

/-- An import receives a parent that is placed. -/
private theorem StoreInv.recvParent (h : StoreInv f blob whole store) {id : Nat} {d : Decoder H} {parent : Parent H}
    (hst : StreamInv f blob (PairStored f blob store.entry) ⟨d, [.parent parent], ∅⟩) :
    StoreInv f blob whole (recv store id d (.parent parent)) := by
  cases hentry : store.entry with
  | complete data outboard =>
    simp only [recv, hentry, MemStorage.recv]
    have hinv := h.entry
    rw [hentry] at hinv
    refine h.update hinv (fun _ _ _ => trivial) (fun d' hd' => ?_)
    cases hd'
    exact hst.flushed (fun _ _ _ _ => trivial)
  | partialEntry s =>
    simp only [recv, hentry, recv_parent]
    have hinv : PartialInv f blob whole s := by
      have := h.entry
      rwa [hentry] at this
    rw [hentry] at hst
    have hrespects := respects_outboardWrites outboardWriter_mem hst.items
    refine h.update (hinv.parent hst) (fun q hq hpair => ?_) (fun d' hd' => ?_)
    · rw [hentry] at hpair
      exact HasPair.writes hpair hq hrespects
    · cases hd'
      exact hst.flushed (fun q pair hmem hlt => hst.pairs_stored outboardWriter_mem hmem hlt)

/-- An import receives a verified leaf. -/
private theorem StoreInv.recvLeaf (h : StoreInv f blob whole store) {id : Nat} {d : Decoder H} {leaf : Leaf}
    (hd : StreamInv f blob (PairStored f blob store.entry) ⟨d, [], ∅⟩)
    (hst : StreamInv f blob (PairStored f blob store.entry) ⟨d, [.leaf leaf], chunkRange leaf⟩)
    (hwhole : whole → StreamExport blob ⟨d, [.leaf leaf], chunkRange leaf⟩) :
    StoreInv f blob whole (recv store id d (.leaf leaf)) := by
  cases hentry : store.entry with
  | complete data outboard =>
    simp only [recv, hentry, MemStorage.recv]
    have hinv := h.entry
    rw [hentry] at hinv
    refine h.update hinv (fun _ _ _ => trivial) (fun d' hd' => ?_)
    cases hd'
    exact hd.mono (fun _ _ _ => trivial)
  | partialEntry s =>
    have hinv : PartialInv f blob whole s := by
      have := h.entry
      rwa [hentry] at this
    rw [hentry] at hst hd
    cases hrecv : MemStorage.recv d.size (.leaf leaf) (.partialEntry s) with
    | mk entry alive =>
      obtain ⟨h1, rfl, h3⟩ := hinv.leaf hst hwhole hrecv
      simp only [recv, hentry, hrecv]
      refine h.update h1 (fun q _ hq => ?_) (fun d' hd' => ?_)
      · rw [hentry] at hq
        exact h3 q hq
      · cases hd'
        exact hd.mono (fun q _ => h3 q)

private theorem StoreInv.start (h : StoreInv f blob whole store) (id : Nat) {size : Nat} (hsize : 0 < size) :
    StoreInv f blob whole
      ⟨store.entry.start size, Function.update store.streams id (some ⟨size, nodeHash f blob [], []⟩)⟩ := by
  have hinv := h.entry
  cases hentry : store.entry with
  | complete data outboard =>
    rw [hentry] at hinv
    refine h.update hinv (fun _ _ _ => trivial) (fun d hd => ?_)
    cases hd
    exact streamInv_start rfl hsize
  | partialEntry s =>
    rw [hentry] at hinv
    refine h.update ⟨hinv.bitfield, hinv.fits, hinv.closed, hinv.bounded, hinv.data_len, hinv.outboard_len⟩
      ?_ (fun d hd => ?_)
    · rw [hentry]
      exact fun _ _ hq => hq
    · cases hd
      exact streamInv_start rfl hsize

/-- The store before any import. -/
def MemStore.new : MemStore H := ⟨.partialEntry .default, fun _ => none⟩

theorem storeInv_new : StoreInv f blob whole MemStore.new := by
  refine ⟨⟨hasBitfield_empty _ _, fits_empty, fun _ x hx => absurd hx (RangeSet.not_mem_empty x), Content.bounded_empty,
    Nat.zero_le _, Nat.zero_le _⟩, fun id d hd => by cases hd⟩

theorem MemInv.hasBitfield {entry : MemStorage H} (h : MemInv f blob whole entry) :
    HasBitfield f blob entry.data entry.outboard entry.bitfield := by
  cases entry with
  | complete data outboard => exact h.1
  | partialEntry s => exact h.bitfield

/-- Exports of ranges of the bitfield succeed. -/
theorem exportBao_succeeds {traverse : ExportSource H → ChunkRanges → List (EncodedItem H)}
    (ht : TraversesValidated f traverse)
    {entry : MemStorage H} (he : MemInv f blob True entry) {ranges : ChunkRanges}
    (hranges : ∀ x ∈ ranges, x ∈ entry.bitfield.ranges) :
    ExportSucceeds (entry.exportBao traverse (nodeHash f blob []) ranges) ranges := by
  suffices h : ∀ x ∈ ranges, ExportSource.Verifies f ⟨entry.size, nodeHash f blob [], entry.data, entry.outboard⟩
      (ExportSource.selected ⟨entry.size, nodeHash f blob [], entry.data, entry.outboard⟩ x) by
    obtain ⟨h1, h2⟩ := ht _ ranges h
    exact ⟨h2, fun _ => h1⟩
  intro x hx
  cases entry with
  | complete data outboard => exact verifies_complete (s := ⟨data, data.len, outboard⟩) he.1 he.2 x
  | partialEntry s =>
    have hx' := hranges x hx
    have hgroup := hasGroup_of_closed he.bitfield (he.closed trivial) hx'
    rcases he.fits with hsize | hfits
    · exact verifies_selected_of_size_eq rfl hsize hgroup
    · obtain ⟨h1, h2, y, hxy, hreach⟩ := hfits x hx'
      rw [Nat.min_eq_left (by omega)] at hgroup
      have hpos : 0 < s.bitfield.size := by
        by_contra h0
        rw [show s.bitfield.size = 0 by omega] at h1
        exact absurd h1 (by simp [chunks])
      exact verifies_selected_of_reaches rfl hpos (hreach trivial) (by omega) (by omega) hgroup

variable [DecidableEq H]

/-- Every step keeps the invariant. -/
theorem memStep_inv (hf : CollisionFree f) {a : Action H} {store' : MemStore H} (h : StoreInv f blob whole store)
    (hc : Meets blob whole store a) (hstep : memStep f (nodeHash f blob []) store a = some store') :
    StoreInv f blob whole store' := by
  cases a with
  | start id size =>
    simp only [memStep] at hstep
    split at hstep
    · rename_i hcond
      cases hstep
      exact h.start id hcond.1
    · cases hstep
  | stop id =>
    obtain ⟨d, -, rfl⟩ := Option.map_eq_some_iff.mp hstep
    exact h.update h.entry (fun _ _ hq => hq) (fun d' hd' => by cases hd')
  | parent id path pair =>
    obtain ⟨d, hd, hstep⟩ := Option.bind_eq_some_iff.mp hstep
    obtain ⟨d', hd', rfl⟩ := Option.map_eq_some_iff.mp hstep
    exact h.recvParent ((h.streams id d hd).pushParent hf hd' (hc d hd))
  | leaf id path data =>
    obtain ⟨d, hd, hstep⟩ := Option.bind_eq_some_iff.mp hstep
    split at hstep
    · rename_i hleaf
      cases hstep
      have hst := h.streams id d hd
      have hunion : ∀ r : ChunkRanges, ∅ ∪ r = r := fun r => RangeSet.ext_mem (fun x => by simp [RangeSet.mem_union])
      have hpush := hst.pushLeaf hf hleaf rfl
      rw [hunion] at hpush
      refine h.recvLeaf hst hpush (fun hw => ?_)
      have hexport : StreamExport blob (⟨d, [], ∅⟩ : ImportStream H) :=
        ⟨by simp, fun x hx => absurd hx (RangeSet.not_mem_empty x)⟩
      have hpush' := hexport.pushLeaf hf hst hleaf (hc d hd hw) rfl
      rwa [hunion] at hpush'
    · cases hstep

end

end ImportMem

end IrohBlobs
