import IrohBlobs.BitfieldLattice
import IrohBlobs.StaysProvable

/-!
# Imports into both stores

The loops of `import_bao` in `store/mem.rs` and of `import_bao_impl` in `store/fs.rs`, for imports of one hash that
run one after the other.  The memory store writes item by item, with updates in canonical form.  The file store
collects batches, with updates that are not in canonical form, and decides where to keep the data.

Both stores are compared with what the items that were received say: the chunks that the leaves cover, the size of
highest rank, and the bytes of the leaves.  They agree unless the memory store panics, which happens if the parents
that were received when the last chunk arrives leave a gap in the outboard.
-/

namespace IrohBlobs

namespace ImportAlike

open Merkle BaoTree Provable ImportBao ImportMem

variable {H : Type}

/-! ### The imports -/

/-- A stream of items with a claimed size. -/
structure BaoStream (H : Type) where
  size : Nat
  items : List (BaoContentItem H)

/-- The loop of `import_bao` in the memory store.  The answer is false if it panics. -/
def memItems (size : Nat) : MemStorage H → List (BaoContentItem H) → MemStorage H × Bool
  | entry, [] => (entry, true)
  | entry, item :: items =>
    match entry.recv size item with
    | (entry, true) => memItems size entry items
    | (entry, false) => (entry, false)

def memImport (entry : MemStorage H) (st : BaoStream H) : MemStorage H × Bool :=
  memItems st.size (entry.start st.size) st.items

/-- The loop of `import_bao_impl`.  The answer is false if a leaf has an invalid size. -/
def fsItems (options : InlineOptions) (size : Nat) :
    BaoFileStorage H → List (BaoContentItem H) → ChunkRanges → List (BaoContentItem H) → BaoFileStorage H × Bool
  | storage, batch, ranges, [] =>
    if batch.isEmpty then (storage, true) else ((storage.writeBatch options .empty batch ⟨size, ranges⟩).1, true)
  | storage, batch, ranges, item :: items =>
    -- if the last item is a leaf and the current one is a parent, write the batch
    let flush := (batch.getLast?.map BaoContentItem.isLeaf).getD false && item.isParent
    let storage := if flush then (storage.writeBatch options .empty batch ⟨size, ranges⟩).1 else storage
    let batch := if flush then [] else batch
    let ranges := if flush then ∅ else ranges
    match item with
    | .leaf leaf =>
      if invalidSize size leaf then (storage, false)
      else fsItems options size storage (batch ++ [item]) (ranges ∪ chunkRange leaf) items
    | .parent _ => fsItems options size storage (batch ++ [item]) ranges items

def fsImport (options : InlineOptions) (storage : BaoFileStorage H) (st : BaoStream H) : BaoFileStorage H × Bool :=
  fsItems options st.size storage [] ∅ st.items

/-- One import after the other, and their answers. -/
def importAll {σ : Type} (importStream : σ → BaoStream H → σ × Bool) : σ → List (BaoStream H) → σ × List Bool
  | s, [] => (s, [])
  | s, st :: sts =>
    let (s, answer) := importStream s st
    let (s, answers) := importAll importStream s sts
    (s, answer :: answers)

/-! ### The property -/

def memComplete : MemStorage H → Bool
  | .partialEntry _ => false
  | .complete _ _ => true

def fsComplete : BaoFileStorage H → Bool
  | .complete _ => true
  | _ => false

def fsData : BaoFileStorage H → Content UInt8
  | .partialMem s => s.data
  | .partialFile s => s.data
  | .complete s => s.data
  | _ => .empty

/-- Both stores gave the same answers and have the same entry, as far as the bitfield and the data are concerned. -/
structure Alike (mem : MemStorage H × List Bool) (fs : BaoFileStorage H × List Bool) : Prop where
  answers : mem.2 = fs.2
  bitfield : fs.1.bitfield = some mem.1.bitfield
  complete : memComplete mem.1 = fsComplete fs.1
  bytes : ∀ i, i < mem.1.bitfield.size → i / 1024 ∈ mem.1.bitfield.ranges → mem.1.data.cell i = (fsData fs.1).cell i

/-- A leaf of the tree of the claimed size: whole chunks with the data of the blob.  It has the last chunk of the
claimed size, or that of the blob, only if the claim is right. -/
structure IsLeaf (blob : List UInt8) (size : Nat) (leaf : Leaf) : Prop where
  offset : 1024 ∣ leaf.offset
  ne_nil : leaf.data ≠ []
  le : leaf.offset + leaf.data.length ≤ size
  whole : 1024 ∣ leaf.data.length ∨ leaf.offset + leaf.data.length = size
  data : ∀ j x, leaf.data[j]? = some x → blob[leaf.offset + j]? = some x
  last : chunks size - 1 ∈ chunkRange leaf ∨ chunks blob.length - 1 ∈ chunkRange leaf → size = blob.length

/-- A stream for the blob.  It may end early, but it has a leaf. -/
structure IsStream (blob : List UInt8) (st : BaoStream H) : Prop where
  leaves : ∀ leaf, .leaf leaf ∈ st.items → IsLeaf blob st.size leaf
  exists_leaf : ∃ leaf, .leaf leaf ∈ st.items

/-- The items of all streams, with the sizes that are claimed. -/
def allItems (sts : List (BaoStream H)) : List (Nat × BaoContentItem H) :=
  sts.flatMap (fun st => st.items.map (fun item => (st.size, item)))

/-- The leaves have all chunks of a blob. -/
def Covers (S : Nat) (items : List (Nat × BaoContentItem H)) : Prop :=
  ∀ x, x < chunks S → ∃ size leaf, (size, .leaf leaf) ∈ items ∧ x ∈ chunkRange leaf

/-- The parents, where the claimed sizes put them. -/
def outboardOf (items : List (Nat × BaoContentItem H)) : Content H :=
  Content.empty.writes (items.flatMap (fun p => memOutboardWrites p.1 p.2))

/-- When the leaves have all chunks for the first time, the parents before have no gap. -/
def CompletesWithoutGaps (S : Nat) (items : List (Nat × BaoContentItem H)) : Prop :=
  ∀ before item after, items = before ++ item :: after → ¬ Covers S before → Covers S (before ++ [item]) →
    (outboardOf before).NoGaps

/-! ### Leaves -/

section

variable {blob : List UInt8} {size : Nat} {leaf : Leaf}

private theorem mem_range_leaf {x : Nat} :
    x ∈ chunkRange leaf ↔ chunks leaf.offset ≤ x ∧ x < chunks (leaf.offset + leaf.data.length) := RangeSet.mem_range

private theorem IsLeaf.length_pos (h : IsLeaf blob size leaf) : 0 < leaf.data.length := List.length_pos_iff.mpr h.ne_nil

/-- A leaf does not extend beyond the blob. -/
theorem IsLeaf.le_length (h : IsLeaf blob size leaf) : leaf.offset + leaf.data.length ≤ blob.length := by
  have hpos := h.length_pos
  have hdata := h.data (leaf.data.length - 1) _ (List.getElem?_eq_getElem (by omega))
  obtain ⟨hlt, -⟩ := List.getElem?_eq_some_iff.mp hdata
  omega

private theorem IsLeaf.size_pos (h : IsLeaf blob size leaf) : 0 < size := by
  have hpos := h.length_pos
  have hle := h.le
  omega

/-- A leaf has a chunk. -/
private theorem IsLeaf.mem_first (h : IsLeaf blob size leaf) : chunks leaf.offset ∈ chunkRange leaf := by
  obtain ⟨k, hk⟩ := h.offset
  have hpos := h.length_pos
  rw [mem_range_leaf]
  unfold chunks
  omega

private theorem IsLeaf.lt_chunks (h : IsLeaf blob size leaf) {x : Nat} (hx : x ∈ chunkRange leaf) :
    x < chunks size ∧ x < chunks blob.length := by
  have hle := h.le
  have hle' := h.le_length
  rw [mem_range_leaf] at hx
  unfold chunks at hx ⊢
  omega

/-- A leaf that ends at the claimed size has the last chunk. -/
private theorem IsLeaf.size_eq (h : IsLeaf blob size leaf) (hend : leaf.offset + leaf.data.length = size) :
    size = blob.length := by
  obtain ⟨k, hk⟩ := h.offset
  have hpos := h.length_pos
  apply h.last
  left
  rw [mem_range_leaf, hend]
  unfold chunks
  omega

/-- An update with chunks of leaves is consistent with the size of the blob. -/
theorem consistent_of_leaves {r : ChunkRanges} (h : ∀ x ∈ r, ∃ leaf, IsLeaf blob size leaf ∧ x ∈ chunkRange leaf) :
    Bitfield.Consistent blob.length (.new r size) := by
  by_cases hsize : size = blob.length
  · subst hsize
    refine Or.inr (Or.inr (Or.inl ⟨r, ?_, rfl⟩))
    intro x hx
    obtain ⟨leaf, hleaf, hx⟩ := h x hx
    exact (hleaf.lt_chunks hx).1
  · refine Or.inr (Or.inr (Or.inr ⟨r, size, hsize, ?_, rfl⟩))
    intro x hx
    obtain ⟨leaf, hleaf, hx⟩ := h x hx
    obtain ⟨h1, h2⟩ := hleaf.lt_chunks hx
    have hne : x ≠ chunks size - 1 := by
      rintro rfl
      exact hsize (hleaf.last (Or.inl hx))
    have hne' : x ≠ chunks blob.length - 1 := by
      rintro rfl
      exact hsize (hleaf.last (Or.inr hx))
    omega

private theorem IsLeaf.consistent (h : IsLeaf blob size leaf) :
    Bitfield.Consistent blob.length (.new (chunkRange leaf) size) :=
  consistent_of_leaves (fun _ hx => ⟨leaf, h, hx⟩)

/-- A leaf has all bytes of its chunks. -/
private theorem IsLeaf.bounds (h : IsLeaf blob size leaf) {i : Nat} (hi : i < blob.length)
    (hx : i / 1024 ∈ chunkRange leaf) :
    leaf.offset ≤ i ∧ i < leaf.offset + leaf.data.length := by
  obtain ⟨k, hk⟩ := h.offset
  rw [mem_range_leaf] at hx
  rcases h.whole with ⟨m, hm⟩ | hend
  · unfold chunks at hx
    omega
  · have hsize := h.size_eq hend
    unfold chunks at hx
    omega

private theorem IsLeaf.invalidSize_eq_false (h : IsLeaf blob size leaf) : invalidSize size leaf = false := by
  obtain ⟨k, hk⟩ := h.offset
  have hle := h.le
  rw [Bool.eq_false_iff]
  intro hinvalid
  rw [invalidSize, Bool.and_eq_true, bne_iff_ne] at hinvalid
  have hx := mem_range_leaf.mp (RangeSet.mem_iff.mpr hinvalid.1)
  apply hinvalid.2
  rcases h.whole with ⟨m, hm⟩ | hend
  · unfold chunks at hx
    omega
  · exact hend.symm

end

/-! ### What the items say -/

section

variable {blob : List UInt8} {items : List (Nat × BaoContentItem H)} {size : Nat}

/-- The bitfield after one more item, in canonical form. -/
def addItem (b : Bitfield) : Nat × BaoContentItem H → Bitfield
  | (size, .leaf leaf) => (b.update (.new (chunkRange leaf) size)).1
  | (_, .parent _) => b

def bitfieldOf (items : List (Nat × BaoContentItem H)) : Bitfield := items.foldl addItem .empty

def dataOf (items : List (Nat × BaoContentItem H)) :
    Content UInt8 := Content.empty.writes (items.flatMap (fun p => dataWrites p.2))

@[simp] theorem addItem_leaf (b : Bitfield) (size : Nat) (leaf : Leaf) :
    addItem b (size, (.leaf leaf : BaoContentItem H)) = b.combine (.new (chunkRange leaf) size) := rfl

@[simp] theorem addItem_parent (b : Bitfield) (size : Nat) (parent : Parent H) :
    addItem b (size, .parent parent) = b := rfl

/-- All leaves are leaves of the blob. -/
def AreLeaves (blob : List UInt8) (items : List (Nat × BaoContentItem H)) : Prop :=
  ∀ size leaf, (size, .leaf leaf) ∈ items → IsLeaf blob size leaf

private theorem AreLeaves.append {items' : List (Nat × BaoContentItem H)} (h : AreLeaves blob items)
    (h' : AreLeaves blob items') :
    AreLeaves blob (items ++ items') := by
  intro size leaf hmem
  rcases List.mem_append.mp hmem with hmem | hmem
  · exact h size leaf hmem
  · exact h' size leaf hmem

private theorem AreLeaves.left {items' : List (Nat × BaoContentItem H)} (h : AreLeaves blob (items ++ items')) :
    AreLeaves blob items := fun size leaf hmem => h size leaf (List.mem_append_left _ hmem)

private theorem bitfieldOf_concat (items : List (Nat × BaoContentItem H)) (p : Nat × BaoContentItem H) :
    bitfieldOf (items ++ [p]) = addItem (bitfieldOf items) p := by
  rw [bitfieldOf, List.foldl_append]
  rfl

private theorem dataOf_append (items items' : List (Nat × BaoContentItem H)) :
    dataOf (items ++ items') = (dataOf items).writes (items'.flatMap (fun p => dataWrites p.2)) := by
  rw [dataOf, List.flatMap_append, Content.writes_append]
  rfl

private theorem outboardOf_concat (items : List (Nat × BaoContentItem H)) (p : Nat × BaoContentItem H) :
    outboardOf (items ++ [p]) = (outboardOf items).writes (memOutboardWrites p.1 p.2) := by
  rw [outboardOf, List.flatMap_append, Content.writes_append, List.flatMap_singleton]
  rfl

private theorem consistent_bitfieldOf (h : AreLeaves blob items) :
    Bitfield.Consistent blob.length (bitfieldOf items) := by
  induction items using List.reverseRecOn with
  | nil => exact Or.inl rfl
  | append_singleton items p ih =>
    obtain ⟨size, item⟩ := p
    rw [bitfieldOf_concat]
    cases item with
    | parent parent => exact ih h.left
    | leaf leaf =>
      have hleaf := h size leaf (List.mem_append_right _ List.mem_cons_self)
      exact ((ih h.left).normal.combine hleaf.consistent.normal).consistent

/-- The bitfield has the chunks of the leaves. -/
theorem mem_bitfieldOf (h : AreLeaves blob items) {x : Nat} (hx : x < chunks blob.length) :
    x ∈ (bitfieldOf items).ranges ↔ ∃ size leaf, (size, .leaf leaf) ∈ items ∧ x ∈ chunkRange leaf := by
  induction items using List.reverseRecOn with
  | nil => exact iff_of_false (RangeSet.not_mem_empty x) (fun ⟨_, _, hmem, _⟩ => by cases hmem)
  | append_singleton items p ih =>
    obtain ⟨size, item⟩ := p
    rw [bitfieldOf_concat]
    cases item with
    | parent parent =>
      rw [addItem_parent, ih h.left]
      simp
    | leaf leaf =>
      have hleaf := h size leaf (List.mem_append_right _ List.mem_cons_self)
      have hnew : x ∈ (Bitfield.new (chunkRange leaf) size).ranges ↔ x ∈ chunkRange leaf := by
        rw [Bitfield.mem_new hleaf.size_pos]
        refine or_iff_left ?_
        rintro ⟨hge, hlast⟩
        rw [hleaf.last (Or.inl hlast)] at hge
        omega
      rw [addItem_leaf, Bitfield.ranges_combine (consistent_bitfieldOf h.left).normal hleaf.consistent.normal,
        RangeSet.mem_union, ih h.left, hnew]
      constructor
      · rintro (⟨size', leaf', hmem, hx'⟩ | hx')
        · exact ⟨size', leaf', List.mem_append_left _ hmem, hx'⟩
        · exact ⟨size, leaf, List.mem_append_right _ List.mem_cons_self, hx'⟩
      · rintro ⟨size', leaf', hmem, hx'⟩
        rcases List.mem_append.mp hmem with hmem | hmem
        · exact Or.inl ⟨size', leaf', hmem, hx'⟩
        · cases List.mem_singleton.mp hmem
          exact Or.inr hx'

private theorem isComplete_bitfieldOf (h : AreLeaves blob items) (hpos : 0 < blob.length) :
    (bitfieldOf items).isComplete = true ↔ Covers blob.length items := by
  rw [(consistent_bitfieldOf h).normal.isComplete_iff_forall hpos]
  exact forall₂_congr (fun x hx => mem_bitfieldOf h hx)

private theorem size_bitfieldOf (h : AreLeaves blob items) (hpos : 0 < blob.length)
    (hcovers : Covers blob.length items) :
    (bitfieldOf items).size = blob.length :=
  (consistent_bitfieldOf h).normal.size_of_isComplete hpos ((isComplete_bitfieldOf h hpos).mpr hcovers)

/-! ### The data -/

private theorem respects_dataOf (h : AreLeaves blob items) :
    Content.Respects (TrueData blob) (items.flatMap (fun p => dataWrites p.2)) := by
  intro w hw j x hj
  obtain ⟨⟨size, item⟩, hitem, hw⟩ := List.mem_flatMap.mp hw
  cases item with
  | parent parent => cases hw
  | leaf leaf =>
    obtain rfl := List.mem_singleton.mp hw
    exact (h size leaf hitem).data j x hj

/-- The leaves that have all chunks have all bytes. -/
theorem cell_dataOf (h : AreLeaves blob items) (hcovers : Covers blob.length items) {i : Nat} (hi : i < blob.length) :
    (dataOf items).cell i = blob[i]? := by
  have hx : i / 1024 < chunks blob.length := by
    unfold chunks
    omega
  obtain ⟨size, leaf, hmem, hx⟩ := hcovers _ hx
  have hleaf := h size leaf hmem
  obtain ⟨h1, h2⟩ := hleaf.bounds hi hx
  have hvalue : blob[i]? = some blob[i] := List.getElem?_eq_getElem hi
  rw [hvalue]
  apply Content.cell_writes_of_sets (respects_dataOf h)
  · intro y hy
    exact Option.some.inj (hy.symm.trans hvalue)
  · have hj : i - leaf.offset < leaf.data.length := by omega
    refine ⟨(leaf.offset, leaf.data), List.mem_flatMap.mpr ⟨_, hmem, List.mem_singleton.mpr rfl⟩,
      i - leaf.offset, ?_, by omega⟩
    have hdata := hleaf.data (i - leaf.offset) _ (List.getElem?_eq_getElem hj)
    rw [show leaf.offset + (i - leaf.offset) = i by omega] at hdata
    rw [List.getElem?_eq_getElem hj, ← hdata, hvalue]

private theorem len_dataOf_le (h : AreLeaves blob items) : (dataOf items).len ≤ blob.length :=
  Content.len_writes_le (Nat.zero_le _) (fun _ _ htrue => (List.getElem?_eq_some_iff.mp htrue).1) (respects_dataOf h)

private theorem len_dataOf (h : AreLeaves blob items) (hcovers : Covers blob.length items) :
    (dataOf items).len = blob.length := by
  apply Nat.le_antisymm (len_dataOf_le h)
  rcases Nat.eq_zero_or_pos blob.length with hzero | hpos
  · omega
  · have hcell := cell_dataOf h hcovers (i := blob.length - 1) (by omega)
    have hsome : ((dataOf items).cell (blob.length - 1)).isSome = true := by
      rw [hcell, List.getElem?_eq_getElem (by omega)]
      rfl
    have hlt := Content.bounded_empty.writes (items.flatMap (fun p => dataWrites p.2)) (blob.length - 1) hsome
    have hlt' : blob.length - 1 < (dataOf items).len := hlt
    omega

private theorem noGaps_dataOf (h : AreLeaves blob items) (hcovers : Covers blob.length items) :
    (dataOf items).NoGaps := by
  intro i hi
  rw [len_dataOf h hcovers] at hi
  rw [cell_dataOf h hcovers hi, List.getElem?_eq_getElem hi]
  rfl

end

/-! ### Gaps -/

section

variable {S : Nat} {items items' : List (Nat × BaoContentItem H)} {p : Nat × BaoContentItem H}

private theorem Covers.append (h : Covers S items) (items' : List (Nat × BaoContentItem H)) :
    Covers S (items ++ items') := by
  intro x hx
  obtain ⟨size, leaf, hmem, hx⟩ := h x hx
  exact ⟨size, leaf, List.mem_append_left _ hmem, hx⟩

/-- A parent does not cover anything. -/
theorem covers_concat_parent {size : Nat} {parent : Parent H} :
    Covers S (items ++ [(size, .parent parent)]) ↔ Covers S items := by
  simp [Covers]

private theorem CompletesWithoutGaps.left (h : CompletesWithoutGaps S (items ++ items')) :
    CompletesWithoutGaps S items := by
  rintro before item after rfl
  exact h before item (after ++ items') (by simp)

/-- One more item. -/
theorem completesWithoutGaps_concat : CompletesWithoutGaps S (items ++ [p]) ↔
    CompletesWithoutGaps S items ∧ (¬ Covers S items → Covers S (items ++ [p]) → (outboardOf items).NoGaps) := by
  constructor
  · intro h
    exact ⟨h.left, h items p [] rfl⟩
  · rintro ⟨hitems, hlast⟩ before item after heq
    rcases List.eq_nil_or_concat after with rfl | ⟨after', p', hafter⟩
    · obtain ⟨rfl, hp⟩ := List.append_inj' heq rfl
      cases hp
      exact hlast
    · rw [hafter, List.concat_eq_append, ← List.cons_append, ← List.append_assoc] at heq
      obtain ⟨rfl, -⟩ := List.append_inj' heq rfl
      exact hitems before item after' rfl

end

/-! ### The memory store -/

section

variable {blob : List UInt8} {items : List (Nat × BaoContentItem H)} {size : Nat} {entry : MemStorage H}

/-- What the memory store has after the items. -/
def MemState (blob : List UInt8) (items : List (Nat × BaoContentItem H)) : MemStorage H → Prop
  | .partialEntry s => ¬ Covers blob.length items ∧ s.bitfield = bitfieldOf items ∧ s.data = dataOf items ∧
    s.outboard = outboardOf items
  | .complete data _ =>
    Covers blob.length items ∧ data.len = blob.length ∧ ∀ i, i < blob.length → data.cell i = blob[i]?

private theorem MemState.start (h : MemState blob items entry) (size : Nat) :
    MemState blob items (entry.start size) := by
  cases entry with
  | partialEntry s => exact h
  | complete data outboard => exact h

private theorem recv_leaf {s : PartialMemStorage H} (h : MemState blob items (.partialEntry s)) (leaf : Leaf) :
    MemStorage.recv size (.leaf leaf) (.partialEntry s) =
      if (bitfieldOf (items ++ [(size, .leaf leaf)])).isComplete then
        if (dataOf (items ++ [(size, .leaf leaf)])).NoGaps ∧ (outboardOf items).NoGaps then
          (.complete (dataOf (items ++ [(size, .leaf leaf)])) (outboardOf items), true)
        else (.partialEntry { s with
          data := .empty, outboard := .empty, bitfield := bitfieldOf (items ++ [(size, .leaf leaf)]) }, false)
      else (.partialEntry { s with
        data := dataOf (items ++ [(size, .leaf leaf)]), bitfield := bitfieldOf (items ++ [(size, .leaf leaf)]) },
          true) := by
  obtain ⟨-, hbitfield, hdata, houtboard⟩ := h
  rw [bitfieldOf_concat, addItem_leaf, dataOf_append]
  simp only [MemStorage.recv, hbitfield, hdata, houtboard, List.flatMap_cons, List.flatMap_nil,
    List.append_nil, dataWrites, Content.writes_cons, Content.writes_nil, Bitfield.update]

/-- Unless there is a gap, the item is written. -/
theorem memState_recv (hpos : 0 < blob.length) {item : BaoContentItem H}
    (hleaves : AreLeaves blob (items ++ [(size, item)]))
    (hgaps : CompletesWithoutGaps blob.length (items ++ [(size, item)])) (h : MemState blob items entry) :
    ∃ entry', entry.recv size item = (entry', true) ∧ MemState blob (items ++ [(size, item)]) entry' := by
  cases entry with
  | complete data outboard => exact ⟨_, rfl, h.1.append _, h.2⟩
  | partialEntry s =>
    cases item with
    | parent parent =>
      rw [recv_parent]
      refine ⟨_, rfl, ?_, ?_, ?_, ?_⟩
      · rw [covers_concat_parent]
        exact h.1
      · rw [bitfieldOf_concat, addItem_parent]
        exact h.2.1
      · rw [dataOf_append]
        exact h.2.2.1
      · rw [outboardOf_concat, ← h.2.2.2, List.flatMap_singleton]
    | leaf leaf =>
      rw [recv_leaf h]
      by_cases hcovers : Covers blob.length (items ++ [(size, .leaf leaf)])
      · rw [if_pos ((isComplete_bitfieldOf hleaves hpos).mpr hcovers)]
        have houtboard := (completesWithoutGaps_concat.mp hgaps).2 h.1 hcovers
        rw [if_pos ⟨noGaps_dataOf hleaves hcovers, houtboard⟩]
        exact ⟨_, rfl, hcovers, len_dataOf hleaves hcovers, fun i hi => cell_dataOf hleaves hcovers hi⟩
      · rw [if_neg (mt (isComplete_bitfieldOf hleaves hpos).mp hcovers)]
        refine ⟨_, rfl, hcovers, rfl, rfl, ?_⟩
        rw [outboardOf_concat]
        exact h.2.2.2

/-- If there is a gap, the item panics. -/
private theorem recv_panics (hpos : 0 < blob.length) {item : BaoContentItem H}
    (hleaves : AreLeaves blob (items ++ [(size, item)]))
    (hbefore : CompletesWithoutGaps blob.length items)
    (hgaps : ¬ CompletesWithoutGaps blob.length (items ++ [(size, item)]))
    (h : MemState blob items entry) : (entry.recv size item).2 = false := by
  rw [completesWithoutGaps_concat] at hgaps
  push Not at hgaps
  obtain ⟨hnot, hcovers, hnoGaps⟩ := hgaps hbefore
  cases entry with
  | complete data outboard => exact absurd h.1 hnot
  | partialEntry s =>
    cases item with
    | parent parent => exact absurd (covers_concat_parent.mp hcovers) hnot
    | leaf leaf =>
      rw [recv_leaf h, if_pos ((isComplete_bitfieldOf hleaves hpos).mpr hcovers), if_neg (fun hboth => hnoGaps hboth.2)]

/-- The items of one import, with its claimed size. -/
def sized (size : Nat) (items : List (BaoContentItem H)) :
    List (Nat × BaoContentItem H) := items.map (fun item => (size, item))

private theorem memState_items (hpos : 0 < blob.length) {new : List (BaoContentItem H)}
    (hleaves : AreLeaves blob (items ++ sized size new))
    (hgaps : CompletesWithoutGaps blob.length (items ++ sized size new))
    (h : MemState blob items entry) :
    ∃ entry', memItems size entry new = (entry', true) ∧ MemState blob (items ++ sized size new) entry' := by
  induction new generalizing items entry with
  | nil => exact ⟨entry, rfl, by simpa [sized] using h⟩
  | cons item new ih =>
    have happend : items ++ sized size (item :: new) = items ++ [(size, item)] ++ sized size new := by
      simp [sized]
    rw [happend] at hleaves hgaps ⊢
    obtain ⟨entry₁, hrecv, h₁⟩ := memState_recv hpos hleaves.left hgaps.left h
    obtain ⟨entry', hnew, h'⟩ := ih hleaves hgaps h₁
    refine ⟨entry', ?_, h'⟩
    simp only [memItems, hrecv]
    exact hnew

private theorem memItems_panics (hpos : 0 < blob.length) {new : List (BaoContentItem H)}
    (hleaves : AreLeaves blob (items ++ sized size new)) (hbefore : CompletesWithoutGaps blob.length items)
    (hgaps : ¬ CompletesWithoutGaps blob.length (items ++ sized size new)) (h : MemState blob items entry) :
    (memItems size entry new).2 = false := by
  induction new generalizing items entry with
  | nil =>
    rw [sized, List.map_nil, List.append_nil] at hgaps
    exact absurd hbefore hgaps
  | cons item new ih =>
    have happend : items ++ sized size (item :: new) = items ++ [(size, item)] ++ sized size new := by
      simp [sized]
    rw [happend] at hleaves hgaps
    by_cases hitem : CompletesWithoutGaps blob.length (items ++ [(size, item)])
    · obtain ⟨entry₁, hrecv, h₁⟩ := memState_recv hpos hleaves.left hitem h
      simp only [memItems, hrecv]
      exact ih hleaves hitem hgaps h₁
    · have hpanics := recv_panics hpos hleaves.left hbefore hitem h
      have hrecv : entry.recv size item = ((entry.recv size item).1, false) := Prod.ext rfl hpanics
      simp only [memItems]
      rw [hrecv]

end

/-! ### The file store -/

section

variable {blob : List UInt8} {items : List (Nat × BaoContentItem H)} {size : Nat} {storage : BaoFileStorage H}
  {options : InlineOptions} {batch : List (BaoContentItem H)} {ranges : ChunkRanges}

/-- What the file store has after the items. -/
def FsState (blob : List UInt8) (items : List (Nat × BaoContentItem H)) : BaoFileStorage H → Prop
  | .nonExisting => items = []
  | .partialFile s => ¬ Covers blob.length items ∧ s.bitfield = bitfieldOf items ∧ s.data = dataOf items
  | .complete s => Covers blob.length items ∧ s.size = blob.length ∧ ∀ i, i < blob.length → s.data.cell i = blob[i]?
  | .initial | .loading | .partialMem _ | .poisoned => False

private theorem fsState_afterFileBatch (hpos : 0 < blob.length) (hleaves : AreLeaves blob items)
    {fs : PartialFileStorage H}
    (hbitfield : fs.bitfield = bitfieldOf items) (hdata : fs.data = dataOf items) :
    FsState blob items (BaoFileStorage.afterFileBatch options fs) := by
  unfold BaoFileStorage.afterFileBatch
  rw [hbitfield]
  split
  · rename_i hcomplete
    have hcovers := (isComplete_bitfieldOf hleaves hpos).mp hcomplete
    have hlen := len_dataOf hleaves hcovers
    rw [size_bitfieldOf hleaves hpos hcovers]
    refine ⟨hcovers, ?_, ?_⟩
    · simp only [PartialFileStorage.intoComplete, hdata]
      split
      · simp [Content.readToEnd, hlen]
      · rfl
    · intro i hi
      simp only [PartialFileStorage.intoComplete, hdata]
      split
      · simp only [Content.readToEnd, if_pos hi]
        exact cell_dataOf hleaves hcovers hi
      · exact cell_dataOf hleaves hcovers hi
  · rename_i hcomplete
    exact ⟨mt (isComplete_bitfieldOf hleaves hpos).mpr hcomplete, hbitfield, hdata⟩

/-- The data of the items, copied to a new file. -/
theorem persist_dataOf (items : List (Nat × BaoContentItem H)) :
    (dataOf items).persist (Files.empty (H := H)).omits.data.contains (Files.empty (H := H)).data = dataOf items :=
  Content.persist_new (Content.bounded_empty.writes _) (Content.tight_empty.writes _)

private theorem fsState_afterMemBatch (hpos : 0 < blob.length) (hleaves : AreLeaves blob items)
    {ms : PartialMemStorage H}
    (hbitfield : ms.bitfield = bitfieldOf items) (hdata : ms.data = dataOf items) :
    FsState blob items (BaoFileStorage.afterMemBatch options .empty ms) := by
  unfold BaoFileStorage.afterMemBatch
  split
  · rename_i hcomplete
    rw [hbitfield] at hcomplete
    have hcovers := (isComplete_bitfieldOf hleaves hpos).mp hcomplete
    have hlen := len_dataOf hleaves hcovers
    have hsize : ms.currentSize = blob.length := by
      rw [PartialMemStorage.currentSize, hbitfield]
      exact size_bitfieldOf hleaves hpos hcovers
    refine ⟨hcovers, ?_, ?_⟩
    · simp only [PartialMemStorage.intoComplete, hsize, hdata, hlen, ite_self]
    · intro i hi
      simp only [PartialMemStorage.intoComplete, hdata, persist_dataOf, ite_self]
      exact cell_dataOf hleaves hcovers hi
  · rename_i hcomplete
    rw [hbitfield] at hcomplete
    refine ⟨mt (isComplete_bitfieldOf hleaves hpos).mpr hcomplete, hbitfield, ?_⟩
    simp only [PartialMemStorage.persist, hdata, persist_dataOf]

private theorem flatMap_sized (size : Nat) (batch : List (BaoContentItem H)) :
    (sized size batch).flatMap (fun p => dataWrites p.2) = batch.flatMap dataWrites := by
  simp [sized, List.flatMap_map]

/-- A batch is written, with the bitfield that the items say. -/
private theorem fsState_writeBatch (hpos : 0 < blob.length) (hleaves : AreLeaves blob (items ++ sized size batch))
    (hbitfield : (bitfieldOf items).combine ⟨size, ranges⟩ = bitfieldOf (items ++ sized size batch))
    (h : FsState blob items storage) :
    FsState blob (items ++ sized size batch) (storage.writeBatch options .empty batch ⟨size, ranges⟩).1 := by
  have hdataOf : dataOf (items ++ sized size batch) = (dataOf items).writes (batch.flatMap dataWrites) := by
    rw [dataOf_append, flatMap_sized]
  cases storage with
  | complete s => exact ⟨h.1.append _, h.2⟩
  | partialFile fs =>
    simp only [BaoFileStorage.writeBatch, writeBatch_eq_file]
    apply fsState_afterFileBatch hpos hleaves
    · rw [← hbitfield, ← h.2.1]
      rfl
    · rw [hdataOf, ← h.2.2]
  | nonExisting =>
    have hnil : items = [] := h
    subst hnil
    simp only [BaoFileStorage.writeBatch, BaoFileStorage.writeBatchMem]
    split
    · obtain ⟨hdata, -, hold⟩ := writeBatch_eq_mem size batch (PartialMemStorage.default (H := H))
      apply fsState_afterMemBatch hpos hleaves
      · rw [← hbitfield, hold]
        rfl
      · rw [hdataOf]
        exact hdata
    · rw [writeBatch_eq_file]
      apply fsState_afterFileBatch hpos hleaves
      · rw [← hbitfield]
        rfl
      · rw [hdataOf]
        exact congrArg (Content.writes · _) (persist_dataOf [])
  | initial => exact h.elim
  | loading => exact h.elim
  | partialMem ms => exact h.elim
  | poisoned => exact h.elim

/-- The batch of an import that is not written yet. -/
structure Pending (items : List (Nat × BaoContentItem H)) (size : Nat) (batch : List (BaoContentItem H))
    (ranges : ChunkRanges) :
    Prop where
  covered : ∀ x ∈ ranges, ∃ leaf, .leaf leaf ∈ batch ∧ x ∈ chunkRange leaf
  noLeaf : (∀ leaf, .leaf leaf ∉ batch) → ranges = ∅ ∧ bitfieldOf (items ++ sized size batch) = bitfieldOf items
  leaf : ∀ leaf, .leaf leaf ∈ batch → bitfieldOf (items ++ sized size batch) =
    (bitfieldOf items).combine (.new ranges size)

private theorem pending_nil (items : List (Nat × BaoContentItem H)) (size : Nat) : Pending items size [] ∅ where
  covered x hx := absurd hx (RangeSet.not_mem_empty x)
  noLeaf _ := by simp [sized]
  leaf leaf hleaf := by cases hleaf

private theorem sized_concat (items : List (Nat × BaoContentItem H)) (size : Nat) (batch : List (BaoContentItem H))
    (item : BaoContentItem H) : items ++ sized size (batch ++ [item]) = items ++ sized size batch ++
      [(size, item)] := by
  simp [sized]

private theorem Pending.parent (h : Pending items size batch ranges) (parent : Parent H) :
    Pending items size (batch ++ [.parent parent]) ranges where
  covered x hx := by
    obtain ⟨leaf, hmem, hx⟩ := h.covered x hx
    exact ⟨leaf, List.mem_append_left _ hmem, hx⟩
  noLeaf hnone := by
    obtain ⟨hranges, hbitfield⟩ := h.noLeaf (fun leaf hmem => hnone leaf (List.mem_append_left _ hmem))
    rw [sized_concat, bitfieldOf_concat, addItem_parent]
    exact ⟨hranges, hbitfield⟩
  leaf leaf hmem := by
    rw [sized_concat, bitfieldOf_concat, addItem_parent]
    apply h.leaf leaf
    simpa using hmem

/-- The leaves of a batch. -/
theorem AreLeaves.isLeaf (h : AreLeaves blob (items ++ sized size batch)) {leaf : Leaf} (hmem : .leaf leaf ∈ batch) :
    IsLeaf blob size leaf := by
  apply h size leaf
  apply List.mem_append_right
  exact List.mem_map.mpr ⟨_, hmem, rfl⟩

private theorem Pending.consistent (h : Pending items size batch ranges)
    (hleaves : AreLeaves blob (items ++ sized size batch)) :
    Bitfield.Consistent blob.length (.new ranges size) := by
  apply consistent_of_leaves
  intro x hx
  obtain ⟨leaf, hmem, hx⟩ := h.covered x hx
  exact ⟨leaf, hleaves.isLeaf hmem, hx⟩

private theorem Pending.concatLeaf (h : Pending items size batch ranges) {leaf : Leaf}
    (hleaves : AreLeaves blob (items ++ sized size (batch ++ [.leaf leaf]))) :
    Pending items size (batch ++ [.leaf leaf]) (ranges ∪ chunkRange leaf) where
  covered x hx := by
    rcases RangeSet.mem_union.mp hx with hx | hx
    · obtain ⟨leaf', hmem, hx⟩ := h.covered x hx
      exact ⟨leaf', List.mem_append_left _ hmem, hx⟩
    · exact ⟨leaf, List.mem_append_right _ List.mem_cons_self, hx⟩
  noLeaf hnone := absurd (List.mem_append_right _ List.mem_cons_self) (hnone leaf)
  leaf _ _ := by
    rw [sized_concat] at hleaves ⊢
    have hleaf := hleaves size leaf (List.mem_append_right _ List.mem_cons_self)
    rw [bitfieldOf_concat, addItem_leaf]
    by_cases hsome : ∃ leaf', .leaf leaf' ∈ batch
    · obtain ⟨leaf', hmem⟩ := hsome
      have hbefore := consistent_bitfieldOf hleaves.left.left
      rw [h.leaf leaf' hmem, Bitfield.combine_assoc hbefore (h.consistent hleaves.left) hleaf.consistent,
        Bitfield.new_combine_new hleaf.size_pos]
    · push Not at hsome
      obtain ⟨hranges, hbitfield⟩ := h.noLeaf hsome
      have hunion : ranges ∪ chunkRange leaf = chunkRange leaf := by
        apply RangeSet.ext_mem
        intro x
        rw [hranges, RangeSet.mem_union]
        exact or_iff_right (RangeSet.not_mem_empty x)
      rw [hunion, hbitfield]

/-- The update for a batch that is not in canonical form gives the bitfield of the items. -/
private theorem Pending.combine (h : Pending items size batch ranges)
    (hleaves : AreLeaves blob (items ++ sized size batch))
    (hsome : (∃ leaf, .leaf leaf ∈ batch) ∨ ∃ x, x ∈ (bitfieldOf items).ranges) :
    (bitfieldOf items).combine ⟨size, ranges⟩ = bitfieldOf (items ++ sized size batch) := by
  have hbefore := (consistent_bitfieldOf hleaves.left).normal
  by_cases hleaf : ∃ leaf, .leaf leaf ∈ batch
  · obtain ⟨leaf, hmem⟩ := hleaf
    rw [h.leaf leaf hmem]
    apply Bitfield.combine_unchecked hbefore (hleaves.isLeaf hmem).size_pos
    · intro x hx
      obtain ⟨leaf', hmem', hx⟩ := h.covered x hx
      exact ((hleaves.isLeaf hmem').lt_chunks hx).1
    · intro hlast
      obtain ⟨leaf', hmem', hx⟩ := h.covered _ hlast
      exact (hleaves.isLeaf hmem').last (Or.inl hx)
  · obtain ⟨x, hx⟩ := hsome.resolve_left hleaf
    push Not at hleaf
    obtain ⟨rfl, hbitfield⟩ := h.noLeaf hleaf
    rw [hbitfield]
    exact Bitfield.combine_noChunks hbefore hx size

/-- A parent after a leaf starts a new batch. -/
private theorem fsItems_flush (hlast : (batch.getLast?.map BaoContentItem.isLeaf).getD false = true) (parent : Parent H)
    (new : List (BaoContentItem H)) :
    fsItems options size storage batch ranges (.parent parent :: new) =
      fsItems options size (storage.writeBatch options .empty batch ⟨size, ranges⟩).1 [.parent parent] ∅ new := by
  simp [fsItems, hlast, BaoContentItem.isParent]

private theorem fsItems_parent (hlast : (batch.getLast?.map BaoContentItem.isLeaf).getD false = false)
    (parent : Parent H)
    (new : List (BaoContentItem H)) :
    fsItems options size storage batch ranges (.parent parent :: new) =
      fsItems options size storage (batch ++ [.parent parent]) ranges new := by
  simp [fsItems, hlast]

private theorem fsItems_leaf {leaf : Leaf} (hvalid : invalidSize size leaf = false) (new : List (BaoContentItem H)) :
    fsItems options size storage batch ranges (.leaf leaf :: new) =
      fsItems options size storage (batch ++ [.leaf leaf]) (ranges ∪ chunkRange leaf) new := by
  simp [fsItems, BaoContentItem.isParent, hvalid]

/-- A batch that is flushed has a leaf. -/
private theorem exists_leaf_of_last (hlast : (batch.getLast?.map BaoContentItem.isLeaf).getD false = true) :
    ∃ leaf, .leaf leaf ∈ batch := by
  cases hitem : batch.getLast? with
  | none =>
    rw [hitem] at hlast
    cases hlast
  | some item =>
    rw [hitem] at hlast
    cases item with
    | leaf leaf => exact ⟨leaf, List.mem_of_getLast? hitem⟩
    | parent parent => cases hlast

/-- The loop of an import writes all items. -/
private theorem fsState_items (hpos : 0 < blob.length) {new : List (BaoContentItem H)}
    (hleaves : AreLeaves blob (items ++ sized size (batch ++ new))) (hpending : Pending items size batch ranges)
    (hsome : (∃ leaf, .leaf leaf ∈ batch ++ new) ∨ ∃ x, x ∈ (bitfieldOf items).ranges)
    (h : FsState blob items storage) :
    ∃ storage', fsItems options size storage batch ranges new = (storage', true) ∧
      FsState blob (items ++ sized size (batch ++ new)) storage' := by
  induction new generalizing items batch ranges storage with
  | nil =>
    rw [List.append_nil] at hleaves hsome ⊢
    rw [fsItems]
    split
    · rename_i hempty
      rw [List.isEmpty_iff] at hempty
      subst hempty
      exact ⟨_, rfl, by simpa [sized] using h⟩
    · exact ⟨_, rfl, fsState_writeBatch hpos hleaves (hpending.combine hleaves hsome) h⟩
  | cons item new ih =>
    have happend : batch ++ item :: new = batch ++ [item] ++ new := by simp
    rw [happend] at hleaves hsome ⊢
    cases item with
    | leaf leaf =>
      have hbatch : AreLeaves blob (items ++ sized size (batch ++ [.leaf leaf])) := by
        intro size' leaf' hmem
        apply hleaves
        rw [sized, List.map_append, ← List.append_assoc]
        exact List.mem_append_left _ hmem
      have hleaf : IsLeaf blob size leaf := hbatch.isLeaf (List.mem_append_right _ List.mem_cons_self)
      rw [fsItems_leaf hleaf.invalidSize_eq_false]
      exact ih hleaves (hpending.concatLeaf hbatch) hsome h
    | parent parent =>
      cases hlast : (batch.getLast?.map BaoContentItem.isLeaf).getD false with
      | false =>
        rw [fsItems_parent hlast]
        exact ih hleaves (hpending.parent parent) hsome h
      | true =>
        obtain ⟨leaf, hmem⟩ := exists_leaf_of_last hlast
        have hsplit : items ++ sized size (batch ++ [.parent parent] ++ new) =
            items ++ sized size batch ++ sized size ([.parent parent] ++ new) := by
          simp [sized]
        rw [hsplit] at hleaves ⊢
        have hbitfield := hpending.combine hleaves.left (Or.inl ⟨leaf, hmem⟩)
        have hwritten : FsState blob (items ++ sized size batch)
          (storage.writeBatch options .empty batch ⟨size, ranges⟩).1 :=
          fsState_writeBatch hpos hleaves.left hbitfield h
        rw [fsItems_flush hlast]
        refine ih hleaves (pending_nil (items ++ sized size batch) size |>.parent parent) (Or.inr ?_) hwritten
        have hleaf := hleaves.left.isLeaf hmem
        refine ⟨chunks leaf.offset, ?_⟩
        rw [mem_bitfieldOf hleaves.left (hleaf.lt_chunks hleaf.mem_first).2]
        exact ⟨size, leaf, List.mem_append_right _ (List.mem_map.mpr ⟨_, hmem, rfl⟩), hleaf.mem_first⟩

end

/-! ### Both stores -/

section

variable {blob : List UInt8} {items : List (Nat × BaoContentItem H)} {sts : List (BaoStream H)} {entry : MemStorage H}
  {storage : BaoFileStorage H} {options : InlineOptions}

private theorem allItems_cons (st : BaoStream H) (sts : List (BaoStream H)) :
    items ++ allItems (st :: sts) = items ++ sized st.size st.items ++ allItems sts := by
  rw [allItems, List.flatMap_cons, ← List.append_assoc]
  rfl

private theorem IsStream.areLeaves {st : BaoStream H} (h : IsStream blob st) :
    AreLeaves blob (sized st.size st.items) := by
  intro size leaf hmem
  obtain ⟨item, hitem, heq⟩ := List.mem_map.mp hmem
  cases heq
  exact h.leaves leaf hitem

/-- The imports into the memory store, if there are no gaps. -/
private theorem memState_all (hpos : 0 < blob.length) (hsts : ∀ st ∈ sts, IsStream blob st)
    (hleaves : AreLeaves blob items)
    (hgaps : CompletesWithoutGaps blob.length (items ++ allItems sts)) (h : MemState blob items entry) :
    ∃ entry', importAll memImport entry sts = (entry', List.replicate sts.length true) ∧
      MemState blob (items ++ allItems sts) entry' := by
  induction sts generalizing items entry with
  | nil => exact ⟨entry, rfl, by simpa [allItems] using h⟩
  | cons st sts ih =>
    have hleaves' := hleaves.append (hsts st List.mem_cons_self).areLeaves
    rw [allItems_cons] at hgaps ⊢
    obtain ⟨entry₁, himport, h₁⟩ := memState_items hpos hleaves' hgaps.left (h.start st.size)
    obtain ⟨entry', hrest, h'⟩ := ih (fun st' hst' => hsts st' (List.mem_cons_of_mem _ hst')) hleaves' hgaps h₁
    refine ⟨entry', ?_, h'⟩
    simp only [importAll, memImport, himport, hrest]
    rfl

/-- If there is a gap, one of the imports panics. -/
private theorem importAll_panics (hpos : 0 < blob.length) (hsts : ∀ st ∈ sts, IsStream blob st)
    (hleaves : AreLeaves blob items)
    (hbefore : CompletesWithoutGaps blob.length items)
    (hgaps : ¬ CompletesWithoutGaps blob.length (items ++ allItems sts))
    (h : MemState blob items entry) : false ∈ (importAll memImport entry sts).2 := by
  induction sts generalizing items entry with
  | nil =>
    rw [allItems, List.flatMap_nil, List.append_nil] at hgaps
    exact absurd hbefore hgaps
  | cons st sts ih =>
    have hleaves' := hleaves.append (hsts st List.mem_cons_self).areLeaves
    rw [allItems_cons] at hgaps
    simp only [importAll, memImport]
    by_cases hst : CompletesWithoutGaps blob.length (items ++ sized st.size st.items)
    · obtain ⟨entry₁, himport, h₁⟩ := memState_items hpos hleaves' hst (h.start st.size)
      rw [himport]
      exact List.mem_cons_of_mem _ (ih (fun st' hst' => hsts st' (List.mem_cons_of_mem _ hst')) hleaves' hst hgaps h₁)
    · rw [memItems_panics hpos hleaves' hbefore hst (h.start st.size)]
      exact List.mem_cons_self

/-- The imports into the file store. -/
theorem fsState_all (hpos : 0 < blob.length) (hsts : ∀ st ∈ sts, IsStream blob st) (hleaves : AreLeaves blob items)
    (h : FsState blob items storage) :
    ∃ storage', importAll (fsImport options) storage sts = (storage', List.replicate sts.length true) ∧
      FsState blob (items ++ allItems sts) storage' := by
  induction sts generalizing items storage with
  | nil => exact ⟨storage, rfl, by simpa [allItems] using h⟩
  | cons st sts ih =>
    have hst := hsts st List.mem_cons_self
    have hleaves' := hleaves.append hst.areLeaves
    rw [allItems_cons]
    have hitems : ∃ storage', fsItems options st.size storage [] ∅ st.items = (storage', true) ∧
        FsState blob (items ++ sized st.size st.items) storage' :=
      fsState_items hpos hleaves' (pending_nil items st.size) (Or.inl hst.exists_leaf) h
    obtain ⟨storage₁, himport, h₁⟩ := hitems
    obtain ⟨storage', hrest, h'⟩ := ih (fun st' hst' => hsts st' (List.mem_cons_of_mem _ hst')) hleaves' h₁
    refine ⟨storage', ?_, h'⟩
    simp only [importAll, fsImport]
    rw [himport]
    simp only [hrest]
    rfl

private theorem not_covers_nil (hpos : 0 < blob.length) :
    ¬ Covers blob.length ([] : List (Nat × BaoContentItem H)) := by
  intro hcovers
  obtain ⟨_, _, hmem, -⟩ := hcovers 0 (Bitfield.chunks_pos hpos)
  cases hmem

/-- Stores that have what the items say are alike. -/
private theorem alike_of_states (hpos : 0 < blob.length) (answers : List Bool) (hmem : MemState blob items entry)
    (hfs : FsState blob items storage) : Alike (entry, answers) (storage, answers) := by
  cases entry with
  | partialEntry s =>
    obtain ⟨hnot, hbitfield, hdata, -⟩ := hmem
    cases storage with
    | nonExisting =>
      have hitems : items = [] := hfs
      subst hitems
      exact ⟨rfl, congrArg some hbitfield.symm, rfl, fun i _ _ => congrArg (fun c => c.cell i) hdata⟩
    | partialFile fs =>
      exact ⟨rfl, congrArg some (hfs.2.1.trans hbitfield.symm), rfl,
        fun i _ _ => congrArg (fun c => c.cell i) (hdata.trans hfs.2.2.symm)⟩
    | complete s => exact absurd hfs.1 hnot
    | initial => exact hfs.elim
    | loading => exact hfs.elim
    | partialMem _ => exact hfs.elim
    | poisoned => exact hfs.elim
  | complete data outboard =>
    obtain ⟨hcovers, hlen, hcell⟩ := hmem
    cases storage with
    | nonExisting =>
      have hitems : items = [] := hfs
      subst hitems
      exact absurd hcovers (not_covers_nil hpos)
    | partialFile fs => exact absurd hcovers hfs.1
    | complete s =>
      refine ⟨rfl, ?_, rfl, ?_⟩
      · exact congrArg (fun n => some (Bitfield.complete n)) (hfs.2.1.trans hlen.symm)
      · intro i hi _
        have hlt : i < blob.length := by
          rw [← hlen]
          exact hi
        exact (hcell i hlt).trans (hfs.2.2 i hlt).symm
    | initial => exact hfs.elim
    | loading => exact hfs.elim
    | partialMem _ => exact hfs.elim
    | poisoned => exact hfs.elim

/-- A blob without bytes has no streams. -/
private theorem streams_eq_nil (hsts : ∀ st ∈ sts, IsStream blob st) (hzero : blob.length = 0) : sts = [] := by
  rw [List.eq_nil_iff_forall_not_mem]
  intro st hst
  obtain ⟨leaf, hleaf⟩ := (hsts st hst).exists_leaf
  have h := (hsts st hst).leaves leaf hleaf
  have hpos := h.length_pos
  have hle := h.le_length
  omega

/-- The stores before any import. -/
theorem state_new (hpos : 0 < blob.length) :
    AreLeaves blob ([] : List (Nat × BaoContentItem H)) ∧ MemState blob [] (.partialEntry .default : MemStorage H) ∧
      FsState blob [] (.nonExisting : BaoFileStorage H) :=
  ⟨(fun _ _ hmem => by cases hmem), ⟨not_covers_nil hpos, rfl, rfl, rfl⟩, rfl⟩

private theorem answers_fsImport (hpos : 0 < blob.length) (hsts : ∀ st ∈ sts, IsStream blob st)
    (options : InlineOptions) :
    (importAll (fsImport options) .nonExisting sts).2 = List.replicate sts.length true := by
  obtain ⟨hleaves, -, hnew⟩ := state_new (H := H) hpos
  have hall : ∃ storage', importAll (fsImport options) .nonExisting sts = (storage', List.replicate sts.length true) ∧
      FsState blob ([] ++ allItems sts) storage' := fsState_all hpos hsts hleaves hnew
  obtain ⟨storage', himport, -⟩ := hall
  rw [himport]

/-- If there is a gap, the memory store does not give the answers of the file store. -/
theorem not_alike_of_gaps (hpos : 0 < blob.length) (hsts : ∀ st ∈ sts, IsStream blob st) (options : InlineOptions)
    (hgaps : ¬ CompletesWithoutGaps blob.length (allItems sts)) :
    ¬ Alike (importAll memImport (.partialEntry .default) sts) (importAll (fsImport options) .nonExisting sts) := by
  intro halike
  obtain ⟨hleaves, hnew, -⟩ := state_new (H := H) hpos
  have hbefore : CompletesWithoutGaps blob.length ([] : List (Nat × BaoContentItem H)) := by
    intro before item after heq
    simp at heq
  have hpanics := importAll_panics hpos hsts hleaves hbefore hgaps hnew
  rw [halike.answers, answers_fsImport hpos hsts options] at hpanics
  exact Bool.false_ne_true (List.eq_of_mem_replicate hpanics)

/-- The memory store and the file store import alike, whatever is kept inline, if and only if there is no gap in the
outboard when the last chunk arrives. -/
theorem import_alike_iff (blob : List UInt8) (sts : List (BaoStream H)) (options : InlineOptions)
    (hsts : ∀ st ∈ sts, IsStream blob st) :
    Alike (importAll memImport (.partialEntry .default) sts) (importAll (fsImport options) .nonExisting sts) ↔
      CompletesWithoutGaps blob.length (allItems sts) := by
  rcases Nat.eq_zero_or_pos blob.length with hzero | hpos
  · obtain rfl := streams_eq_nil hsts hzero
    refine iff_of_true ⟨rfl, rfl, rfl, fun _ _ _ => rfl⟩ ?_
    intro before item after heq
    simp [allItems] at heq
  · constructor
    · intro halike
      by_contra hgaps
      exact not_alike_of_gaps hpos hsts options hgaps halike
    · intro hgaps
      obtain ⟨hleaves, hmemNew, hfsNew⟩ := state_new (H := H) hpos
      have hmemAll : ∃ entry', importAll memImport (.partialEntry .default) sts =
        (entry', List.replicate sts.length true) ∧
          MemState blob ([] ++ allItems sts) entry' := memState_all hpos hsts hleaves hgaps hmemNew
      have hfsAll : ∃ storage', importAll (fsImport options) .nonExisting sts =
        (storage', List.replicate sts.length true) ∧
          FsState blob ([] ++ allItems sts) storage' := fsState_all hpos hsts hleaves hfsNew
      obtain ⟨entry', hmem, hmemState⟩ := hmemAll
      obtain ⟨storage', hfs, hfsState⟩ := hfsAll
      rw [hmem, hfs]
      exact alike_of_states hpos _ hmemState hfsState

end

/-! ### Streams of a blob of zeros -/

/-- A leaf of a blob of zeros. -/
theorem isLeaf_zeros {n size offset len : Nat} (hoffset : 1024 ∣ offset) (hlen : 0 < len) (hle : offset + len ≤ size)
    (hn : offset + len ≤ n) (hwhole : 1024 ∣ len ∨ offset + len = size)
    (hlast : size = n ∨ chunks (offset + len) < chunks size ∧ chunks (offset + len) < chunks n) :
    IsLeaf (List.replicate n 0) size ⟨offset, List.replicate len 0⟩ := by
  refine ⟨hoffset, ?_, ?_, ?_, ?_, ?_⟩
  · rw [Ne, List.replicate_eq_nil_iff]
    omega
  · rw [List.length_replicate]
    exact hle
  · rw [List.length_replicate]
    exact hwhole
  · intro j x hj
    dsimp only at hj ⊢
    rw [List.getElem?_replicate] at hj ⊢
    split at hj
    · rw [if_pos (by omega)]
      exact hj
    · cases hj
  · rw [mem_range_leaf, mem_range_leaf, List.length_replicate, List.length_replicate]
    dsimp only
    intro hmem
    rcases hlast with rfl | hlast
    · rfl
    · omega

/-- A blob with 68 chunks. -/
def blob68 : List UInt8 := List.replicate 69632 0

def zeros (offset len : Nat) : BaoContentItem HashTerm := .leaf ⟨offset, List.replicate len 0⟩

/-- The pair of the blob at a path, at the node that a tree has at this path. -/
def parentAt (n : Nat) (path : List Bool) : BaoContentItem HashTerm :=
  .parent ⟨nodeAt n path, pairAt termHash blob68 path⟩

def whole68 : BaoStream HashTerm where
  size := 69632
  items := [parentAt 68 [], parentAt 68 [false], parentAt 68 [false, false], zeros 0 16384, zeros 16384 16384,
    parentAt 68 [false, true], zeros 32768 16384, zeros 49152 16384, zeros 65536 4096]

private theorem leaf_mem_whole68 {leaf : Leaf} : .leaf leaf ∈ whole68.items ↔
    leaf = ⟨0, List.replicate 16384 0⟩ ∨ leaf = ⟨16384, List.replicate 16384 0⟩ ∨
      leaf = ⟨32768, List.replicate 16384 0⟩ ∨
      leaf = ⟨49152, List.replicate 16384 0⟩ ∨ leaf = ⟨65536, List.replicate 4096 0⟩ := by
  simp only [whole68, zeros, parentAt, List.mem_cons, BaoContentItem.leaf.injEq, reduceCtorEq,
    List.not_mem_nil, or_false, false_or]

private theorem isStream_whole68 : IsStream blob68 whole68 := by
  refine ⟨?_, _, leaf_mem_whole68.mpr (Or.inl rfl)⟩
  intro leaf hleaf
  rcases leaf_mem_whole68.mp hleaf with rfl | rfl | rfl | rfl | rfl
  all_goals exact isLeaf_zeros (by decide) (by decide) (by decide) (by decide) (Or.inl (by decide)) (Or.inl rfl)

/-- An import claims 128 chunks, and ends after the first chunk group. -/
def first128 : BaoStream HashTerm where
  size := 131072
  items := [parentAt 128 [], parentAt 128 [false], parentAt 128 [false, false], zeros 0 16384]

/-- An import of the last chunk group. -/
def last68 : BaoStream HashTerm where
  size := 69632
  items := [parentAt 68 [], zeros 65536 4096]

private theorem leaf_mem_first128 {leaf : Leaf} : .leaf leaf ∈ first128.items ↔ leaf = ⟨0, List.replicate 16384 0⟩ := by
  simp only [first128, zeros, parentAt, List.mem_cons, BaoContentItem.leaf.injEq, reduceCtorEq,
    List.not_mem_nil, or_false, false_or]

private theorem leaf_mem_last68 {leaf : Leaf} : .leaf leaf ∈ last68.items ↔ leaf = ⟨65536, List.replicate 4096 0⟩ := by
  simp only [last68, zeros, parentAt, List.mem_cons, BaoContentItem.leaf.injEq, reduceCtorEq,
    List.not_mem_nil, or_false, false_or]

private theorem isStream_threeStreams : ∀ st ∈ [first128, last68, whole68], IsStream blob68 st := by
  intro st hst
  simp only [List.mem_cons, List.not_mem_nil, or_false] at hst
  rcases hst with rfl | rfl | rfl
  · refine ⟨?_, _, leaf_mem_first128.mpr rfl⟩
    intro leaf hleaf
    obtain rfl := leaf_mem_first128.mp hleaf
    exact isLeaf_zeros (by decide) (by decide) (by decide) (by decide) (Or.inl (by decide)) (Or.inr (by decide))
  · refine ⟨?_, _, leaf_mem_last68.mpr rfl⟩
    intro leaf hleaf
    obtain rfl := leaf_mem_last68.mp hleaf
    exact isLeaf_zeros (by decide) (by decide) (by decide) (by decide) (Or.inl (by decide)) (Or.inl rfl)
  · exact isStream_whole68

private def pairWrite (offset : Nat) (path : List Bool) : Nat × List HashTerm :=
  (2 * offset, [(pairAt termHash blob68 path).1, (pairAt termHash blob68 path).2])

private theorem writes_parentAt {size n : Nat} {path : List Bool} (hn : treeChunks size = n) (hpath : IsPath 1 n path)
    (hlt : 16 < (sub n path).2) : memOutboardWrites size (parentAt n path) = [pairWrite (slot n path) path] := by
  subst hn
  simp only [memOutboardWrites, parentAt, preOrderOffset_node hpath hlt]
  rfl

private theorem writes_threeStreams : (allItems [first128, last68, whole68]).flatMap
    (fun p => memOutboardWrites p.1 p.2) =
    [pairWrite 0 [], pairWrite 1 [false], pairWrite 2 [false, false], pairWrite 0 [], pairWrite 0 [],
      pairWrite 1 [false],
      pairWrite 2 [false, false], pairWrite 3 [false, true]] := by
  have hleaf : ∀ size offset len, memOutboardWrites size (zeros offset len) = [] := fun _ _ _ => rfl
  have h128 : ∀ {path : List Bool}, IsPath 1 128 path → 16 < (sub 128 path).2 →
      memOutboardWrites 131072 (parentAt 128 path) = [pairWrite (slot 128 path) path] :=
    fun hpath hlt => writes_parentAt (by decide) hpath hlt
  have h68 : ∀ {path : List Bool}, IsPath 1 68 path → 16 < (sub 68 path).2 →
      memOutboardWrites 69632 (parentAt 68 path) = [pairWrite (slot 68 path) path] :=
    fun hpath hlt => writes_parentAt (by decide) hpath hlt
  simp only [allItems, first128, last68, whole68, List.flatMap_cons, List.flatMap_nil, List.map_cons, List.map_nil,
    List.cons_append, List.nil_append, List.append_nil, hleaf]
  rw [h128 (by decide) (by decide), h128 (by decide) (by decide), h128 (by decide) (by decide),
    h68 (by decide) (by decide), h68 (by decide) (by decide), h68 (by decide) (by decide), h68 (by decide) (by decide)]
  rfl

/-- The pairs are written next to each other, so there is no gap at any time. -/
private theorem completesWithoutGaps_threeStreams :
    CompletesWithoutGaps blob68.length (allItems [first128, last68, whole68]) := by
  intro before item after heq _ _
  have hadjoins : Content.Adjoins 0 ((allItems [first128, last68, whole68]).flatMap
    (fun p => memOutboardWrites p.1 p.2)) := by
    rw [writes_threeStreams]
    simp [Content.Adjoins, pairWrite]
  have hsub : before.flatMap (fun p => memOutboardWrites p.1 p.2) <+:
      (allItems [first128, last68, whole68]).flatMap (fun p => memOutboardWrites p.1 p.2) := by
    rw [heq, List.flatMap_append]
    exact List.prefix_append _ _
  exact Content.NoGaps.writes (fun i hi => absurd hi (Nat.not_lt_zero i)) (Nat.le_refl 0) (hadjoins.of_prefix hsub)

/-- A cut stream with a wrong size, a stream of the last chunk group, and a whole stream, which completes the entry
before its last leaf. -/
theorem import_alike_iff_threeStreams :
    CompletesWithoutGaps blob68.length (allItems [first128, last68, whole68]) ∧
      Alike (importAll memImport (.partialEntry .default) [first128, last68, whole68])
        (importAll (fsImport ⟨16384, 16384⟩) .nonExisting [first128, last68, whole68]) := by
  have hgaps := completesWithoutGaps_threeStreams
  exact ⟨hgaps, (import_alike_iff blob68 _ ⟨16384, 16384⟩ isStream_threeStreams).mpr hgaps⟩

/-! ### A gap in the outboard -/

/-- An import claims 128 chunks, and ends after the pairs of the last four chunks. -/
def claimed128 : BaoStream HashTerm where
  size := 131072
  items := [parentAt 128 [], parentAt 128 [false], parentAt 128 [false, false], zeros 0 16384, parentAt 128 [true],
    parentAt 128 [true, true]]

private theorem leaf_mem_claimed128 {leaf : Leaf} :
    .leaf leaf ∈ claimed128.items ↔ leaf = ⟨0, List.replicate 16384 0⟩ := by
  simp only [claimed128, zeros, parentAt, List.mem_cons, BaoContentItem.leaf.injEq, reduceCtorEq,
    List.not_mem_nil, or_false, false_or]

private theorem isStream_claimed128 : IsStream blob68 claimed128 := by
  refine ⟨?_, _, leaf_mem_claimed128.mpr rfl⟩
  intro leaf hleaf
  obtain rfl := leaf_mem_claimed128.mp hleaf
  exact isLeaf_zeros (by decide) (by decide) (by decide) (by decide) (Or.inl (by decide)) (Or.inr (by decide))

private theorem mem_zeros {offset len x : Nat} :
    x ∈ chunkRange ⟨offset, List.replicate len 0⟩ ↔ chunks offset ≤ x ∧ x < chunks (offset + len) := by
  rw [mem_range_leaf, List.length_replicate]

/-- All items but the last leaf. -/
private def beforeLast : List (Nat × BaoContentItem HashTerm) :=
  sized 131072 claimed128.items ++ sized 69632 whole68.items.dropLast

private theorem allItems_beforeLast : allItems [claimed128, whole68] = beforeLast ++ [(69632, zeros 65536 4096)] := rfl

private theorem not_covers_beforeLast : ¬ Covers 69632 beforeLast := by
  intro hcovers
  obtain ⟨size, leaf, hmem, hx⟩ := hcovers 67 (by decide)
  simp only [beforeLast, claimed128, whole68, zeros, parentAt, sized, List.dropLast, List.map_cons, List.map_nil,
    List.cons_append, List.nil_append, List.mem_cons, Prod.mk.injEq, BaoContentItem.leaf.injEq, reduceCtorEq,
    List.not_mem_nil, and_false, or_false, false_or] at hmem
  rcases hmem with ⟨-, rfl⟩ | ⟨-, rfl⟩ | ⟨-, rfl⟩ | ⟨-, rfl⟩ | ⟨-, rfl⟩
  all_goals
    rw [mem_zeros] at hx
    revert hx
    decide

private theorem covers_allItems : Covers 69632 (allItems [claimed128, whole68]) := by
  have hmem : ∀ leaf, .leaf leaf ∈ whole68.items → (69632, .leaf leaf) ∈ allItems [claimed128, whole68] := by
    intro leaf hleaf
    apply List.mem_flatMap.mpr
    exact ⟨whole68, by simp, List.mem_map.mpr ⟨_, hleaf, rfl⟩⟩
  -- the leaves from one chunk to another
  have hcovered : ∀ {offset len first last x : Nat}, .leaf ⟨offset, List.replicate len 0⟩ ∈ whole68.items →
      chunks offset = first → chunks (offset + len) = last → first ≤ x → x < last →
        ∃ size leaf, (size, .leaf leaf) ∈ allItems [claimed128, whole68] ∧ x ∈ chunkRange leaf := by
    rintro offset len first last x hleaf rfl rfl h1 h2
    exact ⟨_, _, hmem _ hleaf, mem_zeros.mpr ⟨h1, h2⟩⟩
  have hchunks : chunks 69632 = 68 := by decide
  intro x hx
  by_cases h16 : x < 16
  · exact hcovered (leaf_mem_whole68.mpr (Or.inl rfl)) (by decide) (by decide) (Nat.zero_le x) h16
  by_cases h32 : x < 32
  · exact hcovered (leaf_mem_whole68.mpr (Or.inr (Or.inl rfl))) (by decide) (by decide) (Nat.le_of_not_lt h16) h32
  by_cases h48 : x < 48
  · exact hcovered (leaf_mem_whole68.mpr (Or.inr (Or.inr (Or.inl rfl)))) (by decide) (by decide)
      (Nat.le_of_not_lt h32) h48
  by_cases h64 : x < 64
  · exact hcovered (leaf_mem_whole68.mpr (Or.inr (Or.inr (Or.inr (Or.inl rfl))))) (by decide) (by decide)
      (Nat.le_of_not_lt h48) h64
  · exact hcovered (leaf_mem_whole68.mpr (Or.inr (Or.inr (Or.inr (Or.inr rfl))))) (by decide) hchunks
      (Nat.le_of_not_lt h64) (by omega)

/-- The pair at `[true, true]` is written behind the slot of `[true, false]`. -/
private theorem writes_beforeLast : beforeLast.flatMap (fun p => memOutboardWrites p.1 p.2) =
    [pairWrite 0 [], pairWrite 1 [false], pairWrite 2 [false, false], pairWrite 4 [true], pairWrite 6 [true, true],
      pairWrite 0 [], pairWrite 1 [false], pairWrite 2 [false, false], pairWrite 3 [false, true]] := by
  have hleaf : ∀ size offset len, memOutboardWrites size (zeros offset len) = [] := fun _ _ _ => rfl
  have h128 : ∀ {path : List Bool}, IsPath 1 128 path → 16 < (sub 128 path).2 →
      memOutboardWrites 131072 (parentAt 128 path) = [pairWrite (slot 128 path) path] :=
    fun hpath hlt => writes_parentAt (by decide) hpath hlt
  have h68 : ∀ {path : List Bool}, IsPath 1 68 path → 16 < (sub 68 path).2 →
      memOutboardWrites 69632 (parentAt 68 path) = [pairWrite (slot 68 path) path] :=
    fun hpath hlt => writes_parentAt (by decide) hpath hlt
  simp only [beforeLast, sized, claimed128, whole68, List.dropLast, List.map_cons, List.map_nil, List.cons_append,
    List.nil_append, List.flatMap_cons, List.flatMap_nil, hleaf]
  rw [h128 (by decide) (by decide), h128 (by decide) (by decide), h128 (by decide) (by decide),
    h128 (by decide) (by decide), h128 (by decide) (by decide), h68 (by decide) (by decide),
      h68 (by decide) (by decide), h68 (by decide) (by decide),
    h68 (by decide) (by decide)]
  rfl

private theorem gaps_beforeLast : ¬ (outboardOf beforeLast).NoGaps := by
  intro hnoGaps
  rw [outboardOf, writes_beforeLast] at hnoGaps
  have hcell := hnoGaps 10 ?_
  · simp only [Content.writes_cons, Content.writes_nil, Content.cell_write, pairWrite, List.length_cons,
      List.length_nil] at hcell
    simp [Content.empty] at hcell
  · -- the pair at `[true, true]` ends at 14
    refine lt_of_lt_of_le ?_ ((Content.le_len_writes _ _).2 (pairWrite 6 [true, true]) (by simp) (by simp [pairWrite]))
    decide

/-- Both imports are streams for the blob, and all pairs are pairs of the blob.  The memory store panics. -/
theorem not_import_alike_gap :
    ¬ ∀ (blob : List UInt8) (sts : List (BaoStream HashTerm)) (options : InlineOptions),
      (∀ st ∈ sts, IsStream blob st) →
      Alike (importAll memImport (.partialEntry .default) sts) (importAll (fsImport options) .nonExisting sts) := by
  intro h
  have hlen : blob68.length = 69632 := List.length_replicate
  have hsts : ∀ st ∈ [claimed128, whole68], IsStream blob68 st := by
    intro st hst
    simp only [List.mem_cons, List.not_mem_nil, or_false] at hst
    rcases hst with rfl | rfl
    · exact isStream_claimed128
    · exact isStream_whole68
  apply not_alike_of_gaps (by rw [hlen]; decide) hsts ⟨0, 0⟩ ?_ (h blob68 _ ⟨0, 0⟩ hsts)
  rw [hlen]
  intro hgaps
  apply gaps_beforeLast
  refine hgaps beforeLast _ [] allItems_beforeLast not_covers_beforeLast ?_
  rw [← allItems_beforeLast]
  exact covers_allItems

end ImportAlike

end IrohBlobs
