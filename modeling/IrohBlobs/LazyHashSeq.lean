import IrohBlobs.ExportSound
import IrohBlobs.FsExport

/-!
# Reading a hash sequence by chunks

Two ways to read the hashes of a stored hash sequence without reading all of it.  `hashes_with_index` of
`api/blobs.rs` reads the leaves of any export, and gives exactly the hashes that lie in them
(`exactHashes_of_pieces`).  `LazyHashSeq` of `api/remote.rs` reads the chunk of a hash with `export_chunk` of
`api/blobs.rs`, and keeps the last chunk that it found a hash in.

The chunk has the offset of its first hash in bytes, and `HashSeqChunk::get` compares it with the index of a hash.  So
no hash after the first chunk is found, and indices beyond the end may be taken for hashes of a later chunk
(`reads_exact_iff`).
-/

namespace IrohBlobs

open Merkle BaoTree Provable ImportBao

/-! ### The source -/

namespace HashSeqChunk

/-- The hash at an offset. -/
def get (c : HashSeqChunk) (offset : Nat) : Option Hash :=
  let start := c.offset
  let stop := start + c.chunk.len
  if start ≤ offset ∧ offset < stop then c.chunk.get (offset - start) else none

/-- The hashes of a chunk with their indices, as `hashes_with_index` gives them. -/
def hashes (c : HashSeqChunk) : List (Nat × Hash) := c.chunk.iter.zipIdx.map (fun p => (c.base + p.2, p.1))

end HashSeqChunk

/-- The errors met while a hash is read from its chunk. -/
inductive HashReadError
  | encode (cause : EncodeError)
  | unexpectedEnd
  | invalidHashSequence
  | panicked
  deriving DecidableEq

/-- The loop of `export_chunk`: the first leaf of the stream. -/
def firstLeaf : List (EncodedItem Hash) → Except HashReadError Leaf
  | .leaf leaf :: _ => .ok leaf
  | .parent _ :: rest => firstLeaf rest
  | .size _ :: rest => firstLeaf rest
  | .done :: _ => .error .unexpectedEnd
  | .error cause :: _ => .error (.encode cause)
  | [] => .error .unexpectedEnd

/-- Export a single chunk from the given hash, at the given offset. -/
def exportChunk (exportBao : Hash → ChunkRanges → ExportBaoProgress) (hash : Hash) (offset : Nat) :
    Except HashReadError Leaf :=
  let base := offset / 1024
  firstLeaf (stream (exportBao hash (RangeSet.range base (base + 1))))

structure LazyHashSeq where
  blobs : Hash → ChunkRanges → ExportBaoProgress
  hash : Hash
  currentChunk : Option HashSeqChunk

namespace LazyHashSeq

def new (blobs : Hash → ChunkRanges → ExportBaoProgress) (hash : Hash) : LazyHashSeq := ⟨blobs, hash, none⟩

/-- The offset of a hash in bytes, in `u64`.  Without overflow checks the product wraps. -/
def byteOffset (checked : Bool) (childOffset : Nat) : Except HashReadError Nat :=
  if 2 ^ 64 ≤ childOffset * 32 ∧ checked = true then .error .panicked else .ok (childOffset * 32 % 2 ^ 64)

/-- Load the chunk covering the offset. -/
def load (checked : Bool) (s : LazyHashSeq) (childOffset : Nat) : Except HashReadError HashSeqChunk :=
  match byteOffset checked childOffset with
  | .error e => .error e
  | .ok offset =>
    match exportChunk s.blobs s.hash offset with
    | .error e => .error e
    | .ok leaf =>
      match HashSeqChunk.tryFrom leaf with
      | some hs => .ok hs
      | none => .error .invalidHashSequence

def get (checked : Bool) (s : LazyHashSeq) (childOffset : Nat) : Except HashReadError (Option Hash) × LazyHashSeq :=
  -- check if we have the hash in the current chunk
  match s.currentChunk.bind (fun chunk => chunk.get childOffset) with
  | some hash => (.ok (some hash), s)
  | none =>
    match s.load checked childOffset with
    | .error e => (.error e, s)
    | .ok hs =>
      -- return the hash if it is in the chunk, otherwise we are behind the end
      match hs.get childOffset with
      | some hash => (.ok (some hash), { s with currentChunk := some hs })
      | none => (.ok none, s)

/-- The answers to one index after the other. -/
def answers (checked : Bool) : LazyHashSeq → List Nat → List (Except HashReadError (Option Hash))
  | _, [] => []
  | s, index :: indices => (s.get checked index).1 :: answers checked (s.get checked index).2 indices

end LazyHashSeq

/-! ### What an export sends -/

/-- The leaves of an export. -/
def leavesOf (items : List (EncodedItem Hash)) : List Leaf :=
  items.filterMap (fun | .leaf leaf => some leaf | _ => none)

theorem mem_leavesOf {items : List (EncodedItem Hash)} {leaf : Leaf} : leaf ∈ leavesOf items ↔ .leaf leaf ∈ items := by
  simp only [leavesOf, List.mem_filterMap]
  constructor
  · rintro ⟨item, hmem, hitem⟩
    cases item with
    | leaf leaf' =>
      cases hitem
      exact hmem
    | size n => cases hitem
    | parent p => cases hitem
    | error e => cases hitem
    | done => cases hitem
  · intro hmem
    exact ⟨.leaf leaf, hmem, rfl⟩

/-- A leaf with the stored data of the chunks from `first` to before `stop`. -/
structure LeafOf (src : ExportSource Hash) (leaf : Leaf) (first stop : Nat) : Prop where
  lt : first < stop
  le : stop ≤ treeChunks src.size
  offset : leaf.offset = first * 1024
  length : leaf.data.length = min ((stop - first) * 1024) (src.size - first * 1024)
  data : ∀ i, i < leaf.data.length → src.data.cell (leaf.offset + i) = leaf.data[i]?

/-- The items of an export that ends well: the size, then parents and leaves, then `Done`.  The leaves have the chunks
that are selected, in order. -/
structure SendsSelected (src : ExportSource Hash) (ranges : ChunkRanges) (items : List (EncodedItem Hash)) : Prop where
  shape : ∃ body, items = .size src.size :: body ++ [.done] ∧
    ∀ item ∈ body, (∃ parent, item = .parent parent) ∨ ∃ leaf, item = .leaf leaf
  selected : ∀ leaf, .leaf leaf ∈ items → ∃ first stop, LeafOf src leaf first stop ∧
    ∀ c, first ≤ c → c < stop → ∃ x ∈ ranges, src.selected x = c
  sent : ∀ x ∈ ranges, ∃ leaf, .leaf leaf ∈ items
  ordered : (leavesOf items).Pairwise (fun a b => a.offset + a.data.length ≤ b.offset)

/-- What is documented of the traversal: it sends what is selected if everything that it compares is equal. -/
def TraversesSelected (f : HashFns UInt8 Hash) (traverse : ExportSource Hash → ChunkRanges → List (EncodedItem Hash)) :
    Prop :=
  ∀ src ranges, (∀ x ∈ ranges, src.Verifies f (src.selected x)) → SendsSelected src ranges (traverse src ranges)

/-! ### The hashes of a piece -/

section Part

variable {seq : HashSeq} {first stop : Nat} {hs : HashSeqChunk}

/-- The chunk of a hash sequence from the chunk `first` to before the chunk `stop`. -/
structure IsPart (seq : HashSeq) (first stop : Nat) (hs : HashSeqChunk) : Prop where
  offset : hs.offset = first * 1024
  bytes : hs.chunk.bytes = region seq.bytes first (stop - first)

theorem HashSeq.length_bytes (seq : HashSeq) : seq.bytes.length = seq.len * 32 := by
  have hmod := seq.length_mod
  unfold HashSeq.len
  omega

private theorem IsPart.len (h : IsPart seq first stop hs) :
    hs.chunk.len = min ((stop - first) * 32) (seq.len - first * 32) := by
  have hlen := seq.length_bytes
  rw [HashSeq.len, h.bytes, length_region]
  omega

private theorem IsPart.chunk_get (h : IsPart seq first stop hs) {j : Nat} (hj : j < hs.chunk.len) :
    hs.chunk.get j = seq.get (first * 32 + j) := by
  have hlen := h.len
  unfold HashSeq.get
  rw [dif_pos hj, dif_pos (by omega), Option.some.injEq, Hash.mk.injEq]
  simp only [HashSeq.hashAt, h.bytes, region]
  rw [List.drop_take, List.take_take, List.drop_drop, Nat.min_eq_left (by omega)]
  congr 2
  omega

private theorem HashSeq.get_eq_none {seq : HashSeq} {i : Nat} (h : seq.len ≤ i) : seq.get i = none := by
  unfold HashSeq.get
  exact dif_neg (by omega)

private theorem HashSeq.get_isSome {seq : HashSeq} {i : Nat} (h : i < seq.len) : (seq.get i).isSome = true := by
  unfold HashSeq.get
  rw [dif_pos h]
  rfl

private theorem HashSeq.lt_of_get {seq : HashSeq} {i : Nat} {hash : Hash}
    (h : seq.get i = some hash) : i < seq.len := by
  by_contra hle
  rw [HashSeq.get_eq_none (by omega)] at h
  cases h

/-- The hashes of a part are those of the sequence at the indices of the part. -/
private theorem IsPart.mem_hashes (h : IsPart seq first stop hs) (i : Nat) (hash : Hash) :
    (i, hash) ∈ hs.hashes ↔ seq.get i = some hash ∧ first * 32 ≤ i ∧ i < first * 32 + hs.chunk.len := by
  have hbase : hs.base = first * 32 := by
    rw [HashSeqChunk.base, h.offset]
    omega
  simp only [HashSeqChunk.hashes, List.mem_map, List.mem_zipIdx_iff_getElem?, HashSeq.getElem?_iter,
    hbase, Prod.mk.injEq]
  constructor
  · rintro ⟨⟨hash', j⟩, hget, rfl, rfl⟩
    have hj := HashSeq.lt_of_get hget
    rw [h.chunk_get hj] at hget
    exact ⟨hget, by omega, by omega⟩
  · rintro ⟨hget, hle, hlt⟩
    refine ⟨(hash, i - first * 32), ?_, by omega, rfl⟩
    rw [h.chunk_get (by omega), ← hget]
    congr 1
    omega

/-- The indices increase. -/
private theorem HashSeqChunk.pairwise_hashes (hs : HashSeqChunk) : hs.hashes.Pairwise (fun a b => a.1 < b.1) := by
  have hidx : hs.chunk.iter.zipIdx.Pairwise (fun a b => a.2 < b.2) := by
    rw [← List.pairwise_map (f := Prod.snd) (R := (· < ·)), List.zipIdx_map_snd]
    exact List.pairwise_lt_range'
  unfold HashSeqChunk.hashes
  rw [List.pairwise_map]
  exact hidx.imp (fun hlt => Nat.add_lt_add_left hlt _)

end Part

/-! ### Exports of a complete hash sequence -/

/-- The pairs of an index and a hash that lie in an exported leaf, in increasing order. -/
def ExactHashes (seq : HashSeq) (items : List (EncodedItem Hash))
    (hashes : List (Except HashesError (Nat × Hash))) : Prop :=
  ∃ pairs : List (Nat × Hash), hashes = pairs.map .ok ∧ pairs.Pairwise (fun a b => a.1 < b.1) ∧
    ∀ i hash, (i, hash) ∈ pairs ↔ seq.get i = some hash ∧
      ∃ leaf, .leaf leaf ∈ items ∧ leaf.offset ≤ i * 32 ∧ (i + 1) * 32 ≤ leaf.offset + leaf.data.length

/-- A leaf is a piece of the hash sequence. -/
def IsPiece (seq : HashSeq) (leaf : Leaf) (first stop : Nat) : Prop :=
  leaf.offset = first * 1024 ∧ leaf.data = region seq.bytes first (stop - first)

private theorem IsPiece.tryFrom {seq : HashSeq} {leaf : Leaf} {first stop : Nat} (h : IsPiece seq leaf first stop) :
    ∃ hs, HashSeqChunk.tryFrom leaf = some hs ∧ IsPart seq first stop hs ∧ leaf.data.length = hs.chunk.len * 32 := by
  obtain ⟨hoffset, hdata⟩ := h
  have hlen := seq.length_bytes
  have hmod : leaf.data.length % 32 = 0 := by
    rw [hdata, length_region]
    omega
  refine ⟨⟨leaf.offset, ⟨leaf.data, hmod⟩⟩, ?_, ⟨hoffset, hdata⟩, HashSeq.length_bytes ⟨leaf.data, hmod⟩⟩
  rw [HashSeqChunk.tryFrom, HashSeq.new, dif_pos hmod]
  rfl

/-- The hashes of one leaf. -/
def leafHashes (leaf : Leaf) : List (Nat × Hash) :=
  match HashSeqChunk.tryFrom leaf with
  | some hs => hs.hashes
  | none => []

theorem IsPiece.leafHashes_eq {seq : HashSeq} {leaf : Leaf} {first stop : Nat} (h : IsPiece seq leaf first stop) :
    hashesOfItem (.leaf leaf) = (leafHashes leaf).map .ok ∧ (leafHashes leaf).Pairwise (fun a b => a.1 < b.1) ∧
      ∀ i hash, (i, hash) ∈ leafHashes leaf ↔
        seq.get i = some hash ∧ leaf.offset ≤ i * 32 ∧ (i + 1) * 32 ≤ leaf.offset + leaf.data.length := by
  obtain ⟨hs, htry, hpart, hlen⟩ := h.tryFrom
  have hoffset := h.1
  simp only [leafHashes, hashesOfItem, htry]
  refine ⟨?_, hs.pairwise_hashes, fun i hash => ?_⟩
  · rw [HashSeqChunk.hashes, List.map_map]
    rfl
  · rw [hpart.mem_hashes, hlen, hoffset]
    exact and_congr_right (fun _ => by omega)

/-- `hashes_with_index` is exact on items whose leaves are pieces of the hash sequence in order. -/
private theorem exactHashes_of_pieces {seq : HashSeq} {items : List (EncodedItem Hash)} (herr : ∀ e, .error e ∉ items)
    (hpiece : ∀ leaf, .leaf leaf ∈ items → ∃ first stop, IsPiece seq leaf first stop)
    (hordered : (leavesOf items).Pairwise (fun a b => a.offset + a.data.length ≤ b.offset)) :
    ExactHashes seq items (hashesWithIndex (.ok items)) := by
  refine ⟨(leavesOf items).flatMap leafHashes, ?_, ?_, fun i hash => ?_⟩
  · -- the other items contribute nothing
    simp only [hashesWithIndex, stream]
    clear hordered
    induction items with
    | nil => rfl
    | cons item items ih =>
      have ih := ih (fun e hmem => herr e (List.mem_cons_of_mem _ hmem))
        (fun leaf hmem => hpiece leaf (List.mem_cons_of_mem _ hmem))
      rw [List.flatMap_cons, ih]
      cases item with
      | leaf leaf =>
        obtain ⟨first, stop, h⟩ := hpiece leaf List.mem_cons_self
        rw [h.leafHashes_eq.1, ← List.map_append]
        rfl
      | size n => rfl
      | parent p => rfl
      | done => rfl
      | error e => exact absurd List.mem_cons_self (herr e)
  · rw [List.pairwise_flatMap]
    constructor
    · intro leaf hmem
      obtain ⟨first, stop, h⟩ := hpiece leaf (mem_leavesOf.mp hmem)
      exact h.leafHashes_eq.2.1
    · refine hordered.imp_of_mem ?_
      intro a b ha hb hab x hx y hy
      obtain ⟨first, stop, h⟩ := hpiece a (mem_leavesOf.mp ha)
      obtain ⟨first', stop', h'⟩ := hpiece b (mem_leavesOf.mp hb)
      have h1 := ((h.leafHashes_eq.2.2 x.1 x.2).mp hx).2
      have h2 := ((h'.leafHashes_eq.2.2 y.1 y.2).mp hy).2
      omega
  · rw [List.mem_flatMap]
    constructor
    · rintro ⟨leaf, hmem, hin⟩
      obtain ⟨first, stop, h⟩ := hpiece leaf (mem_leavesOf.mp hmem)
      obtain ⟨hget, hle, hlt⟩ := (h.leafHashes_eq.2.2 i hash).mp hin
      exact ⟨hget, leaf, mem_leavesOf.mp hmem, hle, hlt⟩
    · rintro ⟨hget, leaf, hmem, hle, hlt⟩
      obtain ⟨first, stop, h⟩ := hpiece leaf hmem
      exact ⟨leaf, mem_leavesOf.mpr hmem, (h.leafHashes_eq.2.2 i hash).mpr ⟨hget, hle, hlt⟩⟩

section Stored

variable {f : HashFns UInt8 Hash} {traverse : ExportSource Hash → ChunkRanges → List (EncodedItem Hash)}
  {entries : Hash → BaoFileStorage Hash} {seq : HashSeq}

/-- The entry of the hash sequence is complete. -/
def IsStoredSeq (f : HashFns UInt8 Hash) (entries : Hash → BaoFileStorage Hash) (seq : HashSeq) : Prop :=
  ∃ s, entries (nodeHash f seq.bytes []) = .complete s ∧ s.size = seq.bytes.length ∧
    HasBitfield f seq.bytes s.data s.outboard s.bitfield

/-- `export_bao` of the file store. -/
def storeExportBao (f : HashFns UInt8 Hash) (traverse : ExportSource Hash → ChunkRanges → List (EncodedItem Hash))
    (entries : Hash → BaoFileStorage Hash) (hash : Hash) (ranges : ChunkRanges) : ExportBaoProgress :=
  .ok (exportBaoImpl traverse (nodeHash f [] []) hash (entries hash) ranges)

/-- Exports of a stored hash sequence send pieces of it. -/
theorem IsStoredSeq.export_pieces (hstored : IsStoredSeq f entries seq) (ht : TraversesSelected f traverse)
    (ranges : ChunkRanges) :
    ∃ items, storeExportBao f traverse entries (nodeHash f seq.bytes []) ranges = .ok items ∧ (∀ e, .error e ∉ items) ∧
      (∃ body, items = .size seq.bytes.length :: body ++ [.done] ∧
        ∀ item ∈ body, (∃ parent, item = .parent parent) ∨ ∃ leaf, item = .leaf leaf) ∧
      (∀ leaf, .leaf leaf ∈ items → ∃ first stop, IsPiece seq leaf first stop ∧ first < stop ∧
        ∀ c, first ≤ c → c < stop → ∃ x ∈ ranges, min x (treeChunks seq.bytes.length - 1) = c) ∧
      (∀ x ∈ ranges, ∃ leaf, .leaf leaf ∈ items) ∧
      (leavesOf items).Pairwise (fun a b => a.offset + a.data.length ≤ b.offset) := by
  obtain ⟨s, hentry, hsize, hbits⟩ := hstored
  obtain ⟨hshape, hselected, hsent, hordered⟩ := ht ⟨s.size, nodeHash f seq.bytes [], s.data, s.outboard⟩ ranges
    (fun x _ => verifies_complete hbits hsize x)
  have hexport : storeExportBao f traverse entries (nodeHash f seq.bytes []) ranges =
      .ok (traverse ⟨s.size, nodeHash f seq.bytes [], s.data, s.outboard⟩ ranges) := by
    rw [storeExportBao, exportBaoImpl, hentry]
    simp only [BaoFileStorage.source]
    rw [if_neg]
    rintro ⟨hzero, hne⟩
    -- only the empty blob has size zero
    exact hne (by rw [List.length_eq_zero_iff.mp (hsize.symm.trans hzero)])
  refine ⟨_, hexport, ?_, ?_, ?_, hsent, hordered⟩
  · intro e hmem
    obtain ⟨body, heq, hbody⟩ := hshape
    rw [heq] at hmem
    rcases List.mem_append.mp hmem with hmem | hmem
    · rcases List.mem_cons.mp hmem with h | hmem
      · cases h
      · rcases hbody _ hmem with ⟨parent, h⟩ | ⟨leaf, h⟩
        · cases h
        · cases h
    · cases List.mem_singleton.mp hmem
  · rw [← hsize]
    exact hshape
  · intro leaf hmem
    obtain ⟨first, stop, hleaf, hsel⟩ := hselected leaf hmem
    have hlt := hleaf.lt
    have hle := hleaf.le
    have hlen := hleaf.length
    simp only [ExportSource.selected, hsize] at hle hlen hsel
    refine ⟨first, stop, ⟨hleaf.offset, ?_⟩, hlt, hsel⟩
    apply List.ext_getElem?
    intro i
    by_cases hi : i < leaf.data.length
    · -- the stored data is that of the blob
      have htree : treeChunks seq.bytes.length = max 1 (chunks seq.bytes.length) := rfl
      have hchunks : chunks seq.bytes.length = (seq.bytes.length + 1023) / 1024 := rfl
      have hcell := (hbits ((first * 1024 + i) / 1024) (RangeSet.mem_all _) (by omega)).data (first * 1024 + i)
        (by omega) (by omega) (by omega)
      rw [← hleaf.data i hi, hleaf.offset, getElem?_region, if_pos (by omega)]
      exact hcell
    · rw [List.getElem?_eq_none (by omega), List.getElem?_eq_none (by rw [length_region]; omega)]

/-- The stream of an export starts with items up to the first leaf. -/
private theorem firstLeaf_of_shape (size : Nat) {body : List (EncodedItem Hash)}
    (hbody : ∀ item ∈ body, (∃ parent, item = .parent parent) ∨ ∃ leaf, item = .leaf leaf) {leaf : Leaf}
    (hmem : .leaf leaf ∈ body) (rest : List (EncodedItem Hash)) :
    ∃ first, firstLeaf (.size size :: body ++ rest) = .ok first ∧ .leaf first ∈ body := by
  simp only [List.cons_append, firstLeaf]
  induction body with
  | nil => cases hmem
  | cons item body ih =>
    rcases hbody item List.mem_cons_self with ⟨parent, rfl⟩ | ⟨leaf', rfl⟩
    · have hmem : .leaf leaf ∈ body := by
        rcases List.mem_cons.mp hmem with h | h
        · cases h
        · exact h
      obtain ⟨first, hfirst, hin⟩ := ih (fun item h => hbody item (List.mem_cons_of_mem _ h)) hmem
      exact ⟨first, hfirst, List.mem_cons_of_mem _ hin⟩
    · exact ⟨leaf', rfl, List.mem_cons_self⟩

/-- `export_chunk` gives the chunk of an offset, or the last chunk for offsets behind it. -/
private theorem IsStoredSeq.exportChunk (hstored : IsStoredSeq f entries seq)
    (ht : TraversesSelected f traverse) (offset : Nat) :
    ∃ leaf, exportChunk (storeExportBao f traverse entries) (nodeHash f seq.bytes []) offset = .ok leaf ∧
      IsPiece seq leaf (min (offset / 1024) ((seq.len - 1) / 32)) (min (offset / 1024) ((seq.len - 1) / 32) + 1) := by
  obtain ⟨items, hexport, -, ⟨body, hitems, hbody⟩, hpiece, hsent, -⟩ :=
    hstored.export_pieces ht (RangeSet.range (offset / 1024) (offset / 1024 + 1))
  obtain ⟨leaf, hleaf⟩ := hsent (offset / 1024) (RangeSet.mem_range.mpr ⟨Nat.le_refl _, Nat.lt_succ_self _⟩)
  have hmem : .leaf leaf ∈ body := by
    rw [hitems] at hleaf
    simpa using hleaf
  obtain ⟨leaf', hfirst, hmem'⟩ := firstLeaf_of_shape seq.bytes.length hbody hmem [.done]
  obtain ⟨first, stop, his, hlt, hsel⟩ := hpiece leaf' (by rw [hitems]; simp [hmem'])
  have hlast : treeChunks seq.bytes.length - 1 = (seq.len - 1) / 32 := by
    have hlen := seq.length_bytes
    have htree : treeChunks seq.bytes.length = max 1 ((seq.bytes.length + 1023) / 1024) := rfl
    omega
  -- only one chunk is selected
  have hone : ∀ c, first ≤ c → c < stop → c = min (offset / 1024) ((seq.len - 1) / 32) := by
    intro c h1 h2
    obtain ⟨x, hx, hc⟩ := hsel c h1 h2
    rw [RangeSet.mem_range] at hx
    omega
  have hfirst' := hone first (Nat.le_refl _) hlt
  have hstop := hone (stop - 1) (by omega) (by omega)
  refine ⟨leaf', ?_, ?_⟩
  · rw [IrohBlobs.exportChunk]
    simp only [hexport, stream, hitems]
    exact hfirst
  · rw [← hfirst', show first + 1 = stop by omega]
    exact his

/-! ### Reading single hashes -/

namespace LazyHashSeq

/-- The chunk that is read for an index: that of its offset in bytes, or the last one. -/
def chunkOf (len index : Nat) : Nat := min (index * 32 % 2 ^ 64 / 1024) ((len - 1) / 32)

/-- The index lies in the chunk if it is taken for an offset in bytes. -/
def InChunk (len chunk index : Nat) : Prop := chunk * 1024 ≤ index ∧ index < chunk * 1024 + min 32 (len - chunk * 32)

instance (len chunk index : Nat) : Decidable (InChunk len chunk index) := inferInstanceAs (Decidable (_ ∧ _))

/-- What `get` answers, whatever was asked before. -/
def answer (checked : Bool) (seq : HashSeq) (index : Nat) : Except HashReadError (Option Hash) :=
  if 2 ^ 64 ≤ index * 32 ∧ checked = true then .error .panicked
  else .ok (if InChunk seq.len (chunkOf seq.len index) index then
    seq.get (chunkOf seq.len index * 32 + (index - chunkOf seq.len index * 1024)) else none)

private theorem get_part {chunk : Nat} {hs : HashSeqChunk} (h : IsPart seq chunk (chunk + 1) hs) (index : Nat) :
    hs.get index = if InChunk seq.len chunk index then seq.get (chunk * 32 + (index - chunk * 1024)) else none := by
  have hlen : hs.chunk.len = min 32 (seq.len - chunk * 32) := by
    rw [h.len]
    congr 1
    omega
  unfold HashSeqChunk.get
  simp only [h.offset, hlen]
  by_cases hin : InChunk seq.len chunk index
  · have hlt : index - chunk * 1024 < hs.chunk.len := by
      unfold InChunk at hin
      omega
    rw [if_pos hin]
    exact (if_pos hin).trans (h.chunk_get hlt)
  · rw [if_neg hin]
    exact if_neg hin

/-- A part that has a hash for an index has the index in it. -/
private theorem inChunk_of_get {chunk index : Nat} {hs : HashSeqChunk} {hash : Hash}
    (h : IsPart seq chunk (chunk + 1) hs)
    (hget : hs.get index = some hash) : InChunk seq.len chunk index := by
  rw [get_part h] at hget
  split at hget
  · assumption
  · cases hget

/-- The indices that are taken for offsets in one chunk have the same chunk, and all or none of them overflow. -/
private theorem chunkOf_congr {len chunk i j : Nat} (hi : InChunk len chunk i) (hj : InChunk len chunk j) :
    chunkOf len i = chunkOf len j ∧ (2 ^ 64 ≤ i * 32 ↔ 2 ^ 64 ≤ j * 32) := by
  unfold InChunk chunkOf at *
  have hdiv : i / 32 = j / 32 := by omega
  constructor
  · have hbyte : ∀ x, x * 32 % 2 ^ 64 / 1024 = x / 32 % 2 ^ 54 := by
      intro x
      omega
    rw [hbyte, hbyte, hdiv]
  · omega

/-- The current chunk answers as the store does. -/
structure Agrees (checked : Bool) (f : HashFns UInt8 Hash)
    (traverse : ExportSource Hash → ChunkRanges → List (EncodedItem Hash))
    (entries : Hash → BaoFileStorage Hash) (seq : HashSeq) (s : LazyHashSeq) : Prop where
  blobs : s.blobs = storeExportBao f traverse entries
  hash : s.hash = nodeHash f seq.bytes []
  current : ∀ chunk index hash, s.currentChunk = some chunk → chunk.get index = some hash →
    answer checked seq index = .ok (some hash)

private theorem agrees_new (checked : Bool) :
    Agrees checked f traverse entries seq (new (storeExportBao f traverse entries) (nodeHash f seq.bytes [])) where
  blobs := rfl
  hash := rfl
  current chunk index hash h _ := by cases h

private theorem load_eq {checked : Bool} {s : LazyHashSeq} (hstored : IsStoredSeq f entries seq)
    (ht : TraversesSelected f traverse)
    (h : Agrees checked f traverse entries seq s) {index : Nat} (hfits : ¬ (2 ^ 64 ≤ index * 32 ∧ checked = true)) :
    ∃ hs, s.load checked index = .ok hs ∧ IsPart seq (chunkOf seq.len index) (chunkOf seq.len index + 1) hs := by
  obtain ⟨leaf, hexport, hpiece⟩ := hstored.exportChunk ht (index * 32 % 2 ^ 64)
  obtain ⟨hs, htry, hpart, -⟩ := hpiece.tryFrom
  refine ⟨hs, ?_, hpart⟩
  rw [load, byteOffset, if_neg hfits]
  simp only [h.blobs, h.hash, hexport, htry]

/-- One call of `get`. -/
private theorem get_agrees {checked : Bool} {s : LazyHashSeq} (hstored : IsStoredSeq f entries seq)
    (ht : TraversesSelected f traverse) (h : Agrees checked f traverse entries seq s) (index : Nat) :
    (s.get checked index).1 = answer checked seq index ∧
      Agrees checked f traverse entries seq (s.get checked index).2 := by
  unfold get
  cases hcur : s.currentChunk.bind (fun chunk => chunk.get index) with
  | some hash =>
    obtain ⟨chunk, hchunk, hget⟩ := Option.bind_eq_some_iff.mp hcur
    exact ⟨(h.current chunk index hash hchunk hget).symm, h⟩
  | none =>
    by_cases hfits : 2 ^ 64 ≤ index * 32 ∧ checked = true
    · have hload : s.load checked index = .error .panicked := by
        rw [load, byteOffset, if_pos hfits]
      simp only [hload]
      exact ⟨by rw [answer, if_pos hfits], h⟩
    · obtain ⟨hs, hload, hpart⟩ := load_eq hstored ht h hfits
      have hanswer : answer checked seq index = .ok (hs.get index) := by
        rw [answer, if_neg hfits, get_part hpart]
      simp only [hload]
      cases hget : hs.get index with
      | none => exact ⟨by rw [hanswer, hget], h⟩
      | some hash =>
        refine ⟨by rw [hanswer, hget], ⟨h.blobs, h.hash, ?_⟩⟩
        intro chunk i hash' hchunk hi
        cases hchunk
        -- another index that lies in the chunk was answered from the same chunk
        obtain ⟨heq, hover⟩ := chunkOf_congr (inChunk_of_get hpart hi) (inChunk_of_get hpart hget)
        have hfits' : ¬ (2 ^ 64 ≤ i * 32 ∧ checked = true) := by
          rw [hover]
          exact hfits
        rw [answer, if_neg hfits', ← hi, heq, get_part hpart]

/-- The answers do not depend on what was asked before. -/
theorem answers_eq {checked : Bool} {s : LazyHashSeq} (hstored : IsStoredSeq f entries seq)
    (ht : TraversesSelected f traverse) (h : Agrees checked f traverse entries seq s) (indices : List Nat) :
    answers checked s indices = indices.map (answer checked seq) := by
  induction indices generalizing s with
  | nil => rfl
  | cons index indices ih =>
    obtain ⟨hanswer, hagrees⟩ := get_agrees hstored ht h index
    rw [answers, hanswer, ih hagrees]
    rfl

/-- The indices that are answered right: those of the first chunk, and those beyond the end that do not lie in the chunk
that is read for them, and for which the offset in bytes does not panic. -/
def Readable (checked : Bool) (len index : Nat) : Prop :=
  if index < len then index < 32
  else ¬ (2 ^ 64 ≤ index * 32 ∧ checked = true) ∧ ¬ InChunk len (chunkOf len index) index

instance (checked : Bool) (len index : Nat) : Decidable (Readable checked len index) :=
  inferInstanceAs (Decidable (if index < len then index < 32
    else ¬ (2 ^ 64 ≤ index * 32 ∧ checked = true) ∧ ¬ InChunk len (chunkOf len index) index))

private theorem answer_eq_iff {seq : HashSeq} (checked : Bool) (hlen : seq.bytes.length < 2 ^ 64) (index : Nat) :
    answer checked seq index = .ok (seq.get index) ↔ Readable checked seq.len index := by
  have hbytes := seq.length_bytes
  unfold answer Readable
  by_cases hlt : index < seq.len
  · rw [if_neg (by omega), if_pos hlt]
    have hsome := HashSeq.get_isSome hlt
    have hchunk : chunkOf seq.len index = index / 32 := by
      unfold chunkOf
      omega
    rw [hchunk]
    constructor
    · intro h
      by_contra hge
      rw [if_neg (by unfold InChunk; omega), Except.ok.injEq] at h
      rw [← h] at hsome
      cases hsome
    · intro h
      have hzero : index / 32 = 0 := by omega
      rw [hzero, if_pos (by unfold InChunk; omega), Nat.zero_mul, Nat.zero_add, Nat.sub_zero]
  · rw [if_neg hlt, HashSeq.get_eq_none (Nat.not_lt.mp hlt)]
    split
    · rename_i hpanic
      exact iff_of_false (by simp) (fun h => h.1 hpanic)
    · rename_i hfits
      rw [Except.ok.injEq]
      by_cases hin : InChunk seq.len (chunkOf seq.len index) index
      · -- a hash of a later chunk
        have hsome : (seq.get (chunkOf seq.len index * 32 + (index - chunkOf seq.len index * 1024))).isSome = true := by
          unfold InChunk at hin
          exact HashSeq.get_isSome (by omega)
        rw [if_pos hin]
        refine iff_of_false (fun hnone => ?_) (fun h => h.2 hin)
        rw [hnone] at hsome
        cases hsome
      · rw [if_neg hin]
        exact iff_of_true rfl ⟨hfits, hin⟩

private theorem answers_exact_iff (checked : Bool) (ht : TraversesSelected f traverse)
    (hlen : seq.bytes.length < 2 ^ 64)
    (hstored : IsStoredSeq f entries seq) (indices : List Nat) :
    (new (storeExportBao f traverse entries) (nodeHash f seq.bytes [])).answers checked indices =
        indices.map (fun index => .ok (seq.get index)) ↔
      ∀ index ∈ indices, Readable checked seq.len index := by
  rw [answers_eq hstored ht (agrees_new checked), List.map_inj_left]
  exact forall₂_congr (fun index _ => answer_eq_iff checked hlen index)

end LazyHashSeq

/-- Reading the hash sequence by chunks is exact: for all exports, and for the indices that are asked one after the
other. -/
structure ReadsExact (checked : Bool) (exportBao : Hash → ChunkRanges → ExportBaoProgress) (hash : Hash) (seq : HashSeq)
    (indices : List Nat) : Prop where
  hashes : ∀ ranges, ExactHashes seq (stream (exportBao hash ranges)) (hashesWithIndex (exportBao hash ranges))
  get : (LazyHashSeq.new exportBao hash).answers checked indices = indices.map (fun index => .ok (seq.get index))

private theorem ReadsExact.readable {checked : Bool} {indices : List Nat}
    (h : ReadsExact checked (storeExportBao f traverse entries) (nodeHash f seq.bytes []) seq indices)
    (ht : TraversesSelected f traverse) (hlen : seq.bytes.length < 2 ^ 64) (hstored : IsStoredSeq f entries seq) :
    ∀ index ∈ indices, LazyHashSeq.Readable checked seq.len index :=
  (LazyHashSeq.answers_exact_iff checked ht hlen hstored indices).mp h.get

/-- Exports are always read exactly.  Single hashes are found in the first chunk only, and indices beyond the end that
lie in the chunk that is read for them get a wrong hash. -/
theorem reads_exact_iff (checked : Bool) (ht : TraversesSelected f traverse) (hlen : seq.bytes.length < 2 ^ 64)
    (hstored : IsStoredSeq f entries seq) (indices : List Nat) :
    ReadsExact checked (storeExportBao f traverse entries) (nodeHash f seq.bytes []) seq indices ↔
      ∀ index ∈ indices, LazyHashSeq.Readable checked seq.len index := by
  constructor
  · intro h
    exact h.readable ht hlen hstored
  · intro h
    refine ⟨fun ranges => ?_, (LazyHashSeq.answers_exact_iff checked ht hlen hstored indices).mpr h⟩
    obtain ⟨items, hexport, herr, -, hpiece, -, hordered⟩ := hstored.export_pieces ht ranges
    rw [hexport]
    refine exactHashes_of_pieces herr (fun leaf hmem => ?_) hordered
    obtain ⟨first, stop, his, -⟩ := hpiece leaf hmem
    exact ⟨first, stop, his⟩

end Stored

/-! ### A traversal that sends single chunks -/

section SingleChunks

variable (pair : Nat → Nat → Hash × Hash) (leaf : Nat → Leaf) (sel : Nat → Bool)

/-- The selected chunks of the subtree with `m` chunks from `start`, and the parents above them. -/
def sendTree (start m : Nat) : List (EncodedItem Hash) :=
  if m ≤ 1 then
    if sel start then [.leaf (leaf start)] else []
  else if (List.range' start m).any sel then
    .parent ⟨2 * (start + left m) - 1, pair start m⟩ ::
      (sendTree start (left m) ++ sendTree (start + left m) (m - left m))
  else []
termination_by m
decreasing_by
  · exact left_lt (by omega)
  · have := left_pos m
    omega

private theorem sendTree_shape (start m : Nat) :
    ∀ item ∈ sendTree pair leaf sel start m, (∃ parent, item = .parent parent) ∨ ∃ leaf, item = .leaf leaf := by
  induction m using Nat.strong_induction_on generalizing start with
  | _ m ih =>
  intro item hitem
  rw [sendTree] at hitem
  split at hitem
  · split at hitem
    · exact Or.inr ⟨_, List.mem_singleton.mp hitem⟩
    · cases hitem
  · rename_i hm
    have hlt := left_lt (n := m) (by omega)
    have hpos := left_pos m
    split at hitem
    · rcases List.mem_cons.mp hitem with rfl | hitem
      · exact Or.inl ⟨_, rfl⟩
      · rcases List.mem_append.mp hitem with hitem | hitem
        · exact ih _ hlt _ item hitem
        · exact ih _ (by omega) _ item hitem
    · cases hitem

private theorem leavesOf_sendTree (start : Nat) {m : Nat} (hm : 0 < m) :
    leavesOf (sendTree pair leaf sel start m) = ((List.range' start m).filter sel).map leaf := by
  induction m using Nat.strong_induction_on generalizing start with
  | _ m ih =>
  rw [sendTree]
  split
  · rw [show m = 1 by omega, List.range'_one]
    cases hsel : sel start with
    | true => simp [leavesOf, hsel]
    | false => simp [leavesOf, hsel]
  · rename_i hone
    have hlt := left_lt (n := m) (by omega)
    have hpos := left_pos m
    split
    · have hsplit : List.range' start m = List.range' start (left m) ++ List.range' (start + left m) (m - left m) := by
        rw [List.range'_append_1]
        congr 1
        omega
      have hl := ih (left m) hlt start hpos
      have hr := ih (m - left m) (by omega) (start + left m) (by omega)
      rw [hsplit, List.filter_append, List.map_append, ← hl, ← hr]
      simp only [leavesOf, List.filterMap_cons, List.filterMap_append]
    · rename_i hany
      have hnone : (List.range' start m).filter sel = [] := by
        rw [List.filter_eq_nil_iff]
        intro c hc hsel
        exact hany (List.any_eq_true.mpr ⟨c, hc, hsel⟩)
      rw [hnone]
      rfl

end SingleChunks

/-- The chunk is exported for the ranges. -/
def isSelected (size : Nat) (ranges : ChunkRanges) (c : Nat) : Bool :=
  if c + 1 < treeChunks size then ranges.contains c else !(ranges ∩ RangeSet.rangeFrom c).isEmpty

/-- The stored bytes. -/
def storedBytes (src : ExportSource Hash) : List UInt8 := (List.range src.size).map (fun i => (src.data.cell i).getD 0)

/-- A traversal that sends each chunk on its own. -/
def traverseChunks (f : HashFns UInt8 Hash) (src : ExportSource Hash) (ranges : ChunkRanges) :
    List (EncodedItem Hash) :=
  let data := storedBytes src
  let pair start m := (hashSubtree f start (region data start (left m)) false,
    hashSubtree f (start + left m) (region data (start + left m) (m - left m)) false)
  .size src.size :: sendTree pair (fun c => ⟨c * 1024, region data c 1⟩) (isSelected src.size ranges) 0
    (treeChunks src.size) ++
    [.done]

private theorem isSelected_iff {src : ExportSource Hash} {ranges : ChunkRanges} {c : Nat}
    (hc : c < treeChunks src.size) :
    isSelected src.size ranges c = true ↔ ∃ x ∈ ranges, src.selected x = c := by
  unfold isSelected ExportSource.selected
  split
  · rw [← RangeSet.mem_iff]
    constructor
    · intro h
      exact ⟨c, h, by omega⟩
    · rintro ⟨x, hx, heq⟩
      rwa [show c = x by omega]
  · rw [Bool.not_eq_true', RangeSet.isEmpty_eq_false_iff]
    simp only [RangeSet.mem_inter, RangeSet.mem_rangeFrom]
    constructor
    · rintro ⟨x, hx, hle⟩
      exact ⟨x, hx, by omega⟩
    · rintro ⟨x, hx, heq⟩
      exact ⟨x, hx, by omega⟩

/-- The data of a chunk that verifies is stored. -/
theorem cell_of_verifies {f : HashFns UInt8 Hash} {src : ExportSource Hash} {c i : Nat} (h : src.Verifies f c)
    (hle : c * 1024 ≤ i) (hlt : i < (c + 1) * 1024) (hi : i < src.size) : (src.data.cell i).isSome = true := by
  obtain ⟨p, -, -, h1, h2, -, data, hlen, hcell, -⟩ := h
  have heq := hcell (i - (sub (treeChunks src.size) p).1 * 1024) (by omega)
  rw [show (sub (treeChunks src.size) p).1 * 1024 + (i - (sub (treeChunks src.size) p).1 * 1024) = i by omega] at heq
  rw [heq, List.getElem?_eq_getElem (by omega)]
  rfl

private theorem leafOf_chunk {f : HashFns UInt8 Hash} {src : ExportSource Hash} {c : Nat} (h : src.Verifies f c)
    (hc : c < treeChunks src.size) : LeafOf src ⟨c * 1024, region (storedBytes src) c 1⟩ c (c + 1) where
  lt := Nat.lt_succ_self c
  le := hc
  offset := rfl
  length := by simp [length_region, storedBytes]
  data i hi := by
    have hlen : (storedBytes src).length = src.size := by simp [storedBytes]
    simp only [length_region, hlen] at hi
    have hsome := cell_of_verifies h (i := c * 1024 + i) (by omega) (by omega) (by omega)
    obtain ⟨b, hb⟩ := Option.isSome_iff_exists.mp hsome
    simp only [getElem?_region]
    rw [if_pos (by omega), storedBytes, List.getElem?_map, List.getElem?_range (by omega), Option.map_some, hb]
    rfl

private theorem leavesOf_ends (size : Nat) (body : List (EncodedItem Hash)) :
    leavesOf (.size size :: body ++ [.done]) = leavesOf body := by
  simp [leavesOf]

private theorem traversesSelected_chunks (f : HashFns UInt8 Hash) : TraversesSelected f (traverseChunks f) := by
  intro src ranges hverifies
  have hpos : 0 < treeChunks src.size := by unfold treeChunks; omega
  have hleaves : leavesOf (traverseChunks f src ranges) =
      ((List.range' 0 (treeChunks src.size)).filter (isSelected src.size ranges)).map
        (fun c => ⟨c * 1024, region (storedBytes src) c 1⟩) :=
    (leavesOf_ends _ _).trans (leavesOf_sendTree _ _ _ 0 hpos)
  refine ⟨⟨_, rfl, sendTree_shape _ _ _ _ _⟩, ?_, ?_, ?_⟩
  · intro leaf hmem
    rw [← mem_leavesOf, hleaves] at hmem
    obtain ⟨c, hc, rfl⟩ := List.mem_map.mp hmem
    obtain ⟨hrange, hsel⟩ := List.mem_filter.mp hc
    have hlt : c < treeChunks src.size := by
      have := List.mem_range'_1.mp hrange
      omega
    obtain ⟨x, hx, heq⟩ := (isSelected_iff hlt).mp hsel
    refine ⟨c, c + 1, leafOf_chunk (heq ▸ hverifies x hx) hlt, fun c' h1 h2 => ⟨x, hx, by omega⟩⟩
  · intro x hx
    have hlt : src.selected x < treeChunks src.size := by
      unfold ExportSource.selected
      omega
    refine ⟨⟨src.selected x * 1024, region (storedBytes src) (src.selected x) 1⟩, ?_⟩
    rw [← mem_leavesOf, hleaves, List.mem_map]
    exact ⟨_, List.mem_filter.mpr ⟨List.mem_range'_1.mpr ⟨Nat.zero_le _, by omega⟩,
      (isSelected_iff hlt).mpr ⟨x, hx, rfl⟩⟩, rfl⟩
  · rw [hleaves, List.pairwise_map]
    refine (List.Pairwise.filter _ List.pairwise_lt_range').imp ?_
    intro a b hab
    simp only [length_region]
    omega

/-- A store with one complete hash sequence, which has one chunk group. -/
def seqEntries (seq : HashSeq) (hash : Hash) : BaoFileStorage Hash :=
  if hash = nodeHash firstByteHash seq.bytes [] then
    .complete ⟨⟨seq.bytes.length, fun i => seq.bytes[i]?⟩, seq.bytes.length, .empty⟩
  else .nonExisting

private theorem isStoredSeq_seqEntries {seq : HashSeq} (h : seq.bytes.length ≤ 16384) :
    IsStoredSeq firstByteHash (seqEntries seq) seq := by
  refine ⟨_, if_pos rfl, rfl, fun x _ hx => ⟨fun i _ _ _ => rfl, ?_⟩⟩
  -- there are no pairs in a tree with one chunk group
  intro p hp
  have hlt := hp.2
  have hle := (sub_bounds (by unfold treeChunks; omega) (hp.1.mono (k := 1) (by omega))).2
  have hchunks : treeChunks seq.bytes.length = max 1 ((seq.bytes.length + 1023) / 1024) := rfl
  omega

/-- Different hashes. -/
def seqOf (n : Nat) : HashSeq := .ofHashes ((List.range n).map (fun i => .replicate (UInt8.ofNat i)))

theorem reads_exact_oneChunk :
    ReadsExact true (storeExportBao firstByteHash (traverseChunks firstByteHash) (seqEntries (seqOf 2)))
      (nodeHash firstByteHash (seqOf 2).bytes []) (seqOf 2) [1, 2, 0, 40] := by
  refine (reads_exact_iff true (traversesSelected_chunks firstByteHash) (by decide)
    (isStoredSeq_seqEntries (by decide)) [1, 2, 0, 40]).mpr ?_
  intro index hindex
  have hlen : (seqOf 2).len = 2 := by decide
  simp only [List.mem_cons, List.not_mem_nil, or_false] at hindex
  rw [hlen]
  rcases hindex with rfl | rfl | rfl | rfl <;> decide

/-- The hash after the first chunk is not found, and an index far beyond the end gets that hash. -/
theorem not_reads_exact_secondChunk :
    ((LazyHashSeq.new (storeExportBao firstByteHash (traverseChunks firstByteHash) (seqEntries (seqOf 33)))
          (nodeHash firstByteHash (seqOf 33).bytes [])).answers true [32, 1024] =
            [.ok none, .ok (some (.replicate 32))] ∧
        (seqOf 33).get 32 = some (.replicate 32) ∧ (seqOf 33).get 1024 = none) ∧
      ¬ ReadsExact true (storeExportBao firstByteHash (traverseChunks firstByteHash) (seqEntries (seqOf 33)))
        (nodeHash firstByteHash (seqOf 33).bytes []) (seqOf 33) [32] ∧
      ¬ ReadsExact true (storeExportBao firstByteHash (traverseChunks firstByteHash) (seqEntries (seqOf 33)))
        (nodeHash firstByteHash (seqOf 33).bytes []) (seqOf 33) [1024] := by
  have ht := traversesSelected_chunks firstByteHash
  have hlen : (seqOf 33).len = 33 := by
    rw [← HashSeq.length_iter, seqOf, HashSeq.iter_ofHashes]
    rfl
  have hbytes := (seqOf 33).length_bytes
  have hstored : IsStoredSeq firstByteHash (seqEntries (seqOf 33)) (seqOf 33) := isStoredSeq_seqEntries (by omega)
  have hlast : (seqOf 33).get 32 = some (.replicate 32) := HashSeq.get_ofHashes _ 32
  have hnone : (seqOf 33).get 1024 = none := HashSeq.get_ofHashes _ 1024
  generalize seqOf 33 = seq at *
  have hfits : seq.bytes.length < 2 ^ 64 := by omega
  refine ⟨⟨?_, hlast, hnone⟩, fun h => ?_, fun h => ?_⟩
  · rw [LazyHashSeq.answers_eq hstored ht (LazyHashSeq.agrees_new true)]
    simp only [List.map_cons, List.map_nil, LazyHashSeq.answer, hlen]
    rw [if_neg (by decide), if_neg (by decide), if_neg (by decide), if_pos (by decide)]
    exact congrArg (fun hash => [Except.ok none, Except.ok hash]) hlast
  · have hread := h.readable ht hfits hstored 32 (List.mem_singleton.mpr rfl)
    rw [hlen, LazyHashSeq.Readable, if_pos (by omega)] at hread
    omega
  · have hread := h.readable ht hfits hstored 1024 (List.mem_singleton.mpr rfl)
    rw [hlen, LazyHashSeq.Readable, if_neg (by omega)] at hread
    exact hread.2 (by decide)

end IrohBlobs
