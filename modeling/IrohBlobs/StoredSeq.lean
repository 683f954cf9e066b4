import IrohBlobs.LazyHashSeq
import IrohBlobs.Transfer

/-!
# Hash sequences in the store

What is read of the entry of a hash sequence with `export_bao_impl` of `store/fs.rs`: the hashes in some chunks
(`child_of_mem` and `mem_of_child`), and all of its bytes (`blob_of_getBytes`).

The hashes of the chunks in the bitfield can be read if the entry is `Settled`.  Nothing can be read of an entry of
unknown size, and then the hash sequence seems to be empty.
-/

namespace IrohBlobs

namespace StoredSeq

open Merkle
open Remote (Has)

/-- What is documented of the traversal for the entries of a hash.  It ends with `Done` if everything that it compares
is equal, and with an error otherwise.  The leaves have what is stored of selected chunks, and were compared. -/
structure Traverses (f : HashFns UInt8 Hash) (root : Hash)
    (traverse : ExportSource Hash → ChunkRanges → List (EncodedItem Hash)) : Prop where
  shape : ∀ src ranges, src.root = root → ∃ body last, traverse src ranges = .size src.size :: body ++ [last] ∧
    (∀ item ∈ body, (∃ parent, item = .parent parent) ∨ ∃ leaf, item = .leaf leaf) ∧
    ((last = .done ∧ ∀ x ∈ ranges, src.Verifies f (src.selected x)) ∨
      (∃ e, last = .error e) ∧ ∃ x ∈ ranges, ¬ src.Verifies f (src.selected x))
  leaf : ∀ src ranges leaf, src.root = root → .leaf leaf ∈ traverse src ranges →
    ∃ first stop, LeafOf src leaf first stop ∧
    ∀ c, first ≤ c → c < stop → src.Verifies f c ∧ ∃ x ∈ ranges, src.selected x = c
  sent : ∀ src ranges, src.root = root → .done ∈ traverse src ranges →
    ∀ x ∈ ranges, ∃ leaf, .leaf leaf ∈ traverse src ranges ∧
    leaf.offset ≤ src.selected x * 1024 ∧ min ((src.selected x + 1) * 1024) src.size ≤ leaf.offset + leaf.data.length
  ordered : ∀ src ranges, src.root = root →
    (leavesOf (traverse src ranges)).Pairwise (fun a b => a.offset + a.data.length ≤ b.offset)

/-- Nothing but the blob has the hashes that are compared. -/
structure OnlyBlob (f : HashFns UInt8 Hash) (root : Hash) (blob : List UInt8) : Prop where
  data : ∀ (src : ExportSource Hash) c i, src.root = root → src.Verifies f c → c * 1024 ≤ i →
    i < (c + 1) * 1024 → i < src.size →
    src.data.cell i = blob[i]?
  size : ∀ src : ExportSource Hash, src.root = root → src.Verifies f (treeChunks src.size - 1) → src.size = blob.length

/-- The entry has a known size, and its bitfield says what is stored: its chunks verify, and if all chunks of the entry
verify then they are in it. -/
structure Settled (f : HashFns UInt8 Hash) (root : Hash) (entry : BaoFileStorage Hash) : Prop where
  size : entry.currentSize ≠ some 0
  verifies : ∀ src b, entry.source root = some src → entry.bitfield = some b →
    ∀ x ∈ b.ranges, src.Verifies f (src.selected x)
  recorded : ∀ src b, entry.source root = some src → entry.bitfield = some b →
    (∀ x, x < treeChunks src.size → src.Verifies f x) → ∀ x, x < treeChunks src.size → x ∈ b.ranges

/-- The chunk is in the bitfield, or it is the last one and something after the end is. -/
def Covers (S : Nat) (entry : BaoFileStorage Hash) (c : Nat) : Prop := ∃ x, Has entry x ∧ min x (treeChunks S - 1) = c

theorem Covers.mono {S c : Nat} {entry entry' : BaoFileStorage Hash} (h : Covers S entry c)
    (hgrows : ∀ x, Has entry x → Has entry' x) : Covers S entry' c := by
  obtain ⟨x, hx, hc⟩ := h
  exact ⟨x, hgrows x hx, hc⟩

/-! ### Pieces in order -/

/-- Pieces of a hash sequence that are in order and have all chunks from one on are its bytes from there on. -/
private theorem flatMap_data_of_pieces {seq : HashSeq} (hpos : 0 < seq.bytes.length) {leaves : List Leaf} {a : Nat}
    (hpiece : ∀ leaf ∈ leaves, ∃ first stop, IsPiece seq leaf first stop ∧ first < stop ∧
      stop ≤ treeChunks seq.bytes.length ∧
      a ≤ first)
    (hordered : leaves.Pairwise (fun x y => x.offset + x.data.length ≤ y.offset))
    (hsent : ∀ c, a ≤ c → c < treeChunks seq.bytes.length → ∃ leaf ∈ leaves, ∃ first stop, IsPiece seq leaf first stop ∧
      first ≤ c ∧ c < stop) :
    leaves.flatMap Leaf.data = seq.bytes.drop (a * 1024) := by
  have htree : treeChunks seq.bytes.length = max 1 ((seq.bytes.length + 1023) / 1024) := rfl
  induction leaves generalizing a with
  | nil =>
    have hend : treeChunks seq.bytes.length ≤ a := by
      by_contra hlt
      obtain ⟨leaf, hmem, -⟩ := hsent a (Nat.le_refl _) (by omega)
      cases hmem
    rw [List.flatMap_nil, List.drop_eq_nil_of_le (by omega)]
  | cons leaf leaves ih =>
    obtain ⟨first, stop, ⟨hoffset, hdata⟩, hlt, hstop, hle⟩ := hpiece leaf List.mem_cons_self
    have hlen : leaf.data.length = min ((stop - first) * 1024) (seq.bytes.length - first * 1024) := by
      rw [hdata, length_region]
    rw [List.pairwise_cons] at hordered
    -- the first leaf has the first chunk
    have hfirst : first = a := by
      by_contra hne
      obtain ⟨leaf', hmem, first', stop', ⟨hoffset', -⟩, h1, h2⟩ := hsent a (Nat.le_refl _) (by omega)
      rcases List.mem_cons.mp hmem with rfl | hmem
      · omega
      · have := hordered.1 leaf' hmem
        omega
    subst hfirst
    have hrest : leaves.flatMap Leaf.data = seq.bytes.drop (stop * 1024) := by
      refine ih ?_ hordered.2 ?_
      · intro leaf' hmem
        obtain ⟨first', stop', hpiece', hlt', hstop', hle'⟩ := hpiece leaf' (List.mem_cons_of_mem _ hmem)
        refine ⟨first', stop', hpiece', hlt', hstop', ?_⟩
        have := hordered.1 leaf' hmem
        have := hpiece'.1
        omega
      · intro c h1 h2
        obtain ⟨leaf', hmem, first', stop', hpiece', h3, h4⟩ := hsent c (by omega) h2
        rcases List.mem_cons.mp hmem with rfl | hmem
        · have hlen' : leaf'.data.length = min ((stop' - first') * 1024) (seq.bytes.length - first' * 1024) := by
            rw [hpiece'.2, length_region]
          have := hpiece'.1
          omega
        · exact ⟨leaf', hmem, first', stop', hpiece', h3, h4⟩
    rw [List.flatMap_cons, hrest, hdata, region]
    have hdrop : seq.bytes.drop (stop * 1024) = (seq.bytes.drop (first * 1024)).drop ((stop - first) * 1024) := by
      rw [List.drop_drop, ← Nat.add_mul, Nat.add_sub_cancel' hlt.le]
    rw [hdrop, List.take_append_drop]

/-- The hashes in leaves that are pieces of a hash sequence, whatever the other items are. -/
theorem mem_hashesWithIndex_of_pieces {seq : HashSeq} {items : List (EncodedItem Hash)}
    (hpiece : ∀ leaf, .leaf leaf ∈ items → ∃ first stop, IsPiece seq leaf first stop) {i : Nat} {child : Hash} :
    .ok (i, child) ∈ hashesWithIndex (.ok items) ↔
      seq.get i = some child ∧ ∃ leaf, .leaf leaf ∈ items ∧ leaf.offset ≤ i * 32 ∧
        (i + 1) * 32 ≤ leaf.offset + leaf.data.length := by
  rw [hashesWithIndex, List.mem_flatMap]
  constructor
  · rintro ⟨item, hmem, hin⟩
    cases item with
    | leaf leaf =>
      obtain ⟨first, stop, h⟩ := hpiece leaf hmem
      obtain ⟨heq, -, hiff⟩ := h.leafHashes_eq
      rw [heq, List.mem_map] at hin
      obtain ⟨p, hp, hpair⟩ := hin
      cases hpair
      obtain ⟨hget, hle, hlt⟩ := (hiff i child).mp hp
      exact ⟨hget, leaf, hmem, hle, hlt⟩
    | error e => simp [hashesOfItem] at hin
    | size n => simp [hashesOfItem] at hin
    | parent p => simp [hashesOfItem] at hin
    | done => simp [hashesOfItem] at hin
  · rintro ⟨hget, leaf, hmem, hle, hlt⟩
    obtain ⟨first, stop, h⟩ := hpiece leaf hmem
    obtain ⟨heq, -, hiff⟩ := h.leafHashes_eq
    refine ⟨.leaf leaf, hmem, ?_⟩
    rw [heq, List.mem_map]
    exact ⟨(i, child), (hiff i child).mpr ⟨hget, hle, hlt⟩, rfl⟩

/-! ### Exports of an entry -/

section

variable {f : HashFns UInt8 Hash} {root : Hash} {traverse : ExportSource Hash → ChunkRanges → List (EncodedItem Hash)}
  {seq : HashSeq} {src : ExportSource Hash} {ranges : ChunkRanges} {entry : BaoFileStorage Hash} {b : Bitfield}

/-- The leaves that are sent are pieces of the blob. -/
theorem isPiece_of_leaf (ht : Traverses f root traverse) (honly : OnlyBlob f root seq.bytes) (hroot : src.root = root)
    {leaf : Leaf} (hleaf : .leaf leaf ∈ traverse src ranges) :
    ∃ first stop, IsPiece seq leaf first stop ∧ first < stop ∧ stop ≤ treeChunks src.size ∧
      stop ≤ treeChunks seq.bytes.length ∧
      ∀ c, first ≤ c → c < stop → ∃ x ∈ ranges, src.selected x = c := by
  obtain ⟨first, stop, hof, hchunks⟩ := ht.leaf src ranges leaf hroot hleaf
  have h1 := hof.lt
  have h2 := hof.le
  have h3 := hof.length
  have h4 := hof.offset
  have htree : treeChunks src.size = max 1 ((src.size + 1023) / 1024) := rfl
  have htree' : treeChunks seq.bytes.length = max 1 ((seq.bytes.length + 1023) / 1024) := rfl
  have hcell : ∀ i, i < leaf.data.length → leaf.data[i]? = seq.bytes[first * 1024 + i]? := by
    intro i hi
    have hverifies := (hchunks ((first * 1024 + i) / 1024) (by omega) (by omega)).1
    have hdata := honly.data src _ (first * 1024 + i) hroot hverifies (by omega) (by omega) (by omega)
    rw [← hdata, ← hof.data i hi, h4]
  -- the leaf ends with the blob, or it is a run of whole chunks of the blob
  have hlen : leaf.data.length = min ((stop - first) * 1024) (seq.bytes.length - first * 1024) ∧
      stop ≤ treeChunks seq.bytes.length := by
    by_cases hlast : stop = treeChunks src.size
    · have hsize := honly.size src hroot (by rw [← hlast]; exact (hchunks (stop - 1) (by omega) (by omega)).1)
      rw [← hsize]
      exact ⟨h3, h2⟩
    · have hpos : 0 < leaf.data.length := by omega
      have hend := hcell (leaf.data.length - 1) (by omega)
      rw [List.getElem?_eq_getElem (by omega)] at hend
      have := (List.getElem?_eq_some_iff.mp hend.symm).1
      omega
  refine ⟨first, stop, ⟨h4, ?_⟩, h1, h2, hlen.2, fun c hc hc' => (hchunks c hc hc').2⟩
  apply List.ext_getElem?
  intro i
  by_cases hi : i < leaf.data.length
  · rw [Provable.getElem?_region, if_pos (by omega), hcell i hi]
  · rw [List.getElem?_eq_none (by omega), List.getElem?_eq_none (by rw [length_region]; omega)]

/-- A source of which the chunk of a hash is selected has the size of the blob, or the chunk itself is asked for. -/
private theorem min_eq_of_selected (honly : OnlyBlob f root seq.bytes) (hroot : src.root = root) {x c : Nat}
    (hverifies : src.Verifies f c) (hx : src.selected x = c) (hc : c < treeChunks seq.bytes.length) :
    min x (treeChunks seq.bytes.length - 1) = c := by
  unfold ExportSource.selected at hx
  by_cases hlast : c = treeChunks src.size - 1
  · rw [hlast] at hverifies
    rw [← honly.size src hroot hverifies]
    exact hx
  · omega

/-- The hashes that are sent are those of the hash sequence, in chunks that are selected. -/
private theorem child_of_mem (ht : Traverses f root traverse) (honly : OnlyBlob f root seq.bytes)
    (hroot : src.root = root) {i : Nat}
    {child : Hash} (h : .ok (i, child) ∈ hashesWithIndex (.ok (traverse src ranges))) :
    seq.get i = some child ∧ ∃ x ∈ ranges, min x (treeChunks seq.bytes.length - 1) = i * 32 / 1024 := by
  rw [mem_hashesWithIndex_of_pieces fun leaf hleaf => by
    obtain ⟨first, stop, hpiece, -⟩ := isPiece_of_leaf ht honly hroot hleaf
    exact ⟨first, stop, hpiece⟩] at h
  obtain ⟨hget, leaf, hleaf, hle, hlt⟩ := h
  refine ⟨hget, ?_⟩
  obtain ⟨first, stop, hof, hchunks⟩ := ht.leaf src ranges leaf hroot hleaf
  obtain ⟨first', stop', hpiece, -, -, hstop, -⟩ := isPiece_of_leaf ht honly hroot hleaf
  have h1 := hof.offset
  have h2 := hof.length
  have h3 := hpiece.1
  have h4 : leaf.data.length = min ((stop' - first') * 1024) (seq.bytes.length - first' * 1024) := by
    rw [hpiece.2, length_region]
  obtain ⟨hverifies, x, hx, hsel⟩ := hchunks (i * 32 / 1024) (by omega) (by omega)
  exact ⟨x, hx, min_eq_of_selected honly hroot hverifies hsel (by omega)⟩

/-- If the export ends with `Done`, the hashes in all selected chunks are sent. -/
private theorem mem_of_child (ht : Traverses f root traverse) (honly : OnlyBlob f root seq.bytes)
    (hroot : src.root = root)
    (hverifies : ∀ x ∈ ranges, src.Verifies f (src.selected x)) {i : Nat} {child : Hash} (hget : seq.get i = some child)
    {x : Nat} (hx : x ∈ ranges) (hc : min x (treeChunks seq.bytes.length - 1) = i * 32 / 1024) :
    .ok (i, child) ∈ hashesWithIndex (.ok (traverse src ranges)) := by
  have hlen := HashSeq.length_bytes seq
  have hi : i < seq.len := by
    unfold HashSeq.get at hget
    split at hget
    · assumption
    · cases hget
  have htree : treeChunks src.size = max 1 ((src.size + 1023) / 1024) := rfl
  have htree' : treeChunks seq.bytes.length = max 1 ((seq.bytes.length + 1023) / 1024) := rfl
  have hdone : .done ∈ traverse src ranges := by
    obtain ⟨body, last, heq, -, ⟨hlast, -⟩ | ⟨-, y, hy, hnot⟩⟩ := ht.shape src ranges hroot
    · rw [heq, hlast]
      simp
    · exact absurd (hverifies y hy) hnot
  obtain ⟨leaf, hleaf, h1, h2⟩ := ht.sent src ranges hroot hdone x hx
  rw [mem_hashesWithIndex_of_pieces fun leaf hleaf => by
    obtain ⟨first, stop, hpiece, -⟩ := isPiece_of_leaf ht honly hroot hleaf
    exact ⟨first, stop, hpiece⟩]
  refine ⟨hget, leaf, hleaf, ?_⟩
  have hverified := hverifies x hx
  -- the chunk is selected in the tree of the source, too
  have hchunk : src.selected x = i * 32 / 1024 ∧ (i + 1) * 32 ≤ src.size := by
    by_cases hlast : src.selected x = treeChunks src.size - 1
    · have hsize := honly.size src hroot (by rw [← hlast]; exact hverified)
      have hsel : src.selected x = min x (treeChunks seq.bytes.length - 1) := by rw [ExportSource.selected, hsize]
      omega
    · have hsel : src.selected x = min x (treeChunks src.size - 1) := rfl
      have hx' : src.selected x = x := by omega
      have hcell := honly.data src _ ((x + 1) * 1024 - 1) hroot hverified (by omega) (by omega) (by omega)
      have hsome := cell_of_verifies (i := (x + 1) * 1024 - 1) hverified (by omega) (by omega) (by omega)
      rw [hcell, isSome_getElem?] at hsome
      omega
  omega

/-! ### The store -/

/-- The items of an export: those of a traversal, or none if the size is not known, or an error. -/
theorem exportBaoImpl_cases (traverse : ExportSource Hash → ChunkRanges → List (EncodedItem Hash)) (root : Hash)
    (entry : BaoFileStorage Hash) (ranges : ChunkRanges) :
    exportBaoImpl traverse .EMPTY root entry ranges = [.error .io] ∨
      (exportBaoImpl traverse .EMPTY root entry ranges = [] ∧ entry.currentSize = some 0 ∧ root ≠ .EMPTY) ∨
      ∃ src, src.root = root ∧ entry.source root = some src ∧
        exportBaoImpl traverse .EMPTY root entry ranges = traverse src ranges := by
  unfold exportBaoImpl
  cases hsrc : entry.source root with
  | none => exact Or.inl rfl
  | some src =>
    right
    dsimp only
    split
    · rename_i hzero
      refine Or.inl ⟨rfl, ?_, hzero.2⟩
      rw [BaoFileStorage.currentSize_eq _ root, hsrc, Option.map_some, hzero.1]
    · exact Or.inr ⟨src, BaoFileStorage.root_of_source hsrc, rfl, rfl⟩

/-- The hashes that are exported are those of the hash sequence, in chunks that were asked for. -/
theorem child_of_export (ht : Traverses f root traverse) (honly : OnlyBlob f root seq.bytes) {i : Nat} {child : Hash}
    (h : .ok (i, child) ∈ hashesWithIndex (.ok (exportBaoImpl traverse .EMPTY root entry ranges))) :
    seq.get i = some child ∧ ∃ x ∈ ranges, min x (treeChunks seq.bytes.length - 1) = i * 32 / 1024 := by
  rcases exportBaoImpl_cases traverse root entry ranges with heq | ⟨heq, -⟩ | ⟨src, hroot, -, heq⟩
  · rw [heq] at h
    simp [hashesWithIndex, stream, hashesOfItem] at h
  · rw [heq] at h
    simp [hashesWithIndex, stream] at h
  · rw [heq] at h
    exact child_of_mem ht honly hroot h

/-- The hashes in the chunks of the bitfield of a settled entry are exported. -/
theorem export_of_child (ht : Traverses f root traverse) (honly : OnlyBlob f root seq.bytes)
    (hsettled : Settled f root entry)
    (hb : entry.bitfield = some b) {i : Nat} {child : Hash} (hget : seq.get i = some child) {x : Nat}
    (hx : x ∈ b.ranges)
    (hc : min x (treeChunks seq.bytes.length - 1) = i * 32 / 1024) :
    .ok (i, child) ∈ hashesWithIndex (.ok (exportBaoImpl traverse .EMPTY root entry b.ranges)) := by
  cases hsrc : entry.source root with
  | none =>
    -- an entry without a source has no bitfield, or an empty one
    cases entry with
    | nonExisting =>
      cases hb
      exact absurd hx (RangeSet.not_mem_empty x)
    | initial | loading | poisoned => cases hb
    | complete s | partialMem s | partialFile s => cases hsrc
  | some src =>
    have hroot := BaoFileStorage.root_of_source hsrc
    have hsize : src.size ≠ 0 := by
      intro hzero
      apply hsettled.size
      rw [BaoFileStorage.currentSize_eq _ root, hsrc, Option.map_some, hzero]
    have heq : exportBaoImpl traverse .EMPTY root entry b.ranges = traverse src b.ranges := by
      unfold exportBaoImpl
      rw [hsrc]
      exact if_neg (fun h => hsize h.1)
    rw [heq]
    exact mem_of_child ht honly hroot (hsettled.verifies src b hsrc hb) hget hx hc

private theorem payload_eq (items : List (EncodedItem Hash)) : payload items = (leavesOf items).flatMap Leaf.data := by
  induction items with
  | nil => rfl
  | cons item items ih =>
    have hcons : payload (item :: items) = payload [item] ++ payload items := by simp [payload]
    rw [hcons, ih]
    cases item with
    | leaf leaf => simp [payload, leavesOf]
    | size n => rfl
    | parent p => rfl
    | error e => rfl
    | done => rfl

/-- `data_to_bytes` of what a traversal sends: it has ended with `Done`, and the bytes are those of the leaves. -/
private theorem dataToBytes_traverse (ht : Traverses f root traverse) (hroot : src.root = root) {bytes : List UInt8}
    (h : dataToBytes (.ok (traverse src ranges)) = .ok bytes) :
    .done ∈ traverse src ranges ∧ (∀ x ∈ ranges, src.Verifies f (src.selected x)) ∧
      bytes = (leavesOf (traverse src ranges)).flatMap Leaf.data := by
  obtain ⟨body, last, heq, hbody, hlast⟩ := ht.shape src ranges hroot
  have hitems : ∀ item ∈ body, item ≠ .done ∧ ∀ e, item ≠ .error e := by
    intro item hitem
    rcases hbody item hitem with ⟨parent, rfl⟩ | ⟨leaf, rfl⟩
    · simp
    · simp
  rw [heq] at h ⊢
  rcases hlast with ⟨rfl, hverifies⟩ | ⟨⟨e, rfl⟩, -⟩
  · rw [dataToBytes_done hitems] at h
    cases h
    refine ⟨by simp, hverifies, ?_⟩
    rw [payload_eq]
    simp [leavesOf]
  · rw [dataToBytes_error hitems] at h
    cases h

/-- All of the hash sequence is read only if all of it is stored. -/
theorem blob_of_getBytes (ht : Traverses f root traverse) (honly : OnlyBlob f root seq.bytes)
    (hsize : entry.currentSize ≠ some 0 ∨ root = .EMPTY) {bytes : List UInt8}
    (h : dataToBytes (.ok (exportBaoImpl traverse .EMPTY root entry RangeSet.all)) = .ok bytes) :
    bytes = seq.bytes ∧ ∃ src, entry.source root = some src ∧ src.size = seq.bytes.length ∧
      ∀ x, x < treeChunks src.size → src.Verifies f x := by
  rcases exportBaoImpl_cases traverse root entry RangeSet.all with heq | ⟨-, hzero, hne⟩ | ⟨src, hroot, hsrc, heq⟩
  · rw [heq] at h
    cases h
  · exact absurd hzero (hsize.resolve_right hne)
  · rw [heq] at h
    obtain ⟨hdone, hverifies, hbytes⟩ := dataToBytes_traverse ht hroot h
    have htree : treeChunks src.size = max 1 ((src.size + 1023) / 1024) := rfl
    have hall : ∀ x, x < treeChunks src.size → src.Verifies f x := by
      intro x hx
      have hx' := hverifies x (RangeSet.mem_all x)
      rwa [ExportSource.selected, Nat.min_eq_left (by omega)] at hx'
    have hlen := honly.size src hroot (hall _ (by omega))
    refine ⟨?_, src, hsrc, hlen, hall⟩
    have hpiece : ∀ leaf ∈ leavesOf (traverse src RangeSet.all), ∃ first stop,
      IsPiece seq leaf first stop ∧ first < stop ∧
        stop ≤ treeChunks seq.bytes.length ∧ 0 ≤ first := by
      intro leaf hmem
      obtain ⟨first, stop, hpiece, hlt, -, hle, -⟩ := isPiece_of_leaf ht honly hroot (mem_leavesOf.mp hmem)
      exact ⟨first, stop, hpiece, hlt, hle, Nat.zero_le _⟩
    rw [hbytes]
    rcases Nat.eq_zero_or_pos seq.bytes.length with hzero | hpos
    · -- there are no bytes
      rw [List.length_eq_zero_iff] at hzero
      rw [hzero, List.flatMap_eq_nil_iff]
      intro leaf hmem
      obtain ⟨first, stop, hpiece, -⟩ := hpiece leaf hmem
      rw [hpiece.2, hzero]
      simp [region]
    · rw [flatMap_data_of_pieces hpos (a := 0) hpiece (ht.ordered src RangeSet.all hroot), Nat.zero_mul, List.drop_zero]
      intro c _ hc
      obtain ⟨leaf, hleaf, h1, h2⟩ := ht.sent src RangeSet.all hroot hdone c (RangeSet.mem_all c)
      have hsel : src.selected c = c := by
        rw [ExportSource.selected, hlen]
        omega
      rw [hsel] at h1 h2
      rw [hlen] at h2
      obtain ⟨first, stop, hpiece, hlt, hle, -⟩ := hpiece leaf (mem_leavesOf.mpr hleaf)
      have hoffset := hpiece.1
      have hlength : leaf.data.length = min ((stop - first) * 1024) (seq.bytes.length - first * 1024) := by
        rw [hpiece.2, length_region]
      have htree' : treeChunks seq.bytes.length = max 1 ((seq.bytes.length + 1023) / 1024) := rfl
      exact ⟨leaf, mem_leavesOf.mpr hleaf, first, stop, hpiece, by omega, by omega⟩

/-- Nothing is read of an entry of unknown size. -/
theorem getBytes_of_size_zero (hzero : entry.currentSize = some 0) (hne : root ≠ .EMPTY) :
    dataToBytes (.ok (exportBaoImpl traverse .EMPTY root entry ranges)) = .ok [] := by
  have hnil : exportBaoImpl traverse .EMPTY root entry ranges = [] := by
    rw [BaoFileStorage.currentSize_eq _ root, Option.map_eq_some_iff] at hzero
    obtain ⟨src, hsrc, hsize⟩ := hzero
    unfold exportBaoImpl
    rw [hsrc]
    exact if_pos ⟨hsize, hne⟩
  rw [hnil]
  rfl

end

end StoredSeq

end IrohBlobs
