import IrohBlobs.Provable

/-!
# Validated exports

The model of `export_bao_impl` in `store/fs.rs`.  The traversal itself is that of the `bao_tree` crate, given by a
function from what it reads to the items that it sends.  It reads pairs and chunk groups in the tree of the best known
size, and compares hashes on the way from the root down to the selected chunk groups.  `Verifies` says that all these
comparisons succeed for the group of a chunk.

The best known size may be wrong.  The comparisons succeed anyway for chunks up to a leaf that was verified with that
size, since the two trees agree there (`verifies_of_reaches`).
-/

namespace IrohBlobs

open Merkle BaoTree Provable

/-- What an export reads: the best known size, the hash, the data and the outboard. -/
structure ExportSource (H : Type) where
  size : Nat
  root : H
  data : Content UInt8
  outboard : Content H

section

variable {H : Type}

/-- The outboard and the data of an entry; nothing where the source returns an error. -/
def BaoFileStorage.source (root : H) : BaoFileStorage H → Option (ExportSource H)
  | .complete s => some ⟨s.size, root, s.data, s.outboard⟩
  | .partialMem s => some ⟨s.currentSize, root, s.data, s.outboard⟩
  | .partialFile s => some ⟨s.currentSize, root, s.data, s.outboard⟩
  | .initial | .loading | .nonExisting | .poisoned => none

theorem BaoFileStorage.currentSize_eq (entry : BaoFileStorage H) (root : H) :
    entry.currentSize = (entry.source root).map ExportSource.size := by
  cases entry <;> rfl

theorem BaoFileStorage.root_of_source {entry : BaoFileStorage H} {root : H} {src : ExportSource H}
    (h : entry.source root = some src) : src.root = root := by
  cases entry <;> cases h <;> rfl

/-- The items of an export of ranges of an entry, with the given traversal.  `emptyHash` is the hash of the empty
blob. -/
def exportBaoImpl [DecidableEq H] (traverse : ExportSource H → ChunkRanges → List (EncodedItem H)) (emptyHash hash : H)
    (entry : BaoFileStorage H) (ranges : ChunkRanges) : List (EncodedItem H) :=
  match entry.source hash with
  | none => [.error .io]
  | some source =>
    -- there is no data whatsoever, so it stops here
    if source.size = 0 ∧ hash ≠ emptyHash then [] else traverse source ranges

/-- The export finished, and it sent something if something was asked for. -/
def ExportSucceeds (items : List (EncodedItem H)) (ranges : ChunkRanges) : Prop :=
  (∀ e, .error e ∉ items) ∧ ((∃ x, x ∈ ranges) → .done ∈ items)

/-! ### Comparing hashes -/

namespace ExportSource

/-- The hash that the node at a path must have, from the stored pair above it. -/
def expected (src : ExportSource H) (p : List Bool) : Option H :=
  match p.getLast? with
  | none => some src.root
  | some b => src.outboard.cell (2 * slot (treeChunks src.size) p.dropLast + if b then 1 else 0)

/-- The pairs above the chunk group of a chunk are stored and hash to what is expected, and so does the data of the
group. -/
def Verifies (f : HashFns UInt8 H) (src : ExportSource H) (x : Nat) : Prop :=
  ∃ p, IsPath 16 (treeChunks src.size) p ∧ (sub (treeChunks src.size) p).2 ≤ 16 ∧
    (sub (treeChunks src.size) p).1 ≤ x ∧ x < (sub (treeChunks src.size) p).1 + (sub (treeChunks src.size) p).2 ∧
    (∀ q b r, p = q ++ b :: r → ∃ h1 h2, src.outboard.cell (2 * slot (treeChunks src.size) q) = some h1 ∧
      src.outboard.cell (2 * slot (treeChunks src.size) q + 1) = some h2 ∧
      src.expected q = some (f.parent h1 h2 q.isEmpty)) ∧
    ∃ data, data.length = min ((sub (treeChunks src.size) p).2 * 1024)
        (src.size - (sub (treeChunks src.size) p).1 * 1024) ∧
      (∀ i, i < data.length → src.data.cell ((sub (treeChunks src.size) p).1 * 1024 + i) = data[i]?) ∧
      src.expected p = some (hashSubtree f (sub (treeChunks src.size) p).1 data p.isEmpty)

/-- The chunk that is exported for a chunk of the query: chunks beyond the end stand for the last one. -/
def selected (src : ExportSource H) (x : Nat) : Nat := min x (treeChunks src.size - 1)

end ExportSource

/-- What is documented of the traversal: it sends `Done` and no error if everything that it compares is equal. -/
def TraversesValidated (f : HashFns UInt8 H) (traverse : ExportSource H → ChunkRanges → List (EncodedItem H)) : Prop :=
  ∀ src ranges, (∀ x ∈ ranges, src.Verifies f (src.selected x)) →
    .done ∈ traverse src ranges ∧ ∀ e, .error e ∉ traverse src ranges

/-! ### Chunks that verify -/

variable {f : HashFns UInt8 H} {blob : List UInt8}

/-- All chunks of a group of the blob are provable. -/
def HasGroup (f : HashFns UInt8 H) (blob : List UInt8) (data : Content UInt8) (outboard : Content H) (x : Nat) : Prop :=
  ∀ y, y < chunks blob.length → y / 16 = x / 16 → HasChunk f blob data outboard y

variable (blob) in
/-- The claimed size `z` belongs to a verified leaf that contains the chunk `y`. -/
def Reaches (k z y : Nat) : Prop :=
  ∃ p, IsPath k (treeChunks z) p ∧ IsPath k (treeChunks blob.length) p ∧
    sub (treeChunks z) p = sub (treeChunks blob.length) p ∧ (sub (treeChunks blob.length) p).2 ≤ 16 ∧
    (sub (treeChunks blob.length) p).1 ≤ y ∧ y < (sub (treeChunks blob.length) p).1 +
      (sub (treeChunks blob.length) p).2 ∧
    ((∀ b ∈ p, b = true) → z = blob.length)

/-- The nodes above a group of the blob are stored, if they have more than one group. -/
private theorem isStored_of_append {q r : List Bool} {b : Bool}
    (hp : IsPath 16 (treeChunks blob.length) (q ++ b :: r)) :
    IsStored blob q :=
  ⟨(isPath_append.mp hp).1, (isPath_append.mp hp).2.lt⟩

/-- The pairs above a provable group are stored. -/
private theorem hasPair_of_hasGroup {data : Content UInt8} {outboard : Content H} {q r : List Bool} {b : Bool} {x : Nat}
    (hp : IsPath 16 (treeChunks blob.length) (q ++ b :: r))
    (h1 : (sub (treeChunks blob.length) (q ++ b :: r)).1 ≤ x)
    (h2 : x < (sub (treeChunks blob.length) (q ++ b :: r)).1 + (sub (treeChunks blob.length) (q ++ b :: r)).2)
    (hgroup : HasGroup f blob data outboard x) : HasPair f blob outboard q := by
  have hq := isStored_of_append hp
  have hn : 0 < treeChunks blob.length := by unfold treeChunks; omega
  have h3 := sub_bounds hn (hq.1.mono (by omega))
  have h4 := sub_bounds (by omega) ((isPath_append.mp hp).2.mono (k := 1) (by omega))
  have hbig := hq.2
  have hlen : treeChunks blob.length = chunks blob.length := by
    unfold treeChunks at *
    omega
  rw [sub_append] at h1 h2
  simp only at h1 h2
  exact (hgroup x (by omega) rfl).pairs q hq (by omega) (by omega)

/-- What is expected at the nodes of a path that the two trees share are the hashes of the blob. -/
private theorem expected_eq {src : ExportSource H} (hroot : src.root = nodeHash f blob []) {q : List Bool}
    (hagree : Agrees (treeChunks blob.length) (treeChunks src.size) q)
    (hpairs : ∀ q' b r, q = q' ++ b :: r → HasPair f blob src.outboard q') :
    src.expected q = some (nodeHash f blob q) := by
  unfold ExportSource.expected
  rcases List.eq_nil_or_concat q with rfl | ⟨q', b, rfl⟩
  · simp [hroot]
  · rw [List.concat_eq_append] at *
    obtain ⟨hl, hr⟩ := hpairs q' b [] rfl
    simp only [List.getLast?_concat, List.dropLast_concat]
    rw [← slot_congr hagree.of_append.1]
    cases b with
    | false => simpa using hl
    | true => simpa using hr

/-- The group at a path that the tree of the best known size shares with the tree of the blob verifies. -/
theorem verifies_of_common {src : ExportSource H} (hroot : src.root = nodeHash f blob []) {p : List Bool} {x : Nat}
    (hp : IsPath 16 (treeChunks blob.length) p) (hp' : IsPath 16 (treeChunks src.size) p)
    (hagree : Agrees (treeChunks blob.length) (treeChunks src.size) p)
    (hsub : sub (treeChunks blob.length) p = sub (treeChunks src.size) p)
    (hle : (sub (treeChunks blob.length) p).2 ≤ 16)
    (h1 : (sub (treeChunks blob.length) p).1 ≤ x)
    (h2 : x < (sub (treeChunks blob.length) p).1 + (sub (treeChunks blob.length) p).2)
    (hlen : min ((sub (treeChunks blob.length) p).2 * 1024) (src.size - (sub (treeChunks blob.length) p).1 * 1024) =
      min ((sub (treeChunks blob.length) p).2 * 1024) (blob.length - (sub (treeChunks blob.length) p).1 * 1024))
    (hgroup : HasGroup f blob src.data src.outboard x) : src.Verifies f x := by
  have hn : 0 < treeChunks blob.length := by unfold treeChunks; omega
  have hpair : ∀ q b r, p = q ++ b :: r → HasPair f blob src.outboard q := by
    rintro q b r rfl
    exact hasPair_of_hasGroup hp h1 h2 hgroup
  refine ⟨p, hp', by rw [← hsub]; exact hle, by rw [← hsub]; exact h1, by rw [← hsub]; exact h2, ?_, ?_⟩
  · -- the pairs
    rintro q b r rfl
    obtain ⟨hl, hr⟩ := hpair q b r rfl
    obtain ⟨hq, hlt⟩ := isStored_of_append hp
    have hagree' := hagree.of_append.1
    refine ⟨_, _, by rw [← slot_congr hagree']; exact hl, by rw [← slot_congr hagree']; exact hr, ?_⟩
    rw [← nodeHash_eq_parent f (hq.mono (by omega)) (by omega)]
    refine expected_eq hroot hagree' (fun q' b' r' hq' => hpair q' b' (r' ++ b :: r) ?_)
    rw [hq', List.append_assoc, List.cons_append]
  · -- the data
    refine ⟨region blob (sub (treeChunks blob.length) p).1 (sub (treeChunks blob.length) p).2, ?_, fun i hi => ?_, ?_⟩
    · rw [length_region, ← hsub, hlen]
    · rw [length_region] at hi
      obtain ⟨h3, h4⟩ := sub_bounds hn (hp.mono (k := 1) (by omega))
      have hblob : treeChunks blob.length = max 1 ((blob.length + 1023) / 1024) := rfl
      have hchunks : chunks blob.length = (blob.length + 1023) / 1024 := rfl
      have hy : ∀ y, y = ((sub (treeChunks blob.length) p).1 * 1024 + i) / 1024 →
          y < chunks blob.length ∧ (sub (treeChunks blob.length) p).1 ≤ y ∧
            y < (sub (treeChunks blob.length) p).1 + (sub (treeChunks blob.length) p).2 := by
        intro y hy
        omega
      obtain ⟨h5, h6⟩ := hy _ rfl
      have h7 := (mem_group_iff hn hp hle (by omega)).mp ⟨h1, h2⟩
      have h8 := (mem_group_iff hn hp hle (by omega)).mp h6
      rw [← hsub, getElem?_region, if_pos (by omega)]
      exact (hgroup _ h5 (by omega)).data _ (by omega) (by omega) (by omega)
    · rw [expected_eq hroot hagree hpair, nodeHash, hsub]

/-- If the best known size is right, every group of the blob that is provable verifies. -/
theorem verifies_of_size_eq {src : ExportSource H} (hroot : src.root = nodeHash f blob [])
    (hsize : src.size = blob.length)
    {x : Nat} (hx : x < treeChunks blob.length) (hgroup : HasGroup f blob src.data src.outboard x) :
    src.Verifies f x := by
  obtain ⟨p, hp, hle, h1, h2⟩ := exists_sub_le (k := 16) (by omega) hx
  refine verifies_of_common hroot hp ?_ ?_ ?_ hle h1 h2 (by rw [hsize]) hgroup
  · rwa [hsize]
  · rw [hsize]
    exact Agrees.refl _ _
  · rw [hsize]

/-- A size that belongs to a verified leaf will do for all chunks up to that leaf. -/
private theorem verifies_of_reaches {src : ExportSource H} (hroot : src.root = nodeHash f blob []) (hpos : 0 < src.size)
    {x y : Nat} (hreach : Reaches blob 16 src.size y) (hxy : x / 16 ≤ y / 16) (hx : x < chunks blob.length)
    (hgroup : HasGroup f blob src.data src.outboard x) : src.Verifies f x ∧ x < treeChunks src.size := by
  obtain ⟨p, hp', hp, hsub, hle, h1, h2, hlast⟩ := hreach
  have e1 : treeChunks src.size = max 1 ((src.size + 1023) / 1024) := rfl
  have e2 : treeChunks blob.length = max 1 ((blob.length + 1023) / 1024) := rfl
  have e3 : chunks blob.length = (blob.length + 1023) / 1024 := rfl
  by_cases hsize : src.size = blob.length
  · exact ⟨verifies_of_size_eq hroot hsize (by omega) hgroup, by rw [hsize]; omega⟩
  · have hn : 0 < treeChunks blob.length := by omega
    have hn' : 0 < treeChunks src.size := by omega
    -- the leaf is not the last one of either tree
    have hnot : ¬ ∀ b ∈ p, b = true := fun hright => hsize (hlast hright)
    have h3 := mt (sub_end_iff hn (hp.mono (by omega))).mp hnot
    have h4 := mt (sub_end_iff hn' (hp'.mono (by omega))).mp hnot
    have h5 := (sub_bounds hn (hp.mono (k := 1) (by omega))).2
    have h6 := (sub_bounds hn' (hp'.mono (k := 1) (by omega))).2
    rw [hsub] at h4 h6
    obtain ⟨⟨k, hk⟩, hend⟩ := group_aligned hn hp hle
    have hagree := agrees_of_sub_eq (hp.mono (by omega)) (hp'.mono (by omega)) hsub.symm
    obtain ⟨q, hq, hq', hagree', hsub', hle', h7, h8⟩ :=
      exists_common_sub (x := x) (by omega) hn hp hp' hagree hsub.symm
      (by omega)
    have hqend := group_aligned hn hq hle'
    obtain ⟨⟨j, hj⟩, hend'⟩ := hqend
    refine ⟨verifies_of_common hroot hq hq' hagree' hsub' hle' h7 h8 ?_ hgroup, by omega⟩
    have h9 : (sub (treeChunks blob.length) q).1 + (sub (treeChunks blob.length) q).2 ≤
        (sub (treeChunks blob.length) p).1 + (sub (treeChunks blob.length) p).2 := by
      have := sub_bounds hn (hq.mono (k := 1) (by omega))
      omega
    omega

theorem verifies_selected_of_size_eq {src : ExportSource H} (hroot : src.root = nodeHash f blob [])
    (hsize : src.size = blob.length) {x : Nat}
    (hgroup : HasGroup f blob src.data src.outboard (min x (chunks blob.length - 1))) :
    src.Verifies f (src.selected x) := by
  have e : treeChunks blob.length = max 1 (chunks blob.length) := rfl
  have hsel : src.selected x = min x (chunks blob.length - 1) := by
    rw [ExportSource.selected, hsize]
    omega
  rw [hsel]
  exact verifies_of_size_eq hroot hsize (by omega) hgroup

theorem verifies_selected_of_reaches {src : ExportSource H} (hroot : src.root = nodeHash f blob [])
    (hpos : 0 < src.size)
    {x y : Nat} (hreach : Reaches blob 16 src.size y) (hxy : x / 16 ≤ y / 16) (hx : x < chunks blob.length)
    (hgroup : HasGroup f blob src.data src.outboard x) : src.Verifies f (src.selected x) := by
  obtain ⟨h1, h2⟩ := verifies_of_reaches hroot hpos hreach hxy hx hgroup
  have hsel : src.selected x = x := by
    rw [ExportSource.selected]
    omega
  rwa [hsel]

end

end IrohBlobs
