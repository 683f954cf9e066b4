import IrohBlobs.ImportBao

/-!
# Reconstructing a bitfield

If `PartialFileStorage::load` of `store/fs/bao_file.rs` does not accept the bitfield file, it reconstructs the
bitfield from the sizes file, the outboard and the data.  The valid ranges are those of `valid_ranges` of the
`bao_tree` crate, which compares the hashes on the way from the root to the chunk groups, in the tree of the size that
was read.

That size may be wrong.  A chunk group that compares equal is one of the blob anyway: the pairs above it were verified
from the root down, as a decoder does it with the stream of an import (`exists_decoder`), so the two trees agree on
the way to the group and its pairs are where they belong.
-/

namespace IrohBlobs

open Merkle BaoTree Provable

variable {H : Type}

/-- What is documented of `valid_ranges`: the chunks of the ranges that it finds compare equal.  An item without a
range is an error. -/
def ValidatesRanges (f : HashFns UInt8 H) (validRanges : ExportSource H → List (Option (Nat × Nat))) : Prop :=
  ∀ src range, some range ∈ validRanges src → ∀ x, range.1 ≤ x → x < range.2 → src.Verifies f x

/-- The chunks of the ranges.  Errors are ignored. -/
def validChunks (validRanges : ExportSource H → List (Option (Nat × Nat))) (src : ExportSource H) : ChunkRanges :=
  ((validRanges src).filterMap id).foldl (fun ranges range => ranges ∪ RangeSet.range range.1 range.2) ∅

/-- The reconstructed bitfield. -/
def reconstruct (validRanges : ExportSource H → List (Option (Nat × Nat))) (src : ExportSource H) : Bitfield :=
  .new (validChunks validRanges src) src.size

private theorem verifies_of_mem_validChunks {f : HashFns UInt8 H}
    {validRanges : ExportSource H → List (Option (Nat × Nat))}
    (hvalid : ValidatesRanges f validRanges) {src : ExportSource H} {x : Nat} (hx : x ∈ validChunks validRanges src) :
    src.Verifies f x := by
  rcases (RangeSet.mem_foldl_union _ _ _ x).mp hx with hx | ⟨range, hrange, hx⟩
  · exact absurd hx (RangeSet.not_mem_empty x)
  · obtain ⟨item, hitem, rfl⟩ := List.mem_filterMap.mp hrange
    rw [RangeSet.mem_range] at hx
    exact hvalid src range hitem x hx.1 hx.2

variable [DecidableEq H] {f : HashFns UInt8 H} {blob : List UInt8} {src : ExportSource H}

/-- The pairs that compare equal are those that a decoder of the size verifies. -/
private theorem exists_decoder (hf : CollisionFree f) (hroot : src.root = nodeHash f blob []) {p : List Bool}
    (hp : IsPath 16 (treeChunks src.size) p)
    (hpairs : ∀ q b r, p = q ++ b :: r → ∃ h1 h2, src.outboard.cell (2 * slot (treeChunks src.size) q) = some h1 ∧
      src.outboard.cell (2 * slot (treeChunks src.size) q + 1) = some h2 ∧
      src.expected q = some (f.parent h1 h2 q.isEmpty)) :
    ∃ d : Decoder H, d.size = src.size ∧ Decoder.Sound f blob d ∧ d.expected p = src.expected p ∧
      ∀ q b r, p = q ++ b :: r → ∃ pair, (q, pair) ∈ d.pairs ∧
        src.outboard.cell (2 * slot (treeChunks src.size) q) = some pair.1 ∧
        src.outboard.cell (2 * slot (treeChunks src.size) q + 1) = some pair.2 := by
  induction p using List.reverseRecOn with
  | nil => exact ⟨⟨src.size, src.root, []⟩, rfl, ⟨hroot, by simp, by simp⟩, rfl, fun q b r hq => by simp at hq⟩
  | append_singleton p b ih =>
    obtain ⟨hpath, hlast⟩ := isPath_append.mp hp
    obtain ⟨d, hsize, hsound, hexpected, hmem⟩ := ih hpath (fun q c r hq => hpairs q c (r ++ [b]) (by simp [hq]))
    obtain ⟨h1, h2, hl, hr, hhash⟩ := hpairs p b [] rfl
    -- the decoder verifies the pair at the end of the path
    have hd : d.parent f p (h1, h2) = some { d with pairs := (p, (h1, h2)) :: d.pairs } := by
      have hlt := hlast.lt
      rw [Decoder.parent, if_pos]
      rw [hsize, hexpected]
      exact ⟨hpath.mono (by omega), by omega, hhash⟩
    refine ⟨{ d with pairs := (p, (h1, h2)) :: d.pairs }, hsize, hsound.parent hf hd, ?_, ?_⟩
    · simp only [Decoder.expected, ExportSource.expected, List.getLast?_concat, List.dropLast_concat,
        List.lookup_cons_self, Option.map_some]
      cases b with
      | false => exact hl.symm
      | true => exact hr.symm
    · intro q c r hq
      rcases List.eq_nil_or_concat r with rfl | ⟨r', b', rfl⟩
      · obtain ⟨rfl, -⟩ := List.append_inj' hq rfl
        exact ⟨(h1, h2), List.mem_cons_self, hl, hr⟩
      · rw [List.concat_eq_append, ← List.cons_append, ← List.append_assoc] at hq
        obtain ⟨rfl, -⟩ := List.append_inj' hq rfl
        obtain ⟨pair, hpair, hcells⟩ := hmem q c r' rfl
        exact ⟨pair, List.mem_cons_of_mem _ hpair, hcells⟩

/-- What compares equal in the tree of a size is a leaf of the blob, and its chunks are provable.  If the size is
zero, the blob is empty. -/
private theorem ExportSource.Verifies.leaf (hf : CollisionFree f) (hroot : src.root = nodeHash f blob []) {x : Nat}
    (h : src.Verifies f x) (hpos : 0 < src.size) :
    ∃ p leaf, TrueLeaf blob src.size p leaf ∧ (sub (treeChunks blob.length) p).1 ≤ x ∧
      x < (sub (treeChunks blob.length) p).1 + (sub (treeChunks blob.length) p).2 ∧
      HasChunk f blob src.data src.outboard x := by
  obtain ⟨p, hp, hle, hx, hx', hpairs, data, hlen, hcells, hhash⟩ := h
  obtain ⟨d, hsize, hsound, hexpected, hmem⟩ := exists_decoder hf hroot hp hpairs
  have hleaf : d.leaf f 16 p data = true := by
    rw [Decoder.leaf, decide_eq_true_iff, hsize, hexpected]
    exact ⟨hp.mono (by omega), hle, hlen, hhash⟩
  obtain ⟨hpath, hpath', hsub, hle', hdata, hne, hlast, -⟩ := hsound.leaf hf (by rw [hsize]; exact hpos) hleaf
  rw [hsize] at hpath' hsub hlast
  rw [hsub] at hx hx' hcells hlen
  refine ⟨p, ⟨(sub (treeChunks blob.length) p).1 * 1024, data⟩, ⟨hpath, hpath', hsub, hle', rfl, hdata, hne, hlast⟩,
    hx, hx', ?_, ?_⟩
  · -- the data
    intro i h1 h2 h3
    have hsum : (sub (treeChunks blob.length) p).1 * 1024 + (i - (sub (treeChunks blob.length) p).1 * 1024) = i := by
      omega
    have hi := hcells (i - (sub (treeChunks blob.length) p).1 * 1024)
    rw [hdata, length_region, getElem?_region, if_pos (by omega), hsum] at hi
    exact hi (by omega)
  · -- the pairs
    intro q hq h1 h2
    have hn : 0 < treeChunks blob.length := by unfold treeChunks; omega
    obtain ⟨b, r, rfl⟩ := exists_append_of_mem hn hpath (hq.1.mono (by omega)) ⟨hx, hx'⟩ ⟨h1, h2⟩
      (by have := hq.2; omega)
    obtain ⟨pair, hpair, hl, hr⟩ := hmem q b r rfl
    obtain ⟨-, -, rfl⟩ := hsound.pairs q pair hpair
    have hagree := (agrees_of_sub_eq hpath' hpath hsub).of_append.1
    rw [slot_congr hagree] at hl hr
    exact ⟨hl, hr⟩

omit [DecidableEq H] in
/-- The blob is empty if something compares equal in the tree of the size zero. -/
private theorem ExportSource.Verifies.blob_eq_nil (hf : CollisionFree f)
    (hroot : src.root = nodeHash f blob []) {x : Nat}
    (h : src.Verifies f x) (hzero : src.size = 0) : blob = [] := by
  obtain ⟨p, hp, -, -, -, -, data, hlen, -, hhash⟩ := h
  have hp' : p = [] := by
    cases p with
    | nil => rfl
    | cons b p =>
      have hlt := hp.lt
      rw [hzero] at hlt
      unfold treeChunks chunks at hlt
      omega
  subst hp'
  have hdata : data = [] := by
    apply List.eq_nil_of_length_eq_zero
    rw [hlen, hzero]
    omega
  subst hdata
  have hhash' : hashSubtree f 0 blob true = hashSubtree f 0 [] true := by
    rw [← nodeHash_nil, ← hroot]
    exact Option.some.inj hhash
  exact (hashSubtree_inj hf hhash').2

/-- The chunks of a reconstructed bitfield are provable, and it fits the blob. -/
theorem reconstruct_sound (hf : CollisionFree f) {validRanges : ExportSource H → List (Option (Nat × Nat))}
    (hvalid : ValidatesRanges f validRanges) (hroot : src.root = nodeHash f blob []) :
    HasBitfield f blob src.data src.outboard (reconstruct validRanges src) ∧
      Fits blob.length (fun _ _ => True) (reconstruct validRanges src) := by
  have hverifies := fun x (hx : x ∈ validChunks validRanges src) => verifies_of_mem_validChunks hvalid hx
  rcases Nat.eq_zero_or_pos src.size with hzero | hpos
  · -- there are no chunks, or the blob is empty
    have hnew : reconstruct validRanges src = ⟨0, validChunks validRanges src⟩ := by
      rw [reconstruct, hzero, Bitfield.new, if_pos rfl]
    rw [hnew]
    by_cases hblob : blob = []
    · subst hblob
      refine ⟨fun x _ hlt => ?_, Or.inl rfl⟩
      simp [chunks] at hlt
    · exact ⟨fun x hx => absurd ((hverifies x hx).blob_eq_nil hf hroot hzero) hblob,
        Or.inr fun x hx => absurd ((hverifies x hx).blob_eq_nil hf hroot hzero) hblob⟩
  · have hfits : Fits blob.length (fun _ _ => True) ⟨src.size, validChunks validRanges src⟩ := by
      by_cases hsize : src.size = blob.length
      · exact Or.inl hsize
      · refine Or.inr (fun x hx => ?_)
        obtain ⟨p, leaf, hleaf, h1, h2, -⟩ := (hverifies x hx).leaf hf hroot hpos
        obtain ⟨h3, h4⟩ := ImportBao.trueLeaf_end_lt hleaf hpos hsize
        exact ⟨by simp only; omega, by omega, x, Nat.le_refl x, trivial⟩
    obtain ⟨hnew, hmem⟩ := fits_new hfits
    refine ⟨fun x hx hlt => ?_, hnew⟩
    rcases hmem x hx with hx | ⟨hle, -⟩
    · obtain ⟨-, -, -, -, -, hchunk⟩ := (hverifies x hx).leaf hf hroot hpos
      exact hchunk
    · omega

end IrohBlobs
