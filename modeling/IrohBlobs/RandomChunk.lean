import IrohBlobs.Merkle
import IrohBlobs.PrefixSum
import IrohBlobs.RangeWire

/-!
# Probing a random chunk

The model of `random_hash_seq_ranges` of `get/request.rs`.  A number below the total number of chunks is drawn, and a
walk over the children finds the chunk with this number.  The function counts with `ChunkNum::full_chunks`, which
leaves out a last partial chunk: such chunks are never drawn, and if no child has a full chunk there is nothing to
draw from.
-/

namespace IrohBlobs

namespace RandomChunk

open Merkle (chunks)
open PrefixSum

/-- The number of chunks that are fully covered by a number of bytes. -/
def fullChunks (size : Nat) : Nat := size / 1024

/-- A source of random numbers: what it draws from a range that is not empty. -/
structure Rng where
  genRange : Nat → Nat
  genRange_lt : ∀ n, 0 < n → genRange n < n

/-- The sum of the full chunks; nothing if it overflows. -/
def totalChunks (sizes : List Nat) : Option Nat := sizes.foldlM (fun total size => addU64 total (fullChunks size)) 0

/-- The loop over the children: nothing is selected of them up to the one that has the chunk. -/
def childRanges : Nat → List Nat → List ChunkRanges
  | _, [] => []
  | remaining, size :: sizes =>
    if remaining < fullChunks size then [RangeSet.range remaining (remaining + 1)]
    else ∅ :: childRanges (remaining - fullChunks size) sizes

/-- A request for a random chunk of a random child; nothing where the source panics. -/
def randomHashSeqRanges (sizes : List Nat) (rng : Rng) : Option ChunkRangesSeq :=
  match totalChunks sizes with
  | none => none
  | some total =>
    -- an empty range has no number to draw
    if total = 0 then none else some (.fromRanges (∅ :: childRanges (rng.genRange total) sizes))

/-! ### What is asked of a probe -/

/-- The child has the chunk.  The last chunk may be a partial one. -/
def IsChunk (sizes : List Nat) (child chunk : Nat) : Prop := ∃ size, sizes[child]? = some size ∧ chunk < chunks size

/-- One chunk of one blob is selected, and nothing else. -/
def SelectsOnly (seq : ChunkRangesSeq) (offset chunk : Nat) : Prop := ∀ i x, x ∈ seq.get i ↔ i = offset ∧ x = chunk

/-- A value that can be drawn, and that leads to the chunk of the child. -/
def LeadsTo (sizes : List Nat) (draw child chunk : Nat) : Prop :=
  ∃ total, totalChunks sizes = some total ∧ draw < total ∧ ∀ rng : Rng, rng.genRange total = draw →
    ∃ seq, randomHashSeqRanges sizes rng = some seq ∧ SelectsOnly seq (child + 1) chunk

/-- Every draw leads to a chunk of a child, and every chunk of every child is what exactly one value of the draw leads
to. -/
structure HitsEveryChunk (sizes : List Nat) : Prop where
  hits : ∀ rng, ∃ seq child chunk, randomHashSeqRanges sizes rng = some seq ∧ IsChunk sizes child chunk ∧
    SelectsOnly seq (child + 1) chunk
  unique : ∀ child chunk, IsChunk sizes child chunk → ∃! draw, LeadsTo sizes draw child chunk

/-! ### The draw -/

private theorem foldlM_addU64 {sizes : List Nat} {total : Nat} (h : total + (sizes.map fullChunks).sum < 2 ^ 64) :
    sizes.foldlM (fun total size => addU64 total (fullChunks size)) total =
      some (total + (sizes.map fullChunks).sum) := by
  induction sizes generalizing total with
  | nil => rfl
  | cons size sizes ih =>
    rw [List.map_cons, List.sum_cons] at h ⊢
    have hadd : addU64 total (fullChunks size) = some (total + fullChunks size) := addU64_of_lt (by omega)
    rw [List.foldlM_cons, hadd, Option.bind_eq_bind, Option.bind_some, ih (by omega), Nat.add_assoc]

private theorem totalChunks_eq {sizes : List Nat} (h : (sizes.map fullChunks).sum < 2 ^ 64) :
    totalChunks sizes = some (sizes.map fullChunks).sum := by
  rw [totalChunks, foldlM_addU64 (by omega), Nat.zero_add]

private theorem fullChunks_le (size : Nat) : fullChunks size ≤ chunks size := by
  unfold fullChunks chunks
  omega

/-- A size without a partial chunk. -/
private theorem fullChunks_eq_iff {size : Nat} : fullChunks size = chunks size ↔ size % 1024 = 0 := by
  unfold fullChunks chunks
  omega

private theorem sum_fullChunks_le (sizes : List Nat) : (sizes.map fullChunks).sum ≤ (sizes.map chunks).sum := by
  induction sizes with
  | nil => exact Nat.le_refl _
  | cons size sizes ih =>
    have hle := fullChunks_le size
    rw [List.map_cons, List.sum_cons, List.map_cons, List.sum_cons]
    omega

/-! ### The walk -/

/-- The walk stops at the child that has the number, and selects the position in it. -/
private theorem mem_childRanges {sizes : List Nat} {n child chunk : Nat}
    (h : locate (sizes.map fullChunks) n = some (child, chunk))
    (i x : Nat) : x ∈ (childRanges n sizes).getD i ∅ ↔ i = child ∧ x = chunk := by
  induction sizes generalizing n child i with
  | nil => cases h
  | cons size sizes ih =>
    rw [List.map_cons] at h
    unfold childRanges
    split
    · rename_i hlt
      rw [locate_cons_of_lt hlt] at h
      cases h
      cases i with
      | zero =>
        rw [List.getD_cons_zero, RangeSet.mem_range]
        omega
      | succ i => simp
    · rename_i hge
      rw [locate_cons_of_le (by omega)] at h
      obtain ⟨⟨child', chunk'⟩, h, heq⟩ := Option.map_eq_some_iff.mp h
      cases heq
      cases i with
      | zero => simp
      | succ i =>
        rw [List.getD_cons_succ, ih h]
        omega

private theorem selectsOnly_fromRanges {sizes : List Nat} {n child chunk : Nat}
    (h : locate (sizes.map fullChunks) n = some (child, chunk)) :
    SelectsOnly (.fromRanges (∅ :: childRanges n sizes)) (child + 1) chunk := by
  intro i x
  rw [ChunkRangesSeq.get_fromRanges]
  cases i with
  | zero => simp
  | succ i =>
    rw [List.getD_cons_succ, mem_childRanges h]
    omega

private theorem SelectsOnly.unique {seq : ChunkRangesSeq} {offset chunk offset' chunk' : Nat}
    (h : SelectsOnly seq offset chunk)
    (h' : SelectsOnly seq offset' chunk') : offset' = offset ∧ chunk' = chunk :=
  (h offset' chunk').mp ((h' offset' chunk').mpr ⟨rfl, rfl⟩)

section

variable {sizes : List Nat}

/-- What is drawn, if there is something to draw from. -/
theorem randomHashSeqRanges_eq (htotal : (sizes.map fullChunks).sum < 2 ^ 64) (hpos : 0 < (sizes.map fullChunks).sum)
    (rng : Rng) : randomHashSeqRanges sizes rng =
      some (.fromRanges (∅ :: childRanges (rng.genRange (sizes.map fullChunks).sum) sizes)) := by
  rw [randomHashSeqRanges, totalChunks_eq htotal]
  exact if_neg (by omega)

/-- Without a full chunk there is nothing to draw from. -/
theorem randomHashSeqRanges_eq_none (hzero : (sizes.map fullChunks).sum = 0) (rng : Rng) :
    randomHashSeqRanges sizes rng = none := by
  rw [randomHashSeqRanges, totalChunks_eq (by omega)]
  exact if_pos hzero

/-- A value leads to the chunk that has it as its number, counting full chunks. -/
private theorem leadsTo_iff (htotal : (sizes.map fullChunks).sum < 2 ^ 64) {draw child chunk : Nat} :
    LeadsTo sizes draw child chunk ↔ locate (sizes.map fullChunks) draw = some (child, chunk) := by
  constructor
  · rintro ⟨total, heq, hlt, hall⟩
    rw [totalChunks_eq htotal, Option.some.injEq] at heq
    subst heq
    obtain ⟨i, j, hij⟩ := exists_locate hlt
    -- a source that draws this value wherever it can
    let rng : Rng := ⟨fun n => if draw < n then draw else 0, fun n hn => by split <;> omega⟩
    have hdraw : rng.genRange (sizes.map fullChunks).sum = draw := if_pos hlt
    obtain ⟨seq, hseq, hselects⟩ := hall rng hdraw
    rw [randomHashSeqRanges_eq htotal (by omega), hdraw, Option.some.injEq] at hseq
    subst hseq
    obtain ⟨hchild, hchunk⟩ := (selectsOnly_fromRanges hij).unique hselects
    rw [hij, hchunk, Nat.add_right_cancel hchild]
  · intro h
    obtain ⟨count, hcount, hj, hn⟩ := locate_eq_some_iff.mp h
    have hlt : draw < (sizes.map fullChunks).sum := by
      rw [hn]
      exact position_lt hcount hj
    refine ⟨_, totalChunks_eq htotal, hlt, ?_⟩
    intro rng hdraw
    refine ⟨_, randomHashSeqRanges_eq htotal (by omega) rng, ?_⟩
    rw [hdraw]
    exact selectsOnly_fromRanges h

/-- Every full chunk is what exactly one value of the draw leads to; no value leads to another chunk. -/
private theorem existsUnique_leadsTo_iff (htotal : (sizes.map fullChunks).sum < 2 ^ 64) {child chunk : Nat} :
    (∃! draw, LeadsTo sizes draw child chunk) ↔ ∃ size, sizes[child]? = some size ∧ chunk < fullChunks size := by
  constructor
  · rintro ⟨draw, hdraw, -⟩
    obtain ⟨count, hcount, hlt, -⟩ := locate_eq_some_iff.mp ((leadsTo_iff htotal).mp hdraw)
    rw [List.getElem?_map, Option.map_eq_some_iff] at hcount
    obtain ⟨size, hsize, rfl⟩ := hcount
    exact ⟨size, hsize, hlt⟩
  · rintro ⟨size, hsize, hlt⟩
    have hcount : (sizes.map fullChunks)[child]? = some (fullChunks size) := by rw [List.getElem?_map, hsize]; rfl
    refine ⟨position (sizes.map fullChunks) child chunk, ?_, ?_⟩
    · exact (leadsTo_iff htotal).mpr (locate_eq_some_iff.mpr ⟨_, hcount, hlt, rfl⟩)
    · intro draw hdraw
      obtain ⟨_, -, -, hn⟩ := locate_eq_some_iff.mp ((leadsTo_iff htotal).mp hdraw)
      exact hn

/-- If something can be drawn, the draw leads to a full chunk. -/
private theorem exists_selectsOnly (htotal : (sizes.map fullChunks).sum < 2 ^ 64)
    (hpos : 0 < (sizes.map fullChunks).sum)
    (rng : Rng) : ∃ seq child chunk, randomHashSeqRanges sizes rng = some seq ∧
      (∃ size, sizes[child]? = some size ∧ chunk < fullChunks size) ∧ SelectsOnly seq (child + 1) chunk := by
  obtain ⟨child, chunk, h⟩ := exists_locate (rng.genRange_lt _ hpos)
  obtain ⟨count, hcount, hlt, -⟩ := locate_eq_some_iff.mp h
  rw [List.getElem?_map, Option.map_eq_some_iff] at hcount
  obtain ⟨size, hsize, rfl⟩ := hcount
  exact ⟨_, child, chunk, randomHashSeqRanges_eq htotal hpos rng, ⟨size, hsize, hlt⟩, selectsOnly_fromRanges h⟩

/-- Every chunk can be hit if and only if no child has a partial chunk. -/
theorem hitsEveryChunk_iff (hsome : ∃ size ∈ sizes, size ≠ 0) (htotal : (sizes.map chunks).sum < 2 ^ 64) :
    HitsEveryChunk sizes ↔ ∀ size ∈ sizes, size % 1024 = 0 := by
  have hfull : (sizes.map fullChunks).sum < 2 ^ 64 := Nat.lt_of_le_of_lt (sum_fullChunks_le sizes) htotal
  constructor
  · intro h size hsize
    rw [← fullChunks_eq_iff]
    by_contra hne
    have hle := fullChunks_le size
    -- the partial chunk of the child is the result of no draw
    obtain ⟨child, hchild⟩ := List.mem_iff_getElem?.mp hsize
    obtain ⟨size', hsize', hlt⟩ := (existsUnique_leadsTo_iff hfull).mp
      (h.unique child (fullChunks size) ⟨size, hchild, by omega⟩)
    rw [hchild, Option.some.injEq] at hsize'
    subst hsize'
    exact Nat.lt_irrefl _ hlt
  · intro hall
    have hchunks : ∀ child chunk, IsChunk sizes child chunk ↔
      ∃ size, sizes[child]? = some size ∧ chunk < fullChunks size := by
      intro child chunk
      refine exists_congr fun size => and_congr_right fun hsize => ?_
      rw [fullChunks_eq_iff.mpr (hall size (List.mem_of_getElem? hsize))]
    refine ⟨?_, ?_⟩
    · intro rng
      obtain ⟨size, hsize, hne⟩ := hsome
      have hsum := List.le_sum_of_mem (List.mem_map_of_mem (f := fullChunks) hsize)
      have hmod := hall size hsize
      have hpos : 0 < fullChunks size := by
        unfold fullChunks
        omega
      obtain ⟨seq, child, chunk, hseq, hchunk, hselects⟩ := exists_selectsOnly hfull (by omega) rng
      exact ⟨seq, child, chunk, hseq, (hchunks child chunk).mpr hchunk, hselects⟩
    · intro child chunk hchunk
      exact (existsUnique_leadsTo_iff hfull).mpr ((hchunks child chunk).mp hchunk)

end

theorem hitsEveryChunk_threeChildren : HitsEveryChunk [2048, 0, 1024] :=
  (hitsEveryChunk_iff ⟨2048, by decide, by decide⟩ (by decide)).mpr (by decide)

/-- A child with one byte has a chunk, but there is nothing to draw from. -/
theorem not_hitsEveryChunk_oneByte : (∃ size ∈ [1], size ≠ 0) ∧ ([1].map chunks).sum < 2 ^ 64 ∧
    (∀ rng, randomHashSeqRanges [1] rng = none) ∧ ¬ HitsEveryChunk [1] := by
  have hnone : ∀ rng, randomHashSeqRanges [1] rng = none := fun rng => rfl
  refine ⟨⟨1, by decide, by decide⟩, by decide, hnone, ?_⟩
  intro h
  obtain ⟨seq, _, _, hseq, -⟩ := h.hits ⟨fun _ => 0, fun n hn => hn⟩
  rw [hnone] at hseq
  cases hseq

end RandomChunk

end IrohBlobs
