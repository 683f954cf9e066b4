import IrohBlobs.BaoFile

/-!
# Provable chunks

What it means that the stored part of a blob can be proved: a chunk is provable if its data is stored, and the pairs of
all stored nodes above it are in the outboard, each at the position that the node has in the tree of the blob
(`HasChunk`).

Items of an import are true if they were verified and if their parents belong where the claimed size puts them
(`TrueItem`).  Writing true items keeps provable chunks provable, and makes the chunks of their leaves provable if the
pairs above the leaves are written too (`hasChunk_of_leaf`).  A bitfield whose size is wrong says nothing about the end
of the blob (`Fits`), so combining bitfields does not invent chunks (`fits_combine`).
-/

namespace IrohBlobs

namespace Provable

open Merkle BaoTree

section Truth

variable {H : Type} (f : HashFns UInt8 H) (blob : List UInt8)

/-- The node at the path is stored in the outboard of the blob. -/
def IsStored (p : List Bool) : Prop := IsPath 16 (treeChunks blob.length) p ∧ 16 < (sub (treeChunks blob.length) p).2

/-- The bytes of the blob. -/
def TrueData (i : Nat) (x : UInt8) : Prop := blob[i]? = some x

/-- The hashes of the outboard of the blob. -/
def TrueOutboard (i : Nat) (x : H) : Prop :=
  ∃ p, IsStored blob p ∧
    ((i = 2 * slot (treeChunks blob.length) p ∧ x = nodeHash f blob (p ++ [false])) ∨
      (i = 2 * slot (treeChunks blob.length) p + 1 ∧ x = nodeHash f blob (p ++ [true])))

/-- The pair of a node is in the outboard. -/
def HasPair (outboard : Content H) (p : List Bool) : Prop :=
  outboard.cell (2 * slot (treeChunks blob.length) p) = some (nodeHash f blob (p ++ [false])) ∧
    outboard.cell (2 * slot (treeChunks blob.length) p + 1) = some (nodeHash f blob (p ++ [true]))

/-- The data of a chunk is stored, and so are the pairs of all nodes above it. -/
structure HasChunk (data : Content UInt8) (outboard : Content H) (x : Nat) : Prop where
  data : ∀ i, x * 1024 ≤ i → i < (x + 1) * 1024 → i < blob.length → data.cell i = blob[i]?
  pairs : ∀ p, IsStored blob p → (sub (treeChunks blob.length) p).1 ≤ x →
    x < (sub (treeChunks blob.length) p).1 + (sub (treeChunks blob.length) p).2 → HasPair f blob outboard p

/-- All chunks of the bitfield are provable. -/
def HasBitfield (data : Content UInt8) (outboard : Content H) (bitfield : Bitfield) : Prop :=
  ∀ x ∈ bitfield.ranges, x < chunks blob.length → HasChunk f blob data outboard x

/-- The path leads to a leaf of the claimed tree that has the same place in the tree of the blob. -/
structure TrueLeaf (size : Nat) (p : List Bool) (leaf : Leaf) : Prop where
  path : IsPath 1 (treeChunks blob.length) p
  path' : IsPath 1 (treeChunks size) p
  sub_eq : sub (treeChunks size) p = sub (treeChunks blob.length) p
  le : (sub (treeChunks blob.length) p).2 ≤ 16
  offset : leaf.offset = (sub (treeChunks blob.length) p).1 * 1024
  data : leaf.data = region blob (sub (treeChunks blob.length) p).1 (sub (treeChunks blob.length) p).2
  ne_nil : blob ≠ []
  /-- The size is right if the leaf is the last one. -/
  last : (∀ b ∈ p, b = true) → size = blob.length

/-- The path leads to an inner node of the claimed tree, the pair is that of the blob, and if it is stored it is stored
where it belongs. -/
structure TrueParent (size : Nat) (p : List Bool) (parent : Parent H) : Prop where
  path : IsPath 1 (treeChunks size) p
  lt : 1 < (sub (treeChunks size) p).2
  node : parent.node = nodeAt (treeChunks size) p
  pair : parent.pair = (nodeHash f blob (p ++ [false]), nodeHash f blob (p ++ [true]))
  placed : 16 < (sub (treeChunks size) p).2 → IsStored blob p ∧
    slot (treeChunks size) p = slot (treeChunks blob.length) p

/-- A verified item of an import that claims a size. -/
def TrueItem (size : Nat) : BaoContentItem H → Prop
  | .parent parent => ∃ p, TrueParent f blob size p parent
  | .leaf leaf => ∃ p, TrueLeaf blob size p leaf

end Truth

section Writes

variable {H : Type} {f : HashFns UInt8 H} {blob : List UInt8}

theorem TrueData.unique {i : Nat} {x : UInt8} (h : TrueData blob i x) : ∀ y, TrueData blob i y → y = x := by
  intro y hy
  unfold TrueData at *
  rw [h, Option.some.injEq] at hy
  exact hy.symm

theorem TrueOutboard.unique {i : Nat} {x : H} (h : TrueOutboard f blob i x) : ∀ y, TrueOutboard f blob i y → y = x := by
  intro y hy
  obtain ⟨p, hp, hpx⟩ := h
  obtain ⟨q, hq, hqy⟩ := hy
  have hslot : slot (treeChunks blob.length) p = slot (treeChunks blob.length) q := by
    rcases hpx with ⟨h1, -⟩ | ⟨h1, -⟩ <;> rcases hqy with ⟨h2, -⟩ | ⟨h2, -⟩ <;> omega
  obtain rfl := slot_inj hp.1 hp.2 hq.1 hq.2 hslot
  rcases hpx with ⟨h1, rfl⟩ | ⟨h1, rfl⟩ <;> rcases hqy with ⟨h2, rfl⟩ | ⟨h2, rfl⟩
  · rfl
  · omega
  · omega
  · rfl

private theorem IsStored.trueOutboard_left {p : List Bool} (h : IsStored blob p) :
    TrueOutboard f blob (2 * slot (treeChunks blob.length) p) (nodeHash f blob (p ++ [false])) :=
  ⟨p, h, Or.inl ⟨rfl, rfl⟩⟩

private theorem IsStored.trueOutboard_right {p : List Bool} (h : IsStored blob p) :
    TrueOutboard f blob (2 * slot (treeChunks blob.length) p + 1) (nodeHash f blob (p ++ [true])) :=
  ⟨p, h, Or.inr ⟨rfl, rfl⟩⟩

/-- Writes of true hashes keep a pair. -/
theorem HasPair.writes {outboard : Content H} {p : List Bool} (h : HasPair f blob outboard p) (hp : IsStored blob p)
    {ws : List (Nat × List H)} (hws : Content.Respects (TrueOutboard f blob) ws) :
    HasPair f blob (outboard.writes ws) p :=
  ⟨Content.cell_writes_of_unique hws hp.trueOutboard_left.unique h.1,
    Content.cell_writes_of_unique hws hp.trueOutboard_right.unique h.2⟩

private theorem hasPair_of_sets {outboard : Content H} {p : List Bool} (hp : IsStored blob p) {ws : List (Nat × List H)}
    (hws : Content.Respects (TrueOutboard f blob) ws)
    (hl : Content.Sets ws (2 * slot (treeChunks blob.length) p) (nodeHash f blob (p ++ [false])))
    (hr : Content.Sets ws (2 * slot (treeChunks blob.length) p + 1) (nodeHash f blob (p ++ [true]))) :
    HasPair f blob (outboard.writes ws) p :=
  ⟨Content.cell_writes_of_sets hws hp.trueOutboard_left.unique hl,
    Content.cell_writes_of_sets hws hp.trueOutboard_right.unique hr⟩

/-- Writes of true data and true hashes keep a chunk provable. -/
theorem HasChunk.writes {data : Content UInt8} {outboard : Content H} {x : Nat} (h : HasChunk f blob data outboard x)
    {dws : List (Nat × List UInt8)} (hdws : Content.Respects (TrueData blob) dws) {ows : List (Nat × List H)}
    (hows : Content.Respects (TrueOutboard f blob) ows) :
    HasChunk f blob (data.writes dws) (outboard.writes ows) x := by
  refine ⟨fun i h1 h2 h3 => ?_, fun p hp h1 h2 => (h.pairs p hp h1 h2).writes hp hows⟩
  have hi : blob[i]? = some blob[i] := List.getElem?_eq_getElem h3
  rw [hi]
  refine Content.cell_writes_of_unique hdws (TrueData.unique hi) ?_
  rw [h.data i h1 h2 h3, hi]

/-! ### The writes of true items -/

theorem getElem?_region (s m j : Nat) : (region blob s m)[j]? = if j < m * 1024 then blob[s * 1024 + j]? else none := by
  rw [region, List.getElem?_take]
  split
  · rw [List.getElem?_drop]
  · rfl

/-- The writes to the outboard in memory: both hashes at once. -/
def memOutboardWrites (size : Nat) : BaoContentItem H → List (Nat × List H)
  | .parent parent =>
    match preOrderOffset (treeChunks size) parent.node with
    | some offset => [(2 * offset, [parent.pair.1, parent.pair.2])]
    | none => []
  | .leaf _ => []

theorem writeBatch_eq_mem (size : Nat) (batch : List (BaoContentItem H)) (s : PartialMemStorage H) :
    (s.writeBatch size batch).data = s.data.writes (batch.flatMap dataWrites) ∧
      (s.writeBatch size batch).outboard = s.outboard.writes (batch.flatMap (memOutboardWrites size)) ∧
      (s.writeBatch size batch).bitfield = s.bitfield := by
  induction batch generalizing s with
  | nil => exact ⟨rfl, rfl, rfl⟩
  | cons item batch ih =>
    obtain ⟨h1, h2, h3⟩ := ih (s.writeItem size item)
    rw [PartialMemStorage.writeBatch, List.foldl_cons]
    rw [PartialMemStorage.writeBatch] at h1 h2 h3
    rw [h1, h2, h3, List.flatMap_cons, List.flatMap_cons, Content.writes_append, Content.writes_append]
    cases item with
    | leaf leaf => exact ⟨rfl, rfl, rfl⟩
    | parent parent =>
      cases ho : preOrderOffset (treeChunks size) parent.node with
      | none => simp [PartialMemStorage.writeItem, memOutboardWrites, dataWrites, ho]
      | some offset => simp [PartialMemStorage.writeItem, memOutboardWrites, dataWrites, ho]

theorem writeBatch_eq_file (size : Nat) (batch : List (BaoContentItem H)) (s : PartialFileStorage H) :
    s.writeBatch size batch = ⟨s.data.writes (batch.flatMap dataWrites),
      s.outboard.writes (batch.flatMap (outboardWrites size)), s.sizes.writes (batch.flatMap (sizesWrites size)),
      s.bitfield⟩ := by
  induction batch generalizing s with
  | nil => rfl
  | cons item batch ih =>
    rw [PartialFileStorage.writeBatch, List.foldl_cons, ← PartialFileStorage.writeBatch, ih]
    simp only [PartialFileStorage.writeItem, List.flatMap_cons, Content.writes_append]

/-- Both kinds of outboard writes set the same cells. -/
structure OutboardWriter (write : Nat → BaoContentItem H → List (Nat × List H)) : Prop where
  leaf : ∀ size leaf, write size (.leaf leaf) = []
  inner : ∀ size parent, preOrderOffset (treeChunks size) parent.node = none → write size (.parent parent) = []
  stored : ∀ size parent offset, preOrderOffset (treeChunks size) parent.node = some offset →
    (∀ R : Nat → H → Prop, R (2 * offset) parent.pair.1 → R (2 * offset + 1) parent.pair.2 →
      Content.Respects R (write size (.parent parent))) ∧
    Content.Sets (write size (.parent parent)) (2 * offset) parent.pair.1 ∧
    Content.Sets (write size (.parent parent)) (2 * offset + 1) parent.pair.2

theorem outboardWriter_file : OutboardWriter (outboardWrites (H := H)) := by
  refine ⟨fun _ _ => rfl, fun size parent ho => by simp [outboardWrites, ho], fun size parent offset ho => ?_⟩
  simp only [outboardWrites, ho]
  refine ⟨?_, ⟨(2 * offset, [parent.pair.1]), by simp, 0, rfl, rfl⟩,
    ⟨(2 * offset + 1, [parent.pair.2]), by simp, 0, rfl, rfl⟩⟩
  intro R h1 h2 w hw j x hj
  simp only [List.mem_cons, List.not_mem_nil, or_false] at hw
  rcases hw with rfl | rfl <;> cases j <;> simp_all

theorem outboardWriter_mem : OutboardWriter (memOutboardWrites (H := H)) := by
  refine ⟨fun _ _ => rfl, fun size parent ho => by simp [memOutboardWrites, ho], fun size parent offset ho => ?_⟩
  simp only [memOutboardWrites, ho]
  refine ⟨?_, ⟨_, List.mem_singleton_self _, 0, rfl, rfl⟩, ⟨_, List.mem_singleton_self _, 1, rfl, rfl⟩⟩
  intro R h1 h2 w hw j x hj
  rw [List.mem_singleton] at hw
  subst hw
  match j, hj with
  | 0, hj => simp_all
  | 1, hj => simp_all

theorem respects_dataWrites {size : Nat} {batch : List (BaoContentItem H)}
    (h : ∀ item ∈ batch, TrueItem f blob size item) :
    Content.Respects (TrueData blob) (batch.flatMap dataWrites) := by
  intro w hw j x hj
  obtain ⟨item, hitem, hw⟩ := List.mem_flatMap.mp hw
  cases item with
  | parent parent => simp [dataWrites] at hw
  | leaf leaf =>
    obtain ⟨p, hp⟩ := h _ hitem
    simp only [dataWrites, List.mem_singleton] at hw
    subst hw
    rw [hp.data, getElem?_region] at hj
    split at hj
    · rwa [TrueData, hp.offset]
    · cases hj

variable {write : Nat → BaoContentItem H → List (Nat × List H)}

/-- The position of a stored parent. -/
theorem TrueParent.preOrderOffset {size : Nat} {p : List Bool} {parent : Parent H} (h : TrueParent f blob size p parent)
    (hlt : 16 < (sub (treeChunks size) p).2) :
    preOrderOffset (treeChunks size) parent.node = some (slot (treeChunks blob.length) p) := by
  rw [h.node, preOrderOffset_node h.path hlt, (h.placed hlt).2]

theorem respects_outboardWrites (hw : OutboardWriter write) {size : Nat} {batch : List (BaoContentItem H)}
    (h : ∀ item ∈ batch, TrueItem f blob size item) :
    Content.Respects (TrueOutboard f blob) (batch.flatMap (write size)) := by
  intro w hmem
  obtain ⟨item, hitem, hmem⟩ := List.mem_flatMap.mp hmem
  cases item with
  | leaf leaf =>
    rw [hw.leaf] at hmem
    cases hmem
  | parent parent =>
    obtain ⟨p, hp⟩ := h _ hitem
    by_cases hlt : 16 < (sub (treeChunks size) p).2
    · have hstored := (hp.placed hlt).1
      refine (hw.stored size parent _ (hp.preOrderOffset hlt)).1 _ ?_ ?_ w hmem
      · rw [hp.pair]
        exact hstored.trueOutboard_left
      · rw [hp.pair]
        exact hstored.trueOutboard_right
    · rw [hw.inner size parent (by rw [hp.node, preOrderOffset_of_le hp.path hp.lt (by omega)])] at hmem
      cases hmem

/-- A stored parent of the batch is in the outboard afterwards. -/
theorem hasPair_of_mem (hw : OutboardWriter write) {size : Nat} {batch : List (BaoContentItem H)}
    (h : ∀ item ∈ batch, TrueItem f blob size item) {p : List Bool} {parent : Parent H} (hmem : .parent parent ∈ batch)
    (hp : TrueParent f blob size p parent) (hlt : 16 < (sub (treeChunks size) p).2) (outboard : Content H) :
    HasPair f blob (outboard.writes (batch.flatMap (write size))) p := by
  obtain ⟨-, hl, hr⟩ := hw.stored size parent _ (hp.preOrderOffset hlt)
  rw [hp.pair] at hl hr
  have hsets : ∀ i x, Content.Sets (write size (.parent parent)) i x →
    Content.Sets (batch.flatMap (write size)) i x := by
    rintro i x ⟨w, hw, hset⟩
    exact ⟨w, List.mem_flatMap.mpr ⟨_, hmem, hw⟩, hset⟩
  exact hasPair_of_sets (hp.placed hlt).1 (respects_outboardWrites hw h) (hsets _ _ hl) (hsets _ _ hr)

/-- The chunks of a leaf of the batch are provable afterwards, if the pairs above the leaf are there. -/
theorem hasChunk_of_leaf {size : Nat} {batch : List (BaoContentItem H)} (h : ∀ item ∈ batch, TrueItem f blob size item)
    {p : List Bool} {leaf : Leaf} (hmem : .leaf leaf ∈ batch) (hp : TrueLeaf blob size p leaf) {data : Content UInt8}
    {outboard : Content H}
    (hpairs : ∀ q b r, p = q ++ b :: r → 16 < (sub (treeChunks size) q).2 → IsStored blob q → HasPair f blob outboard q)
    {x : Nat} (hx : (sub (treeChunks blob.length) p).1 ≤ x)
    (hx' : x < (sub (treeChunks blob.length) p).1 + (sub (treeChunks blob.length) p).2) :
    HasChunk f blob (data.writes (batch.flatMap dataWrites)) outboard x := by
  constructor
  · intro i h1 h2 h3
    have hi : blob[i]? = some blob[i] := List.getElem?_eq_getElem h3
    rw [hi]
    refine Content.cell_writes_of_sets (respects_dataWrites h) (TrueData.unique hi) ?_
    refine ⟨(leaf.offset, leaf.data), List.mem_flatMap.mpr ⟨_, hmem, by simp [dataWrites]⟩, i - leaf.offset, ?_, ?_⟩
    · rw [hp.data, hp.offset, getElem?_region, if_pos (by omega), ← hi]
      congr 1
      omega
    · show i = leaf.offset + (i - leaf.offset)
      rw [hp.offset]
      omega
  · intro q hq h1 h2
    have hn : 0 < treeChunks blob.length := by unfold treeChunks; omega
    have hle := hp.le
    obtain ⟨b, r, rfl⟩ := exists_append_of_mem hn hp.path (hq.1.mono (by omega)) ⟨hx, hx'⟩ ⟨h1, h2⟩
      (by have := hq.2; omega)
    refine hpairs q b r rfl ?_ hq
    -- the node has the same left child in both trees
    have hagree := (agrees_of_sub_eq hp.path' hp.path hp.sub_eq).of_append.2
    have hleft : left (sub (treeChunks size) q).2 = left (sub (treeChunks blob.length) q).2 := by
      cases b <;> exact hagree.1
    have hlt : 1 < (sub (treeChunks size) q).2 := (isPath_append.mp hp.path').2.lt
    have hq16 : 2 ^ 4 < (sub (treeChunks blob.length) q).2 := hq.2
    exact (two_pow_lt_iff (k := 4) hlt).mpr (by rw [hleft]; exact (two_pow_lt_iff (by omega)).mp hq16)

end Writes

/-! ### Bitfields with claimed sizes -/

section Bitfields

variable {size : Nat} {reaches : Nat → Nat → Prop} {a b : Bitfield}

/-- The size of the bitfield is right, or no chunk of the bitfield is the last one of the claimed or of the true size.
`reaches z y` is what else is known of a wrong size `z` about the last chunks. -/
def Fits (size : Nat) (reaches : Nat → Nat → Prop) (b : Bitfield) : Prop :=
  b.size = size ∨ ∀ x ∈ b.ranges, x + 1 < chunks b.size ∧ x + 1 < chunks size ∧ ∃ y, x ≤ y ∧ reaches b.size y

/-- Bringing a bitfield into canonical form adds only chunks beyond the end, if the last chunk is there. -/
theorem fits_new {ranges : ChunkRanges} {z : Nat} (h : Fits size reaches ⟨z, ranges⟩) :
    Fits size reaches (Bitfield.new ranges z) ∧
      ∀ x ∈ (Bitfield.new ranges z).ranges, x ∈ ranges ∨ (chunks size ≤ x ∧ chunks size - 1 ∈ ranges) := by
  rcases Nat.eq_zero_or_pos z with rfl | hz
  · have hnew : Bitfield.new ranges 0 = ⟨0, ranges⟩ := by rw [Bitfield.new, if_pos rfl]
    rw [hnew]
    exact ⟨h, fun x hx => Or.inl hx⟩
  · rcases h with rfl | h
    · exact ⟨Or.inl (Bitfield.size_new _ _), fun x hx => (Bitfield.mem_new hz).mp hx⟩
    · have hmem : ∀ x ∈ (Bitfield.new ranges z).ranges, x ∈ ranges := by
        intro x hx
        rcases (Bitfield.mem_new hz).mp hx with hx | ⟨-, hx⟩
        · exact hx
        · have h1 := (h _ hx).1
          have h2 := Bitfield.chunks_pos hz
          simp only at h1
          omega
      refine ⟨Or.inr (fun x hx => ?_), fun x hx => Or.inl (hmem x hx)⟩
      rw [Bitfield.size_new]
      exact h x (hmem x hx)

/-- The chosen size is that of a bitfield that reaches at least as far as the other one. -/
private theorem chooseSize_cases (a b : Bitfield) :
    (a.chooseSize b = a.size ∧ ∀ x ∈ b.ranges, ∃ y ∈ a.ranges, x ≤ y) ∨
      (a.chooseSize b = b.size ∧ ∀ x ∈ a.ranges, ∃ y ∈ b.ranges, x ≤ y) := by
  -- a bounded set is exceeded by a set whose bound is not smaller
  have bounded : ∀ (s t : ChunkRanges) (u v : Nat), s.upperBound = some u → t.upperBound = some v → u ≤ v →
      ∀ x ∈ s, ∃ y ∈ t, x ≤ y := by
    intro s t u v hu hv hle x hx
    have := RangeSet.lt_of_upperBound hu hx
    obtain ⟨v, rfl⟩ : ∃ v', v = v' + 1 := ⟨v - 1, by omega⟩
    exact ⟨v, RangeSet.pred_mem_of_upperBound hv, by omega⟩
  have unbounded : ∀ (s t : ChunkRanges), t.upperBound = none → ∀ x ∈ s, ∃ y ∈ t, x ≤ y := by
    intro s t ht x _
    obtain ⟨n, hn⟩ := RangeSet.mem_of_upperBound_none ht
    exact ⟨max n x, hn _ (by omega), by omega⟩
  unfold Bitfield.chooseSize
  cases ha : a.ranges.upperBound with
  | none =>
    cases hb : b.ranges.upperBound with
    | none =>
      rcases Nat.le_total b.size a.size with h | h
      · exact Or.inl ⟨Nat.max_eq_left h, unbounded _ _ ha⟩
      · exact Or.inr ⟨Nat.max_eq_right h, unbounded _ _ hb⟩
    | some v => exact Or.inl ⟨rfl, unbounded _ _ ha⟩
  | some u =>
    cases hb : b.ranges.upperBound with
    | none => exact Or.inr ⟨rfl, unbounded _ _ hb⟩
    | some v =>
      simp only
      by_cases h1 : u < v
      · rw [if_pos h1]
        exact Or.inr ⟨rfl, bounded _ _ u v ha hb (by omega)⟩
      · rw [if_neg h1]
        by_cases h2 : v < u
        · rw [if_pos h2]
          exact Or.inl ⟨rfl, bounded _ _ v u hb ha (by omega)⟩
        · rw [if_neg h2]
          rcases Nat.le_total b.size a.size with h | h
          · exact Or.inl ⟨Nat.max_eq_left h, bounded _ _ v u hb ha (by omega)⟩
          · exact Or.inr ⟨Nat.max_eq_right h, bounded _ _ u v ha hb (by omega)⟩

/-- Combining bitfields adds only chunks beyond the end. -/
theorem fits_combine (ha : Fits size reaches a) (hb : Fits size reaches b) :
    Fits size reaches (a.combine b) ∧ ∀ x ∈ (a.combine b).ranges,
      x ∈ a.ranges ∪ b.ranges ∨ (chunks size ≤ x ∧ chunks size - 1 ∈ a.ranges ∪ b.ranges) := by
  refine fits_new ?_
  -- a bitfield with a wrong size also bounds the one that does not reach further
  have dominated : ∀ s t : Bitfield, Fits size reaches s → (∀ x ∈ t.ranges, ∃ y ∈ s.ranges, x ≤ y) →
      s.size = size ∨ ∀ x, x ∈ s.ranges ∨ x ∈ t.ranges →
        x + 1 < chunks s.size ∧ x + 1 < chunks size ∧ ∃ y, x ≤ y ∧ reaches s.size y := by
    intro s t hs hdom
    refine hs.imp_right (fun h x hx => ?_)
    rcases hx with hx | hx
    · exact h x hx
    · obtain ⟨y, hy, hle⟩ := hdom x hx
      obtain ⟨h1, h2, z, h3, h4⟩ := h y hy
      exact ⟨by omega, by omega, z, by omega, h4⟩
  rcases chooseSize_cases a b with ⟨hz, hdom⟩ | ⟨hz, hdom⟩
  · rw [hz]
    exact (dominated a b ha hdom).imp_right (fun h x hx => h x (RangeSet.mem_union.mp hx))
  · rw [hz]
    exact (dominated b a hb hdom).imp_right (fun h x hx => h x (RangeSet.mem_union.mp hx).symm)

end Bitfields

end Provable

end IrohBlobs
