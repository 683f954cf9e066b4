import IrohBlobs.Bitfield

/-!
# Bitfields on the wire

A bitfield is serialised as a list of numbers: the size and then the boundaries of the ranges.  Deserialising goes
through `Bitfield::new`, so that only canonical bitfields come out; and every bitfield that is produced is canonical
(`new_new`), so nothing is lost.  What is known of a bitfield depends on the chunks below the end only
(`isComplete_new`, `isValidated_new`), whatever a list has beyond it.
-/

namespace IrohBlobs

open Merkle (chunks)

namespace Bitfield

variable {ranges : ChunkRanges} {size x : Nat}

/-! ### Serialisation -/

/-- `Serialize`: the size, and the boundaries. -/
def encode (b : Bitfield) : List Nat := b.size :: b.ranges.boundaries

/-- `ChunkRanges::new`. -/
def chunkRangesNew (boundaries : List Nat) : Option ChunkRanges :=
  if h : boundaries.Pairwise (· < ·) then some ⟨boundaries, h⟩ else none

/-- `Deserialize`. -/
def decode : List Nat → Except String Bitfield
  | [] => .error "Bitfield needs at least size"
  | size :: boundaries =>
    match chunkRangesNew boundaries with
    | some ranges => .ok (new ranges size)
    | none => .error "Boundaries are not sorted"

/-- The encoded list contains the chunk. -/
def lists (numbers : List Nat) (x : Nat) : Bool := numbers.tail.countP (· ≤ x) % 2 == 1

/-- The bitfields that are produced. -/
inductive Produced : Bitfield → Prop
  | empty : Produced empty
  | complete (size : Nat) : Produced (complete size)
  | new (ranges : ChunkRanges) (size : Nat) : Produced (new ranges size)
  | combine (a b : Bitfield) : Produced (a.combine b)
  | update (a b : Bitfield) : Produced (a.update b).1

/-! ### Canonical bitfields -/

/-- A canonical bitfield is what `new` makes of it. -/
def Canonical (b : Bitfield) : Prop := new b.ranges b.size = b

private theorem isComplete_new (h : 0 < size) :
    (new ranges size).isComplete = true ↔ ∀ x, x < chunks size → x ∈ ranges := by
  unfold isComplete
  rw [size_new, if_neg (by omega), RangeSet.isSubset_iff]
  constructor
  · intro hall x hx
    have hmem := hall x (by rw [RangeSet.mem_range]; omega)
    rcases (mem_new h).mp hmem with hmem | ⟨hle, -⟩
    · exact hmem
    · omega
  · intro hall x hx
    rw [RangeSet.mem_range] at hx
    exact mem_new_of_mem (hall x hx.2)

private theorem isValidated_new (h : 0 < size) : (new ranges size).isValidated = true ↔ chunks size - 1 ∈ ranges := by
  have hpos := chunks_pos h
  unfold isValidated
  rw [size_new, if_neg (by omega), ← RangeSet.mem_iff, mem_new h]
  constructor
  · rintro (hmem | ⟨hle, -⟩)
    · exact hmem
    · omega
  · exact Or.inl

private theorem eq_of_size_ranges {a b : Bitfield} (hsize : a.size = b.size)
    (hranges : a.ranges = b.ranges) : a = b := by
  cases a
  cases b
  simp only at hsize hranges
  rw [hsize, hranges]

/-- Making a bitfield canonical again changes nothing. -/
theorem new_new (ranges : ChunkRanges) (size : Nat) : Canonical (new ranges size) := by
  unfold Canonical
  rw [size_new]
  refine eq_of_size_ranges (by rw [size_new, size_new]) ?_
  rcases Nat.eq_zero_or_pos size with rfl | hpos
  · rfl
  · have hchunks := chunks_pos hpos
    apply RangeSet.ext_mem
    intro x
    rw [mem_new hpos, mem_new hpos, mem_new hpos]
    constructor
    · rintro (hx | ⟨hx, hlast | ⟨hle, -⟩⟩)
      · exact hx
      · exact Or.inr ⟨hx, hlast⟩
      · omega
    · exact Or.inl

private theorem Produced.canonical {b : Bitfield} (h : Produced b) : Canonical b := by
  cases h with
  | empty => rfl
  | complete size =>
    have hsubset : (RangeSet.range 0 (chunks size)).isSubset RangeSet.all = true :=
      RangeSet.isSubset_iff.mpr fun x _ => RangeSet.mem_all x
    show Bitfield.new RangeSet.all size = ⟨size, RangeSet.all⟩
    rw [Bitfield.new, if_pos hsubset, ite_self]
  | new ranges size => exact new_new ranges size
  | combine a b => exact new_new _ _
  | update a b => exact new_new _ _

/-- In a canonical bitfield, complete means that all chunks are there. -/
private theorem Canonical.ranges_of_isComplete {b : Bitfield} (h : Canonical b) (hc : b.isComplete = true) :
    b.ranges = RangeSet.all := by
  rcases Nat.eq_zero_or_pos b.size with hzero | hpos
  · rw [isComplete, if_pos hzero, RangeSet.isAll_iff] at hc
    exact RangeSet.ext_mem fun x => iff_of_true (hc x) (RangeSet.mem_all x)
  · unfold isComplete at hc
    rw [if_neg (by omega)] at hc
    have hnew := congrArg Bitfield.ranges h
    unfold new at hnew
    rw [if_neg (by omega), if_pos hc] at hnew
    exact hnew.symm

/-- In a canonical bitfield, validated means that all chunks beyond the end are there. -/
private theorem Canonical.mem_of_isValidated {b : Bitfield} (h : Canonical b) (hv : b.isValidated = true)
    (hx : chunks b.size ≤ x) : x ∈ b.ranges := by
  rcases Nat.eq_zero_or_pos b.size with hzero | hpos
  · rw [isValidated, if_pos hzero, RangeSet.isAll_iff] at hv
    exact hv x
  · unfold isValidated at hv
    rw [if_neg (by omega)] at hv
    rw [← h, mem_new hpos]
    exact Or.inr ⟨hx, hv⟩

/-! ### Decoding -/

theorem decode_cons (size : Nat) {boundaries : List Nat} (h : boundaries.Pairwise (· < ·)) :
    decode (size :: boundaries) = .ok (new ⟨boundaries, h⟩ size) := by
  simp only [decode, chunkRangesNew, dif_pos h]

private theorem decode_encode {b : Bitfield} (h : Canonical b) : decode (encode b) = .ok b := by
  rw [encode, decode_cons b.size b.ranges.sorted]
  exact congrArg Except.ok h

/-- What an accepted list is decoded to. -/
theorem decode_ok {numbers : List Nat} {b : Bitfield} (h : decode numbers = .ok b) :
    ∃ size boundaries, numbers = size :: boundaries ∧
      ∃ hs : boundaries.Pairwise (· < ·), b = new ⟨boundaries, hs⟩ size := by
  cases numbers with
  | nil => cases h
  | cons size boundaries =>
    by_cases hs : boundaries.Pairwise (· < ·)
    · rw [decode_cons size hs] at h
      cases h
      exact ⟨size, boundaries, rfl, hs, rfl⟩
    · simp only [decode, chunkRangesNew, dif_neg hs] at h
      cases h

private theorem decode_error_iff {numbers : List Nat} :
    (∃ e, decode numbers = .error e) ↔ numbers = [] ∨ ¬ numbers.tail.Pairwise (· < ·) := by
  cases numbers with
  | nil => exact iff_of_true ⟨_, rfl⟩ (Or.inl rfl)
  | cons size boundaries =>
    by_cases hs : boundaries.Pairwise (· < ·)
    · rw [decode_cons size hs]
      simp [hs]
    · simp [decode, chunkRangesNew, hs]

/-- A decoded bitfield of a positive size is known by the chunks below its end. -/
private theorem state_of_lists {numbers numbers' : List Nat} {b b' : Bitfield} (h : decode numbers = .ok b)
    (h' : decode numbers' = .ok b') (hsize : numbers.head? = numbers'.head?) (hpos : 0 < b.size)
    (hlists : ∀ x, x < chunks b.size → lists numbers x = lists numbers' x) :
    b.isComplete = b'.isComplete ∧ b.isValidated = b'.isValidated := by
  obtain ⟨size, boundaries, rfl, hs, rfl⟩ := decode_ok h
  obtain ⟨size', boundaries', rfl, hs', rfl⟩ := decode_ok h'
  simp only [List.head?_cons, Option.some.injEq] at hsize
  subst hsize
  rw [size_new] at hpos hlists
  have hchunks := chunks_pos hpos
  have hmem : ∀ x, x < chunks size → (x ∈ (⟨boundaries, hs⟩ : RangeSet) ↔ x ∈ (⟨boundaries', hs'⟩ : RangeSet)) := by
    intro x hx
    rw [RangeSet.mem_iff, RangeSet.mem_iff]
    exact (hlists x hx).congr_left
  constructor
  · rw [Bool.eq_iff_iff, isComplete_new hpos, isComplete_new hpos]
    exact forall_congr' fun x => forall_congr' fun hx => hmem x hx
  · rw [Bool.eq_iff_iff, isValidated_new hpos, isValidated_new hpos]
    exact hmem _ (by omega)

private theorem not_mem_boundaries_union {s t : RangeSet} {x : Nat} (hs : x ∉ s.boundaries) (ht : x ∉ t.boundaries) :
    x ∉ (s ∪ t).boundaries := by
  have hcontains : ∀ y, (s ∪ t).contains y = (s.contains y || t.contains y) := RangeSet.contains_zip rfl s t
  rw [RangeSet.mem_boundaries, not_not] at hs ht ⊢
  cases x with
  | zero =>
    rw [hcontains, hs, ht]
    rfl
  | succ x =>
    rw [hcontains, hs, ht]
    exact (hcontains x).symm

/-- Boundaries of `u64` numbers stay such: canonical ranges have no other boundary than the end. -/
private theorem boundaries_new {ranges : ChunkRanges} {size x : Nat} (h : x ∈ (new ranges size).ranges.boundaries) :
    x ∈ ranges.boundaries ∨ x = 0 ∨ x = chunks size := by
  unfold new at h
  split at h
  · exact Or.inl h
  · split at h
    · exact Or.inr (Or.inl (by simpa [RangeSet.all] using h))
    · split at h
      · by_cases hx : x ∈ ranges.boundaries
        · exact Or.inl hx
        · by_cases hend : x ∈ (RangeSet.rangeFrom (chunks size)).boundaries
          · exact Or.inr (Or.inr (by simpa [RangeSet.rangeFrom] using hend))
          · exact absurd h (not_mem_boundaries_union hx hend)
      · exact Or.inl h

/-- The encoding is lossless, rejects only what is empty or not sorted, gives canonical bitfields, and tells of a
bitfield of a positive size what it lists below its end. -/
theorem encoding_canonical (b : Bitfield) (numbers : List Nat) :
    (Produced b → decode (encode b) = .ok b) ∧
    ((∃ e, decode numbers = .error e) ↔ numbers = [] ∨ ¬ numbers.tail.Pairwise (· < ·)) ∧
    (∀ d, decode numbers = .ok d → new d.ranges d.size = d ∧ (d.isComplete = true → d.ranges = RangeSet.all) ∧
      (d.isValidated = true → ∀ x, chunks d.size ≤ x → x ∈ d.ranges)) ∧
    ∀ numbers' d d', decode numbers = .ok d → decode numbers' = .ok d' → numbers.head? = numbers'.head? → 0 < d.size →
      (∀ x, x < chunks d.size → lists numbers x = lists numbers' x) →
      d.isComplete = d'.isComplete ∧ d.isValidated = d'.isValidated := by
  refine ⟨fun h => decode_encode h.canonical, decode_error_iff, ?_, ?_⟩
  · intro d h
    obtain ⟨size, boundaries, rfl, hs, rfl⟩ := decode_ok h
    have hcanonical := new_new ⟨boundaries, hs⟩ size
    exact ⟨hcanonical, hcanonical.ranges_of_isComplete, fun hv x hx => hcanonical.mem_of_isValidated hv hx⟩
  · intro numbers' d d' h h' hsize hpos hlists
    exact state_of_lists h h' hsize hpos hlists

/-- A decoded list of `u64` numbers is encoded by `u64` numbers again. -/
theorem lt_of_mem_encode {numbers : List Nat} {b : Bitfield} (hnumbers : ∀ x ∈ numbers, x < 2 ^ 64)
    (h : decode numbers = .ok b) {x : Nat} (hx : x ∈ encode b) : x < 2 ^ 64 := by
  obtain ⟨size, boundaries, rfl, hs, rfl⟩ := decode_ok h
  have hsize := hnumbers size (by simp)
  rw [encode, size_new, List.mem_cons] at hx
  rcases hx with rfl | hx
  · exact hsize
  · rcases boundaries_new hx with hx | rfl | rfl
    · exact hnumbers x (List.mem_cons_of_mem _ hx)
    · exact Nat.two_pow_pos 64
    · unfold chunks
      omega

end Bitfield

end IrohBlobs
