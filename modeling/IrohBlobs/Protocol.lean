import IrohBlobs.RangeSpec
import Mathlib.Data.List.AList

/-!
# Requests and their builders

The constructors of `ChunkRangesSeq` from lists (`from_ranges`, `from_ranges_infinite`) and the builders of
`protocol.rs`.  A builder keeps a map from offsets to ranges; building lists the ranges of the offsets up to the last
non-empty one.  The results are described by `ChunkRangesSeq.get`: `get_build`, `get_buildOpen`.
-/

namespace IrohBlobs

namespace ChunkRangesSeq

/-! ### Sequences from lists -/

/-- The ranges of the last entry, or nothing. -/
def lastRanges (res : List (Nat × ChunkRanges)) : ChunkRanges := (res.getLast?.map Prod.snd).getD ∅

/-- One round of the loop of `from_ranges_inner`: an entry is added where the ranges change. -/
def pushRange (acc : List (Nat × ChunkRanges) × Nat) (range : ChunkRanges) : List (Nat × ChunkRanges) × Nat :=
  (if range = lastRanges acc.1 then acc.1 else acc.1 ++ [(acc.2, range)], acc.2 + 1)

def fromRangesInner (ranges : List ChunkRanges) : List (Nat × ChunkRanges) × Nat := ranges.foldl pushRange ([], 0)

/-- The last element is repeated forever. -/
def fromRangesInfinite (ranges : List ChunkRanges) : ChunkRangesSeq := ⟨(fromRangesInner ranges).1⟩

/-- Nothing is selected after the last element. -/
def fromRanges (ranges : List ChunkRanges) : ChunkRangesSeq :=
  let (res, next) := fromRangesInner ranges
  if (lastRanges res).isEmpty then ⟨res⟩ else ⟨res ++ [(next, ∅)]⟩

theorem fromRangesInner_concat (l : List ChunkRanges) (r : ChunkRanges) :
    fromRangesInner (l ++ [r]) = pushRange (fromRangesInner l) r := by
  simp [fromRangesInner]

private theorem lastRanges_concat (es : List (Nat × ChunkRanges)) (o : Nat) (r : ChunkRanges) :
    lastRanges (es ++ [(o, r)]) = r := by
  simp [lastRanges]

theorem fromRangesInner_snd (l : List ChunkRanges) : (fromRangesInner l).2 = l.length := by
  induction l using List.reverseRecOn with
  | nil => rfl
  | append_singleton l r ih => simp [fromRangesInner_concat, pushRange, ih]

theorem fromRangesInner_lt (l : List ChunkRanges) : ∀ e ∈ (fromRangesInner l).1, e.1 < l.length := by
  induction l using List.reverseRecOn with
  | nil => simp [fromRangesInner]
  | append_singleton l r ih =>
    intro e he
    simp only [fromRangesInner_concat, pushRange, fromRangesInner_snd] at he
    simp only [List.length_append, List.length_singleton]
    split at he
    · have := ih e he; omega
    · simp only [List.mem_append, List.mem_singleton] at he
      rcases he with he | rfl
      · have := ih e he; omega
      · simp

private theorem pairwise_fromRangesInner (l : List ChunkRanges) :
    (fromRangesInner l).1.Pairwise (fun a b => a.1 < b.1) := by
  induction l using List.reverseRecOn with
  | nil => exact List.Pairwise.nil
  | append_singleton l r ih =>
    simp only [fromRangesInner_concat, pushRange, fromRangesInner_snd]
    split
    · exact ih
    · refine List.pairwise_append.mpr ⟨ih, List.pairwise_singleton _ _, ?_⟩
      intro a ha b hb
      rw [List.mem_singleton.mp hb]
      exact fromRangesInner_lt l a ha

/-- The offsets of `from_ranges_infinite` increase. -/
theorem pairwise_fromRangesInfinite (l : List ChunkRanges) :
    (fromRangesInfinite l).entries.Pairwise (fun a b => a.1 < b.1) := pairwise_fromRangesInner l

/-- The offsets of `from_ranges` increase. -/
theorem pairwise_fromRanges (l : List ChunkRanges) : (fromRanges l).entries.Pairwise (fun a b => a.1 < b.1) := by
  have hinner := pairwise_fromRangesInner l
  simp only [fromRanges, fromRangesInner_snd]
  split
  · exact hinner
  · refine List.pairwise_append.mpr ⟨hinner, List.pairwise_singleton _ _, ?_⟩
    intro a ha b hb
    rw [List.mem_singleton.mp hb]
    exact fromRangesInner_lt l a ha

private theorem lastRanges_fromRangesInner (l : List ChunkRanges) :
    lastRanges (fromRangesInner l).1 = l.getLastD ∅ := by
  induction l using List.reverseRecOn with
  | nil => rfl
  | append_singleton l r ih =>
    simp only [fromRangesInner_concat, pushRange, List.getLastD_concat]
    split
    · rename_i h; exact h.symm
    · exact lastRanges_concat _ _ _

/-- From the last entry on, the ranges are those of the last entry. -/
theorem valueFrom_of_le {cur : ChunkRanges} {es : List (Nat × ChunkRanges)} {n : Nat}
    (h : ∀ e ∈ es, e.1 ≤ n) : valueFrom cur es n = (es.getLast?.map Prod.snd).getD cur := by
  induction es generalizing cur with
  | nil => rfl
  | cons e es ih =>
    obtain ⟨o, r⟩ := e
    have ho : o ≤ n := h (o, r) (by simp)
    simp only [valueFrom, show ¬ n < o by omega, ↓reduceIte]
    rw [ih (fun e he => h e (by simp [he])), List.getLast?_cons]
    cases es.getLast? <;> rfl

/-- The entries of `from_ranges_inner` select the listed ranges, and the last of them from then on. -/
private theorem valueFrom_fromRangesInner (l : List ChunkRanges) (i : Nat) :
    valueFrom ∅ (fromRangesInner l).1 i = if h : i < l.length then l.get ⟨i, h⟩ else l.getLastD ∅ := by
  induction l using List.reverseRecOn generalizing i with
  | nil => simp [fromRangesInner, valueFrom]
  | append_singleton l r ih =>
    have hle : ∀ e ∈ (fromRangesInner l).1, e.1 ≤ l.length := fun e he => (fromRangesInner_lt l e he).le
    have hlast : ∀ j, l.length ≤ j → valueFrom ∅ (fromRangesInner l).1 j = l.getLastD ∅ := by
      intro j hj
      rw [ih, dif_neg (by omega)]
    simp only [fromRangesInner_concat, pushRange, fromRangesInner_snd, List.getLastD_concat, List.length_append,
      List.length_singleton]
    split
    · -- the ranges do not change: no entry is added
      rename_i hr
      rw [lastRanges_fromRangesInner] at hr
      by_cases h1 : i < l.length
      · rw [ih, dif_pos h1, dif_pos (by omega)]
        simp [List.getElem_append_left h1]
      · rw [hlast i (by omega), ← hr]
        split
        · have hi : i = l.length := by omega
          subst hi
          simp
        · rfl
    · rw [valueFrom_concat hle]
      by_cases h1 : i < l.length
      · rw [if_pos h1, ih, dif_pos h1, dif_pos (by omega)]
        simp [List.getElem_append_left h1]
      · rw [if_neg h1]
        split
        · have hi : i = l.length := by omega
          subst hi
          simp
        · rfl

/-- Blob `i` of `from_ranges_infinite` gets the `i`-th ranges, and the last ones when the list is over. -/
theorem get_fromRangesInfinite (l : List ChunkRanges) (i : Nat) :
    (fromRangesInfinite l).get i = if h : i < l.length then l.get ⟨i, h⟩ else l.getLastD ∅ :=
  valueFrom_fromRangesInner l i

/-- Blob `i` of `from_ranges` gets the `i`-th ranges, and nothing when the list is over. -/
theorem get_fromRanges (l : List ChunkRanges) (i : Nat) : (fromRanges l).get i = l.getD i ∅ := by
  have hle : ∀ e ∈ (fromRangesInner l).1, e.1 ≤ l.length := fun e he => (fromRangesInner_lt l e he).le
  have hget : ∀ h : i < l.length, l.getD i ∅ = l.get ⟨i, h⟩ := by
    intro h
    simp [List.getElem?_eq_getElem h]
  have hnone : ¬ i < l.length → l.getD i ∅ = ∅ := by
    intro h
    simp [List.getElem?_eq_none (show l.length ≤ i by omega)]
  simp only [fromRanges, get, fromRangesInner_snd]
  split
  · rename_i he
    rw [valueFrom_fromRangesInner]
    split
    · rename_i h; exact (hget h).symm
    · rename_i h
      rw [hnone h, ← lastRanges_fromRangesInner]
      exact RangeSet.eq_empty_iff.mpr (RangeSet.isEmpty_iff.mp he)
  · rw [valueFrom_concat hle, valueFrom_fromRangesInner]
    split
    · rename_i h; exact (hget h).symm
    · rename_i h; exact (hnone h).symm

end ChunkRangesSeq

/-! ### The builders -/

/-- A map from offsets to ranges. -/
abbrev RangesMap := AList (fun _ : Nat => ChunkRanges)

/-- The builder of a `ChunkRangesSeq`. -/
structure ChunkRangesSeqBuilder where
  ranges : RangesMap

namespace ChunkRangesSeqBuilder

def empty : ChunkRangesSeqBuilder := ⟨∅⟩

/-- Add ranges at the given offset. -/
def atOffset (b : ChunkRangesSeqBuilder) (offset : Nat) (ranges : ChunkRanges) : ChunkRangesSeqBuilder :=
  ⟨b.ranges.insert offset (match b.ranges.lookup offset with | some v => v ∪ ranges | none => ranges)⟩

/-- The offset after the last key. -/
def nextOffsetValue (m : RangesMap) : Nat := (m.keys.max?.map (· + 1)).getD 0

/-- `retain` of the source's map: the entries with non-empty ranges. -/
def retainNonEmpty (m : RangesMap) : RangesMap :=
  ⟨m.entries.filter (fun e => !e.2.isEmpty), List.NodupKeys.sublist List.filter_sublist m.nodupKeys⟩

/-- The ranges of the offsets up to the last non-empty one. -/
def build0 (b : ChunkRangesSeqBuilder) : List ChunkRanges :=
  let ranges := retainNonEmpty b.ranges
  (List.range (nextOffsetValue ranges)).map (fun offset => (ranges.lookup offset).getD ∅)

def build (b : ChunkRangesSeqBuilder) : ChunkRangesSeq := ChunkRangesSeq.fromRanges b.build0

/-- The last non-empty ranges are repeated indefinitely. -/
def buildOpen (b : ChunkRangesSeqBuilder) : ChunkRangesSeq := ChunkRangesSeq.fromRangesInfinite b.build0

/-- What the builder holds for blob `i`. -/
def selected (b : ChunkRangesSeqBuilder) (i : Nat) : ChunkRanges := (b.ranges.lookup i).getD ∅

@[simp] theorem selected_empty (i : Nat) : empty.selected i = ∅ := by simp [selected, empty]

theorem selected_atOffset (b : ChunkRangesSeqBuilder) (o : Nat) (r : ChunkRanges) (i : Nat) :
    (b.atOffset o r).selected i = if i = o then b.selected o ∪ r else b.selected i := by
  unfold selected atOffset
  by_cases h : i = o
  · subst h
    simp only [AList.lookup_insert, ↓reduceIte, Option.getD_some]
    cases b.ranges.lookup i with
    | some v => rfl
    | none => exact RangeSet.ext_mem (by simp)
  · simp only [AList.lookup_insert_ne h, h, ↓reduceIte]

theorem lookup_retainNonEmpty (m : RangesMap) (i : Nat) :
    (retainNonEmpty m).lookup i = (m.lookup i).filter (fun v => !v.isEmpty) := by
  ext v
  rw [← Option.mem_def, AList.mem_lookup_iff, Option.filter_eq_some_iff, ← Option.mem_def, AList.mem_lookup_iff]
  simp [retainNonEmpty]

private theorem getD_lookup_retainNonEmpty (m : RangesMap) (i : Nat) :
    ((retainNonEmpty m).lookup i).getD ∅ = (m.lookup i).getD ∅ := by
  rw [lookup_retainNonEmpty]
  cases m.lookup i with
  | none => rfl
  | some v =>
    by_cases h : v.isEmpty = true
    · simp only [Option.filter, h, Bool.not_true, Bool.false_eq_true, ↓reduceIte, Option.getD]
      exact (RangeSet.eq_empty_iff.mpr (RangeSet.isEmpty_iff.mp h)).symm
    · simp [Option.filter, h]

private theorem lookup_of_nextOffsetValue_le {m : RangesMap} {i : Nat} (h : nextOffsetValue m ≤ i) :
    m.lookup i = none := by
  rw [AList.lookup_eq_none, AList.mem_keys]
  intro hi
  unfold nextOffsetValue at h
  cases hmax : m.keys.max? with
  | none => rw [List.max?_eq_none_iff] at hmax; simp [hmax] at hi
  | some k =>
    have := (List.max?_eq_some_iff.mp hmax).2 i hi
    simp only [hmax, Option.map_some, Option.getD_some] at h
    omega

private theorem getD_build0 (b : ChunkRangesSeqBuilder) (i : Nat) : b.build0.getD i ∅ = b.selected i := by
  rw [selected, ← getD_lookup_retainNonEmpty]
  unfold build0
  by_cases h : i < nextOffsetValue (retainNonEmpty b.ranges)
  · simp only [List.getD_eq_getElem?_getD, List.getElem?_map, List.getElem?_range h, Option.map_some, Option.getD_some]
  · rw [lookup_of_nextOffsetValue_le (by omega)]
    simp [h]

/-- `build` selects what the builder holds. -/
theorem get_build (b : ChunkRangesSeqBuilder) (i : Nat) : b.build.get i = b.selected i := by
  rw [build, ChunkRangesSeq.get_fromRanges, getD_build0]

private theorem length_build0 {b : ChunkRangesSeqBuilder} {m : Nat} (hm : (b.selected m).isEmpty = false)
    (hmax : ∀ i, m < i → (b.selected i).isEmpty = true) : b.build0.length = m + 1 := by
  have hlt : m < b.build0.length := by
    by_contra h
    rw [← getD_build0, List.getD_eq_getElem?_getD, List.getElem?_eq_none (by omega)] at hm
    simp [RangeSet.isEmpty_eq_false_iff] at hm
  have hle : ¬ m + 1 < b.build0.length := by
    intro h
    -- the last listed offset is a key of the map, so its ranges are not empty
    obtain ⟨k, hk⟩ : ∃ k, nextOffsetValue (retainNonEmpty b.ranges) = k + 1 := by
      rw [build0, List.length_map, List.length_range] at h
      exact ⟨_, (Nat.succ_pred_eq_of_pos (by omega)).symm⟩
    have hlen : b.build0.length = k + 1 := by rw [build0, List.length_map, List.length_range, hk]
    have hmem : k ∈ (retainNonEmpty b.ranges).keys := by
      unfold nextOffsetValue at hk
      cases hmx : (retainNonEmpty b.ranges).keys.max? with
      | none => simp [hmx] at hk
      | some k' =>
        simp only [hmx, Option.map_some, Option.getD_some, Nat.add_right_cancel_iff] at hk
        subst hk
        exact (List.max?_eq_some_iff.mp hmx).1
    rw [← AList.mem_keys, ← AList.lookup_isSome, Option.isSome_iff_exists] at hmem
    obtain ⟨v, hv⟩ := hmem
    have hv' := hv
    rw [lookup_retainNonEmpty, Option.filter_eq_some_iff] at hv'
    have := hmax k (by omega)
    rw [selected, hv'.1, Option.getD_some] at this
    simp [this] at hv'
  omega

/-- `build_open` selects what the builder holds up to the last non-empty blob `m`, and the ranges of `m` after it. -/
theorem get_buildOpen {b : ChunkRangesSeqBuilder} {m : Nat} (hm : (b.selected m).isEmpty = false)
    (hmax : ∀ i, m < i → (b.selected i).isEmpty = true) (i : Nat) :
    b.buildOpen.get i = b.selected (min i m) := by
  have hlen := length_build0 hm hmax
  rw [buildOpen, ChunkRangesSeq.get_fromRangesInfinite, ← getD_build0]
  split
  · rename_i h
    rw [show min i m = i by omega, List.getD_eq_getElem?_getD, List.getElem?_eq_getElem h]
    rfl
  · rw [show min i m = m by omega, List.getD_eq_getElem?_getD, List.getLastD_eq_getLast?, List.getLast?_eq_getElem?,
      hlen]
    rfl

end ChunkRangesSeqBuilder

/-! ### Get requests -/

section

variable {Hash : Type}

/-- A request for ranges of a blob and, if it is a hash sequence, of its children. -/
structure GetRequest (Hash : Type) where
  hash : Hash
  ranges : ChunkRangesSeq

/-- A request for ranges of the listed blobs; there is no request for a root. -/
structure GetManyRequest (Hash : Type) where
  hashes : List Hash
  ranges : ChunkRangesSeq

/-- A push request is a get request followed by the data. -/
structure PushRequest (Hash : Type) where
  request : GetRequest Hash

/-- A request for the bitfield of a blob. -/
structure ObserveRequest (Hash : Type) where
  hash : Hash
  ranges : RangeSpec

/-- The builder of a `GetRequest`. -/
structure GetRequestBuilder where
  builder : ChunkRangesSeqBuilder

namespace GetRequestBuilder

def empty : GetRequestBuilder := ⟨ChunkRangesSeqBuilder.empty⟩

/-- Add ranges of a child of the hash sequence. -/
def child (b : GetRequestBuilder) (child : Nat) (ranges : ChunkRanges) : GetRequestBuilder :=
  ⟨b.builder.atOffset (child + 1) ranges⟩

/-- Specify ranges for the root blob (the hash sequence). -/
def root (b : GetRequestBuilder) (ranges : ChunkRanges) : GetRequestBuilder := ⟨b.builder.atOffset 0 ranges⟩

def build (b : GetRequestBuilder) (hash : Hash) : GetRequest Hash := ⟨hash, b.builder.build⟩

def buildOpen (b : GetRequestBuilder) (hash : Hash) : GetRequest Hash := ⟨hash, b.builder.buildOpen⟩

end GetRequestBuilder

end

end IrohBlobs
