import IrohBlobs.Canonical

/-!
# Requests for many blobs

`GetManyRequestBuilder` collects ranges by hash in an ordered map; building drops the hashes without ranges.  The
hashes of the request are in the order of the map, and the ranges are in the order of the hashes.
`GetManyRequest::from_iter` is a second construction for requests of whole blobs, with entries written by hand.  The
two give the same request, except for no hashes.
-/

namespace IrohBlobs

/-! ### The order of the hashes -/

/-- Hashes are compared by their bytes. -/
def Hash.le (a b : Hash) : Bool := decide (a.bytes ≤ b.bytes)

private theorem Hash.le_trans (a b c : Hash) (hab : a.le b = true) (hbc : b.le c = true) : a.le c = true := by
  rw [Hash.le, decide_eq_true_iff] at *
  exact List.le_trans hab hbc

private theorem Hash.le_total (a b : Hash) : (a.le b || b.le a) = true := by
  rw [Bool.or_eq_true, Hash.le, Hash.le, decide_eq_true_iff, decide_eq_true_iff]
  exact List.le_total a.bytes b.bytes

private theorem Hash.le_antisymm {a b : Hash} (hab : a.le b = true) (hba : b.le a = true) : a = b := by
  rw [Hash.le, decide_eq_true_iff] at hab hba
  have hbytes := List.le_antisymm hab hba
  cases a
  cases b
  rw [Hash.mk.injEq]
  exact hbytes

/-- The hashes increase. -/
def Increasing (hashes : List Hash) : Prop := hashes.Pairwise (fun a b => a.bytes < b.bytes)

private theorem increasing_of_le {hashes : List Hash} (h : hashes.Pairwise (fun a b => a.le b = true))
    (hn : hashes.Nodup) :
    Increasing hashes := by
  refine (h.and hn).imp ?_
  rintro a b ⟨hle, hne⟩
  by_contra hlt
  have hba : b.le a = true := by
    rw [Hash.le, decide_eq_true_iff]
    exact hlt
  exact hne (Hash.le_antisymm hle hba)

/-- Increasing lists with the same hashes are equal. -/
private theorem Increasing.ext {as bs : List Hash} (ha : Increasing as) (hb : Increasing bs)
    (h : ∀ x, x ∈ as ↔ x ∈ bs) : as = bs := by
  have hirrefl : Std.Irrefl (fun a b : Hash => a.bytes < b.bytes) := ⟨fun a => List.lt_irrefl a.bytes⟩
  have hantisymm : Std.Antisymm (fun a b : Hash => a.bytes < b.bytes) :=
    ⟨fun a b hab hba => absurd hba (List.lt_asymm hab)⟩
  exact List.Pairwise.eq_of_mem_iff ha hb h

/-! ### The builder -/

/-- The builder of a `GetManyRequest`. -/
structure GetManyRequestBuilder where
  ranges : AList (fun _ : Hash => ChunkRanges)

namespace GetManyRequestBuilder

def empty : GetManyRequestBuilder := ⟨∅⟩

/-- Specify ranges for a hash.  They are merged with the ranges that are already there. -/
def hash (b : GetManyRequestBuilder) (hash : Hash) (ranges : ChunkRanges) : GetManyRequestBuilder :=
  ⟨b.ranges.insert hash (match b.ranges.lookup hash with | some v => v ∪ ranges | none => ranges)⟩

/-- The entries of the map in the order of the hashes, without those that have no ranges. -/
def sortedEntries (b : GetManyRequestBuilder) : List (Sigma (fun _ : Hash => ChunkRanges)) :=
  (b.ranges.entries.mergeSort (fun x y => x.1.le y.1)).filter (fun e => !e.2.isEmpty)

def build (b : GetManyRequestBuilder) : GetManyRequest Hash :=
  ⟨b.sortedEntries.map Sigma.fst, ChunkRangesSeq.fromRanges (b.sortedEntries.map Sigma.snd)⟩

/-- The builder after a sequence of calls. -/
def ofCalls (calls : List (Hash × ChunkRanges)) : GetManyRequestBuilder := calls.foldl (fun b c => b.hash c.1 c.2) empty

/-- The union of the ranges that are given for a hash. -/
def given (calls : List (Hash × ChunkRanges)) (hash : Hash) : ChunkRanges :=
  calls.foldl (fun r c => if c.1 = hash then r ∪ c.2 else r) ∅

/-- What the builder holds for a hash. -/
def selected (b : GetManyRequestBuilder) (hash : Hash) : ChunkRanges := (b.ranges.lookup hash).getD ∅

private theorem selected_hash (b : GetManyRequestBuilder) (h : Hash) (r : ChunkRanges) (h' : Hash) :
    (b.hash h r).selected h' = if h = h' then b.selected h' ∪ r else b.selected h' := by
  unfold selected GetManyRequestBuilder.hash
  by_cases heq : h = h'
  · subst heq
    simp only [AList.lookup_insert, ↓reduceIte, Option.getD_some]
    cases b.ranges.lookup h with
    | some v => rfl
    | none => exact RangeSet.ext_mem (by simp)
  · simp only [AList.lookup_insert_ne (Ne.symm heq), heq, ↓reduceIte]

private theorem selected_ofCalls (calls : List (Hash × ChunkRanges)) (h : Hash) :
    (ofCalls calls).selected h = given calls h := by
  induction calls using List.reverseRecOn with
  | nil => simp [ofCalls, selected, empty, given]
  | append_singleton calls c ih =>
    have hcalls : ofCalls (calls ++ [c]) = (ofCalls calls).hash c.1 c.2 := by simp [ofCalls]
    have hgiven : given (calls ++ [c]) h = if c.1 = h then given calls h ∪ c.2 else given calls h := by simp [given]
    rw [hcalls, hgiven, selected_hash, ih]

/-! ### The request that is built -/

private theorem mem_sortedEntries {b : GetManyRequestBuilder} {h : Hash} {r : ChunkRanges} :
    ⟨h, r⟩ ∈ b.sortedEntries ↔ b.selected h = r ∧ r ≠ ∅ := by
  have hempty : (!r.isEmpty) = true ↔ r ≠ ∅ := by
    rw [Bool.not_eq_true', ← Bool.not_eq_true, RangeSet.isEmpty_iff, ← RangeSet.eq_empty_iff]
  rw [sortedEntries, List.mem_filter, (List.mergeSort_perm _ _).mem_iff, ← AList.mem_lookup_iff, hempty, selected,
    Option.mem_def]
  refine and_congr_left ?_
  intro hr
  cases b.ranges.lookup h with
  | none => exact iff_of_false (by simp) (by simpa using hr.symm)
  | some v => simp

private theorem increasing_sortedEntries (b : GetManyRequestBuilder) : Increasing (b.sortedEntries.map Sigma.fst) := by
  apply increasing_of_le
  · rw [List.pairwise_map]
    apply List.Pairwise.filter
    exact List.pairwise_mergeSort (fun x y z => Hash.le_trans x.1 y.1 z.1) (fun x y => Hash.le_total x.1 y.1) _
  · have hnodup : (b.ranges.entries.map Sigma.fst).Nodup := b.ranges.nodupKeys
    have hperm := (List.mergeSort_perm b.ranges.entries (fun x y => x.1.le y.1)).map Sigma.fst
    exact (hperm.nodup_iff.mpr hnodup).sublist (List.filter_sublist.map Sigma.fst)

private theorem mem_hashes_build {b : GetManyRequestBuilder} {h : Hash} : h ∈ b.build.hashes ↔ b.selected h ≠ ∅ := by
  rw [build, List.mem_map]
  constructor
  · rintro ⟨⟨h', r⟩, hmem, rfl⟩
    obtain ⟨hsel, hne⟩ := mem_sortedEntries.mp hmem
    rw [hsel]
    exact hne
  · intro hne
    exact ⟨⟨h, b.selected h⟩, mem_sortedEntries.mpr ⟨rfl, hne⟩, rfl⟩

/-- The ranges are in the order of the hashes. -/
private theorem get_ranges_build {b : GetManyRequestBuilder} (i : Nat) :
    b.build.ranges.get i = ((b.build.hashes[i]?).map b.selected).getD ∅ := by
  rw [build, ChunkRangesSeq.get_fromRanges, List.getD_eq_getElem?_getD, List.getElem?_map, List.getElem?_map]
  cases hget : b.sortedEntries[i]? with
  | none => rfl
  | some e =>
    obtain ⟨h, r⟩ := e
    have hmem := List.mem_of_getElem? hget
    simp only [Option.map_some, Option.getD_some]
    exact (mem_sortedEntries.mp hmem).1.symm

/-- The request has the hashes with ranges, in order, and for each of them the union of its ranges. -/
structure BuildsConsistently (calls : List (Hash × ChunkRanges)) : Prop where
  increasing : Increasing (ofCalls calls).build.hashes
  mem : ∀ h, h ∈ (ofCalls calls).build.hashes ↔ given calls h ≠ ∅
  ranges : ∀ i h, (ofCalls calls).build.hashes[i]? = some h → (ofCalls calls).build.ranges.get i = given calls h
  beyond : ∀ i, (ofCalls calls).build.hashes.length ≤ i → (ofCalls calls).build.ranges.get i = ∅

private theorem buildsConsistently (calls : List (Hash × ChunkRanges)) : BuildsConsistently calls := by
  refine ⟨increasing_sortedEntries _, ?_, ?_, ?_⟩
  · intro h
    rw [mem_hashes_build, selected_ofCalls]
  · intro i h hi
    rw [get_ranges_build, hi, Option.map_some, Option.getD_some, selected_ofCalls]
  · intro i hi
    rw [get_ranges_build, List.getElem?_eq_none hi]
    rfl

end GetManyRequestBuilder

/-! ### Whole blobs -/

section

open GetManyRequestBuilder

/-- The calls for whole blobs. -/
def wholeBlobs (hs : List Hash) : List (Hash × ChunkRanges) := hs.map (fun h => (h, RangeSet.all))

private theorem given_wholeBlobs (hs : List Hash) (h : Hash) :
    given (wholeBlobs hs) h = if h ∈ hs then RangeSet.all else ∅ := by
  induction hs using List.reverseRecOn with
  | nil => rfl
  | append_singleton hs h' ih =>
    have hgiven : given (wholeBlobs (hs ++ [h'])) h =
        if h' = h then given (wholeBlobs hs) h ∪ RangeSet.all else given (wholeBlobs hs) h := by
      simp [given, wholeBlobs]
    rw [hgiven, ih]
    by_cases heq : h' = h
    · have hmem : h ∈ hs ++ [h'] := by simp [heq]
      rw [if_pos heq, if_pos hmem]
      exact RangeSet.ext_mem (fun x => iff_of_true (RangeSet.mem_union.mpr (Or.inr (RangeSet.mem_all x)))
        (RangeSet.mem_all x))
    · simp [heq, Ne.symm heq]

/-- The hashes of `from_iter` are sorted, and each is there once. -/
private theorem hashes_fromIter (hs : List Hash) :
    (GetManyRequest.fromIter hs).hashes = (hs.mergeSort Hash.le).dedup := by
  have hantisymm : Std.Antisymm (fun a b : Hash => a.le b = true) := ⟨fun _ _ hab hba => Hash.le_antisymm hab hba⟩
  have hsorted := List.pairwise_mergeSort Hash.le_trans Hash.le_total hs
  exact hsorted.destutter_eq_dedup

private theorem mem_hashes_fromIter {hs : List Hash} {h : Hash} : h ∈ (GetManyRequest.fromIter hs).hashes ↔ h ∈ hs := by
  rw [hashes_fromIter, List.mem_dedup, (List.mergeSort_perm hs Hash.le).mem_iff]

private theorem increasing_fromIter (hs : List Hash) : Increasing (GetManyRequest.fromIter hs).hashes := by
  rw [hashes_fromIter]
  have hsorted := List.pairwise_mergeSort Hash.le_trans Hash.le_total hs
  exact increasing_of_le (hsorted.sublist (List.dedup_sublist _)) (List.nodup_dedup _)

/-- Both constructions have the same hashes. -/
theorem hashes_fromIter_eq (hs : List Hash) :
    (GetManyRequest.fromIter hs).hashes = (ofCalls (wholeBlobs hs)).build.hashes := by
  refine (increasing_fromIter hs).ext (buildsConsistently (wholeBlobs hs)).increasing ?_
  intro h
  rw [mem_hashes_fromIter, (buildsConsistently (wholeBlobs hs)).mem, given_wholeBlobs]
  by_cases hmem : h ∈ hs
  · rw [if_pos hmem]
    exact iff_of_true hmem (by decide)
  · rw [if_neg hmem]
    exact iff_of_false hmem (by simp)

/-- Both constructions have the same ranges, if there are hashes. -/
private theorem ranges_fromIter_eq {hs : List Hash} (hne : hs ≠ []) :
    (GetManyRequest.fromIter hs).ranges = (ofCalls (wholeBlobs hs)).build.ranges := by
  have hentries : (GetManyRequest.fromIter hs).ranges =
      ⟨[(0, RangeSet.all), ((GetManyRequest.fromIter hs).hashes.length, ∅)]⟩ := rfl
  have hpos : 0 < (GetManyRequest.fromIter hs).hashes.length := by
    obtain ⟨h, hmem⟩ := List.exists_mem_of_ne_nil hs hne
    exact List.length_pos_of_mem (mem_hashes_fromIter.mpr hmem)
  rw [hentries]
  apply ChunkRangesSeq.Canonical.ext
  · exact ChunkRangesSeq.canonical_iff.mpr ⟨Nat.le_refl 0, by decide, hpos, by decide, trivial⟩
  · exact ChunkRangesSeq.canonical_fromRanges _
  · intro i
    rw [hashes_fromIter_eq] at hpos ⊢
    have hbuild := buildsConsistently (wholeBlobs hs)
    simp only [ChunkRangesSeq.get, ChunkRangesSeq.valueFrom, if_neg (Nat.not_lt_zero i)]
    by_cases hi : i < (ofCalls (wholeBlobs hs)).build.hashes.length
    · have hget := List.getElem?_eq_getElem hi
      have hmem := (hbuild.mem _).mp (List.mem_of_getElem? hget)
      have hrange := hbuild.ranges i _ hget
      rw [given_wholeBlobs] at hmem hrange
      rw [if_pos hi, ← ChunkRangesSeq.get, hrange]
      by_cases hin : (ofCalls (wholeBlobs hs)).build.hashes[i] ∈ hs
      · rw [if_pos hin]
      · rw [if_neg hin] at hmem
        exact absurd rfl hmem
    · rw [if_neg hi, ← ChunkRangesSeq.get, hbuild.beyond i (Nat.le_of_not_lt hi)]

/-- Without hashes the entries of `from_iter` are not those of the builder. -/
theorem fromIter_nil_ne : GetManyRequest.fromIter [] ≠ (ofCalls (wholeBlobs [])).build := by
  intro heq
  have hranges := congrArg (fun request : GetManyRequest Hash => request.ranges.entries) heq
  have hbuild : (ofCalls (wholeBlobs [])).build.ranges.entries = [] := by
    simp [wholeBlobs, ofCalls, build, sortedEntries, GetManyRequestBuilder.empty, ChunkRangesSeq.fromRanges,
      ChunkRangesSeq.fromRangesInner, ChunkRangesSeq.lastRanges]
    rfl
  rw [ChunkRangesSeq.ranges_fromIter_nil, hbuild] at hranges
  cases hranges

/-- The builder gives what was specified, and `from_iter` is the builder for whole blobs exactly if there are hashes. -/
theorem getMany_consistent_iff (calls : List (Hash × ChunkRanges)) (hs : List Hash) :
    BuildsConsistently calls ∧
      (GetManyRequest.fromIter hs = (ofCalls (hs.map (fun h => (h, RangeSet.all)))).build ↔ hs ≠ []) := by
  refine ⟨buildsConsistently calls, ?_⟩
  constructor
  · rintro heq rfl
    exact fromIter_nil_ne heq
  · intro hne
    have hhashes := hashes_fromIter_eq hs
    have hranges := ranges_fromIter_eq hne
    cases hreq : GetManyRequest.fromIter hs with
    | mk hashes ranges =>
      rw [hreq] at hhashes hranges
      rw [show hashes = _ from hhashes, show ranges = _ from hranges]
      rfl

theorem not_consistent_noHashes :
    ¬ ∀ hs : List Hash, GetManyRequest.fromIter hs = (ofCalls (hs.map (fun h => (h, RangeSet.all)))).build := by
  intro h
  exact fromIter_nil_ne (h [])

end

end IrohBlobs
