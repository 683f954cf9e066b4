import IrohBlobs.Canonical
import IrohBlobs.Bitfield

/-!
# Splitting a request

The model of `split_request` in `api/downloader.rs`.  To split a request for a hash sequence, the downloader first
gets the whole root, reads the number of children off its size, and makes a request of its own for each selected
child.  It does so for every request: also if only ranges of the root are requested, it gets the whole root, and it
fails if the size of the root is not a multiple of 32.
-/

namespace IrohBlobs

namespace GetRequest

/-- Request just a single blob. -/
def blob (hash : Hash) : GetRequest Hash := ⟨hash, ChunkRangesSeq.fromRanges [RangeSet.all]⟩

/-- Request ranges from a single blob. -/
def blobRanges (hash : Hash) (ranges : ChunkRanges) : GetRequest Hash := ⟨hash, ChunkRangesSeq.fromRanges [ranges]⟩

end GetRequest

namespace Downloader

inductive FiniteRequest
  | get (request : GetRequest Hash)
  | getMany (request : GetManyRequest Hash)

inductive SplitError
  | executeGet
  | observe
  | notMultiple
  deriving DecidableEq

/-- The infinite iterator, for the given number of items. -/
def takeInfinite : Nat → ChunkRangesSeq.IterInfinite → List ChunkRanges
  | 0, _ => []
  | n + 1, it => it.next.1 :: takeInfinite n it.next.2

/-- The requests for the children of a root with `n` hashes. -/
def childRequests (request : GetRequest Hash) (n : Nat) : List (GetRequest Hash) :=
  (takeInfinite (n + 1) request.ranges.iterInfinite).zipIdx.filterMap fun (ranges, i) =>
    if i ≠ 0 ∧ ranges.isEmpty = false then
      some ⟨request.hash, (ChunkRangesSeqBuilder.empty.atOffset i ranges).build⟩
    else none

/-- `split_request`.  The download of the root, the observation of its bitfield and the search of `Index` are
parameters. -/
def splitRequest (executeGet : GetRequest Hash → Except SplitError Unit) (observe : Hash → Except SplitError Bitfield)
    (index : ChunkRangesSeq → Nat → ChunkRanges) : FiniteRequest → Except SplitError (List (GetRequest Hash))
  | .get request => do
    executeGet (GetRequest.blob request.hash)
    let bitfield ← observe request.hash
    let size := bitfield.size
    if size % 32 = 0 then .ok (childRequests request (size / 32)) else .error .notMultiple
  | .getMany request =>
    .ok (request.hashes.zipIdx.map (fun (hash, i) => GetRequest.blobRanges hash (index request.ranges i)))

/-! ### What is selected -/

/-- `Index` may give these ranges: the search has a result at which they are. -/
def Finds (seq : ChunkRangesSeq) (i : Nat) (ranges : ChunkRanges) : Prop :=
  ∃ result, ChunkRangesSeq.SearchResult seq.entries i result ∧ seq.indexWith result = some ranges

/-- The requests are those for the selected children among the first `n`, and cover the request together with the
root. -/
structure Splits (request : GetRequest Hash) (n : Nat) (requests : List (GetRequest Hash)) : Prop where
  one : ∀ i, 0 < i → i ≤ n → request.ranges.get i ≠ ∅ →
    ∃ r, requests.filter (fun r => !(r.ranges.get i).isEmpty) = [r] ∧ r.ranges.get i = request.ranges.get i ∧
      ∀ j, j ≠ i → r.ranges.get j = ∅
  beyond : ∀ r ∈ requests, ∀ i, n < i → r.ranges.get i = ∅
  hash : ∀ r ∈ requests, r.hash = request.hash
  cover : ∀ i, i ≤ n → ∀ x ∈ request.ranges.get i,
    x ∈ (GetRequest.blob request.hash).ranges.get i ∨ ∃ r ∈ requests, x ∈ r.ranges.get i

/-- There is a request for each of the hashes, with the ranges that `Index` finds at its place. -/
structure SplitsMany (request : GetManyRequest Hash) (requests : List (GetRequest Hash)) : Prop where
  length : requests.length = request.hashes.length
  blob : ∀ i hash, request.hashes[i]? = some hash →
    ∃ r, requests[i]? = some r ∧ r.hash = hash ∧ Finds request.ranges i (r.ranges.get 0) ∧ ∀ j, 0 < j →
      r.ranges.get j = ∅

private theorem takeInfinite_iterAt (seq : ChunkRangesSeq) (m n : Nat) :
    takeInfinite m (seq.iterAt n) = (List.range' n m).map seq.get := by
  induction m generalizing n with
  | zero => rfl
  | succ m ih =>
    rw [takeInfinite, seq.next_iterAt, ih, List.range'_succ, List.map_cons]

/-- The request for one child. -/
def childRequest (request : GetRequest Hash) (i : Nat) : GetRequest Hash :=
  ⟨request.hash, (ChunkRangesSeqBuilder.empty.atOffset i (request.ranges.get i)).build⟩

/-- The selected children among the first `n`. -/
def selectedChildren (request : GetRequest Hash) (n : Nat) : List Nat :=
  (List.range (n + 1)).filter (fun i => i ≠ 0 ∧ (request.ranges.get i).isEmpty = false)

private theorem childRequests_eq (request : GetRequest Hash) (n : Nat) :
    childRequests request n = (selectedChildren request n).map (childRequest request) := by
  have htake : takeInfinite (n + 1) request.ranges.iterInfinite = (List.range (n + 1)).map request.ranges.get := by
    rw [List.range_eq_range']
    exact takeInfinite_iterAt request.ranges (n + 1) 0
  have hzip : ((List.range (n + 1)).map request.ranges.get).zipIdx =
      (List.range (n + 1)).map (fun i => (request.ranges.get i, i)) := by
    apply List.ext_getElem
    · simp
    · intro i h1 h2
      simp
  rw [childRequests, htake, hzip, List.filterMap_map, selectedChildren, ← List.filterMap_eq_map, List.filterMap_filter]
  apply List.filterMap_congr
  intro i _
  simp only [Function.comp_apply, decide_eq_true_eq, childRequest]

private theorem get_childRequest (request : GetRequest Hash) (i j : Nat) :
    (childRequest request i).ranges.get j = if j = i then request.ranges.get i else ∅ := by
  rw [childRequest, ChunkRangesSeqBuilder.get_build, ChunkRangesSeqBuilder.selected_atOffset,
    ChunkRangesSeqBuilder.selected_empty, ChunkRangesSeqBuilder.selected_empty]
  split
  · exact RangeSet.ext_mem (by simp)
  · rfl

private theorem mem_selectedChildren {request : GetRequest Hash} {n i : Nat} :
    i ∈ selectedChildren request n ↔ 0 < i ∧ i ≤ n ∧ request.ranges.get i ≠ ∅ := by
  rw [selectedChildren, List.mem_filter, List.mem_range, decide_eq_true_eq, ← Bool.not_eq_true, RangeSet.isEmpty_iff,
    ← RangeSet.eq_empty_iff, Nat.lt_succ_iff, Nat.pos_iff_ne_zero]
  tauto

/-- One of the requests selects the child. -/
private theorem filter_childRequests {request : GetRequest Hash} {n i : Nat} (h : i ∈ selectedChildren request n) :
    (childRequests request n).filter (fun r => !(r.ranges.get i).isEmpty) = [childRequest request i] := by
  have hne : request.ranges.get i ≠ ∅ := (mem_selectedChildren.mp h).2.2
  have hselects : ∀ j, (!((childRequest request j).ranges.get i).isEmpty) = decide (j = i) := by
    intro j
    rw [get_childRequest]
    by_cases hij : j = i
    · rw [if_pos hij.symm, decide_eq_true hij, hij, Bool.not_eq_true', ← Bool.not_eq_true, RangeSet.isEmpty_iff,
        ← RangeSet.eq_empty_iff]
      exact hne
    · rw [if_neg (Ne.symm hij), decide_eq_false hij]
      rfl
  have hnodup : (selectedChildren request n).Nodup := List.nodup_range.filter _
  have hcount : (selectedChildren request n).count i = 1 := List.count_eq_one_of_mem hnodup h
  rw [childRequests_eq, List.filter_map]
  have hfilter : (selectedChildren request n).filter
    ((fun r => !(r.ranges.get i).isEmpty) ∘ childRequest request) = [i] := by
    rw [show ((fun r => !(r.ranges.get i).isEmpty) ∘ childRequest request) =
      fun j => decide (j = i) from funext hselects, List.filter_eq, hcount]
    rfl
  rw [hfilter]
  rfl

private theorem splits_childRequests (request : GetRequest Hash) (n : Nat) :
    Splits request n (childRequests request n) := by
  have hmem : ∀ r ∈ childRequests request n, ∃ i, i ≤ n ∧ r = childRequest request i := by
    intro r hr
    rw [childRequests_eq] at hr
    obtain ⟨i, hi, rfl⟩ := List.mem_map.mp hr
    exact ⟨i, (mem_selectedChildren.mp hi).2.1, rfl⟩
  refine ⟨?_, ?_, ?_, ?_⟩
  · intro i hpos hle hne
    refine ⟨childRequest request i, filter_childRequests (mem_selectedChildren.mpr ⟨hpos, hle, hne⟩), ?_, ?_⟩
    · rw [get_childRequest, if_pos rfl]
    · intro j hj
      rw [get_childRequest, if_neg hj]
  · intro r hr i hi
    obtain ⟨j, hj, rfl⟩ := hmem r hr
    rw [get_childRequest, if_neg (by omega)]
  · intro r hr
    obtain ⟨j, -, rfl⟩ := hmem r hr
    rfl
  · intro i hle x hx
    by_cases hi : i = 0
    · left
      rw [hi, GetRequest.blob, ChunkRangesSeq.get_fromRanges]
      exact RangeSet.mem_all x
    · right
      have hne : request.ranges.get i ≠ ∅ := fun h => RangeSet.eq_empty_iff.mp h x hx
      refine ⟨childRequest request i, ?_, ?_⟩
      · rw [childRequests_eq]
        exact List.mem_map_of_mem (mem_selectedChildren.mpr ⟨Nat.pos_of_ne_zero hi, hle, hne⟩)
      · rwa [get_childRequest, if_pos rfl]

/-! ### Splitting preserves the request -/

section

variable (executeGet : GetRequest Hash → Except SplitError Unit) (observe : Hash → Except SplitError Bitfield)
  (index : ChunkRangesSeq → Nat → ChunkRanges)

/-- If the request as a whole can be completed, it can be split. -/
def PreservesGet (root : List UInt8) (request : GetRequest Hash) : Prop :=
  executeGet request = .ok () →
    ∃ requests, splitRequest executeGet observe index (.get request) = .ok requests ∧
      Splits request (root.length / 32) requests

def PreservesGetMany (request : GetManyRequest Hash) : Prop :=
  ∃ requests, splitRequest executeGet observe index (.getMany request) = .ok requests ∧ SplitsMany request requests

private theorem preservesGetMany {request : GetManyRequest Hash}
    (hindex : ∀ i, Finds request.ranges i (index request.ranges i)) :
    PreservesGetMany executeGet observe index request := by
  refine ⟨_, rfl, by simp, ?_⟩
  intro i hash hi
  refine ⟨GetRequest.blobRanges hash (index request.ranges i), by simp [hi], rfl, ?_, ?_⟩
  · rw [GetRequest.blobRanges, ChunkRangesSeq.get_fromRanges]
    exact hindex i
  · intro j hj
    rw [GetRequest.blobRanges, ChunkRangesSeq.get_fromRanges]
    obtain ⟨k, rfl⟩ := Nat.exists_eq_succ_of_ne_zero (Nat.pos_iff_ne_zero.mp hj)
    rfl

/-- A split fails without the root. -/
private theorem splitRequest_of_error {request : GetRequest Hash} {e : SplitError}
    (h : executeGet (GetRequest.blob request.hash) = .error e) :
    splitRequest executeGet observe index (.get request) = .error e := by
  rw [splitRequest, h]
  rfl

private theorem splitRequest_of_ok {request : GetRequest Hash} {bitfield : Bitfield}
    (hget : executeGet (GetRequest.blob request.hash) = .ok ()) (hobserve : observe request.hash = .ok bitfield) :
    splitRequest executeGet observe index (.get request) =
      if bitfield.size % 32 = 0 then .ok (childRequests request (bitfield.size / 32)) else .error .notMultiple := by
  rw [splitRequest, hget, hobserve]
  rfl

/-- A request is preserved exactly if the whole root can be had, and its size is a multiple of 32; a request for many
blobs always is.  After the root was downloaded, its size is observed. -/
theorem split_preserves_iff (root : List UInt8) (request : GetRequest Hash) (many : GetManyRequest Hash)
    (hobserve : executeGet (GetRequest.blob request.hash) = .ok () →
      ∃ bitfield, observe request.hash = .ok bitfield ∧ bitfield.size = root.length)
    (hindex : ∀ i, Finds many.ranges i (index many.ranges i)) :
    (PreservesGet executeGet observe index root request ↔
      (executeGet request = .ok () → executeGet (GetRequest.blob request.hash) = .ok () ∧ root.length % 32 = 0)) ∧
    PreservesGetMany executeGet observe index many := by
  refine ⟨?_, preservesGetMany executeGet observe index hindex⟩
  rw [PreservesGet]
  refine imp_congr_right ?_
  intro _
  cases hroot : executeGet (GetRequest.blob request.hash) with
  | error e =>
    rw [splitRequest_of_error executeGet observe index hroot]
    refine iff_of_false ?_ ?_
    · rintro ⟨requests, h, -⟩
      cases h
    · rintro ⟨h, -⟩
      cases h
  | ok u =>
    obtain ⟨bitfield, hbitfield, hsize⟩ := hobserve hroot
    rw [splitRequest_of_ok executeGet observe index hroot hbitfield, hsize]
    by_cases hdiv : root.length % 32 = 0
    · rw [if_pos hdiv]
      exact iff_of_true ⟨_, rfl, splits_childRequests request _⟩ ⟨rfl, hdiv⟩
    · rw [if_neg hdiv]
      refine iff_of_false ?_ (fun h => hdiv h.2)
      rintro ⟨requests, h, -⟩
      cases h

/-- A root with one hash, of which everything can be had. -/
theorem split_preserves_iff_oneHash :
    PreservesGet (fun _ => .ok ()) (fun _ => .ok ⟨32, RangeSet.all⟩) ChunkRangesSeq.get (List.replicate 32 0)
        ⟨Hash.replicate 0, ChunkRangesSeq.all⟩ ∧
      PreservesGetMany (fun _ => .ok ()) (fun _ => .ok ⟨32, RangeSet.all⟩) ChunkRangesSeq.get ⟨[], ⟨[]⟩⟩ := by
  have hindex : ∀ i, Finds ⟨[]⟩ i (ChunkRangesSeq.get ⟨[]⟩ i) := by
    intro i
    exact ⟨.error 0, ⟨Nat.le_refl 0, by simp⟩, rfl⟩
  have hiff := split_preserves_iff (fun _ => .ok ()) (fun _ => .ok ⟨32, RangeSet.all⟩) ChunkRangesSeq.get
    (List.replicate 32 0) ⟨Hash.replicate 0, ChunkRangesSeq.all⟩ ⟨[], ⟨[]⟩⟩ (fun _ => ⟨_, rfl, rfl⟩) hindex
  exact ⟨hiff.1.mpr (fun _ => ⟨rfl, rfl⟩), hiff.2⟩

/-- A request for one blob of one byte, of which everything can be had. -/
theorem not_preservesGet_oneByte :
    ∃ request : GetRequest Hash, request = GetRequest.blob (Hash.replicate 0) ∧
      splitRequest (fun _ => .ok ()) (fun _ => .ok ⟨1, RangeSet.all⟩) ChunkRangesSeq.get (.get request) =
        .error .notMultiple ∧
      ¬ PreservesGet (fun _ => .ok ()) (fun _ => .ok ⟨1, RangeSet.all⟩) ChunkRangesSeq.get [0] request := by
  refine ⟨_, rfl, rfl, ?_⟩
  intro h
  obtain ⟨requests, hsplit, -⟩ := h rfl
  cases hsplit

end

end Downloader

end IrohBlobs
