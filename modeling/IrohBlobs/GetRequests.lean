import IrohBlobs.GetFsm
import IrohBlobs.StaysProvable

/-!
# Requests without a store

The functions of `get/request.rs`, which get the data of a blob, its size, the sizes of the children of a hash
sequence, or a single chunk, without a store.  The peer answers with any bytes.

If one of these requests succeeds, what it returns is true (`verified_sizes`, `get_blob_true`), and the peer has sent
the chunk that it was probed for (`probed_chunk_sent`).  An honest peer is never refused (`honest_peer_accepted`).
-/

namespace IrohBlobs

namespace Fsm

open Merkle
open Get (AtStartRoot AtBlobHeader AtEndBlob AtClosing ConnectedNext EndBlobNext)

/-- A connection: how many bytes a request has, and the outcome of sending it, with what then arrives. -/
structure Connection where
  requestLen : GetRequest Hash → Nat
  response : GetRequest Hash → Except GetError (ByteStream Endpoint.ReadError)

/-- Connect and send the request. -/
def Connection.start (connection : Connection) (request : GetRequest Hash) :
    Except GetError (ConnectedNext × Reading) := do
  let reader ← connection.response request
  pure (Get.AtConnected.next request, ⟨reader, ⟨0, connection.requestLen request, 0, 0⟩⟩)

/-- A request fails, or it panics. -/
inductive Failure
  | get (cause : GetError)
  | panicked
  deriving DecidableEq

variable {H : Type} [DecidableEq H] (io : BaoTreeIo H)

/-! ### One blob -/

/-- The end of a response that has one blob: the size in its header, with the statistics. -/
def finishRoot (size : Nat) (atEndBlob : AtEndBlob) (r : Reading) : Except Failure (Nat × RequestCounters) :=
  match atEndBlob.next with
  | .closing closing =>
    match AtClosing.next closing r with
    | .error e => .error (.get (.ofReadError e))
    | .ok stats => .ok (size, stats)
  | .moreChildren _ => .error .panicked

/-- Read a blob and the end of the response. -/
def readRootFrom (header : AtBlobHeader) (r : Reading) :
    List (BaoContentItem H) × Except Failure (Nat × RequestCounters) :=
  match AtBlobHeader.next io header r with
  | .error e => ([], .error (.get (.ofHeader e)))
  | .ok (curr, size) =>
    ((curr.readAll io).1,
      match (curr.readAll io).2 with
      | .error e => .error (.get (.ofDecode e))
      | .ok (atEndBlob, r) => finishRoot size atEndBlob r)

/-- The items of the root, and the outcome of the request. -/
def readRoot (connection : Connection) (request : GetRequest Hash) :
    List (BaoContentItem H) × Except Failure (Nat × RequestCounters) :=
  match connection.start request with
  | .error e => ([], .error (.get e))
  | .ok (.startRoot start, r) => readRootFrom io start.next r
  | .ok _ => ([], .error .panicked)

/-- A single item in a `GetBlobResult`. -/
inductive GetBlobItem (H : Type)
  | item (item : BaoContentItem H)
  | done (stats : RequestCounters)
  | error (cause : Failure)

/-- `get_blob`: the items of the stream. -/
def getBlob (connection : Connection) (hash : Hash) : List (GetBlobItem H) :=
  (readRoot io connection ⟨hash, .fromRanges [RangeSet.all]⟩).1.map .item ++
    [match (readRoot io connection ⟨hash, .fromRanges [RangeSet.all]⟩).2 with
      | .ok (_, stats) => .done stats
      | .error cause => .error cause]

/-- The loop of `bytes_and_stats`. -/
def collectParts (parts : List (List UInt8)) : List (GetBlobItem H) →
    Except Failure (List (List UInt8) × RequestCounters)
  | [] => .error (.get .localFailure)
  | .item (.parent _) :: rest => collectParts parts rest
  | .item (.leaf leaf) :: rest => collectParts (parts ++ [leaf.data]) rest
  | .done stats :: _ => .ok (parts, stats)
  | .error cause :: _ => .error cause

/-- `GetBlobResult::bytes_and_stats` -/
def bytesAndStats (result : List (GetBlobItem H)) : Except Failure (List UInt8 × RequestCounters) := do
  let (parts, stats) ← collectParts [] result
  match parts with
  | [data] => pure (data, stats)
  | parts => pure (parts.flatten, stats)

/-- `get_unverified_size`: the size in the header, whatever it is. -/
def getUnverifiedSize (connection : Connection) (hash : Hash) : Except Failure (Nat × RequestCounters) :=
  match connection.start ⟨hash, .fromRanges [ChunkRangesSeq.lastChunk]⟩ with
  | .error e => .error (.get e)
  | .ok (.startRoot start, r) =>
    match AtBlobHeader.next io start.next r with
    | .error e => .error (.get (.ofHeader e))
    | .ok (curr, size) =>
      match AtClosing.next ⟨false⟩ ⟨curr.reader, curr.counters⟩ with
      | .error e => .error (.get (.ofReadError e))
      | .ok stats => .ok (size, stats)
  | .ok _ => .error .panicked

/-- `get_verified_size` -/
def getVerifiedSize (connection : Connection) (hash : Hash) : Except Failure (Nat × RequestCounters) :=
  (readRoot io connection ⟨hash, .fromRanges [ChunkRangesSeq.lastChunk]⟩).2

/-- `get_chunk_probe`.  The end of the range `chunk..chunk + 1` has to fit. -/
def getChunkProbe (connection : Connection) (hash : Hash) (chunk : Nat) : Except Failure RequestCounters :=
  if chunk + 1 < 2 ^ 64 then
    (readRoot io connection ⟨hash, .fromRanges [RangeSet.range chunk (chunk + 1)]⟩).2.map Prod.snd
  else .error .panicked

/-! ### A hash sequence and the sizes of its children -/

/-- The loop of `get_hash_seq_and_sizes`. -/
def readSizes (hashSeq : HashSeq) (sizes : List Nat) (curr : AtEndBlob) (r : Reading) :
    Except Failure (AtClosing × Reading × List Nat) :=
  match curr.next with
  | .closing closing => .ok (closing, r, sizes)
  | .moreChildren more =>
    match _h : hashSeq.get sizes.length with
    | none => .ok (more.finish, r, sizes)
    | some hash =>
      match AtBlobHeader.next io (more.next hash) r with
      | .error e => .error (.get (.ofHeader e))
      | .ok (content, size) =>
        match content.drain io with
        | .error e => .error (.get (.ofDecode e))
        | .ok (next, r) => readSizes hashSeq (sizes ++ [size]) next r
termination_by hashSeq.len - sizes.length
decreasing_by
  have hlt : sizes.length < hashSeq.len := by
    by_contra hge
    rw [HashSeq.get, dif_neg hge] at _h
    cases _h
  rw [List.length_append, List.length_singleton]
  omega

/-- `get_hash_seq_and_sizes`: a hash sequence that is too large is not read. -/
def getHashSeqAndSizes (connection : Connection) (hash : Hash) (maxSize : Nat) : Except Failure (HashSeq × List Nat) :=
  match connection.start ⟨hash, .fromRangesInfinite [RangeSet.all, ChunkRangesSeq.lastChunk]⟩ with
  | .error e => .error (.get e)
  | .ok (.startRoot start, r) =>
    match AtBlobHeader.next io start.next r with
    | .error e => .error (.get (.ofHeader e))
    | .ok (content, size) =>
      if size > maxSize then .error (.get .badRequest)
      else
        match content.concatenateIntoVec io with
        | .error e => .error (.get (.ofDecode e))
        | .ok ((curr, r), bytes) =>
          match HashSeq.new bytes with
          | none => .error (.get .badRequest)
          | some hashSeq =>
            match readSizes io hashSeq [] curr r with
            | .error e => .error e
            | .ok (closing, r, sizes) =>
              match AtClosing.next closing r with
              | .error e => .error (.get (.ofReadError e))
              | .ok _ => .ok (hashSeq, sizes)
  | .ok _ => .error .panicked

/-! ### What is read of one blob -/

private theorem mem_range_self (chunk : Nat) : chunk ∈ RangeSet.range chunk (chunk + 1) :=
  RangeSet.mem_range.mpr ⟨Nat.le_refl _, Nat.lt_succ_self _⟩

section

variable {io} {connection : Connection} {hash : Hash} {ranges : ChunkRanges}

theorem next_selected (seq : ChunkRangesSeq) (n : Nat) (h : (seq.get n).isEmpty = false) :
    (seq.nonEmptyAt n).next = (some (n, seq.get n), seq.nonEmptyAt (n + 1)) :=
  ChunkRangesSeq.next_eq_some (Nat.le_refl n) h (fun _ h1 h2 => absurd h2 (Nat.not_lt.mpr h1))

/-- A request for one blob has nothing after its root. -/
theorem get_fromRanges_of_pos (ranges : ChunkRanges) {j : Nat} (hj : 1 ≤ j) :
    ((ChunkRangesSeq.fromRanges [ranges]).get j).isEmpty = true := by
  rw [ChunkRangesSeq.get_fromRanges, List.getD_eq_getElem?_getD, List.getElem?_eq_none (by simpa using hj)]
  rfl

/-- A request for one blob starts with its root, and the response is over after it. -/
theorem next_fromRanges (hash : Hash) (hne : ranges.isEmpty = false) :
    Get.AtConnected.next ⟨hash, .fromRanges [ranges]⟩ =
        .startRoot ⟨ranges, (ChunkRangesSeq.fromRanges [ranges]).nonEmptyAt 1, hash⟩ ∧
      AtEndBlob.next ⟨(ChunkRangesSeq.fromRanges [ranges]).nonEmptyAt 1⟩ = .closing ⟨true⟩ := by
  have hzero : (ChunkRangesSeq.fromRanges [ranges]).get 0 = ranges := ChunkRangesSeq.get_fromRanges [ranges] 0
  have hfirst := next_selected (ChunkRangesSeq.fromRanges [ranges]) 0 (by rwa [hzero])
  obtain ⟨m, -, hnone⟩ := ChunkRangesSeq.next_eq_none (fun j hj => get_fromRanges_of_pos ranges hj)
  rw [ChunkRangesSeq.nonEmptyAt_zero, hzero] at hfirst
  constructor
  · simp only [Get.AtConnected.next, hfirst, ↓reduceIte]
  · simp only [AtEndBlob.next, hnone]

private theorem start_fromRanges (hne : ranges.isEmpty = false) {reader : ByteStream Endpoint.ReadError}
    (h : connection.response ⟨hash, .fromRanges [ranges]⟩ = .ok reader) :
    connection.start ⟨hash, .fromRanges [ranges]⟩ = .ok
      (.startRoot ⟨ranges, (ChunkRangesSeq.fromRanges [ranges]).nonEmptyAt 1, hash⟩,
        ⟨reader, ⟨0, connection.requestLen ⟨hash, .fromRanges [ranges]⟩, 0, 0⟩⟩) := by
  simp only [Connection.start, h, (next_fromRanges hash hne).1]
  rfl

/-- What is read if there is a response. -/
theorem readRoot_of_response (hne : ranges.isEmpty = false) {reader : ByteStream Endpoint.ReadError}
    (h : connection.response ⟨hash, .fromRanges [ranges]⟩ = .ok reader) :
    readRoot io connection ⟨hash, .fromRanges [ranges]⟩ =
      readRootFrom io ⟨ranges, (ChunkRangesSeq.fromRanges [ranges]).nonEmptyAt 1, hash⟩
        ⟨reader, ⟨0, connection.requestLen ⟨hash, .fromRanges [ranges]⟩, 0, 0⟩⟩ := by
  simp only [readRoot, start_fromRanges hne h, AtStartRoot.next]

/-- After the only blob the response is finished. -/
theorem finishRoot_cases (hne : ranges.isEmpty = false) (size : Nat) (r : Reading) :
    (∃ cause, r.reader.broken = some cause ∧
      finishRoot size ⟨(ChunkRangesSeq.fromRanges [ranges]).nonEmptyAt 1⟩ r = .error (.get (.ofReadError cause))) ∨
      finishRoot size ⟨(ChunkRangesSeq.fromRanges [ranges]).nonEmptyAt 1⟩ r = .ok (size, r.counters) := by
  have hclose : (∃ cause, r.reader.broken = some cause ∧ AtClosing.next ⟨true⟩ r = .error cause) ∨
      AtClosing.next ⟨true⟩ r = .ok r.counters := by
    unfold AtClosing.next
    split
    · cases hbroken : r.reader.broken with
      | none => exact Or.inr rfl
      | some cause => exact Or.inl ⟨cause, rfl, rfl⟩
    · exact Or.inr rfl
  simp only [finishRoot, (next_fromRanges Hash.EMPTY hne).2]
  rcases hclose with ⟨cause, hbroken, hclose⟩ | hclose
  · rw [hclose]
    exact Or.inl ⟨cause, hbroken, rfl⟩
  · rw [hclose]
    exact Or.inr rfl

variable (io) in
/-- The request fails, or the header of the blob has been read, and then all of the blob unless that fails. -/
theorem readRoot_cases (connection : Connection) (hash : Hash) (hne : ranges.isEmpty = false) :
    (∃ e, readRoot io connection ⟨hash, .fromRanges [ranges]⟩ = ([], .error (.get e))) ∨
      ∃ rangesIter r s size, connection.response ⟨hash, .fromRanges [ranges]⟩ = .ok r.reader ∧
        HeaderRead io ⟨ranges, rangesIter, hash⟩ r s size ∧
        (readRoot io connection ⟨hash, .fromRanges [ranges]⟩).1 = (s.readAll io).1 ∧
        ((∃ e, (readRoot io connection ⟨hash, .fromRanges [ranges]⟩).2 = .error (.get e)) ∨
          ∃ atEndBlob r', (s.readAll io).2 = .ok (atEndBlob, r') ∧
            (readRoot io connection ⟨hash, .fromRanges [ranges]⟩).2 = .ok (size, r'.counters)) := by
  cases hresponse : connection.response ⟨hash, .fromRanges [ranges]⟩ with
  | error e =>
    refine Or.inl ⟨e, ?_⟩
    simp only [readRoot, Connection.start, hresponse]
    rfl
  | ok reader =>
    rw [readRoot_of_response hne hresponse]
    unfold readRootFrom
    cases hheader : AtBlobHeader.next io ⟨ranges, (ChunkRangesSeq.fromRanges [ranges]).nonEmptyAt 1, hash⟩
        ⟨reader, ⟨0, connection.requestLen ⟨hash, .fromRanges [ranges]⟩, 0, 0⟩⟩ with
    | error e => exact Or.inl ⟨.ofHeader e, rfl⟩
    | ok res =>
      obtain ⟨s, size⟩ := res
      have hread := headerRead hheader
      refine Or.inr ⟨_, _, s, size, rfl, hread, rfl, ?_⟩
      cases hall : (s.readAll io).2 with
      | error e =>
        simp only [hall]
        exact Or.inl ⟨.ofDecode e, rfl⟩
      | ok res =>
        obtain ⟨atEndBlob, r'⟩ := res
        obtain ⟨-, hend, -⟩ := readNodes_of_readAll hall
        rw [hread.rangesIter] at hend
        subst hend
        simp only [hall]
        rcases finishRoot_cases hne size r' with ⟨cause, -, hfinish⟩ | hfinish
        · exact Or.inl ⟨_, hfinish⟩
        · exact Or.inr ⟨_, r', rfl, hfinish⟩

/-- An honest response to a request for one blob. -/
private theorem readRoot_honest (hne : ranges.isEmpty = false) {blob : List UInt8} {toBytes : H → List UInt8}
    (hblob : BlobOf io toBytes hash blob)
    (h : connection.response ⟨hash, .fromRanges [ranges]⟩ = .ok ⟨blobBytes io toBytes blob ranges, none⟩) :
    ∃ stats, readRoot io connection ⟨hash, .fromRanges [ranges]⟩ =
        ((honestItems io blob ranges).map (contentItem blob.length), .ok (blob.length, stats)) ∧
      stats.payloadBytesRead = (leafData (honestItems io blob ranges)).length := by
  obtain ⟨s, hheader, hall⟩ := read_honest io ⟨ranges, (ChunkRangesSeq.fromRanges [ranges]).nonEmptyAt 1, hash⟩
    ⟨⟨blobBytes io toBytes blob ranges, none⟩, ⟨0, connection.requestLen ⟨hash, .fromRanges [ranges]⟩, 0, 0⟩⟩ [] hblob
    (List.append_nil _).symm
  rw [readRoot_of_response hne h, readRootFrom, hheader]
  simp only [hall]
  have hfinish := fun counters => finishRoot_cases hne blob.length ⟨⟨[], none⟩, counters⟩
  rcases hfinish _ with ⟨cause, hbroken, -⟩ | hfinish
  · cases hbroken
  · refine ⟨_, congrArg _ hfinish, ?_⟩
    rw [payloadBytesRead_count, Nat.zero_add]

variable (io) in
private theorem readRoot_ne_panicked (connection : Connection) (hash : Hash) (hne : ranges.isEmpty = false) :
    (readRoot io connection ⟨hash, .fromRanges [ranges]⟩).2 ≠ .error .panicked := by
  rcases readRoot_cases io connection hash hne with ⟨e, h⟩ | ⟨_, r, s, size, -, -, -, ⟨e, h⟩ | ⟨atEndBlob, r', -, h⟩⟩
  · rw [h]
    simp
  · rw [h]
    simp
  · rw [h]
    simp

/-! ### What is read of a hash sequence -/

omit [DecidableEq H] in
/-- The last chunk is selected with every size. -/
theorem exists_lastChunk {r : Reading} {header : AtBlobHeader} {s : AtBlobContent H} {size : Nat}
    (h : HeaderRead io header r s size) (hranges : header.ranges = ChunkRangesSeq.lastChunk) :
    ∃ x ∈ header.ranges, treeChunks size - 1 ≤ x := by
  have hlt := h.size_lt
  refine ⟨2 ^ 64 - 1, ?_, ?_⟩
  · rw [hranges, ChunkRangesSeq.lastChunk, RangeSet.mem_rangeFrom]
  · unfold treeChunks chunks
    omega

private theorem get_sizes (j : Nat) (hj : 1 ≤ j) :
    (ChunkRangesSeq.fromRangesInfinite [RangeSet.all, ChunkRangesSeq.lastChunk]).get j = ChunkRangesSeq.lastChunk := by
  rw [ChunkRangesSeq.get_fromRangesInfinite]
  split
  · rename_i hlt
    have hj1 : j = 1 := by
      simp only [List.length_cons, List.length_nil] at hlt
      omega
    subst hj1
    rfl
  · rfl

/-- A request for sizes starts with the root. -/
theorem next_sizes (hash : Hash) :
    Get.AtConnected.next ⟨hash, .fromRangesInfinite [RangeSet.all, ChunkRangesSeq.lastChunk]⟩ =
      .startRoot ⟨RangeSet.all,
      (ChunkRangesSeq.fromRangesInfinite [RangeSet.all, ChunkRangesSeq.lastChunk]).nonEmptyAt 1, hash⟩ := by
  have hzero : (ChunkRangesSeq.fromRangesInfinite [RangeSet.all, ChunkRangesSeq.lastChunk]).get 0 = RangeSet.all :=
    ChunkRangesSeq.get_fromRangesInfinite [RangeSet.all, ChunkRangesSeq.lastChunk] 0
  have hfirst :=
    next_selected (ChunkRangesSeq.fromRangesInfinite [RangeSet.all, ChunkRangesSeq.lastChunk]) 0 (by rw [hzero]; rfl)
  rw [ChunkRangesSeq.nonEmptyAt_zero, hzero] at hfirst
  simp only [Get.AtConnected.next, hfirst, ↓reduceIte]

/-- The next child of a request for sizes. -/
theorem next_lastChunk {ranges : ChunkRangesSeq} {n : Nat} (hlast : ranges.get n = ChunkRangesSeq.lastChunk) :
    AtEndBlob.next ⟨ranges.nonEmptyAt n⟩ = .moreChildren ⟨ChunkRangesSeq.lastChunk, ranges.nonEmptyAt (n + 1), n⟩ := by
  have hselected := next_selected ranges n (by rw [hlast]; rfl)
  simp only [AtEndBlob.next, hselected, hlast]

/-- From every state of the loop: in the end there is a size for each hash, and the new ones are right. -/
private theorem readSizes_ok {seq : HashSeq} {ranges : ChunkRangesSeq} {n : Nat}
    (hlast : ∀ j, n ≤ j → ranges.get j = ChunkRangesSeq.lastChunk) {sizes sizes' : List Nat}
    (hle : sizes.length ≤ seq.len)
    {r r' : Reading} {closing : AtClosing}
    (h : readSizes io seq sizes ⟨ranges.nonEmptyAt n⟩ r = .ok (closing, r', sizes')) :
    sizes'.length = seq.len ∧ sizes <+: sizes' ∧ (CollisionFree io.f → ∀ i child data, sizes.length ≤ i →
      seq.get i = some child → io.ofHash child = nodeHash io.f data [] → sizes'[i]? = some data.length) := by
  induction hk : seq.len - sizes.length using Nat.strong_induction_on generalizing sizes n r with
  | _ k ih =>
    have hnext := next_lastChunk (hlast n (Nat.le_refl n))
    rw [readSizes] at h
    split at h
    · rename_i hclosing
      rw [hnext] at hclosing
      cases hclosing
    · rename_i more hmore
      rw [hnext] at hmore
      cases hmore
      split at h
      · rename_i hnone
        cases h
        have hge : ¬ sizes'.length < seq.len := by
          intro hlt
          rw [HashSeq.get, dif_pos hlt] at hnone
          cases hnone
        refine ⟨by omega, List.prefix_rfl, ?_⟩
        intro _ i child data hi hchild
        rw [HashSeq.get, dif_neg (by omega)] at hchild
        cases hchild
      · rename_i hash hget
        have hlt : sizes.length < seq.len := by
          by_contra hge
          rw [HashSeq.get, dif_neg hge] at hget
          cases hget
        split at h
        · cases h
        · rename_i content size hheader
          have hread := headerRead hheader
          split at h
          · cases h
          · rename_i next r₁ hdrain
            obtain ⟨-, hend, -⟩ := readNodes_of_readAll hdrain
            rw [hread.rangesIter] at hend
            subst hend
            obtain ⟨hlen, hpre, htrue⟩ := ih _ (by rw [← hk, List.length_append, List.length_singleton]; omega)
              (fun j hj => hlast j (by omega)) (by rw [List.length_append, List.length_singleton]; omega) h rfl
            refine ⟨hlen, (List.prefix_append _ _).trans hpre, ?_⟩
            intro hf i child data hi hchild hdata
            rcases Nat.lt_or_ge sizes.length i with hgt | hle'
            · refine htrue hf i child data ?_ hchild hdata
              rw [List.length_append, List.length_singleton]
              omega
            · -- the size that has just been read
              have heq : i = sizes.length := by omega
              subst heq
              rw [hget] at hchild
              cases hchild
              obtain ⟨x, hx, hxlast⟩ := exists_lastChunk hread rfl
              have hsize := hread.size_eq hf hdata hdrain hx hxlast
              obtain ⟨rest, rfl⟩ := hpre
              rw [List.append_assoc, List.getElem?_append_right (Nat.le_refl _), Nat.sub_self, hsize]
              rfl

/-- The rest of an honest response to a request for sizes. -/
private theorem readSizes_honest {seq : HashSeq} {ranges : ChunkRangesSeq} {n : Nat} {toBytes : H → List UInt8}
    {c : Hash → List UInt8}
    (hlast : ∀ j, n ≤ j → ranges.get j = ChunkRangesSeq.lastChunk)
    (hblob : ∀ child ∈ seq.iter, BlobOf io toBytes child (c child))
    {sizes : List Nat} {r : Reading} (h : r.reader.bytes = (seq.iter.drop sizes.length).flatMap
      (fun child => blobBytes io toBytes (c child) ChunkRangesSeq.lastChunk)) :
    ∃ r', readSizes io seq sizes ⟨ranges.nonEmptyAt n⟩ r =
      .ok (⟨false⟩, r', sizes ++ (seq.iter.drop sizes.length).map (fun child => (c child).length)) := by
  induction hk : seq.len - sizes.length using Nat.strong_induction_on generalizing sizes n r with
  | _ k ih =>
    have hnext := next_lastChunk (hlast n (Nat.le_refl n))
    rw [readSizes]
    split
    · rename_i hclosing
      rw [hnext] at hclosing
      cases hclosing
    · rename_i more hmore
      rw [hnext] at hmore
      cases hmore
      split
      · rename_i hnone
        rw [← HashSeq.getElem?_iter, List.getElem?_eq_none_iff] at hnone
        rw [List.drop_eq_nil_of_le hnone, List.map_nil, List.append_nil]
        exact ⟨r, rfl⟩
      · rename_i hash hget
        rw [← HashSeq.getElem?_iter] at hget
        obtain ⟨hlt, hhash⟩ := List.getElem?_eq_some_iff.mp hget
        have hdrop : seq.iter.drop sizes.length = hash :: seq.iter.drop (sizes.length + 1) := by
          rw [List.drop_eq_getElem_cons hlt, hhash]
        rw [hdrop, List.flatMap_cons] at h
        obtain ⟨s, hheader, hall⟩ := read_honest io ⟨ChunkRangesSeq.lastChunk, ranges.nonEmptyAt (n + 1), hash⟩ r _
          (hblob hash (List.mem_of_getElem? hget)) h
        rw [show Get.AtStartChild.next ⟨ChunkRangesSeq.lastChunk, ranges.nonEmptyAt (n + 1), n⟩ hash =
          ⟨ChunkRangesSeq.lastChunk, ranges.nonEmptyAt (n + 1), hash⟩ from rfl, hheader]
        simp only [AtBlobContent.drain, hall]
        have hlength : (sizes ++ [(c hash).length]).length = sizes.length + 1 := by
          rw [List.length_append, List.length_singleton]
        rw [HashSeq.length_iter] at hlt
        have hlast' : ∀ j, n + 1 ≤ j → ranges.get j = ChunkRangesSeq.lastChunk := fun j hj => hlast j (by omega)
        have hrest : ∀ r₁ : Reading, r₁.reader.bytes = (seq.iter.drop (sizes.length + 1)).flatMap
            (fun child => blobBytes io toBytes (c child) ChunkRangesSeq.lastChunk) → ∃ r',
              readSizes io seq (sizes ++ [(c hash).length]) ⟨ranges.nonEmptyAt (n + 1)⟩ r₁ =
                .ok (⟨false⟩, r', (sizes ++ [(c hash).length]) ++
                  (seq.iter.drop (sizes.length + 1)).map (fun child => (c child).length)) := by
          intro r₁ hr₁
          rw [← hlength] at hr₁ ⊢
          exact ih _ (by rw [← hk, hlength]; omega) hlast' hr₁ rfl
        rw [hdrop, List.map_cons, List.append_cons sizes (c hash).length (List.map _ _)]
        refine hrest _ ?_
        rfl

/-! ### Results -/

omit [DecidableEq H] in
/-- The parts that are collected: the data of the leaves, in order. -/
theorem collectParts_ok {items : List (BaoContentItem H)} {parts parts' : List (List UInt8)} {last : GetBlobItem H}
    {stats : RequestCounters} (h : collectParts parts (items.map .item ++ [last]) = .ok (parts', stats)) :
    parts'.flatten = parts.flatten ++ AtBlobContent.concatenate items ∧ last = .done stats := by
  induction items generalizing parts with
  | nil =>
    cases last with
    | item item =>
      cases item with
      | parent parent => cases h
      | leaf leaf => cases h
    | done stats' =>
      cases h
      exact ⟨by simp [AtBlobContent.concatenate], rfl⟩
    | error cause => cases h
  | cons item items ih =>
    cases item with
    | parent parent => exact ih h
    | leaf leaf =>
      obtain ⟨hparts, hlast⟩ := ih h
      refine ⟨?_, hlast⟩
      rw [hparts, List.flatten_append, List.flatten_singleton, List.append_assoc]
      rfl

omit [DecidableEq H] in
private theorem bytesAndStats_ok {result : List (GetBlobItem H)} {bytes : List UInt8} {stats : RequestCounters}
    (h : bytesAndStats result = .ok (bytes, stats)) :
    ∃ parts, collectParts [] result = .ok (parts, stats) ∧ bytes = parts.flatten := by
  unfold bytesAndStats at h
  cases hparts : collectParts [] result with
  | error e =>
    rw [hparts] at h
    cases h
  | ok res =>
    obtain ⟨parts, stats'⟩ := res
    rw [hparts] at h
    simp only [bind, Except.bind, pure, Except.pure] at h
    split at h
    · cases h
      exact ⟨_, rfl, by simp⟩
    · cases h
      exact ⟨_, rfl, rfl⟩

omit [DecidableEq H] in
/-- All items are collected if no error comes after them. -/
private theorem collectParts_done (items : List (BaoContentItem H)) (parts : List (List UInt8))
    (stats : RequestCounters) :
    ∃ parts', collectParts parts (items.map .item ++ [.done stats]) = .ok (parts', stats) := by
  induction items generalizing parts with
  | nil => exact ⟨parts, rfl⟩
  | cons item items ih =>
    cases item with
    | parent parent => exact ih parts
    | leaf leaf => exact ih (parts ++ [leaf.data])

omit [DecidableEq H] in
private theorem bytesAndStats_of_collectParts {result : List (GetBlobItem H)} {parts : List (List UInt8)}
    {stats : RequestCounters}
    (h : collectParts [] result = .ok (parts, stats)) : bytesAndStats result = .ok (parts.flatten, stats) := by
  unfold bytesAndStats
  rw [h]
  simp only [bind, Except.bind, pure, Except.pure]
  split
  · simp
  · rfl

/-! ### Honest peers -/

variable (io) in
/-- The blobs of a schedule, one after the other. -/
def responseBytes (toBytes : H → List UInt8) (c : Hash → List UInt8) (hashes : List Hash)
    (ranges : ChunkRangesSeq) : List UInt8 :=
  (schedule hashes ranges).flatMap (fun blob => blobBytes io toBytes (c blob.hash) blob.ranges)

variable (io) in
/-- The peer has the blobs of the hash and of the children, and answers every request for them with what was asked for
and nothing else. -/
structure Connection.Serves (connection : Connection) (toBytes : H → List UInt8) (c : Hash → List UInt8) (hash : Hash)
    (children : List Hash) : Prop where
  blob : ∀ h ∈ hash :: children, BlobOf io toBytes h (c h)
  response : ∀ ranges, connection.response ⟨hash, ranges⟩ =
    .ok ⟨responseBytes io toBytes c (hash :: children) ranges, none⟩

section

variable {toBytes : H → List UInt8} {c : Hash → List UInt8} {children : List Hash}

omit [DecidableEq H] in
private theorem responseBytes_fromRanges (hne : ranges.isEmpty = false) :
    responseBytes io toBytes c (hash :: children) (.fromRanges [ranges]) = blobBytes io toBytes (c hash) ranges := by
  have hzero : (ChunkRangesSeq.fromRanges [ranges]).get 0 = ranges := ChunkRangesSeq.get_fromRanges [ranges] 0
  have hrest : ∀ j, 1 ≤ j → ((ChunkRangesSeq.fromRanges [ranges]).get j).isEmpty = true :=
    fun j hj => get_fromRanges_of_pos ranges hj
  rw [responseBytes, ← scheduleFrom_zero, scheduleFrom_selected (h := hash) rfl (by rwa [hzero]),
    scheduleFrom_eq_nil hrest, List.flatMap_singleton, hzero]

omit [DecidableEq H] in
/-- The children from index `n` on, if the last chunk is selected in each of them. -/
private theorem flatMap_lastChunk {g : Hash → ChunkRanges → List UInt8} {hashes : List Hash}
    {ranges : ChunkRangesSeq} {n : Nat}
    (hlast : ∀ j, n ≤ j → ranges.get j = ChunkRangesSeq.lastChunk) :
    (scheduleFrom hashes ranges n).flatMap (fun blob => g blob.hash blob.ranges) =
      (hashes.drop n).flatMap (fun h => g h ChunkRangesSeq.lastChunk) := by
  induction hk : hashes.length - n generalizing n with
  | zero => rw [scheduleFrom_of_length_le (by omega), List.drop_eq_nil_of_le (by omega)]
            rfl
  | succ k ih =>
    have hlt : n < hashes.length := by omega
    have hn := hlast n (Nat.le_refl n)
    rw [scheduleFrom_selected (List.getElem?_eq_getElem hlt) (by rw [hn]; rfl), List.drop_eq_getElem_cons hlt,
      List.flatMap_cons, List.flatMap_cons, ih (fun j hj => hlast j (by omega)) (by omega), hn]

omit [DecidableEq H] in
private theorem responseBytes_sizes :
    responseBytes io toBytes c (hash :: children) (.fromRangesInfinite [RangeSet.all, ChunkRangesSeq.lastChunk]) =
      blobBytes io toBytes (c hash) RangeSet.all ++
        children.flatMap (fun child => blobBytes io toBytes (c child) ChunkRangesSeq.lastChunk) := by
  have hzero : (ChunkRangesSeq.fromRangesInfinite [RangeSet.all, ChunkRangesSeq.lastChunk]).get 0 = RangeSet.all :=
    ChunkRangesSeq.get_fromRangesInfinite [RangeSet.all, ChunkRangesSeq.lastChunk] 0
  have hrest : (scheduleFrom (hash :: children)
    (.fromRangesInfinite [RangeSet.all, ChunkRangesSeq.lastChunk]) 1).flatMap
      (fun blob => blobBytes io toBytes (c blob.hash) blob.ranges) = _ :=
    flatMap_lastChunk (g := fun h ranges => blobBytes io toBytes (c h) ranges) get_sizes
  rw [responseBytes, ← scheduleFrom_zero, scheduleFrom_selected (h := hash) rfl (by rw [hzero]; rfl),
    List.flatMap_cons, hrest, hzero]
  rfl

variable (h : connection.Serves io toBytes c hash children)

include h

private theorem Connection.Serves.readRoot (hne : ranges.isEmpty = false) :
    ∃ stats, Fsm.readRoot io connection ⟨hash, .fromRanges [ranges]⟩ =
        ((honestItems io (c hash) ranges).map (contentItem (c hash).length), .ok ((c hash).length, stats)) ∧
      stats.payloadBytesRead = (leafData (honestItems io (c hash) ranges)).length := by
  refine readRoot_honest hne (h.blob hash List.mem_cons_self) ?_
  rw [h.response, responseBytes_fromRanges hne]

omit [DecidableEq H] h in
/-- A walk over all chunks has all the data. -/
theorem leafData_all (blob : List UInt8) : leafData (honestItems io blob RangeSet.all) = blob := by
  refine leafData_itemAt (k := 16) (io.walk blob.length RangeSet.all) ?_
  intro x hx
  have hvisits := io.visits blob.length RangeSet.all x (RangeSet.mem_all x)
  rwa [Nat.min_eq_left (by omega)] at hvisits

private theorem Connection.Serves.getBlob :
    ∃ stats, bytesAndStats (Fsm.getBlob io connection hash) = .ok (c hash, stats) ∧
      stats.payloadBytesRead = (c hash).length := by
  have hne : RangeSet.isEmpty RangeSet.all = false := rfl
  obtain ⟨stats, hread, hstats⟩ := h.readRoot hne
  obtain ⟨parts, hparts⟩ :=
    collectParts_done ((honestItems io (c hash) RangeSet.all).map (contentItem (c hash).length)) [] stats
  obtain ⟨hflatten, -⟩ := collectParts_ok hparts
  rw [List.flatten_nil, List.nil_append, concatenate_contentItem, leafData_all] at hflatten
  rw [leafData_all] at hstats
  refine ⟨stats, ?_, hstats⟩
  have hblob : Fsm.getBlob io connection hash =
      ((honestItems io (c hash) RangeSet.all).map (contentItem (c hash).length)).map .item ++ [.done stats] := by
    simp only [Fsm.getBlob, hread]
  rw [hblob, bytesAndStats_of_collectParts hparts, hflatten]

private theorem Connection.Serves.getVerifiedSize :
    ∃ stats, Fsm.getVerifiedSize io connection hash = .ok ((c hash).length, stats) := by
  have hne : RangeSet.isEmpty ChunkRangesSeq.lastChunk = false := rfl
  obtain ⟨stats, hread, -⟩ := h.readRoot hne
  exact ⟨stats, by rw [Fsm.getVerifiedSize, hread]⟩

private theorem Connection.Serves.getUnverifiedSize :
    ∃ stats, Fsm.getUnverifiedSize io connection hash = .ok ((c hash).length, stats) := by
  have hne : RangeSet.isEmpty ChunkRangesSeq.lastChunk = false := rfl
  have hresponse := h.response (.fromRanges [ChunkRangesSeq.lastChunk])
  rw [responseBytes_fromRanges hne] at hresponse
  generalize hreader : (ByteStream.mk _ none : ByteStream Endpoint.ReadError) = reader at hresponse
  obtain ⟨s, hheader, -⟩ := read_honest io
    ⟨ChunkRangesSeq.lastChunk, (ChunkRangesSeq.fromRanges [ChunkRangesSeq.lastChunk]).nonEmptyAt 1, hash⟩
    ⟨reader, ⟨0, connection.requestLen ⟨hash, .fromRanges [ChunkRangesSeq.lastChunk]⟩, 0, 0⟩⟩ []
    (h.blob hash List.mem_cons_self) (by rw [← hreader, List.append_nil])
  have hclose : AtClosing.next ⟨false⟩ ⟨s.reader, s.counters⟩ = .ok s.counters := rfl
  refine ⟨s.counters, ?_⟩
  rw [Fsm.getUnverifiedSize, start_fromRanges hne hresponse]
  simp only [Get.AtStartRoot.next, hheader, hclose]

private theorem Connection.Serves.getChunkProbe {chunk : Nat} (hchunk : chunk + 1 < 2 ^ 64) :
    ∃ stats, Fsm.getChunkProbe io connection hash chunk = .ok stats := by
  have hne := RangeSet.isEmpty_eq_false_iff.mpr ⟨chunk, mem_range_self chunk⟩
  obtain ⟨stats, hread, -⟩ := h.readRoot hne
  refine ⟨stats, ?_⟩
  rw [Fsm.getChunkProbe, if_pos hchunk, hread]
  rfl

omit h in
private theorem Connection.Serves.getHashSeqAndSizes {seq : HashSeq} (h : connection.Serves io toBytes c hash seq.iter)
    (hroot : c hash = seq.bytes) (maxSize : Nat) :
    Fsm.getHashSeqAndSizes io connection hash maxSize =
      if (c hash).length ≤ maxSize then .ok (seq, seq.iter.map (fun child => (c child).length)) else .error
        (.get .badRequest) := by
  have hresponse := h.response (.fromRangesInfinite [RangeSet.all, ChunkRangesSeq.lastChunk])
  rw [responseBytes_sizes] at hresponse
  have hlast := get_sizes
  have hconnected := next_sizes hash
  unfold Fsm.getHashSeqAndSizes
  generalize ChunkRangesSeq.fromRangesInfinite [RangeSet.all, ChunkRangesSeq.lastChunk] =
    ranges at hresponse hlast hconnected ⊢
  generalize hreader : (ByteStream.mk _ none : ByteStream Endpoint.ReadError) = reader at hresponse
  have hstart : connection.start ⟨hash, ranges⟩ = .ok (.startRoot ⟨RangeSet.all, ranges.nonEmptyAt 1, hash⟩,
      ⟨reader, ⟨0, connection.requestLen ⟨hash, ranges⟩, 0, 0⟩⟩) := by
    rw [Connection.start, hresponse, hconnected]
    rfl
  obtain ⟨s, hheader, hall⟩ := read_honest io ⟨RangeSet.all, ranges.nonEmptyAt 1, hash⟩
    ⟨reader, ⟨0, connection.requestLen ⟨hash, ranges⟩, 0, 0⟩⟩ _ (h.blob hash List.mem_cons_self) (by rw [← hreader])
  have hbytes : ∃ r₁ : Reading, r₁.reader.bytes = seq.iter.flatMap
      (fun child => blobBytes io toBytes (c child) ChunkRangesSeq.lastChunk) ∧
        s.concatenateIntoVec io = .ok ((⟨ranges.nonEmptyAt 1⟩, r₁), seq.bytes) := by
    rw [AtBlobContent.concatenateIntoVec, hall, concatenate_contentItem, leafData_all, hroot]
    exact ⟨_, rfl, rfl⟩
  obtain ⟨r₁, hr₁, hbytes⟩ := hbytes
  have hblobs : ∀ child ∈ seq.iter, BlobOf io toBytes child (c child) :=
    fun child hchild => h.blob child (List.mem_cons_of_mem _ hchild)
  have hsizes : ∃ r', readSizes io seq [] ⟨ranges.nonEmptyAt 1⟩ r₁ =
      .ok (⟨false⟩, r', seq.iter.map (fun child => (c child).length)) := readSizes_honest hlast hblobs hr₁
  obtain ⟨r', hsizes⟩ := hsizes
  rw [hstart]
  simp only [Get.AtStartRoot.next, hheader]
  by_cases hle : (c hash).length ≤ maxSize
  · rw [if_pos hle, if_neg (Nat.not_lt.mpr hle)]
    simp only [hbytes, HashSeq.new_bytes, hsizes]
    rfl
  · rw [if_neg hle, if_pos (Nat.lt_of_not_le hle)]

end

end

/-! ### Two blobs -/

/-- Of two blobs, one is the hash sequence of the other, which has one byte. -/
def twoBlobs (hash : Hash) : List UInt8 :=
  if hash = Hash.replicate 2 then [7] else (HashSeq.ofHashes [Hash.replicate 2]).bytes

def twoBytes (term : HashTerm) : List UInt8 :=
  if term = nodeHash termHash [7] [] then (Hash.replicate 2).bytes else (Hash.replicate 1).bytes

def twoIo : BaoTreeIo HashTerm :=
  .new termHash fun bytes =>
    if bytes = (Hash.replicate 2).bytes then nodeHash termHash [7] []
    else if bytes = Hash.EMPTY.bytes then nodeHash termHash [] []
    else nodeHash termHash (HashSeq.ofHashes [Hash.replicate 2]).bytes []

def twoConnection : Connection where
  requestLen _ := 0
  response request :=
    .ok ⟨responseBytes twoIo twoBytes twoBlobs [Hash.replicate 1, Hash.replicate 2] request.ranges, none⟩

omit [DecidableEq H] in
/-- A blob of one chunk has only one hash. -/
theorem blobOf_oneChunk {io : BaoTreeIo H} {toBytes : H → List UInt8} {hash : Hash} {blob : List UInt8}
    (hlen : blob.length ≤ 1024)
    (hhash : io.ofHash hash = nodeHash io.f blob []) (hbytes : toBytes (nodeHash io.f blob []) = hash.bytes) :
    BlobOf io toBytes hash blob := by
  refine ⟨by omega, ?_, hhash⟩
  intro p hp
  have hnil : p = [] := by
    cases p with
    | nil => rfl
    | cons b p =>
      have hlt := hp.lt
      unfold treeChunks chunks at hlt
      omega
  subst hnil
  rw [hbytes]
  exact ⟨hash.length_bytes, hhash⟩

private theorem serves_twoConnection :
    twoConnection.Serves twoIo twoBytes twoBlobs (Hash.replicate 1) (HashSeq.ofHashes [Hash.replicate 2]).iter := by
  have hchild : twoIo.ofHash (Hash.replicate 2) = nodeHash twoIo.f (twoBlobs (Hash.replicate 2)) [] := rfl
  have hroot : twoIo.ofHash (Hash.replicate 1) = nodeHash twoIo.f (twoBlobs (Hash.replicate 1)) [] := rfl
  have hne : nodeHash termHash (HashSeq.ofHashes [Hash.replicate 2]).bytes [] ≠ nodeHash termHash [7] [] := by
    intro h
    rw [nodeHash_nil, nodeHash_nil] at h
    have hdata := (hashSubtree_inj collisionFree_termHash h).2
    cases hdata
  rw [HashSeq.iter_ofHashes]
  constructor
  · intro h hh
    rcases List.mem_cons.mp hh with rfl | hh
    · exact blobOf_oneChunk (by decide) hroot (if_neg hne)
    · rw [List.mem_singleton] at hh
      subst hh
      exact blobOf_oneChunk (by decide) hchild (if_pos rfl)
  · intro ranges
    rfl

/-- A connection to a peer that is asked for the second blob only. -/
def childConnection : Connection where
  requestLen _ := 0
  response request := .ok ⟨responseBytes twoIo twoBytes twoBlobs [Hash.replicate 2] request.ranges, none⟩

private theorem serves_childConnection : childConnection.Serves twoIo twoBytes twoBlobs (Hash.replicate 2) [] := by
  have hserves := serves_twoConnection
  constructor
  · intro h hh
    rw [List.mem_singleton] at hh
    subst hh
    exact hserves.blob _ (List.mem_cons_of_mem _ (by rw [HashSeq.iter_ofHashes]; exact List.mem_singleton_self _))
  · intro ranges
    rfl

/-- If they succeed, the requests for sizes return the true sizes: the verified size of a blob is its size, and a hash
sequence comes with its own bytes, which are not more than allowed, and the size of each of its children. -/
theorem verified_sizes (hf : CollisionFree io.f) (connection : Connection) (hash : Hash) {blob : List UInt8}
    (hblob : io.ofHash hash = nodeHash io.f blob []) :
    (∀ size stats, getVerifiedSize io connection hash = .ok (size, stats) → size = blob.length) ∧
      ∀ maxSize seq sizes, getHashSeqAndSizes io connection hash maxSize = .ok (seq, sizes) →
        seq.bytes = blob ∧ blob.length ≤ maxSize ∧ sizes.length = seq.len ∧
          ∀ i child data, seq.get i = some child → io.ofHash child = nodeHash io.f data [] →
            sizes[i]? = some data.length := by
  refine ⟨?_, ?_⟩
  · intro size stats h
    have hne : RangeSet.isEmpty ChunkRangesSeq.lastChunk = false := rfl
    rcases readRoot_cases io connection hash hne with ⟨e, heq⟩ | ⟨_, r, s, size', -, hread, -, hres⟩
    · rw [getVerifiedSize, heq] at h
      cases h
    · rcases hres with ⟨e, heq⟩ | ⟨atEndBlob, r', hall, heq⟩
      · rw [getVerifiedSize, heq] at h
        cases h
      · rw [getVerifiedSize, heq] at h
        cases h
        obtain ⟨x, hx, hlast⟩ := exists_lastChunk hread rfl
        exact hread.size_eq hf hblob hall hx hlast
  · intro maxSize seq sizes h
    have hlast := get_sizes
    have hconnected := next_sizes hash
    rw [getHashSeqAndSizes] at h
    generalize ChunkRangesSeq.fromRangesInfinite [RangeSet.all, ChunkRangesSeq.lastChunk] = ranges at hlast hconnected h
    cases hresponse : connection.response ⟨hash, ranges⟩ with
    | error e =>
      have hstart : connection.start ⟨hash, ranges⟩ = .error e := by
        rw [Connection.start, hresponse]
        rfl
      rw [hstart] at h
      cases h
    | ok reader =>
      have hstart : connection.start ⟨hash, ranges⟩ = .ok (.startRoot ⟨RangeSet.all, ranges.nonEmptyAt 1, hash⟩,
          ⟨reader, ⟨0, connection.requestLen ⟨hash, ranges⟩, 0, 0⟩⟩) := by
        rw [Connection.start, hresponse, hconnected]
        rfl
      rw [hstart] at h
      simp only at h
      split at h
      · cases h
      · rename_i content size hheader
        have hread := headerRead hheader
        split at h
        · cases h
        · rename_i hsize
          split at h
          · cases h
          · rename_i curr r bytes hconcat
            obtain ⟨hall, rfl⟩ := readAll_of_concatenateIntoVec hconcat
            split at h
            · cases h
            · rename_i seq' hseq
              split at h
              · cases h
              · rename_i closing r' sizes' hsizes
                split at h
                · cases h
                · cases h
                  have hdata := (hread.concatenate_prefix hf hblob RangeSet.mem_all).2 _ _ hall
                  have hlen := hread.size_eq hf hblob hall (RangeSet.mem_all (treeChunks size - 1)) (Nat.le_refl _)
                  obtain ⟨-, hend, -⟩ := readNodes_of_readAll hall
                  rw [hread.rangesIter] at hend
                  subst hend
                  obtain ⟨hcount, -, htrue⟩ := readSizes_ok hlast (Nat.zero_le _) hsizes
                  refine ⟨?_, by omega, hcount, fun i child data => htrue hf i child data (Nat.zero_le _)⟩
                  rw [HashSeq.new_eq_some hseq, hdata]

theorem verified_sizes_twoBlobs :
    ∃ size stats seq sizes, getVerifiedSize twoIo twoConnection (Hash.replicate 1) = .ok (size, stats) ∧
      getHashSeqAndSizes twoIo twoConnection (Hash.replicate 1) 32 = .ok (seq, sizes) ∧
      size = 32 ∧ seq.bytes = (Hash.replicate 2).bytes ∧ sizes.length = 1 := by
  have hserves := serves_twoConnection
  obtain ⟨stats, hsize⟩ := hserves.getVerifiedSize
  have hsizes := hserves.getHashSeqAndSizes rfl 32
  rw [if_pos (by decide)] at hsizes
  obtain ⟨h, h'⟩ := verified_sizes twoIo collisionFree_termHash twoConnection (Hash.replicate 1)
    (hserves.blob _ List.mem_cons_self).hash_eq
  obtain ⟨hbytes, -, hlen, -⟩ := h' _ _ _ hsizes
  exact ⟨_, stats, _, _, hsize, hsizes, h _ _ hsize, hbytes, hlen⟩

/-- Whatever the peer sends, the data that a `get_blob` request gives is a beginning of the blob, and if it succeeds
then its result is the blob.  It ends with the statistics or with an error, and does not panic. -/
theorem get_blob_true (hf : CollisionFree io.f) (connection : Connection) (hash : Hash) {blob : List UInt8}
    (hblob : io.ofHash hash = nodeHash io.f blob []) :
    (∃ items last, getBlob io connection hash = items.map .item ++ [last] ∧ AtBlobContent.concatenate items <+: blob ∧
      ((∃ stats, last = .done stats) ∨ ∃ cause, last = .error (.get cause))) ∧
      ∀ bytes stats, bytesAndStats (getBlob io connection hash) = .ok (bytes, stats) → bytes = blob := by
  have hne : RangeSet.isEmpty RangeSet.all = false := rfl
  have hpanic := readRoot_ne_panicked io connection hash hne
  have hcases := readRoot_cases io connection hash hne
  unfold getBlob
  generalize readRoot io connection ⟨hash, .fromRanges [RangeSet.all]⟩ = run at hpanic hcases ⊢
  have hitems : AtBlobContent.concatenate run.1 <+: blob ∧
      ∀ size stats, run.2 = .ok (size, stats) → AtBlobContent.concatenate run.1 = blob := by
    rcases hcases with ⟨e, rfl⟩ | ⟨_, r, s, size, -, hread, hfirst, hres⟩
    · exact ⟨List.nil_prefix, fun size stats h => by cases h⟩
    · obtain ⟨hpre, heq⟩ := hread.concatenate_prefix hf hblob RangeSet.mem_all
      rw [hfirst]
      refine ⟨hpre, ?_⟩
      intro size' stats hok
      rcases hres with ⟨e, herror⟩ | ⟨atEndBlob, r', hall, -⟩
      · rw [herror] at hok
        cases hok
      · exact heq atEndBlob r' hall
  refine ⟨⟨run.1, _, rfl, hitems.1, ?_⟩, ?_⟩
  · obtain ⟨items, res⟩ := run
    cases res with
    | ok res => exact Or.inl ⟨res.2, rfl⟩
    | error e =>
      cases e with
      | get cause => exact Or.inr ⟨cause, rfl⟩
      | panicked => exact absurd rfl hpanic
  · intro bytes stats h
    obtain ⟨parts, hparts, rfl⟩ := bytesAndStats_ok h
    obtain ⟨hflatten, hlast⟩ := collectParts_ok hparts
    obtain ⟨items, res⟩ := run
    cases res with
    | error e => cases hlast
    | ok res =>
      rw [hflatten, List.flatten_nil, List.nil_append]
      exact hitems.2 res.1 res.2 rfl

theorem get_blob_true_twoBlobs :
    ∃ bytes stats, bytesAndStats (getBlob twoIo twoConnection (Hash.replicate 1)) = .ok (bytes, stats) ∧
      bytes = (Hash.replicate 2).bytes := by
  have hserves := serves_twoConnection
  obtain ⟨stats, hget, -⟩ := hserves.getBlob
  exact ⟨_, stats, hget, (get_blob_true twoIo collisionFree_termHash twoConnection (Hash.replicate 1)
    (hserves.blob _ List.mem_cons_self).hash_eq).2 _ _ hget⟩

/-- If a probe for a chunk succeeds then the peer has sent the data of the chunk, or that of the last chunk if the
blob ends before it.  A probe panics for the last number of a chunk, which has no successor, and for no other. -/
theorem probed_chunk_sent (hf : CollisionFree io.f) (connection : Connection) (hash : Hash) {blob : List UInt8}
    (hblob : io.ofHash hash = nodeHash io.f blob []) (chunk : Nat) :
    (getChunkProbe io connection hash chunk = .error .panicked ↔ 2 ^ 64 ≤ chunk + 1) ∧
      ∀ stats, getChunkProbe io connection hash chunk = .ok stats →
        ∃ reader, connection.response ⟨hash, .fromRanges [RangeSet.range chunk (chunk + 1)]⟩ = .ok reader ∧
          region blob (min chunk (treeChunks blob.length - 1)) 1 <:+: reader.bytes := by
  have hmem := mem_range_self chunk
  have hne := RangeSet.isEmpty_eq_false_iff.mpr ⟨chunk, hmem⟩
  have hpanic := readRoot_ne_panicked io connection hash hne
  have hcases := readRoot_cases io connection hash hne
  by_cases hchunk : chunk + 1 < 2 ^ 64
  · rw [getChunkProbe, if_pos hchunk]
    generalize readRoot io connection ⟨hash, .fromRanges [RangeSet.range chunk (chunk + 1)]⟩ = run at hpanic hcases ⊢
    refine ⟨⟨?_, fun h => absurd hchunk (Nat.not_lt.mpr h)⟩, ?_⟩
    · intro h
      cases hres : run.2 with
      | ok res =>
        rw [hres] at h
        cases h
      | error e =>
        rw [hres] at h hpanic
        cases h
        exact absurd rfl hpanic
    · intro stats h
      rcases hcases with ⟨e, rfl⟩ | ⟨_, r, s, size, hresponse, hread, -, ⟨e, herror⟩ | ⟨atEndBlob, r', hall, -⟩⟩
      · cases h
      · rw [herror] at h
        cases h
      · exact ⟨r.reader, hresponse, hread.chunk_infix hf hblob hall hmem⟩
  · rw [getChunkProbe, if_neg hchunk]
    refine ⟨⟨fun _ => Nat.not_lt.mp hchunk, fun _ => rfl⟩, ?_⟩
    intro stats h
    cases h

theorem probed_chunk_sent_twoBlobs :
    ∃ stats reader, getChunkProbe twoIo twoConnection (Hash.replicate 1) 3 = .ok stats ∧
      twoConnection.response ⟨Hash.replicate 1, .fromRanges [RangeSet.range 3 4]⟩ = .ok reader ∧
      (Hash.replicate 2).bytes <:+: reader.bytes := by
  have hserves := serves_twoConnection
  obtain ⟨stats, hprobe⟩ := hserves.getChunkProbe (show 3 + 1 < 2 ^ 64 by omega)
  obtain ⟨reader, hresponse, hsent⟩ := (probed_chunk_sent twoIo collisionFree_termHash twoConnection (Hash.replicate 1)
    (hserves.blob _ List.mem_cons_self).hash_eq 3).2 stats hprobe
  exact ⟨stats, reader, hprobe, hresponse, hsent⟩

/-- If the peer is honest then all requests succeed with what it has.  Only a hash sequence that is larger than the
caller allows is refused. -/
theorem honest_peer_accepted {connection : Connection} {toBytes : H → List UInt8} {c : Hash → List UInt8} {hash : Hash}
    {children : List Hash} (h : connection.Serves io toBytes c hash children) :
    (∃ stats, bytesAndStats (getBlob io connection hash) = .ok (c hash, stats) ∧
      stats.payloadBytesRead = (c hash).length) ∧
      (∃ stats, getUnverifiedSize io connection hash = .ok ((c hash).length, stats)) ∧
      (∃ stats, getVerifiedSize io connection hash = .ok ((c hash).length, stats)) ∧
      (∀ chunk, chunk + 1 < 2 ^ 64 → ∃ stats, getChunkProbe io connection hash chunk = .ok stats) ∧
      ∀ seq : HashSeq, c hash = seq.bytes → children = seq.iter → ∀ maxSize,
        getHashSeqAndSizes io connection hash maxSize =
          if (c hash).length ≤ maxSize then .ok (seq, children.map (fun child => (c child).length))
          else .error (.get .badRequest) := by
  refine ⟨h.getBlob, h.getUnverifiedSize, h.getVerifiedSize, fun chunk hchunk => h.getChunkProbe hchunk, ?_⟩
  intro seq hroot hchildren maxSize
  subst hchildren
  exact h.getHashSeqAndSizes hroot maxSize

/-- A blob of one byte is not a hash sequence; it can be got all the same. -/
theorem honest_peer_accepted_twoBlobs :
    (∃ stats, bytesAndStats (getBlob twoIo childConnection (Hash.replicate 2)) = .ok ([7], stats)) ∧
      (∃ stats, getChunkProbe twoIo childConnection (Hash.replicate 2) 5 = .ok stats) ∧
      getHashSeqAndSizes twoIo twoConnection (Hash.replicate 1) 32 = .ok (HashSeq.ofHashes [Hash.replicate 2], [1]) ∧
      getHashSeqAndSizes twoIo twoConnection (Hash.replicate 1) 31 = .error (.get .badRequest) := by
  obtain ⟨⟨stats, hget, -⟩, -, -, hprobe, -⟩ := honest_peer_accepted twoIo serves_childConnection
  obtain ⟨-, -, -, -, hsizes⟩ := honest_peer_accepted twoIo serves_twoConnection
  refine ⟨⟨stats, hget⟩, hprobe 5 (by omega), ?_, ?_⟩
  · rw [hsizes _ rfl rfl, HashSeq.iter_ofHashes]
    rfl
  · rw [hsizes _ rfl rfl]
    rfl

end Fsm

end IrohBlobs
