import IrohBlobs.MerkleStream
import IrohBlobs.BaoFile
import IrohBlobs.Get

/-!
# Reading a response

The states of `get.rs` that read from the stream of a response: the size header of a blob, its content, and the end of
the response, with the counters and the errors.  The order of the states is that of `Get`.

The content is decoded by the `bao_tree` crate, which is given by what it computes hashes with and by the walk of a
response over the tree of a size (`BaoTreeIo`).  The bytes of the response can be anything.
-/

namespace IrohBlobs

/-! ### Errors -/

namespace Endpoint

inductive ConnectionError
  | versionMismatch
  | transportError
  | connectionClosed
  | applicationClosed
  | reset
  | timedOut
  | locallyClosed
  | cidsExhausted
  deriving DecidableEq

inductive ReadError
  | reset
  | connectionLost (cause : ConnectionError)
  | closedStream
  | illegalOrderedRead
  | zeroRttRejected
  deriving DecidableEq

end Endpoint

namespace Fsm

open Merkle BaoTree
open Get (AtBlobHeader AtEndBlob AtClosing)

/-- Failures for a get operation. -/
inductive GetError
  | notFound
  | remoteReset
  | noncompliantNode
  | io
  | badRequest
  | localFailure
  deriving DecidableEq

def GetError.ofConnectionError : Endpoint.ConnectionError → GetError
  | .versionMismatch | .transportError => .noncompliantNode
  | .reset => .remoteReset
  | .connectionClosed | .applicationClosed | .timedOut | .locallyClosed | .cidsExhausted => .io

def GetError.ofReadError : Endpoint.ReadError → GetError
  | .reset => .remoteReset
  | .connectionLost cause => .ofConnectionError cause
  | .closedStream | .illegalOrderedRead | .zeroRttRejected => .io

/-- The errors of `AtBlobHeader::next`. -/
inductive AtBlobHeaderNextError
  | notFound
  | endpointRead (cause : Endpoint.ReadError)
  deriving DecidableEq

def GetError.ofHeader : AtBlobHeaderNextError → GetError
  | .notFound => .notFound
  | .endpointRead cause => .ofReadError cause

inductive DecodeError
  | chunkNotFound
  | parentNotFound (node : Nat)
  | leafNotFound (num : Nat)
  | parentHashMismatch (node : Nat)
  | leafHashMismatch (num : Nat)
  | read (cause : Endpoint.ReadError)
  deriving DecidableEq

def DecodeError.ofHeader : AtBlobHeaderNextError → DecodeError
  | .notFound => .chunkNotFound
  | .endpointRead cause => .read cause

/-- The error of the decoder of a tree of the given size. -/
def DecodeError.ofBaoTree (size : Nat) : Merkle.DecodeError Endpoint.ReadError → DecodeError
  | .parentNotFound p => .parentNotFound (nodeAt (treeChunks size) p)
  | .leafNotFound p => .leafNotFound (sub (treeChunks size) p).1
  | .parentHashMismatch p => .parentHashMismatch (nodeAt (treeChunks size) p)
  | .leafHashMismatch p => .leafHashMismatch (sub (treeChunks size) p).1
  | .read cause => .read cause

def GetError.ofDecode : DecodeError → GetError
  | .chunkNotFound | .parentNotFound _ | .leafNotFound _ => .notFound
  | .parentHashMismatch _ | .leafHashMismatch _ => .noncompliantNode
  | .read cause => .ofReadError cause

/-! ### The states -/

structure RequestCounters where
  payloadBytesWritten : Nat
  otherBytesWritten : Nat
  payloadBytesRead : Nat
  otherBytesRead : Nat
  deriving DecidableEq

/-- The reader and the counters of a state. -/
structure Reading where
  reader : ByteStream Endpoint.ReadError
  counters : RequestCounters

/-- What is used of the `bao_tree` crate: the hash functions, the hash that 32 bytes stand for, and the walk of a
response over the tree of a size.  The walk has the chunks of the ranges, and the last chunk if the ranges reach
beyond the end. -/
structure BaoTreeIo (H : Type) where
  f : HashFns UInt8 H
  ofBytes : List UInt8 → H
  nodes : Nat → ChunkRanges → List Node
  walk : ∀ size ranges, Walk 16 (treeChunks size) [] 0 (nodes size ranges)
  visits : ∀ size ranges, ∀ x ∈ ranges, Visits (treeChunks size) (nodes size ranges) (min x (treeChunks size - 1))

/-- Whether a chunk of a tree with the given last chunk is in the response for the ranges. -/
def selects (ranges : ChunkRanges) (last x : Nat) : Bool :=
  ranges.contains x || x == last && !(ranges ∩ RangeSet.rangeFrom last).isEmpty

/-- The walk over the selected chunks. -/
def BaoTreeIo.new {H : Type} (f : HashFns UInt8 H) (ofBytes : List UInt8 → H) : BaoTreeIo H where
  f := f
  ofBytes := ofBytes
  nodes size ranges := Merkle.walk 16 (selects ranges (treeChunks size - 1)) [] 0 (treeChunks size)
  walk size ranges := walk_walk (by omega) (by unfold treeChunks; omega)
  visits size ranges x hx := by
    have hn : 0 < treeChunks size := by unfold treeChunks; omega
    refine visits_walk rfl ?_ (Nat.zero_le _) (by omega)
    rw [selects, Bool.or_eq_true, Bool.and_eq_true]
    by_cases hlt : x < treeChunks size - 1
    · rw [Nat.min_eq_left (by omega)]
      exact Or.inl hx
    · rw [Nat.min_eq_right (by omega)]
      refine Or.inr ⟨beq_self_eq_true _, ?_⟩
      rw [Bool.not_eq_true', RangeSet.isEmpty_eq_false_iff]
      exact ⟨x, RangeSet.mem_inter.mpr ⟨hx, RangeSet.mem_rangeFrom.mpr (by omega)⟩⟩

/-- The hash that a hash of 32 bytes stands for. -/
def BaoTreeIo.ofHash {H : Type} (io : BaoTreeIo H) (hash : Hash) : H := io.ofBytes hash.bytes

/-- The number that eight bytes stand for, the lowest first. -/
def ofLeBytes (bytes : List UInt8) : Nat := bytes.foldr (fun b n => b.toNat + 256 * n) 0

variable {H : Type} [DecidableEq H]

/-- State while we are reading content: the nodes that the decoder expects, and what it has verified. -/
structure AtBlobContent (H : Type) where
  nodes : List Node
  decoder : Decoder H
  reader : ByteStream Endpoint.ReadError
  rangesIter : ChunkRangesSeq.NonEmptyIter
  counters : RequestCounters

/-- The next state after reading a content item.  The state after an error is not used. -/
inductive BlobContentNext (H : Type)
  | more (res : Except DecodeError (AtBlobContent H × BaoContentItem H))
  | done (atEndBlob : AtEndBlob) (reading : Reading)

def RequestCounters.count (counters : RequestCounters) : Item H → RequestCounters
  | .parent _ _ => { counters with otherBytesRead := counters.otherBytesRead + 64 }
  | .leaf _ data => { counters with payloadBytesRead := counters.payloadBytesRead + data.length }

/-- The item of a node of the tree of the given size. -/
def contentItem (size : Nat) : Item H → BaoContentItem H
  | .parent p pair => .parent ⟨nodeAt (treeChunks size) p, pair⟩
  | .leaf p data => .leaf ⟨(sub (treeChunks size) p).1 * 1024, data⟩

namespace AtBlobContent

variable (io : BaoTreeIo H)

/-- Read the next item, either content, an error, or the end of the blob. -/
def next (s : AtBlobContent H) : BlobContentNext H :=
  match s.nodes with
  | [] => .done ⟨s.rangesIter⟩ ⟨s.reader, s.counters⟩
  | node :: nodes =>
    match readNode io.f 16 io.ofBytes s.decoder node s.reader with
    | .error e => .more (.error (.ofBaoTree s.decoder.size e))
    | .ok (item, decoder, reader) =>
      .more (.ok ({ s with nodes, decoder, reader, counters := s.counters.count item },
        contentItem s.decoder.size item))

theorem length_next {s s' : AtBlobContent H} {item : BaoContentItem H} (h : s.next io = .more (.ok (s', item))) :
    s'.nodes.length < s.nodes.length := by
  unfold next at h
  split at h
  · cases h
  · rename_i node nodes hnodes
    split at h
    · cases h
    · cases h
      rw [hnodes]
      exact Nat.lt_succ_self _

/-- The items up to the end of the blob or an error. -/
def readAll (s : AtBlobContent H) : List (BaoContentItem H) × Except DecodeError (AtEndBlob × Reading) :=
  match _h : s.next io with
  | .done atEndBlob reading => ([], .ok (atEndBlob, reading))
  | .more (.error e) => ([], .error e)
  | .more (.ok (s', item)) => (item :: (readAll s').1, (readAll s').2)
termination_by s.nodes.length
decreasing_by exact length_next io _h

/-- Drain the response and throw away the result. -/
def drain (s : AtBlobContent H) : Except DecodeError (AtEndBlob × Reading) := (s.readAll io).2

/-- The data of the leaves. -/
def concatenate (items : List (BaoContentItem H)) : List UInt8 :=
  items.flatMap fun
    | .parent _ => []
    | .leaf leaf => leaf.data

/-- Concatenate the entire response into a vec. -/
def concatenateIntoVec (s : AtBlobContent H) : Except DecodeError ((AtEndBlob × Reading) × List UInt8) := do
  let done ← (s.readAll io).2
  pure (done, concatenate (s.readAll io).1)

end AtBlobContent

variable (io : BaoTreeIo H)

/-- Read the size header, returning it and going into the `Content` state. -/
def AtBlobHeader.next (header : AtBlobHeader) (r : Reading) : Except AtBlobHeaderNextError (AtBlobContent H × Nat) :=
  match r.reader.readExact 8 with
  | .error .eof => .error .notFound
  | .error (.broken cause) => .error (.endpointRead cause)
  | .ok (bytes, reader) =>
    .ok (⟨io.nodes (ofLeBytes bytes) header.ranges, ⟨ofLeBytes bytes, io.ofHash header.hash, []⟩, reader,
      header.rangesIter, { r.counters with otherBytesRead := r.counters.otherBytesRead + 8 }⟩, ofLeBytes bytes)

/-- Finish the get response, returning statistics.  Data that nobody asked for is only reported. -/
def AtClosing.next (s : AtClosing) (r : Reading) : Except Endpoint.ReadError RequestCounters :=
  if s.checkExtraData && r.reader.bytes.isEmpty then
    match r.reader.broken with
    | some cause => .error cause
    | none => .ok r.counters
  else .ok r.counters

/-! ### The items that are read -/

section

variable {io} {s : AtBlobContent H}

namespace AtBlobContent

theorem readAll_of_done {atEndBlob : AtEndBlob} {r : Reading} (h : s.next io = .done atEndBlob r) :
    s.readAll io = ([], .ok (atEndBlob, r)) := by
  rw [readAll]
  split <;> simp_all

theorem readAll_of_error {e : DecodeError} (h : s.next io = .more (.error e)) : s.readAll io = ([], .error e) := by
  rw [readAll]
  split <;> simp_all

theorem readAll_of_ok {s' : AtBlobContent H} {item : BaoContentItem H} (h : s.next io = .more (.ok (s', item))) :
    s.readAll io = (item :: (s'.readAll io).1, (s'.readAll io).2) := by
  rw [readAll]
  split <;> simp_all

end AtBlobContent

/-- The items are those of the nodes, and the counters count them. -/
theorem AtBlobContent.readAll_eq (s : AtBlobContent H) :
    s.readAll io =
      ((readNodes io.f 16 io.ofBytes s.decoder s.nodes s.reader).1.map (contentItem s.decoder.size),
        ((readNodes io.f 16 io.ofBytes s.decoder s.nodes s.reader).2.mapError
          (DecodeError.ofBaoTree s.decoder.size)).map
          (fun reader => (⟨s.rangesIter⟩,
            ⟨reader, (readNodes io.f 16 io.ofBytes s.decoder s.nodes s.reader).1.foldl RequestCounters.count
              s.counters⟩))) := by
  obtain ⟨nodes, decoder, reader, rangesIter, counters⟩ := s
  induction nodes generalizing decoder reader counters with
  | nil =>
    rw [readAll_of_done rfl]
    rfl
  | cons node nodes ih =>
    cases hread : readNode io.f 16 io.ofBytes decoder node reader with
    | error e =>
      have hnext : next io ⟨node :: nodes, decoder, reader, rangesIter, counters⟩ =
        .more (.error (.ofBaoTree decoder.size e)) := by
        simp only [next, hread]
      rw [readAll_of_error hnext]
      simp only [readNodes, hread]
      rfl
    | ok res =>
      obtain ⟨item, decoder', reader'⟩ := res
      have hnext : next io ⟨node :: nodes, decoder, reader, rangesIter, counters⟩ = .more (.ok
          (⟨nodes, decoder', reader', rangesIter, counters.count item⟩, contentItem decoder.size item)) := by
        simp only [next, hread]
      rw [readAll_of_ok hnext]
      simp only [ih, readNodes, hread, readNode_size hread]
      rfl

end

/-! ### Headers -/

private theorem ofLeBytes_lt (bytes : List UInt8) : ofLeBytes bytes < 256 ^ bytes.length := by
  induction bytes with
  | nil => exact Nat.one_pos
  | cons b bytes ih =>
    have hb := b.toNat_lt
    show b.toNat + 256 * ofLeBytes bytes < 256 ^ (bytes.length + 1)
    rw [Nat.pow_succ]
    omega

/-- What the header of a blob is, if there is one. -/
structure HeaderRead (header : AtBlobHeader) (r : Reading) (s : AtBlobContent H) (size : Nat) : Prop where
  bytes : ∃ bytes, r.reader.bytes = bytes ++ s.reader.bytes ∧ bytes.length = 8 ∧ size = ofLeBytes bytes
  broken : s.reader.broken = r.reader.broken
  nodes : s.nodes = io.nodes size header.ranges
  decoder : s.decoder = ⟨size, io.ofHash header.hash, []⟩
  rangesIter : s.rangesIter = header.rangesIter
  counters : s.counters = { r.counters with otherBytesRead := r.counters.otherBytesRead + 8 }

section

variable {io} {header : AtBlobHeader} {r r' : Reading} {s : AtBlobContent H} {size : Nat} {blob : List UInt8}
  {atEndBlob : AtEndBlob}

omit [DecidableEq H] in
theorem headerRead (h : AtBlobHeader.next io header r = .ok (s, size)) : HeaderRead io header r s size := by
  unfold AtBlobHeader.next at h
  split at h
  · cases h
  · cases h
  · rename_i bytes reader hread
    obtain ⟨hbytes, hlen, hbroken⟩ := ByteStream.readExact_eq_ok hread
    cases h
    exact ⟨⟨bytes, hbytes, hlen, rfl⟩, hbroken, rfl, rfl, rfl, rfl⟩

omit [DecidableEq H] in
theorem HeaderRead.size_lt (h : HeaderRead io header r s size) : size < 2 ^ 64 := by
  obtain ⟨bytes, -, hlen, rfl⟩ := h.bytes
  have := ofLeBytes_lt bytes
  rwa [hlen] at this

omit [DecidableEq H] in
/-- The decoder has verified nothing yet. -/
theorem HeaderRead.sound (h : HeaderRead io header r s size) (hblob : io.ofHash header.hash = nodeHash io.f blob []) :
    s.decoder.Sound io.f blob := by
  rw [h.decoder]
  exact ⟨hblob, by simp, by simp⟩

omit [DecidableEq H] in
private theorem HeaderRead.visits (h : HeaderRead io header r s size) {x : Nat} (hx : x ∈ header.ranges) :
    Visits (treeChunks s.decoder.size) s.nodes (min x (treeChunks s.decoder.size - 1)) := by
  rw [h.nodes, h.decoder]
  exact io.visits size header.ranges x hx

theorem readNodes_of_readAll (h : (s.readAll io).2 = .ok (atEndBlob, r')) :
    (readNodes io.f 16 io.ofBytes s.decoder s.nodes s.reader).2 = .ok r'.reader ∧ atEndBlob = ⟨s.rangesIter⟩ ∧
      r'.counters = (readNodes io.f 16 io.ofBytes s.decoder s.nodes s.reader).1.foldl
        RequestCounters.count s.counters := by
  rw [AtBlobContent.readAll_eq] at h
  simp only at h
  cases hres : (readNodes io.f 16 io.ofBytes s.decoder s.nodes s.reader).2 with
  | error e =>
    rw [hres] at h
    cases h
  | ok reader =>
    rw [hres] at h
    cases h
    exact ⟨rfl, rfl, rfl⟩

theorem readAll_of_concatenateIntoVec {res : AtEndBlob × Reading} {bytes : List UInt8}
    (h : s.concatenateIntoVec io = .ok (res, bytes)) :
    (s.readAll io).2 = .ok res ∧ bytes = AtBlobContent.concatenate (s.readAll io).1 := by
  unfold AtBlobContent.concatenateIntoVec at h
  cases hall : (s.readAll io).2 with
  | error e =>
    rw [hall] at h
    cases h
  | ok res' =>
    rw [hall] at h
    cases h
    exact ⟨rfl, rfl⟩

omit [DecidableEq H] in
theorem payloadBytesRead_count (items : List (Item H)) (counters : RequestCounters) :
    (items.foldl RequestCounters.count counters).payloadBytesRead = counters.payloadBytesRead +
      (leafData items).length := by
  induction items generalizing counters with
  | nil => rfl
  | cons item items ih =>
    have hitem : (counters.count item).payloadBytesRead = counters.payloadBytesRead + item.data.length := by
      cases item <;> rfl
    rw [List.foldl_cons, ih, hitem, leafData, leafData, List.flatMap_cons, List.length_append, Nat.add_assoc]

/-- The size in the header of a blob is right if the last chunk was read. -/
theorem HeaderRead.size_eq (h : HeaderRead io header r s size) (hf : CollisionFree io.f)
    (hblob : io.ofHash header.hash = nodeHash io.f blob []) (hread : (s.readAll io).2 = .ok (atEndBlob, r')) {x : Nat}
    (hx : x ∈ header.ranges) (hlast : treeChunks size - 1 ≤ x) : size = blob.length := by
  have hvisits := h.visits hx
  have hsize : s.decoder.size = size := by rw [h.decoder]
  rw [Nat.min_eq_right (by rw [hsize]; exact hlast)] at hvisits
  rw [← hsize]
  exact size_eq_of_ok hf (h.sound hblob) (readNodes_of_readAll hread).1 hvisits

omit [DecidableEq H] in
theorem concatenate_contentItem (size : Nat) (items : List (Item H)) :
    AtBlobContent.concatenate (items.map (contentItem size)) = leafData items := by
  induction items with
  | nil => rfl
  | cons item items ih =>
    rw [AtBlobContent.concatenate, leafData] at *
    rw [List.map_cons, List.flatMap_cons, List.flatMap_cons, ih]
    cases item <;> rfl

/-- If everything is selected, the leaves are a beginning of the blob, and all of it if there is no error. -/
theorem HeaderRead.concatenate_prefix (h : HeaderRead io header r s size) (hf : CollisionFree io.f)
    (hblob : io.ofHash header.hash = nodeHash io.f blob []) (hall : ∀ x, x ∈ header.ranges) :
    AtBlobContent.concatenate (s.readAll io).1 <+: blob ∧
      ∀ atEndBlob r', (s.readAll io).2 = .ok (atEndBlob, r') → AtBlobContent.concatenate (s.readAll io).1 = blob := by
  have hwalk : Walk 16 (treeChunks s.decoder.size) [] 0 s.nodes := by
    rw [h.nodes, h.decoder]
    exact io.walk size header.ranges
  have hvisits : ∀ x, x < treeChunks s.decoder.size → Visits (treeChunks s.decoder.size) s.nodes x := by
    intro x hx
    have hvisits := h.visits (hall x)
    rwa [Nat.min_eq_left (by omega)] at hvisits
  have hitems : AtBlobContent.concatenate (s.readAll io).1 =
      leafData (readNodes io.f 16 io.ofBytes s.decoder s.nodes s.reader).1 := by
    rw [AtBlobContent.readAll_eq, concatenate_contentItem]
  rw [hitems]
  obtain ⟨hpre, heq⟩ := leafData_prefix (k := 16) (s := s.reader) hf (h.sound hblob) hwalk hvisits
  exact ⟨hpre, fun atEndBlob r' hread => heq _ (readNodes_of_readAll hread).1⟩

/-- A leaf with a selected chunk has been read, at the place that it has in the blob.  If the chunk is beyond the end,
it is the last leaf. -/
theorem HeaderRead.exists_leaf (h : HeaderRead io header r s size) (hf : CollisionFree io.f)
    (hblob : io.ofHash header.hash = nodeHash io.f blob []) (hread : (s.readAll io).2 = .ok (atEndBlob, r')) {x : Nat}
    (hx : x ∈ header.ranges) :
    ∃ p data, .leaf p data ∈ (readNodes io.f 16 io.ofBytes s.decoder s.nodes s.reader).1 ∧
      sub (treeChunks size) p = sub (treeChunks blob.length) p ∧
      data = region blob (sub (treeChunks blob.length) p).1 (sub (treeChunks blob.length) p).2 ∧
      (sub (treeChunks blob.length) p).1 ≤ min x (treeChunks blob.length - 1) ∧
      min x (treeChunks blob.length - 1) < (sub (treeChunks blob.length) p).1 + (sub (treeChunks blob.length) p).2 := by
  have hsize : s.decoder.size = size := by rw [h.decoder]
  have hok := (readNodes_of_readAll hread).1
  obtain ⟨p, data, hmem, ⟨hpath, -, hsub, hdata, -⟩, h1, h2⟩ :=
    exists_leaf_of_visits hf (h.sound hblob) hok (h.visits hx)
  rw [hsize] at hsub h1 h2
  rw [hsub] at h1 h2
  have hbounds := sub_bounds (by unfold treeChunks; omega) hpath
  -- if the chunk is beyond the end, the size is right
  have hchunk : min x (treeChunks size - 1) = min x (treeChunks blob.length - 1) := by
    by_cases hlast : treeChunks size - 1 ≤ x
    · rw [h.size_eq hf hblob hread hx hlast]
    · omega
  rw [hchunk] at h1 h2
  exact ⟨p, data, hmem, hsub, hdata, h1, h2⟩

private theorem region_add (data : List UInt8) (s a b : Nat) :
    region data s (a + b) = region data s a ++ region data (s + a) b := by
  rw [region, region, region, Nat.add_mul, Nat.add_mul, List.take_add, List.drop_drop]

/-- The data of a selected chunk has been sent. -/
theorem HeaderRead.chunk_infix (h : HeaderRead io header r s size) (hf : CollisionFree io.f)
    (hblob : io.ofHash header.hash = nodeHash io.f blob []) (hread : (s.readAll io).2 = .ok (atEndBlob, r')) {x : Nat}
    (hx : x ∈ header.ranges) : region blob (min x (treeChunks blob.length - 1)) 1 <:+: r.reader.bytes := by
  obtain ⟨p, data, hmem, -, hdata, h1, h2⟩ := h.exists_leaf hf hblob hread hx
  have hpart : region blob (min x (treeChunks blob.length - 1)) 1 <:+: data := by
    generalize min x (treeChunks blob.length - 1) = y at h1 h2 ⊢
    obtain ⟨a, rfl⟩ := Nat.exists_eq_add_of_le h1
    obtain ⟨b, hb⟩ := Nat.exists_eq_add_of_le (show a + 1 ≤ (sub (treeChunks blob.length) p).2 by omega)
    rw [hdata, hb, region_add, region_add]
    exact (List.suffix_append _ _).isInfix.trans (List.prefix_append _ _).isInfix
  obtain ⟨bytes, hbytes, -⟩ := h.bytes
  have hsent : data <:+: s.reader.bytes := data_infix hmem
  rw [hbytes]
  exact (hpart.trans hsent).trans (List.suffix_append _ _).isInfix

end

/-! ### Honest responses -/

private theorem ofLeBytes_range (k n : Nat) :
    ofLeBytes ((List.range k).map (fun i => UInt8.ofNat (n / 256 ^ i))) = n % 256 ^ k := by
  induction k generalizing n with
  | zero =>
    rw [Nat.pow_zero, Nat.mod_one]
    rfl
  | succ k ih =>
    have hmap : ∀ i, UInt8.ofNat (n / 256 ^ (i + 1)) = UInt8.ofNat (n / 256 / 256 ^ i) := by
      intro i
      rw [Nat.div_div_eq_div_mul, Nat.pow_succ']
    rw [List.range_succ_eq_map, List.map_cons, List.map_map]
    show (UInt8.ofNat (n / 256 ^ 0)).toNat + 256 *
      ofLeBytes ((List.range k).map (fun i => UInt8.ofNat (n / 256 ^ (i + 1)))) = _
    have hsplit : n % 256 ^ (k + 1) = n % 256 + 256 * (n / 256 % 256 ^ k) := by rw [Nat.pow_succ', Nat.mod_mul]
    rw [List.map_congr_left (fun i _ => hmap i), ih, Nat.pow_zero, Nat.div_one, UInt8.toNat_ofNat', hsplit]

private theorem ofLeBytes_toLeBytes {n : Nat} (h : n < 2 ^ 64) : ofLeBytes (toLeBytes n) = n := by
  rw [toLeBytes, ofLeBytes_range]
  exact Nat.mod_eq_of_lt h

/-- What an honest provider sends for ranges of a blob. -/
def blobBytes (toBytes : H → List UInt8) (blob : List UInt8) (ranges : ChunkRanges) : List UInt8 :=
  toLeBytes blob.length ++ encode io.f toBytes blob (io.nodes blob.length ranges)

/-- The blob of a hash.  Its size fits into a `u64`, and the hashes of its tree can be read back. -/
structure BlobOf (toBytes : H → List UInt8) (hash : Hash) (blob : List UInt8) : Prop where
  size_lt : blob.length < 2 ^ 64
  readsBack : ReadsBack io.f io.ofBytes toBytes blob
  hash_eq : io.ofHash hash = nodeHash io.f blob []

/-- The items of an honest response. -/
def honestItems (blob : List UInt8) (ranges : ChunkRanges) : List (Item H) :=
  (io.nodes blob.length ranges).map (itemAt io.f blob)

/-- The error of a getter for which there were not enough bytes: the stream ended, or it broke off. -/
def GetError.Missing (broken : Option Endpoint.ReadError) (e : GetError) : Prop :=
  (broken = none ∧ e = .notFound) ∨ ∃ cause, broken = some cause ∧ e = .ofReadError cause

section

variable {io} {header : AtBlobHeader} {r : Reading} {toBytes : H → List UInt8} {blob rest : List UInt8}

omit [DecidableEq H] in
private theorem missing_of_header {e : AtBlobHeaderNextError} (h : AtBlobHeader.next io header r = .error e) :
    GetError.Missing r.reader.broken (.ofHeader e) := by
  unfold AtBlobHeader.next at h
  rcases r.reader.readError_cases with ⟨herror, hbroken⟩ | ⟨cause, herror, hbroken⟩
  · split at h
    · cases h
      exact Or.inl ⟨hbroken, rfl⟩
    · rename_i hread
      rw [ByteStream.readExact_eq_error hread] at herror
      cases herror
    · cases h
  · split at h
    · rename_i hread
      rw [ByteStream.readExact_eq_error hread] at herror
      cases herror
    · rename_i hread
      rw [ByteStream.readExact_eq_error hread] at herror
      cases herror
      cases h
      exact Or.inr ⟨cause, hbroken, rfl⟩
    · cases h

omit [DecidableEq H] in
private theorem missing_of_decode {size : Nat} {broken : Option Endpoint.ReadError}
    {e : Merkle.DecodeError Endpoint.ReadError}
    (h : e.Missing broken) : GetError.Missing broken (.ofDecode (.ofBaoTree size e)) := by
  cases e with
  | parentNotFound p => exact Or.inl ⟨h, rfl⟩
  | leafNotFound p => exact Or.inl ⟨h, rfl⟩
  | parentHashMismatch p => cases h
  | leafHashMismatch p => cases h
  | read cause => exact Or.inr ⟨cause, h, rfl⟩

variable (io header r rest) in
/-- An honest response is read, up to what follows it. -/
theorem read_honest (hblob : BlobOf io toBytes header.hash blob)
    (h : r.reader.bytes = blobBytes io toBytes blob header.ranges ++ rest) :
    ∃ s, AtBlobHeader.next io header r = .ok (s, blob.length) ∧
      s.readAll io = ((honestItems io blob header.ranges).map (contentItem blob.length),
        .ok (⟨header.rangesIter⟩, ⟨⟨rest, r.reader.broken⟩,
          (honestItems io blob header.ranges).foldl RequestCounters.count
          { r.counters with otherBytesRead := r.counters.otherBytesRead + 8 }⟩)) := by
  have hlen : (toLeBytes blob.length).length = 8 := by simp [toLeBytes]
  have hread := ByteStream.readExact_append (toLeBytes blob.length)
    (encode io.f toBytes blob (io.nodes blob.length header.ranges) ++ rest) r.reader.broken
  rw [hlen, ← List.append_assoc] at hread
  have hstream : r.reader = ⟨blobBytes io toBytes blob header.ranges ++ rest, r.reader.broken⟩ := by rw [← h]
  refine ⟨⟨io.nodes blob.length header.ranges, ⟨blob.length, io.ofHash header.hash, []⟩,
    ⟨encode io.f toBytes blob (io.nodes blob.length header.ranges) ++ rest, r.reader.broken⟩, header.rangesIter,
    { r.counters with otherBytesRead := r.counters.otherBytesRead + 8 }⟩, ?_, ?_⟩
  · rw [AtBlobHeader.next, hstream, blobBytes, hread]
    simp only [ofLeBytes_toLeBytes hblob.size_lt]
  · have hhas : Decoder.Has io.f blob ⟨blob.length, io.ofHash header.hash, []⟩ [] := ⟨rfl, hblob.hash_eq, by simp⟩
    rw [AtBlobContent.readAll_eq]
    simp only [readNodes_encode hblob.readsBack hhas (io.walk blob.length header.ranges)]
    rfl

variable (header) in
/-- From a beginning of an honest response the whole blob can be read, or else something is missing. -/
theorem read_prefix (hblob : BlobOf io toBytes header.hash blob)
    (hpre : r.reader.bytes <+: blobBytes io toBytes blob header.ranges ++ rest) :
    (∃ bytes, r.reader.bytes = blobBytes io toBytes blob header.ranges ++ bytes ∧ bytes <+: rest) ∨
      (∃ e, AtBlobHeader.next io header r = .error e ∧ GetError.Missing r.reader.broken (.ofHeader e)) ∨
        ∃ s, AtBlobHeader.next io header r = .ok (s, blob.length) ∧
          ∃ e, (s.readAll io).2 = .error e ∧ GetError.Missing r.reader.broken (.ofDecode e) := by
  have hlen : (toLeBytes blob.length).length = 8 := by simp [toLeBytes]
  cases hnext : AtBlobHeader.next io header r with
  | error e => exact Or.inr (Or.inl ⟨e, rfl, missing_of_header hnext⟩)
  | ok res =>
    obtain ⟨s, size⟩ := res
    have hread := headerRead hnext
    obtain ⟨bytes, hsplit, hlen', hsizeBytes⟩ := hread.bytes
    -- the header is that of the blob
    rw [hsplit, blobBytes, List.append_assoc] at hpre
    obtain ⟨rest', hrest⟩ := hpre
    rw [List.append_assoc] at hrest
    obtain ⟨hheader, htail⟩ := List.append_inj hrest (by rw [hlen', hlen])
    have hsize' : size = blob.length := by rw [hsizeBytes, hheader, ofLeBytes_toLeBytes hblob.size_lt]
    subst hsize'
    have hhas : s.decoder.Has io.f blob [] := by
      rw [hread.decoder]
      exact ⟨rfl, hblob.hash_eq, by simp⟩
    have hpre' : s.reader.bytes <+: encode io.f toBytes blob (io.nodes blob.length header.ranges) ++
      rest := ⟨rest', htail⟩
    rcases readNodes_prefix hblob.readsBack hhas (io.walk blob.length header.ranges) hpre' with
      ⟨bytes', hs, hbytes'⟩ | ⟨i, e, hnodes, he⟩
    · refine Or.inl ⟨bytes', ?_, hbytes'⟩
      rw [hsplit, hheader, hs, blobBytes, List.append_assoc]
    · refine Or.inr (Or.inr ⟨s, rfl, .ofBaoTree s.decoder.size e, ?_, ?_⟩)
      · rw [AtBlobContent.readAll_eq, hread.nodes, hnodes]
        rfl
      · rw [hread.broken] at he
        exact missing_of_decode he

end

end Fsm

end IrohBlobs
