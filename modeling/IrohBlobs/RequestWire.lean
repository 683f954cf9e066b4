import IrohBlobs.Codec
import IrohBlobs.Events
import IrohBlobs.RangeWire

/-!
# Requests on the wire

The model of `Request::read_async` in `protocol.rs` and of what the clients in `get.rs` and `api/remote.rs` write.  A
request is the index of its variant and the fields of its struct.  Get, get many and observe requests are read to the
end of the stream.  A push request is followed by data, so it is written behind its length, and the index is written
by hand: it is that of `RequestType`, while the other requests have that of `Request`.

Structs, lists and numbers are encoded with `postcard`, which is given here by its codec for numbers.  Sequences of
ranges go through their wire format, so a request can only be written if its offsets do not decrease.
-/

namespace IrohBlobs

open Events (Request)

/-- The boundaries fit into the `u64` of the source. -/
def ChunkRanges.IsU64 (c : ChunkRanges) : Prop := ∀ b ∈ c.boundaries, b < 2 ^ 64

namespace ChunkRangesSeq

/-- All numbers fit into the `u64` of the source. -/
def IsU64 (seq : ChunkRangesSeq) : Prop := ∀ e ∈ seq.entries, e.1 < 2 ^ 64 ∧ ChunkRanges.IsU64 e.2

/-- A sequence that can be written: its offsets do not decrease. -/
structure Writable (seq : ChunkRangesSeq) : Prop where
  isU64 : seq.IsU64
  sorted : seq.offsets.Pairwise (· ≤ ·)

end ChunkRangesSeq

/-- Encoding and decoding a sequence whose offsets do not decrease gives the sequence. -/
theorem RangeSpecSeq.toChunkRangesSeq_of {seq : ChunkRangesSeq} (h : seq.Writable) :
    ∃ wire, ofChunkRangesSeq seq = some wire ∧ wire.toChunkRangesSeq = some seq := by
  have hsorted : seq.entries.Pairwise (fun a b => a.1 ≤ b.1) := List.pairwise_map.mp h.sorted
  have hoffset : ∀ e ∈ seq.entries, 0 ≤ e.1 ∧ e.1 < 2 ^ 64 := fun e he => ⟨Nat.zero_le _, (h.isU64 e he).1⟩
  obtain ⟨wire, henc, hdec⟩ := decodeLoop_encodeLoop hsorted hoffset (fun e he => (h.isU64 e he).2)
  refine ⟨⟨wire⟩, ?_, ?_⟩
  · rw [ofChunkRangesSeq, henc, Option.map_some]
  · rw [toChunkRangesSeq, hdec, Option.map_some]

/-! ### Encoding with `postcard` -/

/-- `postcard`, by its codec for numbers. -/
structure Postcard where
  varint : Codec Nat

namespace Postcard

variable (p : Postcard)

def u64 : Codec UInt64 := p.varint.map UInt64.ofNat UInt64.toNat (fun _ => UInt64.ofNat_toNat)

/-- A hash is a fixed number of bytes. -/
def hash : Codec Hash := (Codec.bytes 32).map (fun l => ⟨l.1, l.2⟩) (fun h => ⟨h.bytes, h.length_bytes⟩) (fun _ => rfl)

def rangeSpec : Codec RangeSpec := (Codec.list p.varint p.u64).map RangeSpec.mk RangeSpec.widths (fun _ => rfl)

def rangeSpecSeq : Codec RangeSpecSeq :=
  (Codec.list p.varint (p.u64.pair p.rangeSpec)).map RangeSpecSeq.mk RangeSpecSeq.entries (fun _ => rfl)

def observeRequest : Codec (ObserveRequest Hash) :=
  (hash.pair p.rangeSpec).map (fun v => ⟨v.1, v.2⟩) (fun r => (r.hash, r.ranges)) (fun _ => rfl)

/-! A `ChunkRangesSeq` is converted to its wire format before it is written, and from it after it is read. -/

def getRequestToVec (r : GetRequest Hash) : Option (List UInt8) :=
  (RangeSpecSeq.ofChunkRangesSeq r.ranges).map fun wire => (hash.pair p.rangeSpecSeq).write (r.hash, wire)

def getRequestFromBytes (bytes : List UInt8) : Option (GetRequest Hash) :=
  ((hash.pair p.rangeSpecSeq).fromBytes bytes).bind fun (hash, wire) => wire.toChunkRangesSeq.map (GetRequest.mk hash)

def getManyRequestToVec (r : GetManyRequest Hash) : Option (List UInt8) :=
  (RangeSpecSeq.ofChunkRangesSeq r.ranges).map fun wire =>
    ((Codec.list p.varint hash).pair p.rangeSpecSeq).write (r.hashes, wire)

def getManyRequestFromBytes (bytes : List UInt8) : Option (GetManyRequest Hash) :=
  (((Codec.list p.varint hash).pair p.rangeSpecSeq).fromBytes bytes).bind fun (hashes, wire) =>
    wire.toChunkRangesSeq.map (GetManyRequest.mk hashes)

/-- `PushRequest` is a newtype, which has no encoding of its own. -/
def pushRequestToVec (r : PushRequest Hash) : Option (List UInt8) := p.getRequestToVec r.request

def pushRequestFromBytes (bytes : List UInt8) : Option (PushRequest Hash) :=
  (p.getRequestFromBytes bytes).map PushRequest.mk

/-- The encoding of the enum: the index of the variant, and its fields. -/
def requestToVec (request : Request) : Option (List UInt8) :=
  let fields :=
    match request with
    | .get r => p.getRequestToVec r
    | .observe r => some (p.observeRequest.write r)
    | .push r => p.pushRequestToVec r
    | .getMany r => p.getManyRequestToVec r
    | .slot2 | .slot3 | .slot4 | .slot5 | .slot6 | .slot7 => some []
  fields.map fun bytes => UInt8.ofNat request.ctorIdx :: bytes

private theorem getRequest_roundtrip {r : GetRequest Hash} (h : r.ranges.Writable) :
    ∃ bytes, p.getRequestToVec r = some bytes ∧ p.getRequestFromBytes bytes = some r := by
  obtain ⟨wire, henc, hdec⟩ := RangeSpecSeq.toChunkRangesSeq_of h
  refine ⟨(hash.pair p.rangeSpecSeq).write (r.hash, wire), ?_, ?_⟩
  · rw [getRequestToVec, henc, Option.map_some]
  · rw [getRequestFromBytes, Codec.fromBytes_write, Option.bind_some]
    simp only [hdec, Option.map_some]

private theorem getManyRequest_roundtrip {r : GetManyRequest Hash} (h : r.ranges.Writable) :
    ∃ bytes, p.getManyRequestToVec r = some bytes ∧ p.getManyRequestFromBytes bytes = some r := by
  obtain ⟨wire, henc, hdec⟩ := RangeSpecSeq.toChunkRangesSeq_of h
  refine ⟨((Codec.list p.varint hash).pair p.rangeSpecSeq).write (r.hashes, wire), ?_, ?_⟩
  · rw [getManyRequestToVec, henc, Option.map_some]
  · rw [getManyRequestFromBytes, Codec.fromBytes_write, Option.bind_some]
    simp only [hdec, Option.map_some]

private theorem pushRequest_roundtrip {r : PushRequest Hash} (h : r.request.ranges.Writable) :
    ∃ bytes, p.pushRequestToVec r = some bytes ∧ p.pushRequestFromBytes bytes = some r := by
  obtain ⟨bytes, hwrite, hread⟩ := p.getRequest_roundtrip h
  refine ⟨bytes, hwrite, ?_⟩
  rw [pushRequestFromBytes, hread, Option.map_some]

end Postcard

/-! ### Reading and writing streams -/

/-- Maximum message size. -/
def MAX_MESSAGE_SIZE : Nat := 1024 * 1024

/-- This must contain the request types in the same order as the full requests. -/
inductive RequestType
  | get
  | observe
  | slot2
  | slot3
  | slot4
  | slot5
  | slot6
  | slot7
  | push
  | getMany
  deriving DecidableEq

/-- The variants in the order of their declaration. -/
def RequestType.variants : List RequestType :=
  [.get, .observe, .slot2, .slot3, .slot4, .slot5, .slot6, .slot7, .push, .getMany]

/-- `postcard::from_bytes` for one byte. -/
def RequestType.fromByte (b : UInt8) : Option RequestType := variants[b.toNat]?

/-- The errors of `read_async`. -/
inductive ReadError
  /-- The stream ends before the request does. -/
  | unexpectedEof
  /-- "failed to deserialize request type" -/
  | requestType
  /-- The request is longer than the maximum message size. -/
  | tooLong
  /-- The bytes are not a request. -/
  | invalidData
  deriving DecidableEq

variable (p : Postcard)

/-- `write_length_prefixed` for the encoding of a value. -/
def writeLengthPrefixed (bytes : List UInt8) : List UInt8 := p.varint.write bytes.length ++ bytes

/-- `read_length_prefixed`: the value, and the bytes that are not read. -/
def readLengthPrefixed {α : Type} (fromBytes : List UInt8 → Option α) (maxSize : Nat) (stream : List UInt8) :
    Except ReadError (α × List UInt8) :=
  match p.varint.read stream with
  | none => .error .unexpectedEof
  | some (size, stream) =>
    if maxSize < size then .error .tooLong
    else if stream.length < size then .error .unexpectedEof
    else
      match fromBytes (stream.take size) with
      | none => .error .invalidData
      | some value => .ok (value, stream.drop size)

/-- `read_to_end_as`: the value and the number of bytes. -/
def readToEndAs {α : Type} (fromBytes : List UInt8 → Option α) (maxSize : Nat) (stream : List UInt8) :
    Except ReadError (α × Nat) :=
  if maxSize < stream.length then .error .tooLong
  else
    match fromBytes stream with
    | none => .error .invalidData
    | some value => .ok (value, stream.length)

/-- `Request::read_async` on what the peer sends: the request and its size, and the bytes that are not read. -/
def Request.readAsync (stream : List UInt8) : Except ReadError ((Request × Nat) × List UInt8) :=
  match stream with
  | [] => .error .unexpectedEof
  | b :: stream =>
    match RequestType.fromByte b with
    | none => .error .requestType
    | some .get =>
      (readToEndAs p.getRequestFromBytes MAX_MESSAGE_SIZE stream).map fun (r, size) => ((.get r, size), [])
    | some .getMany =>
      (readToEndAs p.getManyRequestFromBytes MAX_MESSAGE_SIZE stream).map fun (r, size) => ((.getMany r, size), [])
    | some .observe =>
      (readToEndAs p.observeRequest.fromBytes MAX_MESSAGE_SIZE stream).map fun (r, size) => ((.observe r, size), [])
    | some .push =>
      (readLengthPrefixed p p.pushRequestFromBytes MAX_MESSAGE_SIZE stream).map fun (r, rest) =>
        -- the size is that of the request encoded again
        ((.push r, ((p.pushRequestToVec r).map List.length).getD 0), rest)
    | some _ => .error .requestType

/-- What the client writes for a push request. -/
def writePushRequest (r : PushRequest Hash) : Option (List UInt8) :=
  (p.pushRequestToVec r).map fun bytes => UInt8.ofNat RequestType.push.ctorIdx :: writeLengthPrefixed p bytes

private theorem readToEndAs_of {α : Type} {fromBytes : List UInt8 → Option α} {maxSize : Nat}
    {stream : List UInt8} {value : α}
    (hlen : stream.length ≤ maxSize) (h : fromBytes stream = some value) :
    readToEndAs fromBytes maxSize stream = .ok (value, stream.length) := by
  rw [readToEndAs, if_neg (Nat.not_lt.mpr hlen), h]

private theorem readLengthPrefixed_of {α : Type} {fromBytes : List UInt8 → Option α} {maxSize : Nat}
    {bytes : List UInt8} {value : α}
    (hlen : bytes.length ≤ maxSize) (h : fromBytes bytes = some value) (rest : List UInt8) :
    readLengthPrefixed p fromBytes maxSize (writeLengthPrefixed p bytes ++ rest) = .ok (value, rest) := by
  have hread : p.varint.read (writeLengthPrefixed p bytes ++ rest) = some (bytes.length, bytes ++ rest) := by
    rw [writeLengthPrefixed, List.append_assoc, p.varint.read_write]
  have henough : ¬ (bytes ++ rest).length < bytes.length := by
    rw [List.length_append]
    omega
  rw [readLengthPrefixed, hread]
  simp only [if_neg (Nat.not_lt.mpr hlen), if_neg henough, List.take_left, List.drop_left, h]

/-! ### Round trips -/

/-- The requests that are read to the end of the stream and can be written. -/
def Request.Sendable : Request → Prop
  | .get r => r.ranges.Writable
  | .getMany r => r.ranges.Writable
  | .observe _ => True
  | _ => False

private theorem Request.readAsync_toVec {request : Request} (h : Request.Sendable request) :
    ∃ bytes, p.requestToVec request = some bytes ∧
      (bytes.length ≤ MAX_MESSAGE_SIZE → Request.readAsync p bytes = .ok ((request, bytes.length - 1), [])) := by
  cases request with
  | get r =>
    obtain ⟨bytes, hwrite, hread⟩ := p.getRequest_roundtrip h
    refine ⟨UInt8.ofNat 0 :: bytes, by simp only [Postcard.requestToVec, hwrite, Option.map_some]; rfl, ?_⟩
    intro hlen
    have hbody : bytes.length ≤ MAX_MESSAGE_SIZE := Nat.le_of_succ_le hlen
    have htype : RequestType.fromByte (UInt8.ofNat 0) = some .get := by decide
    simp only [Request.readAsync, htype, readToEndAs_of hbody hread]
    rfl
  | getMany r =>
    obtain ⟨bytes, hwrite, hread⟩ := p.getManyRequest_roundtrip h
    refine ⟨UInt8.ofNat 9 :: bytes, by simp only [Postcard.requestToVec, hwrite, Option.map_some]; rfl, ?_⟩
    intro hlen
    have hbody : bytes.length ≤ MAX_MESSAGE_SIZE := Nat.le_of_succ_le hlen
    have htype : RequestType.fromByte (UInt8.ofNat 9) = some .getMany := by decide
    simp only [Request.readAsync, htype, readToEndAs_of hbody hread]
    rfl
  | observe r =>
    refine ⟨UInt8.ofNat 1 :: p.observeRequest.write r, rfl, ?_⟩
    intro hlen
    have hbody : (p.observeRequest.write r).length ≤ MAX_MESSAGE_SIZE := Nat.le_of_succ_le hlen
    have htype : RequestType.fromByte (UInt8.ofNat 1) = some .observe := by decide
    simp only [Request.readAsync, htype, readToEndAs_of hbody (p.observeRequest.fromBytes_write r)]
    rfl
  | push r | slot2 | slot3 | slot4 | slot5 | slot6 | slot7 => exact absurd h id

private theorem Request.readAsync_push {r : PushRequest Hash} {body : List UInt8}
    (hwrite : p.pushRequestToVec r = some body)
    (hread : p.pushRequestFromBytes body = some r) :
    ∃ bytes, writePushRequest p r = some bytes ∧ ∀ payload,
      Request.readAsync p (bytes ++ payload) =
        if body.length ≤ MAX_MESSAGE_SIZE then .ok ((.push r, body.length), payload) else .error .tooLong := by
  refine ⟨UInt8.ofNat 8 :: writeLengthPrefixed p body, by rw [writePushRequest, hwrite, Option.map_some]; rfl, ?_⟩
  intro payload
  have htype : RequestType.fromByte (UInt8.ofNat 8) = some .push := by decide
  rw [List.cons_append]
  simp only [Request.readAsync, htype]
  split
  · rename_i hlen
    rw [readLengthPrefixed_of p hlen hread]
    simp only [Except.map, hwrite, Option.map_some, Option.getD_some]
  · rename_i hlen
    rw [readLengthPrefixed, writeLengthPrefixed, List.append_assoc, p.varint.read_write]
    simp only [if_pos (Nat.lt_of_not_le hlen)]
    rfl

/-- The wire formats of ranges and of requests can be read back.  A push request is read up to its end, and the data
after it is left in the stream. -/
theorem request_roundtrip :
    (∀ c : ChunkRanges, ChunkRanges.IsU64 c → ∃ spec, RangeSpec.new c = some spec ∧ spec.toChunkRanges = some c) ∧
    (∀ seq : ChunkRangesSeq, seq.Writable →
      ∃ wire, RangeSpecSeq.ofChunkRangesSeq seq = some wire ∧ wire.toChunkRangesSeq = some seq) ∧
    (∀ request, Request.Sendable request → ∃ bytes, p.requestToVec request = some bytes ∧
      (bytes.length ≤ MAX_MESSAGE_SIZE → Request.readAsync p bytes = .ok ((request, bytes.length - 1), []))) ∧
    ∀ r : PushRequest Hash, r.request.ranges.Writable →
      ∃ body bytes, p.pushRequestToVec r = some body ∧ writePushRequest p r = some bytes ∧
        (body.length ≤ MAX_MESSAGE_SIZE →
          ∀ payload, Request.readAsync p (bytes ++ payload) = .ok ((.push r, body.length), payload)) := by
  refine ⟨fun c hc => RangeSpec.toChunkRanges_new hc, fun seq hseq => RangeSpecSeq.toChunkRangesSeq_of hseq,
    fun request h => Request.readAsync_toVec p h, ?_⟩
  intro r hr
  obtain ⟨body, hwrite, hread⟩ := p.pushRequest_roundtrip hr
  obtain ⟨bytes, hbytes, hasync⟩ := Request.readAsync_push p hwrite hread
  refine ⟨body, bytes, hwrite, hbytes, ?_⟩
  intro hlen payload
  rw [hasync, if_pos hlen]

/-- The request for the verified size of a blob, with the index of its variant and two entries. -/
theorem request_roundtrip_verifiedSize :
    Request.readAsync ⟨Codec.varint⟩
        (0 :: Hash.EMPTY.bytes ++ [2, 0, 1, 255, 255, 255, 255, 255, 255, 255, 255, 255, 1, 1, 0]) =
      .ok ((.get ⟨Hash.EMPTY, ⟨[(0, .rangeFrom (2 ^ 64 - 1)), (1, ∅)]⟩⟩, 47), []) := by
  have hwritable : ChunkRangesSeq.Writable ⟨[(0, .rangeFrom (2 ^ 64 - 1)), (1, ∅)]⟩ :=
    ⟨by simp [ChunkRangesSeq.IsU64, ChunkRanges.IsU64]; decide, by decide⟩
  obtain ⟨bytes, hbytes, hread⟩ := (request_roundtrip ⟨Codec.varint⟩).2.2.1
    (.get ⟨Hash.EMPTY, ⟨[(0, .rangeFrom (2 ^ 64 - 1)), (1, ∅)]⟩⟩) hwritable
  have heq : bytes = 0 :: Hash.EMPTY.bytes ++ [2, 0, 1, 255, 255, 255, 255, 255, 255, 255, 255, 255, 1, 1, 0] :=
    Option.some.inj (hbytes.symm.trans (by decide))
  subst heq
  exact hread (by decide)

/-- A push request with many entries. -/
def longPush (n : Nat) : PushRequest Hash := ⟨⟨Hash.replicate 0, ⟨List.replicate n (0, ∅)⟩⟩⟩

private theorem encodeLoop_replicate (n : Nat) :
    RangeSpecSeq.encodeLoop 0 (List.replicate n (0, (∅ : ChunkRanges))) = some (List.replicate n (0, ⟨[]⟩)) := by
  induction n with
  | zero => rfl
  | succ n ih =>
    have hnew : RangeSpec.new ∅ = some ⟨[]⟩ := rfl
    simp only [List.replicate_succ, RangeSpecSeq.encodeLoop, subU64, Nat.le_refl, if_true,
      Nat.sub_self, Option.bind_some, hnew, ih, Option.map_some]
    rfl

private theorem longPush_writable (n : Nat) : (longPush n).request.ranges.Writable where
  isU64 := by
    intro e he
    obtain rfl := List.eq_of_mem_replicate he
    exact ⟨by decide, fun b hb => absurd hb List.not_mem_nil⟩
  sorted := by
    have hmap : (longPush n).request.ranges.offsets = List.replicate n 0 := List.map_replicate
    rw [hmap, List.pairwise_replicate]
    exact Or.inr (Nat.le_refl 0)

/-- The encoding has at least one byte for each entry, and the hash. -/
private theorem lt_length_longPush {n : Nat} {body : List UInt8}
    (h : Postcard.pushRequestToVec ⟨Codec.varint⟩ (longPush n) = some body) : n < body.length := by
  have hof : RangeSpecSeq.ofChunkRangesSeq (longPush n).request.ranges = some ⟨List.replicate n (0, ⟨[]⟩)⟩ := by
    have hloop := encodeLoop_replicate n
    simp only [RangeSpecSeq.ofChunkRangesSeq, longPush, hloop, Option.map_some]
  rw [Postcard.pushRequestToVec, Postcard.getRequestToVec, hof, Option.map_some, Option.some.injEq] at h
  have hbody : body = (Hash.replicate 0).bytes ++
      (Codec.list Codec.varint ((Postcard.u64 ⟨Codec.varint⟩).pair (Postcard.rangeSpec ⟨Codec.varint⟩))).write
        (List.replicate n (0, ⟨[]⟩)) := h.symm
  have helem : ∀ e, 1 ≤ (((Postcard.u64 ⟨Codec.varint⟩).pair (Postcard.rangeSpec ⟨Codec.varint⟩)).write e).length := by
    intro e
    have hwrite : ((Postcard.u64 ⟨Codec.varint⟩).pair (Postcard.rangeSpec ⟨Codec.varint⟩)).write e =
        Codec.varint.write e.1.toNat ++ (Postcard.rangeSpec ⟨Codec.varint⟩).write e.2 := rfl
    have hone := Codec.one_le_length_varint e.1.toNat
    rw [hwrite, List.length_append]
    omega
  have hlist := Codec.length_le_length_list Codec.varint _ helem (List.replicate n (0, ⟨[]⟩))
  rw [List.length_replicate] at hlist
  rw [hbody, List.length_append, (Hash.replicate 0).length_bytes]
  omega

/-- A push request of more than the maximum message size can be written but not read. -/
theorem not_request_roundtrip_longPush :
    (longPush (1024 * 1024)).request.ranges.Writable ∧
    ∃ bytes, writePushRequest ⟨Codec.varint⟩ (longPush (1024 * 1024)) = some bytes ∧
      ∀ payload, Request.readAsync ⟨Codec.varint⟩ (bytes ++ payload) = .error .tooLong := by
  have hwritable := longPush_writable (1024 * 1024)
  obtain ⟨body, hwrite, hread⟩ := Postcard.pushRequest_roundtrip ⟨Codec.varint⟩ hwritable
  obtain ⟨bytes, hbytes, hasync⟩ := Request.readAsync_push ⟨Codec.varint⟩ hwrite hread
  refine ⟨hwritable, bytes, hbytes, ?_⟩
  intro payload
  have hlong : ¬ body.length ≤ MAX_MESSAGE_SIZE := Nat.not_le.mpr (lt_length_longPush hwrite)
  rw [hasync, if_neg hlong]

end IrohBlobs
