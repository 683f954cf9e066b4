import IrohBlobs.Codec
import IrohBlobs.HashSeq

/-!
# Collections

The model of `format/collection.rs`.  A collection is stored as two blobs: the metadata with a header and the names, and
the hash sequence of the metadata and the links.  There are two writers (`toBlobs`, `store`) and two readers (`load`,
`readFsm`).

The writers agree, and both readers give back what was written (`formats`).  On blobs that were not written by them the
readers differ: `load` compares the number of names with the number of links and does not look at the header, `readFsm`
looks at the header and not at the numbers.  They agree exactly on the pairs where both are right or both are wrong
(`formats_agree_iff`).

How metadata is serialised and how blobs are hashed are parameters.
-/

namespace IrohBlobs

namespace HashSeq

/-- Remove the first hash. -/
def popFront (s : HashSeq) : Option (Hash × HashSeq) :=
  if s.bytes.isEmpty then none
  else (s.get 0).map fun hash => (hash, ⟨s.bytes.drop 32, by have := s.length_mod; rw [List.length_drop]; omega⟩)

/-- The rounds of `HashSeqIter`. -/
def popAll : Nat → HashSeq → List Hash
  | 0, _ => []
  | fuel + 1, s =>
    match s.popFront with
    | none => []
    | some (hash, s) => hash :: popAll fuel s

/-- `into_iter`. -/
def intoIter (s : HashSeq) : List Hash := popAll s.len s

private theorem getElem?_hash {s t : HashSeq} (hdrop : t.bytes = s.bytes.drop 32) (i : Nat) :
    t.get i = s.get (i + 1) := by
  have hs := s.length_mod
  have ht : t.bytes.length = s.bytes.length - 32 := by rw [hdrop, List.length_drop]
  unfold get
  by_cases h : i < t.len
  · have hsucc : i + 1 < s.len := by
      unfold len at h ⊢
      omega
    rw [dif_pos h, dif_pos hsucc, Option.some.injEq]
    simp only [hashAt, Hash.mk.injEq]
    rw [hdrop, List.drop_drop]
    congr 2
    omega
  · have hsucc : ¬ i + 1 < s.len := by
      unfold len at h ⊢
      omega
    rw [dif_neg h, dif_neg hsucc]

private theorem popFront_none {s : HashSeq} (h : s.popFront = none) : s.iter = [] := by
  unfold popFront at h
  rw [← List.length_eq_zero_iff, length_iter]
  have hmod := s.length_mod
  split at h
  · rename_i hempty
    rw [List.isEmpty_iff] at hempty
    unfold len
    rw [hempty, List.length_nil]
  · rename_i hempty
    rw [Option.map_eq_none_iff] at h
    unfold get at h
    split at h
    · cases h
    · omega

private theorem popFront_some {s t : HashSeq} {hash : Hash} (h : s.popFront = some (hash, t)) :
    s.iter = hash :: t.iter := by
  unfold popFront at h
  split at h
  · cases h
  · rw [Option.map_eq_some_iff] at h
    obtain ⟨first, hfirst, heq⟩ := h
    cases heq
    apply List.ext_getElem?
    intro i
    cases i with
    | zero => rw [getElem?_iter, hfirst, List.getElem?_cons_zero]
    | succ i =>
      rw [getElem?_iter, List.getElem?_cons_succ, getElem?_iter]
      exact (getElem?_hash rfl i).symm

private theorem popAll_eq (fuel : Nat) (s : HashSeq) (h : s.len ≤ fuel) : popAll fuel s = s.iter := by
  induction fuel generalizing s with
  | zero =>
    have hnil : s.iter = [] := by
      rw [← List.length_eq_zero_iff, length_iter]
      omega
    rw [hnil, popAll]
  | succ fuel ih =>
    rw [popAll]
    cases hpop : s.popFront with
    | none => rw [popFront_none hpop]
    | some popped =>
      obtain ⟨hash, t⟩ := popped
      have hiter := popFront_some hpop
      have hlen : s.len = t.len + 1 := by rw [← length_iter, ← length_iter, hiter, List.length_cons]
      simp only
      rw [ih t (by omega), hiter]

/-- Popping one hash after the other gives the hashes of the sequence. -/
theorem intoIter_eq (s : HashSeq) : s.intoIter = s.iter := popAll_eq s.len s (Nat.le_refl _)

end HashSeq

/-- A collection: names and links. -/
structure Collection where
  blobs : List (String × Hash)
  deriving DecidableEq

structure CollectionMeta where
  /-- Must be "CollectionV0.". -/
  header : { l : List UInt8 // l.length = 13 }
  names : List String
  deriving DecidableEq

/-- What the readers fail with. -/
inductive CollectionError
  /-- The store or the provider does not give the blob. -/
  | notFound
  /-- "invalid hash sequence" -/
  | invalidHashSequence
  /-- "empty hash seq" -/
  | emptyHashSeq
  /-- "names and links length mismatch" -/
  | lengthMismatch
  /-- "links could not be parsed" -/
  | linksNotParsed
  /-- "expected meta" -/
  | expectedMeta
  /-- "metadata link not found" -/
  | metaLinkNotFound
  /-- "expected header …, got …" -/
  | expectedHeader (got : List UInt8)
  /-- The metadata cannot be deserialised. -/
  | postcard
  deriving DecidableEq

namespace Collection

variable (postcard : Codec CollectionMeta) (blake3 : List UInt8 → Hash)

/-- A missing value is an error. -/
def context {α : Type} (e : CollectionError) (o : Option α) : Except CollectionError α := o.elim (.error e) .ok

/-- "CollectionV0.". -/
def HEADER : { l : List UInt8 // l.length = 13 } := ⟨[67, 111, 108, 108, 101, 99, 116, 105, 111, 110, 86, 48, 46], rfl⟩

def links (c : Collection) : List Hash := c.blobs.map fun (_, hash) => hash

def names (c : Collection) : List String := c.blobs.map fun (name, _) => name

/-- Split a collection into links and metadata. -/
def intoParts (c : Collection) : List Hash × CollectionMeta :=
  let (names, links) := c.blobs.foldl (fun (names, links) (name, hash) => (names ++ [name], links ++ [hash])) ([], [])
  (links, { header := HEADER, names })

/-- Create a collection from links and metadata. -/
def fromParts (links : List Hash) (metadata : CollectionMeta) : Collection := ⟨metadata.names.zip links⟩

/-- The blobs of a collection, with the root blob last. -/
def toBlobs (c : Collection) : List (List UInt8) :=
  let metadata : CollectionMeta := { header := HEADER, names := c.names }
  let metaBytes := postcard.write metadata
  let metaBytesHash := blake3 metaBytes
  let links := HashSeq.ofHashes (metaBytesHash :: c.links)
  [metaBytes, links.bytes]

/-- Add a blob to the blobs of a store. -/
def addBytes (db : List (List UInt8)) (data : List UInt8) : List (List UInt8) × Hash := (db ++ [data], blake3 data)

/-- The blob with the hash. -/
def getBytes (db : List (List UInt8)) (hash : Hash) : Option (List UInt8) := db.find? fun data => blake3 data = hash

/-- Store a collection.  The blobs of the store and the root hash. -/
def store (c : Collection) (db : List (List UInt8)) : List (List UInt8) × Hash :=
  let (links, metadata) := c.intoParts
  let metaBytes := postcard.write metadata
  let (db, metaTag) := addBytes blake3 db metaBytes
  let linksBytes := HashSeq.ofHashes (metaTag :: links)
  addBytes blake3 db linksBytes.bytes

/-- Load a collection from the blobs that a store gives. -/
def load (getBytes : Hash → Option (List UInt8)) (root : Hash) : Except CollectionError Collection := do
  let hs ← context .notFound (getBytes root)
  let hs ← context .invalidHashSequence (HashSeq.new hs)
  let metaHash ← context .emptyHashSeq hs.iter.head?
  let metadata ← context .notFound (getBytes metaHash)
  let metadata ← context .postcard (postcard.fromBytes metadata)
  if metadata.names.length + 1 = hs.len then
    .ok (fromParts (hs.intoIter.drop 1) metadata)
  else .error .lengthMismatch

/-- Read a collection from the blobs that a provider sends.  Whether the request asks for more than the root is
`moreChildren`. -/
def readFsm (moreChildren : Bool) (recv : Hash → Option (List UInt8)) (root : Hash) :
    Except CollectionError (HashSeq × Collection) := do
  let data ← context .notFound (recv root)
  let links ← context .linksNotParsed (HashSeq.new data)
  if !moreChildren then .error .expectedMeta
  else
    let (metaLink, children) ← context .metaLinkNotFound links.popFront
    let names ← context .notFound (recv metaLink)
    let names ← context .postcard (postcard.fromBytes names)
    if names.header = HEADER then
      .ok (links, fromParts children.intoIter names)
    else .error (.expectedHeader names.header)

/-! ### What the readers accept -/

variable {postcard blake3} {recv : Hash → Option (List UInt8)} {root : Hash} {hs : HashSeq} {c : Collection}
  {links : List UInt8}

private theorem context_bind {α β : Type} {e : CollectionError} {o : Option α}
    {f : α → Except CollectionError β} {b : β} :
    (context e o >>= f) = .ok b ↔ ∃ a, o = some a ∧ f a = .ok b := by
  cases o with
  | none =>
    constructor
    · intro h
      cases h
    · rintro ⟨a, h, -⟩
      cases h
  | some a =>
    have hbind : (context e (some a) >>= f) = f a := rfl
    rw [hbind]
    constructor
    · intro h
      exact ⟨a, rfl, h⟩
    · rintro ⟨a', ha, h⟩
      cases ha
      exact h

private theorem ite_ok {α : Type} {p : Prop} [Decidable p] {e : CollectionError} {a b : α} :
    (if p then Except.ok a else .error e) = .ok b ↔ p ∧ b = a := by
  split
  · rename_i hp
    constructor
    · intro h
      cases h
      exact ⟨hp, rfl⟩
    · rintro ⟨-, rfl⟩
      rfl
  · rename_i hp
    constructor
    · intro h
      cases h
    · rintro ⟨h, -⟩
      exact absurd h hp

private theorem load_iff (hlinks : recv root = some links) :
    load postcard recv root = .ok c ↔
      ∃ hs metaHash hashes bytes metadata, HashSeq.new links = some hs ∧ hs.iter = metaHash :: hashes ∧
        recv metaHash = some bytes ∧ postcard.fromBytes bytes = some metadata ∧
        metadata.names.length = hashes.length ∧ c = fromParts hashes metadata := by
  unfold load
  simp only [context_bind, ite_ok, HashSeq.intoIter_eq, hlinks, Option.some.injEq]
  constructor
  · rintro ⟨_, rfl, hs, hnew, metaHash, hhead, bytes, hbytes, metadata, hmeta, hcount, rfl⟩
    obtain ⟨hashes, hiter⟩ := List.head?_eq_some_iff.mp hhead
    have hlen : hs.len = hashes.length + 1 := by rw [← HashSeq.length_iter, hiter, List.length_cons]
    refine ⟨hs, metaHash, hashes, bytes, metadata, hnew, hiter, hbytes, hmeta, by omega, ?_⟩
    rw [hiter, List.drop_one, List.tail_cons]
  · rintro ⟨hs, metaHash, hashes, bytes, metadata, hnew, hiter, hbytes, hmeta, hcount, rfl⟩
    have hlen : hs.len = hashes.length + 1 := by rw [← HashSeq.length_iter, hiter, List.length_cons]
    refine ⟨links, rfl, hs, hnew, metaHash, by rw [hiter, List.head?_cons], bytes, hbytes, metadata,
      hmeta, by omega, ?_⟩
    rw [hiter, List.drop_one, List.tail_cons]

private theorem readFsm_iff (hlinks : recv root = some links) :
    readFsm postcard true recv root = .ok (hs, c) ↔
      ∃ metaHash hashes bytes metadata, HashSeq.new links = some hs ∧ hs.iter = metaHash :: hashes ∧
        recv metaHash = some bytes ∧ postcard.fromBytes bytes = some metadata ∧ metadata.header = HEADER ∧
        c = fromParts hashes metadata := by
  unfold readFsm
  simp only [context_bind, ite_ok, HashSeq.intoIter_eq, hlinks, Option.some.injEq, Bool.not_true, Bool.false_eq_true,
    if_false, Prod.mk.injEq]
  constructor
  · rintro ⟨_, rfl, s, hnew, ⟨metaHash, children⟩, hpop, bytes, hbytes, metadata, hmeta, hheader, rfl, rfl⟩
    exact ⟨metaHash, children.iter, bytes, metadata, hnew, HashSeq.popFront_some hpop, hbytes, hmeta, hheader, rfl⟩
  · rintro ⟨metaHash, hashes, bytes, metadata, hnew, hiter, hbytes, hmeta, hheader, rfl⟩
    cases hpop : hs.popFront with
    | none =>
      rw [HashSeq.popFront_none hpop] at hiter
      cases hiter
    | some popped =>
      obtain ⟨first, children⟩ := popped
      rw [HashSeq.popFront_some hpop] at hiter
      cases hiter
      exact ⟨links, rfl, hs, hnew, (metaHash, children), hpop, bytes, hbytes, metadata, hmeta, hheader, rfl, rfl⟩

/-! ### What the writers write -/

private theorem foldl_parts (blobs : List (String × Hash)) (names : List String) (links : List Hash) :
    blobs.foldl (fun (names, links) (name, hash) => (names ++ [name], links ++ [hash])) (names, links) =
      (names ++ blobs.map Prod.fst, links ++ blobs.map Prod.snd) := by
  induction blobs generalizing names links with
  | nil => simp
  | cons blob blobs ih => rw [List.foldl_cons, ih]; simp

private theorem intoParts_eq (c : Collection) : c.intoParts = (c.links, { header := HEADER, names := c.names }) := by
  unfold intoParts
  rw [foldl_parts]
  rfl

private theorem fromParts_eq (c : Collection) : fromParts c.links { header := HEADER, names := c.names } = c := by
  obtain ⟨blobs⟩ := c
  exact congrArg Collection.mk (List.zip_of_prod rfl rfl).symm

/-- Blobs with the same hash are the same. -/
def CollisionFree (blake3 : List UInt8 → Hash) (db : List (List UInt8)) : Prop :=
  ∀ a ∈ db, ∀ b ∈ db, blake3 a = blake3 b → a = b

private theorem getBytes_of_mem {db : List (List UInt8)} (data : List UInt8) (h : CollisionFree blake3 db)
    (hmem : data ∈ db) :
    getBytes blake3 db (blake3 data) = some data := by
  unfold getBytes
  cases hfind : db.find? fun other => blake3 other = blake3 data with
  | none =>
    have hnot := List.find?_eq_none.mp hfind data hmem
    simp at hnot
  | some other =>
    have hhash := List.find?_some hfind
    rw [decide_eq_true_eq] at hhash
    rw [h other (List.mem_of_find?_eq_some hfind) data hmem hhash]

/-- The metadata blob of a collection. -/
def metaBytes (postcard : Codec CollectionMeta) (c : Collection) : List UInt8 :=
  postcard.write { header := HEADER, names := c.names }

/-- The links of a collection, after the metadata. -/
def linksSeq (postcard : Codec CollectionMeta) (blake3 : List UInt8 → Hash) (c : Collection) : HashSeq :=
  HashSeq.ofHashes (blake3 (metaBytes postcard c) :: c.links)

private theorem toBlobs_eq (c : Collection) :
    c.toBlobs postcard blake3 = [c.metaBytes postcard, (c.linksSeq postcard blake3).bytes] := rfl

/-- The blobs that are added to a store are the blobs of the collection. -/
private theorem store_eq (c : Collection) (db : List (List UInt8)) :
    c.store postcard blake3 db = (db ++ c.toBlobs postcard blake3, blake3 (c.linksSeq postcard blake3).bytes) := by
  unfold store
  rw [intoParts_eq, toBlobs_eq]
  have happend : db ++ [c.metaBytes postcard, (c.linksSeq postcard blake3).bytes] =
      db ++ [c.metaBytes postcard] ++ [(c.linksSeq postcard blake3).bytes] := by simp
  rw [happend]
  rfl

/-- What was written is read back. -/
private theorem load_stored (c : Collection) (hroot : recv root = some (c.linksSeq postcard blake3).bytes)
    (hmeta : recv (blake3 (c.metaBytes postcard)) = some (c.metaBytes postcard)) : load postcard recv root = .ok c := by
  rw [load_iff hroot]
  refine ⟨_, _, c.links, _, _, HashSeq.new_bytes _, HashSeq.iter_ofHashes _, hmeta, postcard.fromBytes_write _, ?_,
    (fromParts_eq c).symm⟩
  simp [names, links]

private theorem readFsm_stored (c : Collection) (hroot : recv root = some (c.linksSeq postcard blake3).bytes)
    (hmeta : recv (blake3 (c.metaBytes postcard)) = some (c.metaBytes postcard)) :
    readFsm postcard true recv root = .ok (c.linksSeq postcard blake3, c) := by
  rw [readFsm_iff hroot]
  exact ⟨_, c.links, _, _, HashSeq.new_bytes _, HashSeq.iter_ofHashes _, hmeta, postcard.fromBytes_write _, rfl,
    (fromParts_eq c).symm⟩

/-! ### The format -/

/-- The blobs of a pair: the root, and what its first link leads to. -/
structure Sends (recv : Hash → Option (List UInt8)) (root : Hash) (links bytes : List UInt8) : Prop where
  root : recv root = some links
  first : ∀ hs metaHash hashes, HashSeq.new links = some hs → hs.iter = metaHash :: hashes → recv metaHash = some bytes

/-- Both readers fail. -/
def Rejected (postcard : Codec CollectionMeta) (recv : Hash → Option (List UInt8)) (root : Hash) : Prop :=
  ∀ c, load postcard recv root ≠ .ok c ∧ ∀ hs, readFsm postcard true recv root ≠ .ok (hs, c)

/-- The readers have one format. -/
structure OneFormat (postcard : Codec CollectionMeta) (recv : Hash → Option (List UInt8)) (root : Hash)
    (links bytes : List UInt8) : Prop where
  agree : ∀ c, load postcard recv root = .ok c ↔ ∃ hs, readFsm postcard true recv root = .ok (hs, c)
  header : ∀ metadata, postcard.fromBytes bytes = some metadata → metadata.header ≠ HEADER → Rejected postcard recv root
  count : ∀ hs metadata, HashSeq.new links = some hs → postcard.fromBytes bytes = some metadata →
    metadata.names.length + 1 ≠ hs.len → Rejected postcard recv root

/-- Where the blobs can be parsed, header and number of names are both right or both wrong. -/
def BothOrNeither (postcard : Codec CollectionMeta) (links bytes : List UInt8) : Prop :=
  ∀ hs metadata, HashSeq.new links = some hs → 0 < hs.len → postcard.fromBytes bytes = some metadata →
    (metadata.header = HEADER ↔ metadata.names.length + 1 = hs.len)

/-- The blobs can be parsed: the hashes after the metadata, and the metadata. -/
structure Parsed (postcard : Codec CollectionMeta) (links bytes : List UInt8) (hs : HashSeq) (hashes : List Hash)
    (metadata : CollectionMeta) : Prop where
  links : HashSeq.new links = some hs
  hashes : ∃ metaHash, hs.iter = metaHash :: hashes
  metadata : postcard.fromBytes bytes = some metadata

variable {bytes : List UInt8} {hashes : List Hash} {metadata : CollectionMeta}

private theorem Parsed.len (h : Parsed postcard links bytes hs hashes metadata) : hs.len = hashes.length + 1 := by
  obtain ⟨metaHash, hiter⟩ := h.hashes
  rw [← HashSeq.length_iter, hiter, List.length_cons]

private theorem exists_parsed (hlinks : HashSeq.new links = some hs) (hlen : 0 < hs.len)
    (hmeta : postcard.fromBytes bytes = some metadata) : ∃ hashes, Parsed postcard links bytes hs hashes metadata := by
  cases hiter : hs.iter with
  | nil =>
    rw [← HashSeq.length_iter, hiter, List.length_nil] at hlen
    omega
  | cons metaHash hashes => exact ⟨hashes, hlinks, ⟨metaHash, hiter⟩, hmeta⟩

private theorem Sends.load_iff (h : Sends recv root links bytes) :
    load postcard recv root = .ok c ↔ ∃ hs hashes metadata, Parsed postcard links bytes hs hashes metadata ∧
      metadata.names.length + 1 = hs.len ∧ c = fromParts hashes metadata := by
  rw [Collection.load_iff h.root]
  constructor
  · rintro ⟨hs, metaHash, hashes, other, metadata, hnew, hiter, hother, hmeta, hcount, rfl⟩
    rw [h.first hs metaHash hashes hnew hiter] at hother
    cases hother
    have hparsed : Parsed postcard links bytes hs hashes metadata := ⟨hnew, ⟨metaHash, hiter⟩, hmeta⟩
    exact ⟨hs, hashes, metadata, hparsed, by rw [hparsed.len, hcount], rfl⟩
  · rintro ⟨hs, hashes, metadata, hparsed, hcount, rfl⟩
    obtain ⟨metaHash, hiter⟩ := hparsed.hashes
    rw [hparsed.len] at hcount
    exact ⟨hs, metaHash, hashes, bytes, metadata, hparsed.links, hiter, h.first hs metaHash hashes hparsed.links hiter,
      hparsed.metadata, by omega, rfl⟩

private theorem Sends.readFsm_iff (h : Sends recv root links bytes) :
    readFsm postcard true recv root = .ok (hs, c) ↔ ∃ hashes metadata, Parsed postcard links bytes hs hashes metadata ∧
      metadata.header = HEADER ∧ c = fromParts hashes metadata := by
  rw [Collection.readFsm_iff h.root]
  constructor
  · rintro ⟨metaHash, hashes, other, metadata, hnew, hiter, hother, hmeta, hheader, rfl⟩
    rw [h.first hs metaHash hashes hnew hiter] at hother
    cases hother
    exact ⟨hashes, metadata, ⟨hnew, ⟨metaHash, hiter⟩, hmeta⟩, hheader, rfl⟩
  · rintro ⟨hashes, metadata, hparsed, hheader, rfl⟩
    obtain ⟨metaHash, hiter⟩ := hparsed.hashes
    exact ⟨metaHash, hashes, bytes, metadata, hparsed.links, hiter, h.first hs metaHash hashes hparsed.links hiter,
      hparsed.metadata, hheader, rfl⟩

/-- What is rejected where the condition holds: everything that does not have both checks right. -/
private theorem rejected_of (h : Sends recv root links bytes) (hcond : BothOrNeither postcard links bytes)
    (hwrong : ∀ hs hashes metadata, Parsed postcard links bytes hs hashes metadata →
      metadata.header ≠ HEADER ∨ metadata.names.length + 1 ≠ hs.len) : Rejected postcard recv root := by
  have hiff : ∀ {hs hashes metadata}, Parsed postcard links bytes hs hashes metadata →
      (metadata.header = HEADER ↔ metadata.names.length + 1 = hs.len) := by
    intro hs hashes metadata hparsed
    have hlen := hparsed.len
    exact hcond hs metadata hparsed.links (by omega) hparsed.metadata
  intro c
  constructor
  · intro hload
    obtain ⟨hs, hashes, metadata, hparsed, hcount, -⟩ := h.load_iff.mp hload
    rcases hwrong hs hashes metadata hparsed with hheader | hne
    · exact hheader ((hiff hparsed).mpr hcount)
    · exact hne hcount
  · intro hs hread
    obtain ⟨hashes, metadata, hparsed, hheader, -⟩ := h.readFsm_iff.mp hread
    rcases hwrong hs hashes metadata hparsed with hne | hcount
    · exact hne hheader
    · exact hcount ((hiff hparsed).mp hheader)

/-- The readers have one format on a pair exactly if header and number of names are both right or both wrong. -/
theorem oneFormat_iff (h : Sends recv root links bytes) :
    OneFormat postcard recv root links bytes ↔ BothOrNeither postcard links bytes := by
  constructor
  · intro hone hs metadata hnew hlen hmeta
    obtain ⟨hashes, hparsed⟩ := exists_parsed hnew hlen hmeta
    constructor
    · intro hheader
      by_contra hcount
      have hread := h.readFsm_iff.mpr ⟨hashes, metadata, hparsed, hheader, rfl⟩
      exact (hone.count hs metadata hnew hmeta hcount _).2 hs hread
    · intro hcount
      by_contra hheader
      have hload := h.load_iff.mpr ⟨hs, hashes, metadata, hparsed, hcount, rfl⟩
      exact (hone.header metadata hmeta hheader _).1 hload
  · intro hcond
    have hagree : ∀ c, load postcard recv root = .ok c ↔ ∃ hs, readFsm postcard true recv root = .ok (hs, c) := by
      intro c
      rw [h.load_iff]
      constructor
      · rintro ⟨hs, hashes, metadata, hparsed, hcount, rfl⟩
        have hlen := hparsed.len
        have hheader := (hcond hs metadata hparsed.links (by omega) hparsed.metadata).mpr hcount
        exact ⟨hs, h.readFsm_iff.mpr ⟨hashes, metadata, hparsed, hheader, rfl⟩⟩
      · rintro ⟨hs, hread⟩
        obtain ⟨hashes, metadata, hparsed, hheader, rfl⟩ := h.readFsm_iff.mp hread
        have hlen := hparsed.len
        exact ⟨hs, hashes, metadata, hparsed, (hcond hs metadata hparsed.links (by omega) hparsed.metadata).mp hheader,
          rfl⟩
    refine ⟨hagree, ?_, ?_⟩
    · intro metadata hmeta hheader
      apply rejected_of h hcond
      intro hs hashes other hparsed
      rw [hparsed.metadata] at hmeta
      cases hmeta
      exact Or.inl hheader
    · intro hs metadata hnew hmeta hcount
      apply rejected_of h hcond
      intro hs' hashes other hparsed
      rw [hparsed.metadata] at hmeta
      cases hmeta
      rw [hparsed.links] at hnew
      cases hnew
      exact Or.inr hcount

/-- The writers write the same blobs and the readers read them back; on any blobs the readers have one format exactly if
header and number of names are both right or both wrong. -/
theorem formats_agree_iff (postcard : Codec CollectionMeta) (blake3 : List UInt8 → Hash) :
    (∀ c db, CollisionFree blake3 (db ++ c.toBlobs postcard blake3) →
      ∃ root, c.store postcard blake3 db = (db ++ c.toBlobs postcard blake3, root) ∧
        (c.toBlobs postcard blake3).getLast?.map blake3 = some root ∧
        load postcard (getBytes blake3 (db ++ c.toBlobs postcard blake3)) root = .ok c ∧
        readFsm postcard true (getBytes blake3 (db ++ c.toBlobs postcard blake3)) root =
          .ok (c.linksSeq postcard blake3, c)) ∧
    ∀ recv root links bytes, Sends recv root links bytes →
      (OneFormat postcard recv root links bytes ↔ BothOrNeither postcard links bytes) := by
  refine ⟨?_, fun recv root links bytes h => oneFormat_iff h⟩
  intro c db hfree
  have hroot := getBytes_of_mem (c.linksSeq postcard blake3).bytes hfree (by simp [toBlobs_eq])
  have hmeta := getBytes_of_mem (c.metaBytes postcard) hfree (by simp [toBlobs_eq])
  refine ⟨_, store_eq c db, ?_, load_stored c hroot hmeta, readFsm_stored c hroot hmeta⟩
  rw [toBlobs_eq, List.getLast?_cons_cons, List.getLast?_singleton, Option.map_some]

/-! ### A pair that one reader accepts -/

/-- A single byte. -/
def byte : Codec UInt8 where
  write b := [b]
  read bytes := bytes.head?.map fun b => (b, bytes.tail)
  read_write _ _ := rfl

private theorem toList_utf8 (s : String) : ByteArray.mk s.toByteArray.data.toList.toArray = s.toByteArray := by
  rw [Array.toArray_toList]

/-- A string: the bytes of its UTF-8 encoding behind their number. -/
def string : Codec String where
  write s := (Codec.list Codec.varint byte).write s.toByteArray.data.toList
  read bytes := ((Codec.list Codec.varint byte).read bytes).bind fun (l, rest) =>
    (String.fromUTF8? (ByteArray.mk l.toArray)).map fun s => (s, rest)
  read_write s rest := by
    rw [Codec.read_write, Option.bind_some]
    simp only [toList_utf8]
    rw [String.fromUTF8?, dif_pos s.isValidUTF8]
    rfl

/-- Metadata as it is serialised: the header, the names behind their number. -/
def metaCodec : Codec CollectionMeta :=
  ((Codec.bytes 13).pair (Codec.list Codec.varint string)).map (fun (header, names) => { header, names })
    (fun m => (m.header, m.names)) (fun _ => rfl)

/-- A hash sequence with nothing but the metadata. -/
def wrongLinks : List UInt8 := List.replicate 32 1

/-- Metadata without names and with a wrong header. -/
def wrongMeta : List UInt8 := List.replicate 14 0

/-- `load` accepts a wrong header. -/
theorem not_oneFormat_wrongMeta :
    ¬ ∀ recv root links bytes, Sends recv root links bytes → OneFormat metaCodec recv root links bytes := by
  intro hall
  have hsends : Sends (fun h => if h = Hash.replicate 2 then some wrongLinks else some wrongMeta) (Hash.replicate 2)
      wrongLinks wrongMeta := by
    refine ⟨if_pos rfl, ?_⟩
    intro hs metaHash hashes hnew hiter
    have hlinks : HashSeq.new wrongLinks = some (HashSeq.ofHashes [Hash.replicate 1]) := by decide
    rw [hlinks] at hnew
    cases hnew
    rw [HashSeq.iter_ofHashes] at hiter
    cases hiter
    exact if_neg (by decide)
  have hcond := (oneFormat_iff hsends).mp (hall _ _ _ _ hsends)
  have hheader := hcond (HashSeq.ofHashes [Hash.replicate 1]) { header := ⟨List.replicate 13 0, rfl⟩, names := [] }
    (by decide) (by decide) (by decide)
  revert hheader
  decide

end Collection

end IrohBlobs
