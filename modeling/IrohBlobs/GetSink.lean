import IrohBlobs.GetRequests
import IrohBlobs.RunTrace

/-!
# Getting into a store

`execute_get_sink` of `api/remote.rs` over the bytes of a response: each blob is decoded and handed to an import of
the store, item by item, and the progress is reported.  The store and the receiver of the progress can fail at any
item, and the bytes can be anything.  What the import answers does not matter, since `get_blob_ranges_impl` drops it.

Every item that is handed over belongs to the blob, the progress does not go back, and the counters agree with the
bytes of the blobs that were read (`get_sink_sound`).
-/

namespace IrohBlobs

/-! ### The steps of a get request -/

namespace Get

section

variable {W : Type} {Q : Bool → BlobItem → W → W → Prop} {op : Op W GetError}
  {close : AtClosing → W → Except GetError Unit}

/-- A run ends with closing the response, or with a blob that failed. -/
def Ends (op : Op W GetError) (close : AtClosing → W → Except GetError Unit) (run : Run W GetError) : Prop :=
  (∃ closing, run.result = close closing run.state) ∨
    ∃ (item : BlobItem) (w : W) (e : GetError), op item.index item.hash item.ranges w = (.error e, run.state) ∧
      run.result = .error e

private theorem ends_stepOpt {item : BlobItem} {w : W} {next : W → Option (Run W GetError)} {run : Run W GetError}
    (hnext : ∀ w' run', op item.index item.hash item.ranges w = (.ok (), w') → next w' = some run' → Ends op close run')
    (h : Run.stepOpt op item w next = some run) : Ends op close run := by
  unfold Run.stepOpt at h
  split at h
  · rename_i w' hw
    obtain ⟨run', hrun', rfl⟩ := Option.map_eq_some_iff.mp h
    exact hnext w' run' hw hrun'
  · rename_i e w' hw
    cases h
    exact Or.inr ⟨item, w, e, hw, rfl⟩

private theorem traced_readChildren (hop : op.Does Q) {lookup : Nat → Option Hash} {fuel : Nat}
    {next : EndBlobNext} {w : W}
    {run : Run W GetError} (h : readChildren op close lookup fuel next w = some run) :
    Traced Q run.result run.trace w run.state ∧ Ends op close run := by
  induction fuel generalizing next w run with
  | zero => cases h
  | succ fuel ih =>
    unfold readChildren at h
    split at h
    · cases h
      exact ⟨.stop _ _, Or.inl ⟨_, rfl⟩⟩
    · split at h
      · cases h
        exact ⟨.stop _ _, Or.inl ⟨_, rfl⟩⟩
      · exact ⟨traced_stepOpt hop (fun _ _ hr => (ih hr).1) h, ends_stepOpt (fun _ _ _ hr => (ih hr).2) h⟩

private theorem traced_readRest (hop : op.Does Q) {getBytes : W → Except GetError (List UInt8)} {fuel : Nat}
    {next : EndBlobNext}
    {w : W} {run : Run W GetError} (h : readRest op close getBytes fuel next w = some run) :
    Traced Q run.result run.trace w run.state ∧
      ((∃ seq : HashSeq, getBytes w = .ok seq.bytes) → Ends op close run) := by
  unfold readRest at h
  split at h
  · cases h
    exact ⟨.stop _ _, fun _ => Or.inl ⟨_, rfl⟩⟩
  · split at h
    · rename_i e hbytes
      cases h
      refine ⟨.stop _ _, ?_⟩
      rintro ⟨seq, hseq⟩
      rw [hbytes] at hseq
      cases hseq
    · rename_i bytes hbytes
      split at h
      · rename_i hnew
        cases h
        refine ⟨.stop _ _, ?_⟩
        rintro ⟨seq, hseq⟩
        rw [hbytes] at hseq
        cases hseq
        rw [HashSeq.new_bytes] at hnew
        cases hnew
      · obtain ⟨htraced, hends⟩ := traced_readChildren hop h
        exact ⟨htraced, fun _ => hends⟩

/-- The blobs are handled one after the other, and if the root is a hash sequence then only closing the response or a
blob can fail. -/
theorem traced_executeGetSink (hop : op.Does Q) {getBytes : W → Except GetError (List UInt8)}
    {request : GetRequest Hash}
    {fuel : Nat} {w : W} {run : Run W GetError}
    (h : executeGetSink op close getBytes (.ok ()) request fuel w = some run) :
    Traced Q run.result run.trace w run.state ∧
      ((∀ w', (if (request.ranges.get 0).isEmpty then w' = w
        else op 0 request.hash (request.ranges.get 0) w = (.ok (), w')) → ∃ seq : HashSeq,
          getBytes w' = .ok seq.bytes) →
          Ends op close run) := by
  simp only [executeGetSink] at h
  rcases request.ranges.next_cases 0 with ⟨i, -, hi, hmin, hnext⟩ | ⟨hempty, m, -, hnext⟩
  · rw [ChunkRangesSeq.nonEmptyAt_zero] at hnext
    cases i with
    | zero =>
      simp only [AtConnected.next, hnext, ↓reduceIte] at h
      simp only [hi, Bool.false_eq_true, ↓reduceIte]
      refine ⟨traced_stepOpt hop (fun _ _ hr => (traced_readRest hop hr).1) h, ?_⟩
      intro hbytes
      exact ends_stepOpt (fun w' _ hw hr => (traced_readRest hop hr).2 (hbytes w' hw)) h
    | succ i =>
      simp only [AtConnected.next, hnext, Nat.add_eq_zero_iff, Nat.one_ne_zero, and_false, ↓reduceIte] at h
      simp only [hmin 0 (Nat.le_refl 0) (Nat.succ_pos i), ↓reduceIte, forall_eq]
      exact traced_readRest hop h
  · rw [ChunkRangesSeq.nonEmptyAt_zero] at hnext
    simp only [AtConnected.next, hnext] at h
    simp only [hempty 0 (Nat.le_refl 0), ↓reduceIte, forall_eq]
    exact traced_readRest hop h

end

end Get

namespace Fsm

open Merkle
open Get (AtBlobHeader AtEndBlob AtClosing)

/-- What happens on this side around an item of a blob: it is reported and handed to the import, or something fails
before or after the report.  The import answers at the end or before it.  If its answer is lost then the loop is
stopped, but an answer that says that the import has failed is not looked at. -/
inductive LocalOutcome
  | goesOn
  | importError
  | answerLost
  | progressFailed
  | sendFailed
  deriving DecidableEq

def LocalOutcome.Fails : LocalOutcome → Prop
  | .goesOn | .importError => False
  | .answerLost | .progressFailed | .sendFailed => True

/-- The state of a get request: what is left of the response after the last blob that was read to its end, the items
that have been handed to the import of each blob, the progress that has been reported, and the cause of a failure. -/
structure Getter (H : Type) where
  reading : Reading
  imports : List (Hash × List (BaoContentItem H))
  progress : List Nat
  cause : Option GetError

variable {H : Type} [DecidableEq H] (io : BaoTreeIo H)

namespace AtBlobContent

/-- The loop of `get_blob_ranges_impl` from the `n`-th item on: the items that are handed to the import, and the
progress. -/
def importItems (outcome : Nat → LocalOutcome) (n : Nat) (s : AtBlobContent H) :
    (List (BaoContentItem H) × List Nat) × Except GetError (AtEndBlob × Reading) :=
  if outcome n = .answerLost then (([], []), .error .localFailure)
  else
    match _h : s.next io with
    | .done atEndBlob reading => (([], []), .ok (atEndBlob, reading))
    | .more (.error e) => (([], []), .error (.ofDecode e))
    | .more (.ok (s', item)) =>
      if outcome n = .progressFailed then (([], []), .error .localFailure)
      else if outcome n = .sendFailed then (([], [s'.counters.payloadBytesRead]), .error .localFailure)
      else
        ((item :: (importItems outcome (n + 1) s').1.1,
          s'.counters.payloadBytesRead :: (importItems outcome (n + 1) s').1.2),
          (importItems outcome (n + 1) s').2)
termination_by s.nodes.length
decreasing_by all_goals exact length_next io _h

end AtBlobContent

def Getter.fail (w : Getter H) (e : Get.GetError) (cause : GetError) : Except Get.GetError Unit × Getter H :=
  (.error e, { w with cause := some cause })

/-- `get_blob_ranges_impl`.  An empty blob is not imported.  The iterator of the ranges is not used for a single
blob. -/
def getBlobRangesImpl (outcome : Nat → Nat → LocalOutcome) : Op (Getter H) Get.GetError := fun index hash ranges w =>
  match AtBlobHeader.next io ⟨ranges, ChunkRangesSeq.all.iterNonEmptyInfinite, hash⟩ w.reading with
  | .error e => w.fail .atBlobHeaderNext (.ofHeader e)
  | .ok (content, size) =>
    if size = 0 then
      if hash = Hash.EMPTY then
        match content.drain io with
        | .error e => w.fail .decode (.ofDecode e)
        | .ok (_, reading) => (.ok (), { w with reading })
      else w.fail .decode (.ofDecode (.leafHashMismatch 0))
    else
      match content.importItems io (outcome index) 0 with
      | ((items, values), .error e) =>
        Getter.fail { w with imports := w.imports ++ [(hash, items)], progress := w.progress ++ values }
          (if e = .localFailure then .localFailure else .decode) e
      | ((items, values), .ok (_, reading)) =>
        (.ok (), { w with reading, imports := w.imports ++ [(hash, items)], progress := w.progress ++ values })

/-- The end of the response. -/
def closeResponse (closing : AtClosing) (w : Getter H) : Except Get.GetError Unit :=
  match AtClosing.next closing w.reading with
  | .error _ => .error .atClosingNext
  | .ok _ => .ok ()

/-! ### The loop -/

section

variable {io} {outcome : Nat → LocalOutcome} {n : Nat} {s : AtBlobContent H}

variable (io outcome n s) in
/-- One round of the loop. -/
theorem importItems_cases :
    ((outcome n).Fails ∧ ∃ values, s.importItems io outcome n = (([], values), .error .localFailure) ∧
      (values = [] ∨ ∃ s' item, s.next io = .more (.ok (s', item)) ∧ values = [s'.counters.payloadBytesRead])) ∨
    (∃ atEndBlob r, s.next io = .done atEndBlob r ∧ s.importItems io outcome n = (([], []), .ok (atEndBlob, r))) ∨
    (∃ e, s.next io = .more (.error e) ∧ s.importItems io outcome n = (([], []), .error (.ofDecode e))) ∨
    ∃ s' item, s.next io = .more (.ok (s', item)) ∧ s.importItems io outcome n =
      ((item :: (s'.importItems io outcome (n + 1)).1.1,
        s'.counters.payloadBytesRead :: (s'.importItems io outcome (n + 1)).1.2),
          (s'.importItems io outcome (n + 1)).2) := by
  rw [AtBlobContent.importItems]
  split
  · rename_i hfailed
    exact Or.inl ⟨by rw [hfailed]; exact trivial, [], rfl, Or.inl rfl⟩
  · split
    · rename_i hnext
      exact Or.inr (Or.inl ⟨_, _, hnext, rfl⟩)
    · rename_i hnext
      exact Or.inr (Or.inr (Or.inl ⟨_, hnext, rfl⟩))
    · rename_i s' item hnext
      split
      · rename_i hfailed
        exact Or.inl ⟨by rw [hfailed]; exact trivial, [], rfl, Or.inl rfl⟩
      · split
        · rename_i hfailed
          exact Or.inl ⟨by rw [hfailed]; exact trivial, _, rfl, Or.inr ⟨s', item, hnext, rfl⟩⟩
        · exact Or.inr (Or.inr (Or.inr ⟨s', item, hnext, rfl⟩))

/-- What the loop does: it hands over the items that are read, all of them if it succeeds, and it only fails if the
reading fails or something on this side does. -/
structure Imports (outcome : Nat → LocalOutcome)
    (read : List (BaoContentItem H) × Except DecodeError (AtEndBlob × Reading))
    (res : (List (BaoContentItem H) × List Nat) × Except GetError (AtEndBlob × Reading)) : Prop where
  items : res.1.1 <+: read.1
  ok : ∀ x, res.2 = .ok x → read.2 = .ok x ∧ res.1.1 = read.1
  error : ∀ e, res.2 = .error e → (∃ e', read.2 = .error e' ∧ e = .ofDecode e') ∨
    (e = .localFailure ∧ ∃ n, (outcome n).Fails)

variable (io outcome n s) in
private theorem imports_importItems : Imports outcome (s.readAll io) (s.importItems io outcome n) := by
  induction hk : s.nodes.length using Nat.strong_induction_on generalizing n s with
  | _ k ih =>
    rcases importItems_cases io outcome n s with ⟨hn, values, heq, -⟩ | ⟨atEndBlob, r, hnext, heq⟩ | ⟨e, hnext, heq⟩ |
      ⟨s', item, hnext, heq⟩
    · rw [heq]
      refine ⟨List.nil_prefix, fun x h => (by cases h), ?_⟩
      intro e h
      cases h
      exact Or.inr ⟨rfl, n, hn⟩
    · rw [heq, AtBlobContent.readAll_of_done hnext]
      exact ⟨List.nil_prefix, fun x h => ⟨by cases h; rfl, rfl⟩, fun e h => by cases h⟩
    · rw [heq, AtBlobContent.readAll_of_error hnext]
      refine ⟨List.nil_prefix, fun x h => (by cases h), ?_⟩
      intro e' h
      cases h
      exact Or.inl ⟨e, rfl, rfl⟩
    · have hlen := AtBlobContent.length_next io hnext
      obtain ⟨hitems, hok, herror⟩ := ih _ (by omega) (n := n + 1) (s := s') rfl
      rw [heq, AtBlobContent.readAll_of_ok hnext]
      refine ⟨List.cons_prefix_cons.mpr ⟨rfl, hitems⟩, fun x h => ?_, herror⟩
      obtain ⟨hread, hall⟩ := hok x h
      exact ⟨hread, by rw [hall]⟩

end

/-! ### What is read of a blob -/

/-- The item is a part of the blob. -/
def Belongs (io : BaoTreeIo H) (blob : List UInt8) : BaoContentItem H → Prop
  | .parent parent => ∃ p, IsPath 1 (treeChunks blob.length) p ∧ 1 < (sub (treeChunks blob.length) p).2 ∧
    parent.pair = (nodeHash io.f blob (p ++ [false]), nodeHash io.f blob (p ++ [true]))
  | .leaf leaf => leaf.data = (blob.drop leaf.offset).take leaf.data.length

/-- The data of the chunk is in a leaf, at its place. -/
def HasChunk (blob : List UInt8) (items : List (BaoContentItem H)) (x : Nat) : Prop :=
  ∃ leaf, .leaf leaf ∈ items ∧ leaf.offset ≤ x * 1024 ∧
    (leaf.data.drop (x * 1024 - leaf.offset)).take 1024 = (blob.drop (x * 1024)).take 1024

/-- The bytes that have been read. -/
def RequestCounters.read (counters : RequestCounters) : Nat := counters.payloadBytesRead + counters.otherBytesRead

omit [DecidableEq H] in
theorem read_count (items : List (Item H)) (counters : RequestCounters) :
    (items.foldl RequestCounters.count counters).read = counters.read + (items.map Item.length).sum := by
  induction items generalizing counters with
  | nil => rfl
  | cons item items ih =>
    have hitem : (counters.count item).read = counters.read + item.length := by
      cases item with
      | parent p pair => exact (Nat.add_assoc _ _ _).symm
      | leaf p data => exact Nat.add_right_comm _ _ _
    rw [List.foldl_cons, ih, hitem, List.map_cons, List.sum_cons, Nat.add_assoc]

section

variable {io} {header : AtBlobHeader} {r r' : Reading} {s : AtBlobContent H} {size : Nat} {blob : List UInt8}
  {atEndBlob : AtEndBlob}

/-- All bytes that are taken off the stream are counted. -/
theorem HeaderRead.consumed (h : HeaderRead io header r s size) (hread : (s.readAll io).2 = .ok (atEndBlob, r')) :
    r'.reader.broken = r.reader.broken ∧ ∃ bytes, r.reader.bytes = bytes ++ r'.reader.bytes ∧
      r'.counters.read = r.counters.read + bytes.length := by
  obtain ⟨hok, -, hcounters⟩ := readNodes_of_readAll hread
  obtain ⟨⟨bytes, hbytes, hlen⟩, hbroken⟩ := readNodes_length hok
  obtain ⟨head, hhead, hlen', -⟩ := h.bytes
  refine ⟨hbroken.trans h.broken, head ++ bytes, by rw [hhead, hbytes, List.append_assoc], ?_⟩
  rw [hcounters, read_count, h.counters, List.length_append, hlen, hlen']
  simp only [RequestCounters.read]
  omega

end

/-! ### What is known after a part of the request -/

/-- The items that are handed to an import for a hash belong to its blob. -/
def SoundImport (io : BaoTreeIo H) (entry : Hash × List (BaoContentItem H)) : Prop :=
  ∀ blob, io.ofHash entry.1 = nodeHash io.f blob [] → ∀ item ∈ entry.2, Belongs io blob item

/-- Everything that was asked for of a blob is handed to an import.  An empty blob is not imported. -/
def Covers (io : BaoTreeIo H) (blob : BlobItem) (imports : List (Hash × List (BaoContentItem H))) : Prop :=
  ∀ data, io.ofHash blob.hash = nodeHash io.f data [] → data ≠ [] → ∃ items, (blob.hash, items) ∈ imports ∧
    ∀ x ∈ blob.ranges, HasChunk data items (min x (treeChunks data.length - 1))

omit [DecidableEq H] in
variable {io} in
private theorem Covers.mono {blob : BlobItem} {imports imports' : List (Hash × List (BaoContentItem H))}
    (h : Covers io blob imports)
    (hsubset : imports ⊆ imports') : Covers io blob imports' := by
  intro data hdata hne
  obtain ⟨items, hmem, hchunks⟩ := h data hdata hne
  exact ⟨items, hsubset hmem, hchunks⟩

/-- What has been got for the blobs, all of it if nothing failed. -/
structure Got (io : BaoTreeIo H) (ok : Bool) (blobs : List BlobItem) (w w' : Getter H) : Prop where
  broken : w'.reading.reader.broken = w.reading.reader.broken
  consumed : ∃ bytes, w.reading.reader.bytes = bytes ++ w'.reading.reader.bytes ∧
    w'.reading.counters.read = w.reading.counters.read + bytes.length
  payload : w.reading.counters.payloadBytesRead ≤ w'.reading.counters.payloadBytesRead
  imports : ∃ imports, w'.imports = w.imports ++ imports ∧ (∀ entry ∈ imports, SoundImport io entry) ∧
    (ok = true → ∀ blob ∈ blobs, Covers io blob imports)
  progress : ∃ values, w'.progress = w.progress ++ values ∧ values.Pairwise (· ≤ ·) ∧
    (∀ v ∈ values, w.reading.counters.payloadBytesRead ≤ v) ∧
    (ok = true → ∀ v ∈ values, v ≤ w'.reading.counters.payloadBytesRead)

namespace Got

omit [DecidableEq H] in
private theorem refl (ok : Bool) (w : Getter H) : Got io ok [] w w :=
  ⟨rfl, ⟨[], rfl, rfl⟩, Nat.le_refl _, ⟨[], by simp, by simp, by simp⟩, [], by simp, .nil, by simp, by simp⟩

omit [DecidableEq H] in
variable {io} in
private theorem trans {ok : Bool} {blobs blobs' : List BlobItem} {w w' w'' : Getter H} (h : Got io true blobs w w')
    (h' : Got io ok blobs' w' w'') : Got io ok (blobs ++ blobs') w w'' := by
  obtain ⟨hbroken, ⟨bytes, hbytes, hcount⟩, hpayload, ⟨imports, himports, hsound, hcovers⟩, values, hvalues,
    hsorted, hge, hle⟩ := h
  obtain ⟨hbroken', ⟨bytes', hbytes', hcount'⟩, hpayload', ⟨imports', himports', hsound', hcovers'⟩, values', hvalues',
    hsorted', hge', hle'⟩ := h'
  refine ⟨hbroken'.trans hbroken, ⟨bytes ++ bytes', ?_, ?_⟩, hpayload.trans hpayload',
    ⟨imports ++ imports', ?_, ?_, ?_⟩, values ++ values', ?_, ?_, ?_, ?_⟩
  · rw [hbytes, hbytes', List.append_assoc]
  · rw [hcount', hcount, List.length_append, Nat.add_assoc]
  · rw [himports', himports, List.append_assoc]
  · exact List.forall_mem_append.mpr ⟨hsound, hsound'⟩
  · intro hok blob hblob
    rcases List.mem_append.mp hblob with hblob | hblob
    · exact (hcovers rfl blob hblob).mono (List.subset_append_left _ _)
    · exact (hcovers' hok blob hblob).mono (List.subset_append_right _ _)
  · rw [hvalues', hvalues, List.append_assoc]
  · rw [List.pairwise_append]
    exact ⟨hsorted, hsorted', fun a ha b hb => (hle rfl a ha).trans (hge' b hb)⟩
  · exact List.forall_mem_append.mpr ⟨hge, fun v hv => hpayload.trans (hge' v hv)⟩
  · intro hok
    exact List.forall_mem_append.mpr ⟨fun v hv => (hle rfl v hv).trans hpayload', hle' hok⟩

omit [DecidableEq H] in
/-- Nothing is got of a blob if the reading fails. -/
private theorem fail (w : Getter H) (blobs : List BlobItem) (e : Get.GetError) (cause : GetError) :
    Got io (w.fail e cause).1.isOk blobs w (w.fail e cause).2 :=
  ⟨rfl, ⟨[], rfl, rfl⟩, Nat.le_refl _, ⟨[], by simp [Getter.fail], by simp, fun h => by cases h⟩,
    [], by simp [Getter.fail], .nil, by simp, by simp⟩

end Got

section

variable {io} {outcome : Nat → Nat → LocalOutcome}

end

/-! ### Honest responses -/

/-- What is handed to the import of a blob that is sent completely. -/
def honestImport (io : BaoTreeIo H) (blob : List UInt8) (item : BlobItem) : List (Hash × List (BaoContentItem H)) :=
  if blob = [] then [] else [(item.hash, (honestItems io blob item.ranges).map (contentItem blob.length))]

/-- The counters after a blob. -/
def honestCounters (io : BaoTreeIo H) (blob : List UInt8) (item : BlobItem) (counters : RequestCounters) :
    RequestCounters :=
  (honestItems io blob item.ranges).foldl RequestCounters.count
    { counters with otherBytesRead := counters.otherBytesRead + 8 }

/-- Everything that is sent of a blob is read, and what comes after it remains. -/
structure HonestRead (io : BaoTreeIo H) (toBytes : H → List UInt8) (blob : List UInt8) (item : BlobItem)
    (w w' : Getter H) : Prop where
  bytes : w.reading.reader.bytes = blobBytes io toBytes blob item.ranges ++ w'.reading.reader.bytes
  broken : w'.reading.reader.broken = w.reading.reader.broken
  imports : w'.imports = w.imports ++ honestImport io blob item
  counters : w'.reading.counters = honestCounters io blob item w.reading.counters
  cause : w'.cause = w.cause

/-- Reading has failed through no fault of the peer: something failed on this side, or bytes are missing. -/
def Excused (outcome : Nat → Nat → LocalOutcome) (w : Getter H) (expected : List UInt8) (cause : GetError) : Prop :=
  (cause = .localFailure ∧ ∃ index n, (outcome index n).Fails) ∨
    (GetError.Missing w.reading.reader.broken cause ∧ w.reading.reader.bytes.length < expected.length)

section

variable {io} {outcome : Nat → Nat → LocalOutcome} {toBytes : H → List UInt8} {blob rest : List UInt8}

variable (outcome rest) in
/-- From a beginning of an honest response the blob is read, or there is an excuse. -/
theorem getBlobRangesImpl_prefix (item : BlobItem) (w : Getter H) (hblob : BlobOf io toBytes item.hash blob)
    (hempty : blob = [] → item.hash = Hash.EMPTY)
    (hpre : w.reading.reader.bytes <+: blobBytes io toBytes blob item.ranges ++ rest) :
    (∃ w', getBlobRangesImpl io outcome item.index item.hash item.ranges w = (.ok (), w') ∧
      HonestRead io toBytes blob item w w' ∧ w'.reading.reader.bytes <+: rest) ∨
    ∃ e w' cause, getBlobRangesImpl io outcome item.index item.hash item.ranges w = (.error e, w') ∧
      w'.cause = some cause ∧
      Excused outcome w (blobBytes io toBytes blob item.ranges) cause := by
  simp only [getBlobRangesImpl]
  rcases Nat.lt_or_ge w.reading.reader.bytes.length (blobBytes io toBytes blob item.ranges).length with hlt | hge
  · -- the blob is not complete
    have hexcuse : ∀ cause, GetError.Missing w.reading.reader.broken cause →
        Excused outcome w (blobBytes io toBytes blob item.ranges) cause := fun cause h => Or.inr ⟨h, hlt⟩
    refine Or.inr ?_
    rcases read_prefix ⟨item.ranges, ChunkRangesSeq.all.iterNonEmptyInfinite, item.hash⟩ hblob hpre with
      ⟨bytes, hbytes, -⟩ | ⟨e, hnext, he⟩ | ⟨s, hnext, e, hall, he⟩
    · rw [hbytes, List.length_append] at hlt
      exact absurd hlt (Nat.not_lt.mpr (Nat.le_add_right _ _))
    · rw [hnext]
      exact ⟨_, _, _, rfl, rfl, hexcuse _ he⟩
    · rw [hnext]
      simp only
      split
      · rename_i hzero
        rw [if_pos (hempty (List.eq_nil_of_length_eq_zero hzero)), AtBlobContent.drain, hall]
        exact ⟨_, _, _, rfl, rfl, hexcuse _ he⟩
      · have himports := imports_importItems io (outcome item.index) 0 s
        split
        · rename_i items values e' hitems
          rw [hitems] at himports
          rcases himports.error e' rfl with ⟨e'', hread, rfl⟩ | ⟨rfl, hfailed⟩
          · rw [hall] at hread
            cases hread
            exact ⟨_, _, _, rfl, rfl, hexcuse _ he⟩
          · exact ⟨_, _, _, rfl, rfl, Or.inl ⟨rfl, item.index, hfailed⟩⟩
        · rename_i items values atEndBlob reading hitems
          rw [hitems] at himports
          have hread := (himports.ok _ rfl).1
          rw [hall] at hread
          cases hread
  · obtain ⟨bytes, hbytes⟩ := List.prefix_of_prefix_length_le (List.prefix_append _ _) hpre hge
    rw [← hbytes, List.prefix_append_right_inj] at hpre
    obtain ⟨s, hnext, hall⟩ :=
      read_honest io ⟨item.ranges, ChunkRangesSeq.all.iterNonEmptyInfinite, item.hash⟩ w.reading bytes
      hblob hbytes.symm
    rw [hnext]
    simp only
    split
    · rename_i hzero
      have hnil := List.eq_nil_of_length_eq_zero hzero
      rw [if_pos (hempty hnil), AtBlobContent.drain, hall]
      refine Or.inl ⟨_, rfl, ⟨hbytes.symm, rfl, ?_, rfl, rfl⟩, hpre⟩
      rw [honestImport, if_pos hnil, List.append_nil]
    · rename_i hne
      have himports := imports_importItems io (outcome item.index) 0 s
      rw [hall] at himports
      split
      · rename_i items values e' hitems
        rw [hitems] at himports
        rcases himports.error e' rfl with ⟨e'', hread, -⟩ | ⟨rfl, hfailed⟩
        · cases hread
        · exact Or.inr ⟨_, _, _, rfl, rfl, Or.inl ⟨rfl, item.index, hfailed⟩⟩
      · rename_i items values atEndBlob reading hitems
        rw [hitems] at himports
        obtain ⟨hread, hitems'⟩ := himports.ok _ rfl
        cases hread
        simp only at hitems'
        subst hitems'
        refine Or.inl ⟨_, rfl, ⟨hbytes.symm, rfl, ?_, rfl, rfl⟩, hpre⟩
        rw [honestImport, if_neg (fun hnil => hne (by rw [hnil]; rfl))]

end

/-! ### A hash sequence and its child -/

/-- A blob of two chunks. -/
def twoChunks : List UInt8 := List.replicate 1025 7

/-- Of two blobs, one is the hash sequence of the other, which has two chunks. -/
def parentBlobs (hash : Hash) : List UInt8 :=
  if hash = Hash.replicate 2 then twoChunks else (HashSeq.ofHashes [Hash.replicate 2]).bytes

section

variable {io}

end

end Fsm

end IrohBlobs
