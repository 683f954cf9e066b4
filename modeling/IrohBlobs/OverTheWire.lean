import IrohBlobs.GetSink
import IrohBlobs.TransferSession

/-!
# Over the wire

Both ends of a get request.  `handle_get` writes the blobs of the schedule to the stream, and `execute_get_sink` reads
what arrives of them.  The exports of the provider are honest: an export is the encoding of the blob, or it begins
like it and then reports an error.

What is on the stream is a beginning of the response, and what arrives is a beginning of that.  The getter reads all
of it, or it fails because bytes are missing or because something failed on its own side; an honest provider is never
blamed (`get_over_the_wire`).  If both sides succeed then their counters agree.
-/

namespace IrohBlobs

namespace Fsm

open Merkle BaoTree Events
open Get (AtClosing)

/-! ### Exports -/

section

variable (io : BaoTreeIo Hash) (blob : List UInt8)

/-- The item of an export for a node of the tree of the blob. -/
def exportItem (node : Node) : EncodedItem Hash :=
  match itemAt io.f blob node with
  | .parent p pair => .parent ⟨nodeAt (treeChunks blob.length) p, pair⟩
  | .leaf p data => .leaf ⟨(sub (treeChunks blob.length) p).1 * 1024, data⟩

/-- The items of an export of the ranges, up to its end. -/
def exportItems (ranges : ChunkRanges) : List (EncodedItem Hash) :=
  .size blob.length :: (io.nodes blob.length ranges).map (exportItem io blob)

variable {io blob} {ranges : ChunkRanges}

private theorem exportItems_ne : ∀ item ∈ exportItems io blob ranges, item ≠ .done ∧ ∀ e, item ≠ .error e := by
  rw [exportItems, List.forall_mem_cons]
  refine ⟨by simp, ?_⟩
  intro item hitem
  obtain ⟨node, -, rfl⟩ := List.mem_map.mp hitem
  cases node <;> simp [exportItem, itemAt]

private theorem bytes_exportItems : Piece.bytes (itemPieces (exportItems io blob ranges)) =
    blobBytes io Hash.bytes blob ranges := by
  have hnodes : ∀ nodes, Piece.bytes (itemPieces (nodes.map (exportItem io blob))) =
    encode io.f Hash.bytes blob nodes := by
    intro nodes
    induction nodes with
    | nil => rfl
    | cons node nodes ih =>
      rw [List.map_cons, encode, List.flatMap_cons, ← encode, ← ih]
      cases node <;> rfl
  rw [blobBytes, ← hnodes]
  rfl

private theorem payloads_exportItems :
    (Piece.payloads (itemPieces (exportItems io blob ranges))).sum =
      (leafData (honestItems io blob ranges)).length := by
  have hnodes : ∀ nodes : List Node, (Piece.payloads (itemPieces (nodes.map (exportItem io blob)))).sum =
      (leafData (nodes.map (itemAt io.f blob))).length := by
    intro nodes
    induction nodes with
    | nil => rfl
    | cons node nodes ih =>
      rw [List.map_cons, List.map_cons, leafData, List.flatMap_cons, ← leafData, List.length_append, ← ih]
      cases node with
      | parent p => exact (Nat.zero_add _).symm
      | leaf p => rfl
  rw [honestItems, ← hnodes]
  rfl

end

/-- Every export is the encoding of the blob, or begins like it and then reports an error. -/
def HonestExports {σ : Type} (io : BaoTreeIo Hash) (c : Hash → List UInt8) (store : StoreOps σ) : Prop :=
  ∀ s hash ranges items, store.exportBao s hash ranges = .ok items →
    items = exportItems io (c hash) ranges ++ [.done] ∨
      ∃ i e, items = (exportItems io (c hash) ranges).take i ++ [.error e]

/-! ### The sender -/

private theorem itemPieces_append {items : List (EncodedItem Hash)}
    (h : ∀ item ∈ items, item ≠ .done ∧ ∀ e, item ≠ .error e)
    (rest : List (EncodedItem Hash)) : itemPieces (items ++ rest) = itemPieces items ++ itemPieces rest := by
  induction items with
  | nil => rfl
  | cons item items ih =>
    rw [List.forall_mem_cons] at h
    have ih := ih h.2
    rw [List.cons_append]
    cases item with
    | size size => simp only [itemPieces, ih, List.cons_append]
    | parent parent => simp only [itemPieces, ih, List.cons_append]
    | leaf leaf => simp only [itemPieces, ih, List.cons_append]
    | done => exact absurd rfl h.1.1
    | error e => exact absurd rfl (h.1.2 e)

/-- An export that reports an error is not sent completely. -/
private theorem writeItems_error (w : ProgressWriter) (hash : Hash) (index : Nat) {items : List (EncodedItem Hash)}
    (h : ∀ item ∈ items, item ≠ .done) (e : EncodeError) :
    (w.writeItems hash index (items ++ [.error e])).1.isOk = false := by
  induction items generalizing w with
  | nil => rfl
  | cons item items ih =>
    rw [List.forall_mem_cons] at h
    rw [List.cons_append]
    rcases writeItems_cons w hash index h.1 (items ++ [.error e]) with ⟨cause, w', -, hrun⟩ | ⟨w', -, hrun⟩
    · rw [hrun]
      rfl
    · rw [hrun]
      exact ih w' h.2

/-- What is written of a blob. -/
def honestPieces (io : BaoTreeIo Hash) (c : Hash → List UInt8) (blob : BlobItem) : List Piece :=
  itemPieces (exportItems io (c blob.hash) blob.ranges)

section

variable {σ : Type} {store : StoreOps σ} {seen : Seen σ} {io : BaoTreeIo Hash} {c : Hash → List UInt8}

private theorem bytes_honestPieces (blobs : List BlobItem) : Piece.bytes (blobs.flatMap (honestPieces io c)) =
    blobs.flatMap (fun blob => blobBytes io Hash.bytes (c blob.hash) blob.ranges) := by
  induction blobs with
  | nil => rfl
  | cons blob blobs ih =>
    rw [List.flatMap_cons, List.flatMap_cons, Piece.bytes_append, ih, honestPieces, bytes_exportItems]

private theorem payloads_honestPieces (blobs : List BlobItem) :
    (Piece.payloads (blobs.flatMap (honestPieces io c))).sum =
    (blobs.map (fun blob => (leafData (honestItems io (c blob.hash) blob.ranges)).length)).sum := by
  induction blobs with
  | nil => rfl
  | cons blob blobs ih =>
    rw [List.flatMap_cons, List.map_cons, List.sum_cons, Piece.payloads_append, List.sum_append, ih, honestPieces,
      payloads_exportItems]

/-- One blob of an honest store: a blob that is sent completely is that of the hash, and otherwise what is sent begins
like it. -/
private theorem sent_sendBlob (hstore : HonestExports io c store) :
    (Events.sendBlob store seen).Does (fun ok blob w w' => Accounted ok (honestPieces io c blob) w w') := by
  intro blob w
  have hwritten : Accounted (Events.sendBlob store seen blob.index blob.hash blob.ranges w).1.isOk
    (blobPieces store seen blob) w
      (Events.sendBlob store seen blob.index blob.hash blob.ranges w).2 := sendBlob_writes blob w
  rcases sendBlob_eq store seen blob w with ⟨e, hexport, hok, -⟩ | ⟨items, hexport, hok, -⟩
  · rw [hok, blobPieces, hexport] at hwritten
    rw [hok]
    exact hwritten.mono (honestPieces io c blob)
  · rw [blobPieces, hexport] at hwritten
    rcases hstore _ _ _ _ hexport with rfl | ⟨i, e, rfl⟩
    · have hpieces : exportPieces (.ok (exportItems io (c blob.hash) blob.ranges ++ [.done])) =
        honestPieces io c blob :=
        (itemPieces_append exportItems_ne [.done]).trans (List.append_nil _)
      rwa [hpieces] at hwritten
    · have hne : ∀ item ∈ (exportItems io (c blob.hash) blob.ranges).take i, item ≠ .done ∧ ∀ e, item ≠ .error e :=
        fun item hitem => exportItems_ne item (List.mem_of_mem_take hitem)
      have hpieces : exportPieces (.ok ((exportItems io (c blob.hash) blob.ranges).take i ++ [.error e])) =
          itemPieces ((exportItems io (c blob.hash) blob.ranges).take i) :=
        (itemPieces_append hne [.error e]).trans (List.append_nil _)
      have hsplit : honestPieces io c blob = itemPieces ((exportItems io (c blob.hash) blob.ranges).take i) ++
          itemPieces ((exportItems io (c blob.hash) blob.ranges).drop i) := by
        rw [← itemPieces_append hne, List.take_append_drop]
        rfl
      rw [writeItems_error w blob.hash blob.index (fun item hitem => (hne item hitem).1) e] at hok
      rw [hpieces, hok] at hwritten
      rw [hok, hsplit]
      exact hwritten.mono _

end

/-! ### The receiver -/

/-- Everything that is sent of the blobs is read, and what comes after it remains. -/
structure HonestRun (io : BaoTreeIo Hash) (c : Hash → List UInt8) (blobs : List BlobItem)
    (w w' : Getter Hash) : Prop where
  bytes : w.reading.reader.bytes =
    blobs.flatMap (fun blob => blobBytes io Hash.bytes (c blob.hash) blob.ranges) ++ w'.reading.reader.bytes
  broken : w'.reading.reader.broken = w.reading.reader.broken
  imports : w'.imports = w.imports ++ blobs.flatMap (fun blob => honestImport io (c blob.hash) blob)
  counters : w'.reading.counters =
    blobs.foldl (fun counters blob => honestCounters io (c blob.hash) blob counters) w.reading.counters
  cause : w'.cause = w.cause

/-- A blob is read from a beginning of an honest response, or there is an excuse. -/
def HonestStep (io : BaoTreeIo Hash) (c : Hash → List UInt8) (outcome : Nat → Nat → LocalOutcome)
    (ok : Bool) (blob : BlobItem)
    (w w' : Getter Hash) : Prop :=
  BlobOf io Hash.bytes blob.hash (c blob.hash) → ∀ rest,
    w.reading.reader.bytes <+: blobBytes io Hash.bytes (c blob.hash) blob.ranges ++ rest →
      (ok = true ∧ HonestRead io Hash.bytes (c blob.hash) blob w w' ∧ w'.reading.reader.bytes <+: rest) ∨
        (ok = false ∧ ∃ cause, w'.cause = some cause ∧
          Excused outcome w (blobBytes io Hash.bytes (c blob.hash) blob.ranges) cause)

section

variable {io : BaoTreeIo Hash} {c : Hash → List UInt8} {outcome : Nat → Nat → LocalOutcome}

private theorem honestStep_getBlobRangesImpl
    (hempty : ∀ hash, io.ofHash hash = nodeHash io.f [] [] → hash = Hash.EMPTY) :
    (getBlobRangesImpl io outcome).Does (HonestStep io c outcome) := by
  intro blob w hblob rest hpre
  have hnil : c blob.hash = [] → blob.hash = Hash.EMPTY := by
    intro hnil
    refine hempty _ ?_
    rw [← hnil]
    exact hblob.hash_eq
  rcases getBlobRangesImpl_prefix outcome rest blob w hblob hnil hpre with ⟨w', hw, hread, hrest⟩ |
    ⟨e, w', cause, hw, hcause, hexcused⟩
  · rw [hw]
    exact Or.inl ⟨rfl, hread, hrest⟩
  · rw [hw]
    exact Or.inr ⟨rfl, cause, hcause, hexcused⟩

private theorem Excused.mono {w w₁ : Getter Hash} {expected expected₁ : List UInt8} {cause : GetError}
    (h : Excused outcome w₁ expected₁ cause) (hbroken : w₁.reading.reader.broken = w.reading.reader.broken)
    (hlen : w.reading.reader.bytes.length + expected₁.length ≤ w₁.reading.reader.bytes.length + expected.length) :
    Excused outcome w expected cause := by
  rcases h with h | ⟨hmissing, hlt⟩
  · exact Or.inl h
  · rw [hbroken] at hmissing
    exact Or.inr ⟨hmissing, by omega⟩

/-- A run over the first blobs of a response of which a beginning has arrived. -/
private theorem honest_of_traced {result : Except Get.GetError Unit} {blobs sched : List BlobItem} {w w' : Getter Hash}
    (h : Traced (HonestStep io c outcome) result blobs w w')
    (hgood : ∀ blob ∈ sched, BlobOf io Hash.bytes blob.hash (c blob.hash)) (hblobs : blobs <+: sched)
    (hpre : w.reading.reader.bytes <+: sched.flatMap (fun blob => blobBytes io Hash.bytes (c blob.hash) blob.ranges)) :
    (HonestRun io c blobs w w' ∧ w'.reading.reader.bytes <+:
      (sched.drop blobs.length).flatMap (fun blob => blobBytes io Hash.bytes (c blob.hash) blob.ranges)) ∨
    (result.isOk = false ∧ ∃ cause, w'.cause = some cause ∧
      Excused outcome w (sched.flatMap (fun blob => blobBytes io Hash.bytes (c blob.hash) blob.ranges)) cause) := by
  induction h generalizing sched with
  | stop result w => exact Or.inl ⟨⟨rfl, rfl, (List.append_nil _).symm, rfl, rfl⟩, hpre⟩
  | failed e head =>
    obtain ⟨rest, rfl⟩ := hblobs
    rw [List.singleton_append, List.forall_mem_cons] at hgood
    rw [List.singleton_append, List.flatMap_cons] at hpre ⊢
    rcases head hgood.1 _ hpre with ⟨h, -⟩ | ⟨-, cause, hcause, hexcused⟩
    · cases h
    · refine Or.inr ⟨rfl, cause, hcause, hexcused.mono rfl ?_⟩
      rw [List.length_append]
      omega
  | @step result blob blobs w w₁ w' head tail ih =>
    obtain ⟨rest, rfl⟩ := hblobs
    rw [List.cons_append, List.forall_mem_cons] at hgood
    rw [List.cons_append, List.flatMap_cons] at hpre ⊢
    rcases head hgood.1 _ hpre with ⟨-, hread, hrest⟩ | ⟨h, -⟩
    · rcases ih hgood.2 (List.prefix_append _ _) hrest with ⟨hrun, htail⟩ | ⟨hres, cause, hcause, hexcused⟩
      · refine Or.inl ⟨⟨?_, hrun.broken.trans hread.broken, ?_, ?_, hrun.cause.trans hread.cause⟩, htail⟩
        · rw [hread.bytes, hrun.bytes, List.flatMap_cons, List.append_assoc]
        · rw [hrun.imports, hread.imports, List.flatMap_cons, List.append_assoc]
        · rw [hrun.counters, hread.counters, List.foldl_cons]
      · refine Or.inr ⟨hres, cause, hcause, hexcused.mono hread.broken ?_⟩
        rw [hread.bytes, List.length_append, List.length_append]
        omega
    · cases h

end

/-! ### Counters -/

section

variable (io : BaoTreeIo Hash) (c : Hash → List UInt8)

private theorem length_blobBytes (blob : List UInt8) (ranges : ChunkRanges) :
    (blobBytes io Hash.bytes blob ranges).length = 8 + ((honestItems io blob ranges).map Item.length).sum := by
  have hitem : ∀ item : Item Hash, (item.bytes Hash.bytes).length = item.length := by
    intro item
    cases item with
    | parent p pair => rw [Item.bytes, List.length_append, pair.1.length_bytes, pair.2.length_bytes, Item.length]
    | leaf p data => rfl
  rw [blobBytes, List.length_append, toLeBytes_length, encode, List.length_flatMap, honestItems, List.map_map]
  exact congrArg (fun l => 8 + l.sum) (List.map_congr_left (fun node _ => hitem _))

private theorem read_honestCounters (blob : List UInt8) (item : BlobItem) (counters : RequestCounters) :
    (honestCounters io blob item counters).read = counters.read +
      (blobBytes io Hash.bytes blob item.ranges).length := by
  rw [honestCounters, read_count, length_blobBytes]
  simp only [RequestCounters.read]
  omega

/-- What the getter counts for the blobs. -/
private theorem counters_foldl (blobs : List BlobItem) (counters : RequestCounters) :
    (blobs.foldl (fun counters blob => honestCounters io (c blob.hash) blob counters) counters).payloadBytesRead =
        counters.payloadBytesRead +
          (blobs.map (fun blob => (leafData (honestItems io (c blob.hash) blob.ranges)).length)).sum ∧
      (blobs.foldl (fun counters blob => honestCounters io (c blob.hash) blob counters) counters).read =
        counters.read + (blobs.flatMap (fun blob => blobBytes io Hash.bytes (c blob.hash) blob.ranges)).length := by
  induction blobs generalizing counters with
  | nil => exact ⟨rfl, rfl⟩
  | cons blob blobs ih =>
    obtain ⟨hpayload, hread⟩ := ih (honestCounters io (c blob.hash) blob counters)
    have hblob : (honestCounters io (c blob.hash) blob counters).payloadBytesRead =
        counters.payloadBytesRead + (leafData (honestItems io (c blob.hash) blob.ranges)).length :=
          payloadBytesRead_count _ _
    rw [List.foldl_cons, hpayload, hread, hblob, read_honestCounters, List.map_cons, List.sum_cons, List.flatMap_cons,
      List.length_append]
    exact ⟨Nat.add_assoc _ _ _, Nat.add_assoc _ _ _⟩

end

/-! ### Both ends -/

/-- A stream on which nothing has been written. -/
structure Fresh (w : ProgressWriter) : Prop where
  sent : w.inner.sent = []
  payload : w.context.payloadBytesWritten = 0
  other : w.context.otherBytesWritten = 0

/-- The state of a getter that has sent its request. -/
def Getter.new (reader : ByteStream Endpoint.ReadError) (requestLen : Nat) : Getter Hash :=
  ⟨⟨reader, ⟨0, requestLen, 0, 0⟩⟩, [], [], none⟩

/-- What the getter makes of the response to which the sender has come. -/
structure Received (io : BaoTreeIo Hash) (c : Hash → List UInt8) (outcome : Nat → Nat → LocalOutcome)
    (sched : List BlobItem)
    (sender : Run ProgressWriter ProviderError) (w : Getter Hash)
    (receiver : Run (Getter Hash) Get.GetError) : Prop where
  /-- A getter that succeeds has read everything and handed it to the imports. -/
  ok : receiver.result = .ok () →
    w.reading.reader.bytes = sched.flatMap (fun blob => blobBytes io Hash.bytes (c blob.hash) blob.ranges) ∧
      receiver.trace = sched ∧ receiver.state.imports = sched.flatMap (fun blob => honestImport io (c blob.hash) blob)
  /-- The counters of both sides agree. -/
  counters : receiver.result = .ok () → sender.result = .ok () →
    receiver.state.reading.counters.payloadBytesRead = sender.state.context.payloadBytesWritten ∧
      receiver.state.reading.counters.otherBytesRead = sender.state.context.otherBytesWritten
  /-- A getter that fails has an excuse. -/
  error : ∀ e, receiver.result = .error e → (e = .atClosingNext ∧ w.reading.reader.broken ≠ none) ∨
    ∃ cause, receiver.state.cause = some cause ∧
      Excused outcome w (sched.flatMap (fun blob => blobBytes io Hash.bytes (c blob.hash) blob.ranges)) cause
  /-- The getter succeeds if everything arrives and nothing fails on its side. -/
  complete : w.reading.reader.bytes = sched.flatMap (fun blob => blobBytes io Hash.bytes (c blob.hash) blob.ranges) →
    w.reading.reader.broken = none → (∀ index n, ¬ (outcome index n).Fails) → receiver.result = .ok ()

section

variable {io : BaoTreeIo Hash} {c : Hash → List UInt8} {outcome : Nat → Nat → LocalOutcome}

/-- A blob that can not be read leaves a cause. -/
private theorem cause_of_error {index : Nat} {hash : Hash} {ranges : ChunkRanges} {w w' : Getter Hash}
    {e : Get.GetError}
    (h : getBlobRangesImpl io outcome index hash ranges w = (.error e, w')) : ∃ cause, w'.cause = some cause := by
  unfold getBlobRangesImpl at h
  split at h
  · cases h
    exact ⟨_, rfl⟩
  · split at h
    · split at h
      · split at h
        · cases h
          exact ⟨_, rfl⟩
        · cases h
      · cases h
        exact ⟨_, rfl⟩
    · split at h
      · cases h
        exact ⟨_, rfl⟩
      · cases h

private theorem broken_of_close {closing : AtClosing} {w : Getter Hash} {e : Get.GetError}
    (h : closeResponse closing w = .error e) :
    e = .atClosingNext ∧ w.reading.reader.broken ≠ none := by
  unfold closeResponse AtClosing.next at h
  split at h
  · rename_i hclose
    cases h
    refine ⟨rfl, ?_⟩
    intro hnone
    split at hclose
    · rw [hnone] at hclose
      cases hclose
    · cases hclose
  · cases h

/-- What the getter makes of a beginning of the response. -/
private theorem received_of_prefix (hempty : ∀ hash, io.ofHash hash = nodeHash io.f [] [] → hash = Hash.EMPTY)
    {getBytes : Getter Hash → Except Get.GetError (List UInt8)} {request : GetRequest Hash} {seq : HashSeq} {fuel : Nat}
    (hfuel : seq.iter.length + 2 ≤ fuel) {reader : ByteStream Endpoint.ReadError} {requestLen : Nat}
    (hbytes : ∀ w', (if (request.ranges.get 0).isEmpty then w' = .new reader requestLen
      else getBlobRangesImpl io outcome 0 request.hash (request.ranges.get 0) (.new reader requestLen) = (.ok (), w')) →
        getBytes w' = .ok seq.bytes)
    (hgood : ∀ blob ∈ schedule (request.hash :: seq.iter) request.ranges, BlobOf io Hash.bytes blob.hash (c blob.hash))
    (hpre : reader.bytes <+: responseBytes io Hash.bytes c (request.hash :: seq.iter) request.ranges)
    {sender : Run ProgressWriter ProviderError} {w : ProgressWriter} (hw : Fresh w)
    (hfollows : ∃ good, Follows good sender (schedule (request.hash :: seq.iter) request.ranges))
    (hsent : Accounted sender.result.isOk (sender.trace.flatMap (honestPieces io c)) w sender.state) :
    ∃ receiver, Get.executeGetSink (getBlobRangesImpl io outcome) closeResponse getBytes (.ok ()) request fuel
        (.new reader requestLen) = some receiver ∧
      Received io c outcome (schedule (request.hash :: seq.iter) request.ranges) sender
        (.new reader requestLen) receiver := by
  have hexists : ∃ run, Get.executeGetSink (getBlobRangesImpl io outcome) closeResponse getBytes (.ok ()) request fuel
      (.new reader requestLen) = some run ∧ Follows (Get.Good (getBlobRangesImpl io outcome) closeResponse (.ok ())) run
        (schedule (request.hash :: seq.iter) request.ranges) := Get.follows_executeGetSink hfuel hbytes
  obtain ⟨receiver, hr, hfr⟩ := hexists
  obtain ⟨htraced, hends⟩ := Get.traced_executeGetSink (honestStep_getBlobRangesImpl (c := c) hempty) hr
  have hrun := honest_of_traced htraced hgood hfr.trace_prefix hpre
  have hends := hends (fun w' hw' => ⟨seq, hbytes w' hw'⟩)
  refine ⟨receiver, hr, ?_⟩
  generalize schedule (request.hash :: seq.iter) request.ranges = sched at hfollows hfr hrun
  -- a run that succeeds has read everything
  have hok : receiver.result = .ok () → receiver.trace = sched ∧
    HonestRun io c sched (.new reader requestLen) receiver.state ∧
      receiver.state.reading.reader.bytes = [] := by
    intro hres
    have htrace := hfr.trace_of_ok hres
    rcases hrun with ⟨hrun, htail⟩ | ⟨hfail, -⟩
    · rw [htrace] at hrun htail
      rw [List.drop_length] at htail
      exact ⟨htrace, hrun, List.prefix_nil.mp htail⟩
    · rw [hres] at hfail
      cases hfail
  have herror : ∀ e, receiver.result = .error e → (e = .atClosingNext ∧ reader.broken ≠ none) ∨
      ∃ cause, receiver.state.cause = some cause ∧ Excused outcome (.new reader requestLen)
        (sched.flatMap (fun blob => blobBytes io Hash.bytes (c blob.hash) blob.ranges)) cause := by
    intro e hres
    rcases hrun with ⟨hrun, -⟩ | ⟨-, hcause⟩
    · refine Or.inl ?_
      rcases hends with ⟨closing, hclose⟩ | ⟨item, w₁, e', hop, -⟩
      · rw [hres] at hclose
        have hbroken := broken_of_close hclose.symm
        rwa [hrun.broken] at hbroken
      · obtain ⟨cause, hcause⟩ := cause_of_error hop
        rw [hrun.cause] at hcause
        cases hcause
    · exact Or.inr hcause
  refine ⟨?_, ?_, herror, ?_⟩
  · intro hres
    obtain ⟨htrace, hrun, hnil⟩ := hok hres
    refine ⟨?_, htrace, hrun.imports⟩
    rw [hrun.bytes, hnil, List.append_nil]
  · intro hres hres'
    obtain ⟨-, hrun, -⟩ := hok hres
    obtain ⟨good, hfs⟩ := hfollows
    rw [hres', hfs.trace_of_ok hres'] at hsent
    obtain ⟨hpayload, hread⟩ := counters_foldl io c sched (Getter.new reader requestLen).reading.counters
    rw [← hrun.counters] at hpayload hread
    obtain ⟨-, hpayload', hother⟩ := hsent.sent
    have hlen := Piece.length_bytes (sched.flatMap (honestPieces io c))
    rw [bytes_honestPieces] at hlen
    rw [payloads_honestPieces] at hpayload' hlen
    rw [hw.payload] at hpayload'
    rw [hw.other] at hother
    simp only [Getter.new, RequestCounters.read] at hpayload hread
    omega
  · intro hall hnone hgoes
    cases hres : receiver.result with
    | ok u => rfl
    | error e =>
      rcases herror e hres with ⟨-, hbroken⟩ | ⟨cause, -, ⟨-, index, n, hfailed⟩ | ⟨-, hlt⟩⟩
      · exact absurd hnone hbroken
      · exact absurd hfailed (hgoes index n)
      · rw [hall] at hlt
        exact absurd hlt (Nat.lt_irrefl _)

end

private theorem hash_mem_of_mem_schedule {hashes : List Hash} {ranges : ChunkRangesSeq} {blob : BlobItem}
    (h : blob ∈ schedule hashes ranges) : blob.hash ∈ hashes := by
  obtain ⟨⟨hash, index⟩, hmem, hitem⟩ := List.mem_filterMap.mp h
  simp only at hitem
  split at hitem
  · cases hitem
  · cases hitem
    exact List.fst_mem_of_mem_zipIdx hmem

/-- Both ends of a get request, if the exports of the provider are honest.  What `handle_get` writes is a beginning of
the response, and all of it if it succeeds.  Whatever beginning of the response arrives, `execute_get_sink` ends, and
it reads all of the response and hands it to the imports or has an excuse; it does succeed if everything arrives and
nothing fails on its side.  If both sides succeed then their counters agree. -/
theorem get_over_the_wire {σ : Type} {io : BaoTreeIo Hash} {c : Hash → List UInt8} {store : StoreOps σ} (seen : Seen σ)
    (request : GetRequest Hash) {seq : HashSeq} {w : ProgressWriter} (hw : Fresh w)
    (hio : ∀ hash : Hash, io.ofBytes hash.bytes = hash)
    (hempty : nodeHash io.f [] [] = Hash.EMPTY) (hstore : HonestExports io c store)
    (hblob : ∀ hash ∈ request.hash :: seq.iter, (c hash).length < 2 ^ 64 ∧ nodeHash io.f (c hash) [] = hash) :
    ∃ rounds, ∀ fuel, rounds ≤ fuel → ∃ sender,
      handleGet (Events.sendBlob store seen) (.ok seq.bytes) request fuel w = some sender ∧
      sender.state.inner.sent <+: responseBytes io Hash.bytes c (request.hash :: seq.iter) request.ranges ∧
      (sender.result = .ok () →
        sender.state.inner.sent = responseBytes io Hash.bytes c (request.hash :: seq.iter) request.ranges) ∧
      ∀ (outcome : Nat → Nat → LocalOutcome) (getBytes : Getter Hash → Except Get.GetError (List UInt8))
        (reader : ByteStream Endpoint.ReadError) (requestLen : Nat),
        reader.bytes <+: responseBytes io Hash.bytes c (request.hash :: seq.iter) request.ranges →
        (∀ w', (if (request.ranges.get 0).isEmpty then w' = .new reader requestLen
          else getBlobRangesImpl io outcome 0 request.hash (request.ranges.get 0)
            (.new reader requestLen) = (.ok (), w')) →
            getBytes w' = .ok seq.bytes) →
        ∃ receiver, Get.executeGetSink (getBlobRangesImpl io outcome) closeResponse getBytes (.ok ()) request fuel
            (.new reader requestLen) = some receiver ∧
          Received io c outcome (schedule (request.hash :: seq.iter) request.ranges) sender
            (.new reader requestLen) receiver := by
  have hempty' : ∀ hash, io.ofHash hash = nodeHash io.f [] [] → hash = Hash.EMPTY := by
    intro hash h
    rw [← hempty, ← h]
    exact (hio hash).symm
  have hgood : ∀ blob ∈ schedule (request.hash :: seq.iter) request.ranges,
    BlobOf io Hash.bytes blob.hash (c blob.hash) := by
    intro blob hmem
    obtain ⟨hsize, hhash⟩ := hblob _ (hash_mem_of_mem_schedule hmem)
    refine ⟨hsize, fun p _ => ⟨(nodeHash io.f (c blob.hash) p).length_bytes, hio _⟩, ?_⟩
    rw [hhash]
    exact hio _
  refine ⟨seq.iter.length + 2, ?_⟩
  intro fuel hfuel
  obtain ⟨sender, hs, hfs⟩ := follows_handleGet (Events.sendBlob store seen) seq request hfuel w
  have hsent : Accounted sender.result.isOk (sender.trace.flatMap (honestPieces io c)) w sender.state :=
    accounted_of_traced (traced_handleGet (sent_sendBlob hstore) hs)
  refine ⟨sender, hs, ?_, ?_, ?_⟩
  · obtain ⟨bytes, hbytes, hpre⟩ := hsent.sent_prefix
    obtain ⟨rest, hrest⟩ := hfs.trace_prefix
    rw [hw.sent, List.nil_append] at hbytes
    rw [bytes_honestPieces] at hpre
    rw [hbytes, responseBytes, ← hrest, List.flatMap_append]
    exact hpre.trans (List.prefix_append _ _)
  · intro hok
    rw [hok] at hsent
    rw [hsent.sent.1, hw.sent, List.nil_append, bytes_honestPieces, hfs.trace_of_ok hok, responseBytes]
  · intro outcome getBytes reader requestLen hpre' hroot
    exact received_of_prefix hempty' hfuel hroot hgood hpre' hw ⟨_, hfs⟩ hsent

/-! ### Two blobs -/

def wireFns : HashFns UInt8 Hash where
  chunk _ data _ := if data = [] then Hash.EMPTY else if data = [7] then Hash.replicate 2 else Hash.replicate 1
  parent _ _ _ := Hash.replicate 0

private theorem nodeHash_wireFns (data : List UInt8) (h : data.length ≤ 1024) :
    nodeHash wireFns data [] =
      if data = [] then Hash.EMPTY else if data = [7] then Hash.replicate 2 else Hash.replicate 1 := by
  rw [nodeHash_nil, hashSubtree_of_le]
  · rfl
  · unfold chunks
    omega

def wireIo : BaoTreeIo Hash := .new wireFns fun bytes => if h : bytes.length = 32 then ⟨bytes, h⟩ else Hash.EMPTY

def wireStore : StoreOps Unit where
  exportBao _ hash ranges := .ok (exportItems wireIo (twoBlobs hash) ranges ++ [.done])
  importBaoQuinn _ _ _ stream := (.error .importBao, (), stream)

def wireWriter : ProgressWriter := ⟨⟨fun _ => true, fun _ => 0, 0, []⟩, ⟨0, 0, 0, ⟨.none, none⟩⟩, grantingHandler⟩

theorem get_over_the_wire_twoBlobs :
    ∃ fuel sender receiver,
      handleGet (Events.sendBlob wireStore ⟨fun _ => (), ()⟩) (.ok (HashSeq.ofHashes [Hash.replicate 2]).bytes)
        ⟨Hash.replicate 1, .all⟩ fuel wireWriter = some sender ∧
      Get.executeGetSink (getBlobRangesImpl wireIo (fun _ _ => .goesOn)) closeResponse
        (fun _ => .ok (HashSeq.ofHashes [Hash.replicate 2]).bytes) (.ok ()) ⟨Hash.replicate 1, .all⟩ fuel
        (.new ⟨responseBytes wireIo Hash.bytes twoBlobs
          (Hash.replicate 1 :: (HashSeq.ofHashes [Hash.replicate 2]).iter) .all, none⟩
          35) = some receiver ∧
      receiver.result = .ok () ∧
      receiver.trace = [⟨0, Hash.replicate 1, RangeSet.all⟩, ⟨1, Hash.replicate 2, RangeSet.all⟩] := by
  have hio : ∀ hash : Hash, wireIo.ofBytes hash.bytes = hash := fun hash => dif_pos hash.length_bytes
  have hstore : HonestExports wireIo twoBlobs wireStore := by
    intro s hash ranges items h
    cases h
    exact Or.inl rfl
  have hblob : ∀ hash ∈ Hash.replicate 1 :: (HashSeq.ofHashes [Hash.replicate 2]).iter,
      (twoBlobs hash).length < 2 ^ 64 ∧ nodeHash wireIo.f (twoBlobs hash) [] = hash := by
    rw [HashSeq.iter_ofHashes]
    intro hash hmem
    rcases List.mem_cons.mp hmem with rfl | hmem
    · exact ⟨by decide, nodeHash_wireFns _ (by decide)⟩
    · rw [List.mem_singleton] at hmem
      subst hmem
      exact ⟨by decide, nodeHash_wireFns _ (by decide)⟩
  have hfresh : Fresh wireWriter := ⟨rfl, rfl, rfl⟩
  have hempty := nodeHash_wireFns [] (Nat.zero_le 1024)
  obtain ⟨rounds, h⟩ := get_over_the_wire ⟨fun _ => (), ()⟩ ⟨Hash.replicate 1, .all⟩ hfresh hio hempty hstore hblob
  obtain ⟨sender, hs, -, -, hreceive⟩ := h rounds (Nat.le_refl _)
  obtain ⟨receiver, hr, hreceived⟩ :=
    hreceive (fun _ _ => .goesOn) (fun _ => .ok (HashSeq.ofHashes [Hash.replicate 2]).bytes)
    ⟨_, none⟩ 35 List.prefix_rfl (fun _ _ => rfl)
  have hok := hreceived.complete rfl rfl (fun _ _ h => h)
  refine ⟨rounds, sender, receiver, hs, hr, hok, ?_⟩
  rw [(hreceived.ok hok).2.1, HashSeq.iter_ofHashes]
  decide

end Fsm

end IrohBlobs
