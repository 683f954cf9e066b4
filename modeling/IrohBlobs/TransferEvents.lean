import IrohBlobs.RunTrace
import IrohBlobs.Events
import IrohBlobs.Observe

/-!
# Transfer events

What the event handler learns about an admitted request: `RequestTracker` of `provider/events.rs` and `ProgressWriter`
of `provider.rs`.  The updates of a request go to a channel of their own, whose receiver the handler may drop at any
time.  While the channel is full progress updates are lost, and other updates wait; a handler that neither takes
updates out of the channel nor drops the receiver makes the request wait for ever.  Throttle requests are answered by
the handler, and a refusal stops the transfer.

The stream, the channel and the answers are arbitrary.  What a blob contributes is a `BlobReport`: the start of the
transfer and then its progress.  The counters agree with the writes to the stream that succeeded, and the throttle
requests with those that were payload (`Accounted`).
-/

namespace IrohBlobs

namespace Events

/-! ### Channels -/

/-- The statistics of a transfer, without its duration. -/
structure TransferStats where
  payloadBytesSent : Nat
  otherBytesSent : Nat
  otherBytesRead : Nat
  deriving DecidableEq

inductive RequestUpdate
  | started (index : Nat) (hash : Hash) (size : Nat)
  | progress (endOffset : Nat)
  | completed (stats : TransferStats)
  | aborted (stats : TransferStats)
  deriving DecidableEq

/-- The channel for the updates of a request.  At the `n`-th update it may be full, it may stay full for ever, or the
receiver may be dropped.  `waits` says that the request waits for capacity for ever. -/
structure UpdateChannel where
  full : Nat → Bool
  stalled : Nat → Bool
  full_of_stalled : ∀ n, stalled n = true → full n = true
  closed : Nat → Bool
  closed_succ : ∀ n, closed n = true → closed (n + 1) = true
  calls : Nat
  delivered : List RequestUpdate
  waits : Bool

namespace UpdateChannel

def isClosed (ch : UpdateChannel) : Bool := ch.closed ch.calls

/-- Wait for capacity.  It fails if the receiver is dropped, and it does not return if the channel stays full. -/
def send (ch : UpdateChannel) (update : RequestUpdate) : Bool × UpdateChannel :=
  if ch.isClosed then (false, { ch with calls := ch.calls + 1 })
  else if ch.stalled ch.calls then (false, { ch with calls := ch.calls + 1, waits := true })
  else (true, { ch with calls := ch.calls + 1, delivered := ch.delivered ++ [update] })

/-- Do not wait.  The update is lost if the channel is full, which is no failure. -/
def trySend (ch : UpdateChannel) (update : RequestUpdate) : Bool × UpdateChannel :=
  if ch.isClosed then (false, { ch with calls := ch.calls + 1 })
  else if ch.full ch.calls then (true, { ch with calls := ch.calls + 1 })
  else (true, { ch with calls := ch.calls + 1, delivered := ch.delivered ++ [update] })

end UpdateChannel

/-- Request to throttle sending for a specific request. -/
structure Throttle where
  connectionId : Nat
  requestId : Nat
  size : Nat
  deriving DecidableEq

/-- The throttle requests of a request, with the answer to the `n`-th of them if there is one.  `waits` says that the
request waits for an answer for ever. -/
structure ThrottleChannel where
  reply : Nat → Option InterceptReply
  calls : Nat
  delivered : List Throttle
  waits : Bool

def ThrottleChannel.rpc (ch : ThrottleChannel) (throttle : Throttle) : Except ProgressError Unit × ThrottleChannel :=
  match ch.reply ch.calls with
  | none =>
    (.error .internal, { ch with calls := ch.calls + 1, delivered := ch.delivered ++ [throttle], waits := true })
  | some .sendError => (.error .internal, { ch with calls := ch.calls + 1 })
  | some .recvError => (.error .internal, { ch with calls := ch.calls + 1, delivered := ch.delivered ++ [throttle] })
  | some (.reply (.error reason)) =>
    (.error reason.toProgressError, { ch with calls := ch.calls + 1, delivered := ch.delivered ++ [throttle] })
  | some (.reply (.ok ())) => (.ok (), { ch with calls := ch.calls + 1, delivered := ch.delivered ++ [throttle] })

/-- The event handler, as a request sees it. -/
structure Handler where
  updates : UpdateChannel
  throttles : ThrottleChannel

/-- The request waits for the handler for ever. -/
def Handler.waits (handler : Handler) : Bool := handler.updates.waits || handler.throttles.waits

/-- A handler that takes updates out of the channel or drops the receiver, and answers the throttle requests. -/
structure Handler.Attends (handler : Handler) : Prop where
  updates : ∀ n, handler.updates.stalled n = false
  throttles : ∀ n, (handler.throttles.reply n).isSome = true

namespace RequestTracker

/-- An update that must arrive; nothing is sent unless the request is logged. -/
def sendUpdate (tracker : RequestTracker) (update : RequestUpdate) (handler : Handler) : Bool × Handler :=
  match tracker.updates with
  | .active =>
    let (ok, ch) := handler.updates.send update
    (ok, { handler with updates := ch })
  | .none | .disabled => (true, handler)

/-- Transfer for index `index` started, size `size` in bytes. -/
def transferStarted (tracker : RequestTracker) (index : Nat) (hash : Hash) (size : Nat) (handler : Handler) :
    Bool × Handler :=
  tracker.sendUpdate (.started index hash size) handler

/-- Transfer completed for the previously reported blob. -/
def transferCompleted (tracker : RequestTracker) (stats : TransferStats) (handler : Handler) : Bool × Handler :=
  tracker.sendUpdate (.completed stats) handler

/-- Transfer aborted for the previously reported blob. -/
def transferAborted (tracker : RequestTracker) (stats : TransferStats) (handler : Handler) : Bool × Handler :=
  tracker.sendUpdate (.aborted stats) handler

/-- The optional update of `transfer_progress`. -/
def tryProgress (tracker : RequestTracker) (endOffset : Nat) (handler : Handler) : Bool × Handler :=
  match tracker.updates with
  | .active =>
    let (ok, ch) := handler.updates.trySend (.progress endOffset)
    (ok, { handler with updates := ch })
  | .none | .disabled => (true, handler)

/-- Transfer progress for the previously reported blob, `endOffset` is the new end offset in bytes. -/
def transferProgress (tracker : RequestTracker) (len endOffset : Nat) (handler : Handler) :
    Except ProgressError Unit × Handler :=
  match tracker.tryProgress endOffset handler with
  | (false, handler) => (.error .internal, handler)
  | (true, handler) =>
    match tracker.throttle with
    | none => (.ok (), handler)
    | some (connectionId, requestId) =>
      let (res, ch) := handler.throttles.rpc ⟨connectionId, requestId, len⟩
      (res, { handler with throttles := ch })

end RequestTracker

/-! ### Writers -/

structure WriterContext where
  otherBytesRead : Nat
  payloadBytesWritten : Nat
  otherBytesWritten : Nat
  tracker : RequestTracker

def WriterContext.stats (context : WriterContext) : TransferStats where
  payloadBytesSent := context.payloadBytesWritten
  otherBytesSent := context.otherBytesWritten
  otherBytesRead := context.otherBytesRead

/-- A send stream with additional per request information, and the event handler behind the tracker. -/
structure ProgressWriter where
  inner : SendStream
  context : WriterContext
  handler : Handler

namespace ProgressWriter

/-- Write to the stream.  A write that fails can leave a part of the data on it. -/
def writeAll (w : ProgressWriter) (data : List UInt8) : Except ExportBaoError Unit × ProgressWriter :=
  match w.inner.writeAll data with
  | .ok inner => (.ok (), { w with inner })
  | .error e => (.error e, { w with inner := w.inner.broken data })

/-- The outcome of the update is ignored, if there is one. -/
def sendTransferStarted (w : ProgressWriter) (index : Nat) (hash : Hash) (size : Nat) : ProgressWriter :=
  { w with handler := (w.context.tracker.transferStarted index hash size w.handler).2 }

def logOtherWrite (w : ProgressWriter) (len : Nat) : ProgressWriter :=
  { w with context := { w.context with otherBytesWritten := w.context.otherBytesWritten + len } }

def notifyPayloadWrite (w : ProgressWriter) (offset len : Nat) : Except ProgressError Unit × ProgressWriter :=
  let (res, handler) := w.context.tracker.transferProgress len (offset + len) w.handler
  (res, { w with
    context := { w.context with payloadBytesWritten := w.context.payloadBytesWritten + len }
    handler })

def transferAborted (w : ProgressWriter) : ProgressWriter :=
  { w with handler := (w.context.tracker.transferAborted w.context.stats w.handler).2 }

def transferCompleted (w : ProgressWriter) : ProgressWriter :=
  { w with handler := (w.context.tracker.transferCompleted w.context.stats w.handler).2 }

/-- One item of an export that is not the end of it. -/
def writeItem (w : ProgressWriter) (hash : Hash) (index : Nat) :
    EncodedItem Hash → Except ExportBaoError Unit × ProgressWriter
  | .size size =>
    let w := w.sendTransferStarted index hash size
    if w.handler.waits then (.error .pending, w)
    else
      match w.writeAll (toLeBytes size) with
      | (.error e, w) => (.error e, w)
      | (.ok (), w) => (.ok (), w.logOtherWrite 8)
  | .parent parent =>
    match w.writeAll (pairBytes parent) with
    | (.error e, w) => (.error e, w)
    | (.ok (), w) => (.ok (), w.logOtherWrite 64)
  | .leaf leaf =>
    match w.writeAll leaf.data with
    | (.error e, w) => (.error e, w)
    | (.ok (), w) =>
      match w.notifyPayloadWrite leaf.offset leaf.data.length with
      | (.error _, w) => (.error (if w.handler.waits then .pending else .client), w)
      | (.ok (), w) => (.ok (), w)
  | .done => (.ok (), w)
  | .error cause => (.error (.encode cause), w)

/-- The receive loop of `write_quinn_with_progress`. -/
def writeItems (hash : Hash) (index : Nat) : ProgressWriter → List (EncodedItem Hash) →
    Except ExportBaoError Unit × ProgressWriter
  | w, [] => (.ok (), w)
  | w, .done :: _ => (.ok (), w)
  | w, item :: rest =>
    match w.writeItem hash index item with
    | (.error e, w) => (.error e, w)
    | (.ok (), w) => writeItems hash index w rest

def writeQuinnWithProgress (w : ProgressWriter) (progress : ExportBaoProgress) (hash : Hash) (index : Nat) :
    Except ExportBaoError Unit × ProgressWriter :=
  match progress with
  | .error e => (.error e, w)
  | .ok items => writeItems hash index w items

end ProgressWriter

/-- The states of the store that a request sees: other requests change the store in the meantime. -/
structure Seen (σ : Type) where
  atBlob : Nat → σ
  atHashSeq : σ

/-- Send a blob to the client, with the events of the transfer. -/
def sendBlob {σ : Type} (store : StoreOps σ) (seen : Seen σ) :
    Op ProgressWriter ProviderError := fun index hash ranges w =>
  match w.writeQuinnWithProgress (store.exportBao (seen.atBlob index) hash ranges) hash index with
  | (.ok (), w) => (.ok (), w)
  | (.error e, w) => (.error (.exportBao e), w)

/-! ### Accounting -/

/-- Data that is written to the stream with one call, and whether it is payload. -/
structure Piece where
  data : List UInt8
  payload : Bool

namespace Piece

/-- The pieces on the stream. -/
def bytes (pieces : List Piece) : List UInt8 := pieces.flatMap data

/-- The sizes of the payload. -/
def payloads (pieces : List Piece) : List Nat := (pieces.filter payload).map (fun piece => piece.data.length)

/-- The sizes of the other pieces. -/
def overheads (pieces : List Piece) : List Nat :=
  (pieces.filter (fun piece => !piece.payload)).map (fun piece => piece.data.length)

@[simp] theorem bytes_append (pieces pieces' : List Piece) :
    bytes (pieces ++ pieces') = bytes pieces ++ bytes pieces' :=
  List.flatMap_append

@[simp] theorem payloads_append (pieces pieces' : List Piece) :
    payloads (pieces ++ pieces') = payloads pieces ++ payloads pieces' := by
  simp [payloads]

@[simp] theorem overheads_append (pieces pieces' : List Piece) :
    overheads (pieces ++ pieces') = overheads pieces ++ overheads pieces' := by
  simp [overheads]

theorem length_bytes (pieces : List Piece) : (bytes pieces).length = (payloads pieces).sum +
    (overheads pieces).sum := by
  induction pieces with
  | nil => rfl
  | cons piece pieces ih =>
    obtain ⟨data, payload⟩ := piece
    have hbytes : bytes (⟨data, payload⟩ :: pieces) = data ++ bytes pieces := List.flatMap_cons
    rw [hbytes, List.length_append, ih]
    cases payload with
    | false =>
      simp only [payloads, overheads, List.filter_cons, Bool.false_eq_true, Bool.not_false, ↓reduceIte, List.map_cons,
        List.sum_cons]
      omega
    | true =>
      simp only [payloads, overheads, List.filter_cons, Bool.false_eq_true, Bool.not_true, ↓reduceIte, List.map_cons,
        List.sum_cons]
      omega

end Piece

/-- How far the writing of pieces has come.  All of them are written if it succeeds, and if a write fails then a part
of the next piece can be on the stream. -/
structure Reached (ok : Bool) (pieces written : List Piece) (rest : List UInt8) : Prop where
  written_prefix : written <+: pieces
  all : ok = true → written = pieces
  part : rest = [] ∨ ∃ piece, written ++ [piece] <+: pieces ∧ rest <+: piece.data

/-- The throttle requests for pieces that were written: they are for the payload, in its order, and for all of it if
nothing failed. -/
structure Throttled (ok : Bool) (ids : Option (Nat × Nat)) (written : List Piece)
    (throttles : List Throttle) : Prop where
  throttled : ∀ t ∈ throttles, ids = some (t.connectionId, t.requestId)
  sizes : throttles.map Throttle.size <+: Piece.payloads written
  all : ok = true → ids.isSome = true → throttles.map Throttle.size = Piece.payloads written

namespace Reached

variable {ok : Bool} {pieces pieces' written written' : List Piece} {rest rest' : List UInt8}

theorem nil (ok : Bool) : Reached ok [] [] [] := ⟨List.prefix_rfl, fun _ => rfl, Or.inl rfl⟩

private theorem rest_eq (h : Reached true pieces written rest) : rest = [] := by
  rcases h.part with hrest | ⟨piece, hpre, -⟩
  · exact hrest
  · rw [h.all rfl] at hpre
    have hlen := hpre.length_le
    rw [List.length_append, List.length_singleton] at hlen
    omega

private theorem append (h : Reached true pieces written rest) (h' : Reached ok pieces' written' rest') :
    Reached ok (pieces ++ pieces') (written ++ written') rest' := by
  have hwritten := h.all rfl
  subst hwritten
  refine ⟨(List.prefix_append_right_inj _).mpr h'.written_prefix, fun hok => by rw [h'.all hok], h'.part.imp id ?_⟩
  rintro ⟨piece, hpre, hrest⟩
  refine ⟨piece, ?_, hrest⟩
  rw [List.append_assoc]
  exact (List.prefix_append_right_inj _).mpr hpre

/-- After a failure the pieces that would have followed do not matter. -/
private theorem mono (h : Reached false pieces written rest) (pieces' : List Piece) :
    Reached false (pieces ++ pieces') written rest := by
  refine ⟨h.written_prefix.trans (List.prefix_append _ _), fun hok => (by cases hok), h.part.imp id ?_⟩
  rintro ⟨piece, hpre, hrest⟩
  exact ⟨piece, hpre.trans (List.prefix_append _ _), hrest⟩

/-- What is on the stream is a beginning of the pieces. -/
private theorem bytes_prefix (h : Reached ok pieces written rest) :
    Piece.bytes written ++ rest <+: Piece.bytes pieces := by
  rcases h.part with rfl | ⟨piece, ⟨more, rfl⟩, hrest⟩
  · obtain ⟨more, rfl⟩ := h.written_prefix
    rw [List.append_nil, Piece.bytes_append]
    exact List.prefix_append _ _
  · rw [Piece.bytes_append, Piece.bytes_append, List.append_assoc]
    refine (List.prefix_append_right_inj _).mpr (hrest.trans ?_)
    have hpiece : Piece.bytes [piece] = piece.data := List.flatMap_singleton _ _
    rw [hpiece]
    exact List.prefix_append _ _

end Reached

namespace Throttled

variable {ok : Bool} {ids : Option (Nat × Nat)} {written written' : List Piece} {throttles throttles' : List Throttle}

private theorem append (h : Throttled true ids written throttles) (h' : Throttled ok ids written' throttles') :
    Throttled ok ids (written ++ written') (throttles ++ throttles') := by
  have hall : ids.isSome = true → throttles.map Throttle.size = Piece.payloads written := h.all rfl
  refine ⟨List.forall_mem_append.mpr ⟨h.throttled, h'.throttled⟩, ?_, ?_⟩
  · rw [List.map_append, Piece.payloads_append]
    cases ids with
    | none =>
      have hnil : ∀ ts : List Throttle, (∀ t ∈ ts, (none : Option (Nat × Nat)) = some (t.connectionId, t.requestId)) →
        ts = [] :=
        fun ts hts => List.eq_nil_iff_forall_not_mem.mpr (fun t ht => by cases hts t ht)
      rw [hnil _ h.throttled, hnil _ h'.throttled]
      exact List.nil_prefix
    | some ids =>
      rw [hall rfl]
      exact (List.prefix_append_right_inj _).mpr h'.sizes
  · intro hok hsome
    rw [List.map_append, Piece.payloads_append, hall hsome, h'.all hok hsome]

/-- Nothing is asked for if nothing of the payload was written. -/
theorem nil (ok : Bool) (ids : Option (Nat × Nat)) (h : Piece.payloads written = []) : Throttled ok ids written [] :=
  ⟨by simp, List.nil_prefix, fun _ _ => h.symm⟩

end Throttled

/-- What is known about waiting after a part of the transfer: the handler is the same, and it is waited for only if it
does not attend to the request. -/
structure Waiting (w w' : ProgressWriter) : Prop where
  stalled : w'.handler.updates.stalled = w.handler.updates.stalled
  reply : w'.handler.throttles.reply = w.handler.throttles.reply
  mono : w.handler.waits = true → w'.handler.waits = true
  cause : w'.handler.waits = true → w.handler.waits = true ∨ ¬ w.handler.Attends

namespace Waiting

private theorem of_handler_eq {w w' : ProgressWriter} (h : w'.handler = w.handler) : Waiting w w' := by
  refine ⟨by rw [h], by rw [h], ?_, ?_⟩
  · rw [h]
    exact id
  · rw [h]
    exact Or.inl

private theorem trans {w w' w'' : ProgressWriter} (h : Waiting w w') (h' : Waiting w' w'') : Waiting w w'' := by
  refine ⟨h'.stalled.trans h.stalled, h'.reply.trans h.reply, fun hw => h'.mono (h.mono hw), ?_⟩
  intro hw
  rcases h'.cause hw with hw | hattends
  · exact h.cause hw
  · refine Or.inr (fun ⟨hupdates, hthrottles⟩ => hattends ⟨?_, ?_⟩)
    · rwa [h.stalled]
    · rwa [h.reply]

end Waiting

/-- What is known about the writer after a part of the transfer in which it had to write the pieces. -/
structure Accounted (ok : Bool) (pieces : List Piece) (w w' : ProgressWriter) : Prop where
  tracker : w'.context.tracker = w.context.tracker
  read : w'.context.otherBytesRead = w.context.otherBytesRead
  waiting : Waiting w w'
  counted : ∃ written rest throttles, w'.inner.sent = w.inner.sent ++ (Piece.bytes written ++ rest) ∧
    Reached ok pieces written rest ∧
    w'.context.payloadBytesWritten = w.context.payloadBytesWritten + (Piece.payloads written).sum ∧
    w'.context.otherBytesWritten = w.context.otherBytesWritten + (Piece.overheads written).sum ∧
    w'.handler.throttles.delivered = w.handler.throttles.delivered ++ throttles ∧
    Throttled ok w.context.tracker.throttle written throttles

namespace Accounted

theorem refl (ok : Bool) (w : ProgressWriter) : Accounted ok [] w w :=
  ⟨rfl, rfl, .of_handler_eq rfl, [], [], [], by simp [Piece.bytes], .nil ok, rfl, rfl, by simp, .nil ok _ rfl⟩

theorem trans {ok : Bool} {pieces pieces' : List Piece} {w w' w'' : ProgressWriter} (h : Accounted true pieces w w')
    (h' : Accounted ok pieces' w' w'') : Accounted ok (pieces ++ pieces') w w'' := by
  obtain ⟨written, rest, throttles, hsent, hreached, hpayload, hother, hdelivered, hthrottled⟩ := h.counted
  obtain ⟨written', rest', throttles', hsent', hreached', hpayload', hother', hdelivered', hthrottled'⟩ := h'.counted
  have hrest := hreached.rest_eq
  subst hrest
  rw [h.tracker] at hthrottled'
  refine ⟨h'.tracker.trans h.tracker, h'.read.trans h.read, h.waiting.trans h'.waiting, written ++ written', rest',
    throttles ++ throttles', ?_, hreached.append hreached', ?_, ?_, ?_, hthrottled.append hthrottled'⟩
  · rw [hsent', hsent, Piece.bytes_append, List.append_nil, List.append_assoc, List.append_assoc]
  · rw [hpayload', hpayload, Piece.payloads_append, List.sum_append, Nat.add_assoc]
  · rw [hother', hother, Piece.overheads_append, List.sum_append, Nat.add_assoc]
  · rw [hdelivered', hdelivered, List.append_assoc]

theorem mono {pieces : List Piece} {w w' : ProgressWriter} (h : Accounted false pieces w w') (pieces' : List Piece) :
    Accounted false (pieces ++ pieces') w w' := by
  obtain ⟨written, rest, throttles, hsent, hreached, hcounted⟩ := h.counted
  exact ⟨h.tracker, h.read, h.waiting, written, rest, throttles, hsent, hreached.mono pieces', hcounted⟩

/-- A transfer that fails has not written more than one that succeeds. -/
private theorem weaken {pieces : List Piece} {w w' : ProgressWriter} (h : Accounted true pieces w w') :
    Accounted false pieces w w' := by
  obtain ⟨written, rest, throttles, hsent, hreached, hpayload, hother, hdelivered, hthrottled⟩ := h.counted
  exact ⟨h.tracker, h.read, h.waiting, written, rest, throttles, hsent,
    ⟨hreached.written_prefix, fun hok => (by cases hok), hreached.part⟩, hpayload, hother, hdelivered,
      hthrottled.throttled, hthrottled.sizes, fun hok => (by cases hok)⟩

/-- A transfer that succeeds has written all pieces. -/
theorem sent {pieces : List Piece} {w w' : ProgressWriter} (h : Accounted true pieces w w') :
    w'.inner.sent = w.inner.sent ++ Piece.bytes pieces ∧
      w'.context.payloadBytesWritten = w.context.payloadBytesWritten + (Piece.payloads pieces).sum ∧
      w'.context.otherBytesWritten = w.context.otherBytesWritten + (Piece.overheads pieces).sum := by
  obtain ⟨written, rest, throttles, hsent, hreached, hpayload, hother, -⟩ := h.counted
  have hrest := hreached.rest_eq
  have hwritten := hreached.all rfl
  subst hrest hwritten
  rw [List.append_nil] at hsent
  exact ⟨hsent, hpayload, hother⟩

/-- What is written is a beginning of the pieces. -/
theorem sent_prefix {ok : Bool} {pieces : List Piece} {w w' : ProgressWriter} (h : Accounted ok pieces w w') :
    ∃ bytes, w'.inner.sent = w.inner.sent ++ bytes ∧ bytes <+: Piece.bytes pieces := by
  obtain ⟨written, rest, throttles, hsent, hreached, -⟩ := h.counted
  exact ⟨_, hsent, hreached.bytes_prefix⟩

end Accounted

/-- A write fails and leaves a part of the data, or it appends the data to the stream. -/
theorem ProgressWriter.writeAll_cases (w : ProgressWriter) (data : List UInt8) :
    (∃ e inner part, inner.sent = w.inner.sent ++ part ∧ part <+: data ∧
      w.writeAll data = (.error e, { w with inner })) ∨
    ∃ inner, inner.sent = w.inner.sent ++ data ∧ w.writeAll data = (.ok (), { w with inner }) := by
  unfold ProgressWriter.writeAll SendStream.writeAll
  by_cases h : w.inner.accepts w.inner.writes = true
  · rw [if_pos h]
    exact Or.inr ⟨_, rfl, rfl⟩
  · rw [if_neg h]
    exact Or.inl ⟨_, w.inner.broken data, _, rfl, List.take_prefix _ _, rfl⟩

theorem RequestTracker.sendUpdate_throttles (tracker : RequestTracker) (update : RequestUpdate) (handler : Handler) :
    (tracker.sendUpdate update handler).2.throttles = handler.throttles := by
  unfold sendUpdate
  split <;> rfl

private theorem RequestTracker.tryProgress_throttles (tracker : RequestTracker) (endOffset : Nat) (handler : Handler) :
    (tracker.tryProgress endOffset handler).2.throttles = handler.throttles := by
  unfold tryProgress
  split <;> rfl

/-- An update that must arrive is waited for only if the channel stays full. -/
theorem RequestTracker.sendUpdate_waits (tracker : RequestTracker) (update : RequestUpdate) (handler : Handler) :
    (tracker.sendUpdate update handler).2.updates.stalled = handler.updates.stalled ∧
      ((tracker.sendUpdate update handler).2.updates.waits = handler.updates.waits ∨
        (tracker.sendUpdate update handler).2.updates.waits = true ∧ ∃ n, handler.updates.stalled n = true) := by
  have hsend : (handler.updates.send update).2.stalled = handler.updates.stalled ∧
      ((handler.updates.send update).2.waits = handler.updates.waits ∨
        (handler.updates.send update).2.waits = true ∧ ∃ n, handler.updates.stalled n = true) := by
    unfold UpdateChannel.send
    split
    · exact ⟨rfl, Or.inl rfl⟩
    · split
      · rename_i hstalled
        exact ⟨rfl, Or.inr ⟨rfl, _, hstalled⟩⟩
      · exact ⟨rfl, Or.inl rfl⟩
  unfold sendUpdate
  split
  · exact hsend
  · exact ⟨rfl, Or.inl rfl⟩
  · exact ⟨rfl, Or.inl rfl⟩

private theorem RequestTracker.tryProgress_waits (tracker : RequestTracker) (endOffset : Nat) (handler : Handler) :
    (tracker.tryProgress endOffset handler).2.updates.stalled = handler.updates.stalled ∧
      (tracker.tryProgress endOffset handler).2.updates.waits = handler.updates.waits := by
  have htry : (handler.updates.trySend (.progress endOffset)).2.stalled = handler.updates.stalled ∧
      (handler.updates.trySend (.progress endOffset)).2.waits = handler.updates.waits := by
    unfold UpdateChannel.trySend
    split
    · exact ⟨rfl, rfl⟩
    · split <;> exact ⟨rfl, rfl⟩
  unfold tryProgress
  split
  · exact htry
  · exact ⟨rfl, rfl⟩
  · exact ⟨rfl, rfl⟩

/-- A throttle request that is answered was delivered, and one without an answer is waited for. -/
theorem ThrottleChannel.rpc_spec (ch : ThrottleChannel) (throttle : Throttle) :
    (ch.rpc throttle).2.reply = ch.reply ∧
      (((ch.rpc throttle).2.delivered = ch.delivered ∧ (ch.rpc throttle).1 ≠ .ok ()) ∨
        (ch.rpc throttle).2.delivered = ch.delivered ++ [throttle]) ∧
      ((ch.rpc throttle).2.waits = ch.waits ∨ (ch.rpc throttle).2.waits = true ∧ ∃ n, (ch.reply n).isSome = false) := by
  unfold rpc
  split
  · rename_i hnone
    exact ⟨rfl, Or.inr rfl, Or.inr ⟨rfl, _, by rw [hnone]; rfl⟩⟩
  · exact ⟨rfl, Or.inl ⟨rfl, by simp⟩, Or.inl rfl⟩
  · exact ⟨rfl, Or.inr rfl, Or.inl rfl⟩
  · exact ⟨rfl, Or.inr rfl, Or.inl rfl⟩
  · exact ⟨rfl, Or.inr rfl, Or.inl rfl⟩

/-- The throttle requests of a progress report: at most one, and exactly one if it succeeds. -/
private theorem RequestTracker.transferProgress_throttles (tracker : RequestTracker) (len endOffset : Nat)
    (handler : Handler) :
    ∃ throttles, (tracker.transferProgress len endOffset handler).2.throttles.delivered =
        handler.throttles.delivered ++ throttles ∧
      (∀ t ∈ throttles, tracker.throttle = some (t.connectionId, t.requestId)) ∧
      throttles.map Throttle.size <+: [len] ∧
      ((tracker.transferProgress len endOffset handler).1.isOk = true → tracker.throttle.isSome = true →
        throttles.map Throttle.size = [len]) := by
  have htry := tracker.tryProgress_throttles endOffset handler
  unfold transferProgress
  split
  · rename_i h heq
    rw [heq] at htry
    simp only at htry
    exact ⟨[], by simp [htry], by simp, List.nil_prefix, by simp [Except.isOk, Except.toBool]⟩
  · rename_i h heq
    rw [heq] at htry
    simp only at htry
    cases hthr : tracker.throttle with
    | none => exact ⟨[], by simp [htry], by simp, List.nil_prefix, by simp⟩
    | some ids =>
      obtain ⟨c, r⟩ := ids
      simp only
      rcases (h.throttles.rpc_spec ⟨c, r, len⟩).2.1 with ⟨hsame, hfail⟩ | hnew
      · refine ⟨[], ?_, by simp, List.nil_prefix, ?_⟩
        · rw [hsame, htry, List.append_nil]
        · intro hok
          cases hres : (h.throttles.rpc ⟨c, r, len⟩).1 with
          | ok u => exact absurd hres hfail
          | error e =>
            rw [hres] at hok
            cases hok
      · exact ⟨[⟨c, r, len⟩], by rw [hnew, htry], by simp, List.prefix_rfl, fun _ _ => rfl⟩

/-- A progress report waits only if a throttle request is not answered. -/
private theorem RequestTracker.transferProgress_waits (tracker : RequestTracker) (len endOffset : Nat)
    (handler : Handler) :
    (tracker.transferProgress len endOffset handler).2.updates.stalled = handler.updates.stalled ∧
      (tracker.transferProgress len endOffset handler).2.throttles.reply = handler.throttles.reply ∧
      (tracker.transferProgress len endOffset handler).2.updates.waits = handler.updates.waits ∧
      ((tracker.transferProgress len endOffset handler).2.throttles.waits = handler.throttles.waits ∨
        (tracker.transferProgress len endOffset handler).2.throttles.waits = true ∧
          ∃ n, (handler.throttles.reply n).isSome = false) := by
  have htry := tracker.tryProgress_throttles endOffset handler
  have hwaits := tracker.tryProgress_waits endOffset handler
  unfold transferProgress
  split
  · rename_i h heq
    rw [heq] at htry hwaits
    exact ⟨hwaits.1, congrArg ThrottleChannel.reply htry, hwaits.2, Or.inl (congrArg ThrottleChannel.waits htry)⟩
  · rename_i h heq
    rw [heq] at htry hwaits
    simp only at htry
    cases hthr : tracker.throttle with
    | none =>
      exact ⟨hwaits.1, congrArg ThrottleChannel.reply htry, hwaits.2, Or.inl (congrArg ThrottleChannel.waits htry)⟩
    | some ids =>
      obtain ⟨c, r⟩ := ids
      obtain ⟨hreply, -, hcause⟩ := h.throttles.rpc_spec ⟨c, r, len⟩
      rw [htry] at hreply hcause
      exact ⟨hwaits.1, by rw [← hreply, htry], hwaits.2, by rw [htry]; exact hcause⟩

theorem toLeBytes_length (n : Nat) : (toLeBytes n).length = 8 := by
  simp [toLeBytes]

private theorem pairBytes_length (parent : Parent Hash) : (pairBytes parent).length = 64 := by
  simp [pairBytes, Hash.length_bytes]

/-- Bytes that are written and counted as overhead. -/
theorem accounted_overhead (ok : Bool) (w : ProgressWriter) {inner : SendStream} {data : List UInt8}
    (h : inner.sent = w.inner.sent ++ data) {len : Nat} (hlen : data.length = len) :
    Accounted ok [⟨data, false⟩] w (ProgressWriter.logOtherWrite { w with inner } len) := by
  have hbytes : Piece.bytes [⟨data, false⟩] = data := List.flatMap_singleton _ _
  refine ⟨rfl, rfl, .of_handler_eq rfl, [⟨data, false⟩], [], [], ?_,
    ⟨List.prefix_rfl, fun _ => rfl, Or.inl rfl⟩, rfl, ?_, (List.append_nil _).symm, .nil ok _ rfl⟩
  · rw [hbytes, List.append_nil]
    exact h
  · rw [← hlen]
    rfl

/-- A write that fails. -/
theorem accounted_broken (w : ProgressWriter) {inner : SendStream} {piece : Piece} {part : List UInt8}
    (h : inner.sent = w.inner.sent ++ part) (hpart : part <+: piece.data) :
    Accounted false [piece] w { w with inner } :=
  ⟨rfl, rfl, .of_handler_eq rfl, [], part, [], h,
    ⟨List.nil_prefix, fun hok => (by cases hok), Or.inr ⟨piece, List.prefix_rfl,
    hpart⟩⟩, rfl, rfl, (List.append_nil _).symm, .nil false _ rfl⟩

/-- Handlers that differ in an update that must arrive. -/
private theorem waiting_sendTransferStarted (w : ProgressWriter) (index : Nat) (hash : Hash) (size : Nat) :
    Waiting w (w.sendTransferStarted index hash size) := by
  have hthrottles := w.context.tracker.sendUpdate_throttles (.started index hash size) w.handler
  obtain ⟨hstalled, hwaits⟩ := w.context.tracker.sendUpdate_waits (.started index hash size) w.handler
  refine ⟨hstalled, congrArg ThrottleChannel.reply hthrottles, ?_, ?_⟩
  · intro hw
    rw [Handler.waits, Bool.or_eq_true] at hw ⊢
    rcases hw with hw | hw
    · rcases hwaits with hsame | ⟨hnew, -⟩
      · exact Or.inl (hsame.trans hw)
      · exact Or.inl hnew
    · exact Or.inr ((congrArg ThrottleChannel.waits hthrottles).trans hw)
  · intro hw
    rw [Handler.waits, Bool.or_eq_true] at hw ⊢
    rcases hwaits with hsame | ⟨-, n, hn⟩
    · exact Or.inl (hw.imp (fun hw => hsame.symm.trans hw)
        (fun hw => (congrArg ThrottleChannel.waits hthrottles).symm.trans hw))
    · refine Or.inr (fun hattends => ?_)
      rw [hattends.updates n] at hn
      cases hn

private theorem accounted_sendTransferStarted (ok : Bool) (w : ProgressWriter) (index : Nat)
    (hash : Hash) (size : Nat) :
    Accounted ok [] w (w.sendTransferStarted index hash size) := by
  refine ⟨rfl, rfl, waiting_sendTransferStarted w index hash size, [], [], [], ?_, .nil ok, rfl, rfl, ?_, .nil ok _ rfl⟩
  · exact (List.append_nil _).symm
  · rw [List.append_nil]
    exact congrArg ThrottleChannel.delivered
      (w.context.tracker.sendUpdate_throttles (.started index hash size) w.handler)

private theorem waiting_notifyPayloadWrite (w : ProgressWriter) (offset len : Nat) :
    Waiting w (w.notifyPayloadWrite offset len).2 := by
  obtain ⟨hstalled, hreply, hupdates, hthrottles⟩ :=
    w.context.tracker.transferProgress_waits len (offset + len) w.handler
  refine ⟨hstalled, hreply, ?_, ?_⟩
  · intro hw
    rw [Handler.waits, Bool.or_eq_true] at hw ⊢
    rcases hw with hw | hw
    · exact Or.inl (hupdates.trans hw)
    · rcases hthrottles with hsame | ⟨hnew, -⟩
      · exact Or.inr (hsame.trans hw)
      · exact Or.inr hnew
  · intro hw
    rw [Handler.waits, Bool.or_eq_true] at hw ⊢
    rcases hthrottles with hsame | ⟨-, n, hn⟩
    · exact Or.inl (hw.imp (fun hw => hupdates.symm.trans hw) (fun hw => hsame.symm.trans hw))
    · refine Or.inr (fun hattends => ?_)
      rw [hattends.throttles n] at hn
      cases hn

private theorem accounted_leaf {w : ProgressWriter} {inner : SendStream} {data : List UInt8}
    (h : inner.sent = w.inner.sent ++ data) (offset : Nat) :
    Accounted (ProgressWriter.notifyPayloadWrite { w with inner } offset data.length).1.isOk [⟨data, true⟩] w
      (ProgressWriter.notifyPayloadWrite { w with inner } offset data.length).2 := by
  obtain ⟨ts, ht, hids, hsizes, hall⟩ :=
    w.context.tracker.transferProgress_throttles data.length (offset + data.length) w.handler
  have hbytes : Piece.bytes [⟨data, true⟩] = data := List.flatMap_singleton _ _
  have hwritten : Waiting w { w with inner } := .of_handler_eq rfl
  have hreported := waiting_notifyPayloadWrite { w with inner } offset data.length
  refine ⟨rfl, rfl, hwritten.trans hreported, [⟨data, true⟩], [], ts, ?_,
    ⟨List.prefix_rfl, fun _ => rfl, Or.inl rfl⟩, rfl, rfl, ht, hids, hsizes, hall⟩
  rw [hbytes, List.append_nil]
  exact h

/-! ### The pieces of an export -/

/-- What is written of an export, up to its end. -/
def itemPieces : List (EncodedItem Hash) → List Piece
  | .size size :: rest => ⟨toLeBytes size, false⟩ :: itemPieces rest
  | .parent parent :: rest => ⟨pairBytes parent, false⟩ :: itemPieces rest
  | .leaf leaf :: rest => ⟨leaf.data, true⟩ :: itemPieces rest
  | [] | .error _ :: _ | .done :: _ => []

def exportPieces (progress : ExportBaoProgress) : List Piece :=
  match progress with
  | .error _ => []
  | .ok items => itemPieces items

/-- One item of an export. -/
private theorem accounted_writeItem (w : ProgressWriter) (hash : Hash) (index : Nat) (item : EncodedItem Hash) :
    Accounted (w.writeItem hash index item).1.isOk (itemPieces [item]) w (w.writeItem hash index item).2 := by
  cases item with
  | size size =>
    have hstart := accounted_sendTransferStarted true w index hash size
    unfold ProgressWriter.writeItem
    dsimp only
    split
    · exact hstart.weaken.mono _
    · rcases (w.sendTransferStarted index hash size).writeAll_cases (toLeBytes size) with
        ⟨e, inner, part, hinner, hpart, hw⟩ | ⟨inner, hinner, hw⟩
      · rw [hw]
        exact hstart.trans (accounted_broken _ hinner hpart)
      · rw [hw]
        exact hstart.trans (accounted_overhead _ _ hinner (toLeBytes_length size))
  | parent parent =>
    rcases w.writeAll_cases (pairBytes parent) with ⟨e, inner, part, hinner, hpart, hw⟩ | ⟨inner, hinner, hw⟩
    · simp only [ProgressWriter.writeItem, hw]
      exact accounted_broken w hinner hpart
    · simp only [ProgressWriter.writeItem, hw]
      exact accounted_overhead _ _ hinner (pairBytes_length parent)
  | leaf leaf =>
    rcases w.writeAll_cases leaf.data with ⟨e, inner, part, hinner, hpart, hw⟩ | ⟨inner, hinner, hw⟩
    · simp only [ProgressWriter.writeItem, hw]
      exact accounted_broken w hinner hpart
    · have hleaf := accounted_leaf hinner leaf.offset
      simp only [ProgressWriter.writeItem, hw]
      split
      · rename_i e w' hres
        rw [hres] at hleaf
        exact hleaf
      · rename_i w' hres
        rw [hres] at hleaf
        exact hleaf
  | done => exact .refl _ w
  | error cause => exact .refl _ w

/-- One round of the receive loop. -/
theorem writeItems_cons (w : ProgressWriter) (hash : Hash) (index : Nat) {item : EncodedItem Hash} (h : item ≠ .done)
    (rest : List (EncodedItem Hash)) :
    (∃ e w', w.writeItem hash index item = (.error e, w') ∧ w.writeItems hash index (item :: rest) = (.error e, w')) ∨
    ∃ w', w.writeItem hash index item = (.ok (), w') ∧
      w.writeItems hash index (item :: rest) = w'.writeItems hash index rest := by
  cases hres : w.writeItem hash index item with
  | mk res w' =>
    cases res with
    | error e =>
      refine Or.inl ⟨e, w', rfl, ?_⟩
      rw [ProgressWriter.writeItems.eq_3 _ _ _ _ _ h, hres]
    | ok u =>
      refine Or.inr ⟨w', rfl, ?_⟩
      rw [ProgressWriter.writeItems.eq_3 _ _ _ _ _ h, hres]

/-- The pieces of an item come first. -/
private theorem itemPieces_cons (item : EncodedItem Hash) (rest : List (EncodedItem Hash)) :
    (∃ pieces, itemPieces (item :: rest) = itemPieces [item] ++ pieces) ∧
      (item ≠ .done → (∀ e, item ≠ .error e) → itemPieces (item :: rest) = itemPieces [item] ++ itemPieces rest) := by
  cases item with
  | size size => exact ⟨⟨_, rfl⟩, fun _ _ => rfl⟩
  | parent parent => exact ⟨⟨_, rfl⟩, fun _ _ => rfl⟩
  | leaf leaf => exact ⟨⟨_, rfl⟩, fun _ _ => rfl⟩
  | error e => exact ⟨⟨[], rfl⟩, fun _ h => absurd rfl (h e)⟩
  | done => exact ⟨⟨[], rfl⟩, fun h => absurd rfl h⟩

private theorem accounted_writeItems (w : ProgressWriter) (hash : Hash) (index : Nat)
    (items : List (EncodedItem Hash)) :
    Accounted (w.writeItems hash index items).1.isOk (itemPieces items) w (w.writeItems hash index items).2 := by
  induction items generalizing w with
  | nil => exact .refl _ w
  | cons item rest ih =>
    by_cases hdone : item = .done
    · subst hdone
      exact .refl _ w
    · have hitem := accounted_writeItem w hash index item
      obtain ⟨⟨pieces, hpieces⟩, hcons⟩ := itemPieces_cons item rest
      rcases writeItems_cons w hash index hdone rest with ⟨e, w', hres, hrun⟩ | ⟨w', hres, hrun⟩
      · rw [hrun, hpieces]
        rw [hres] at hitem
        exact hitem.mono pieces
      · have herror : ∀ e, item ≠ .error e := by
          rintro e rfl
          cases hres
        rw [hrun, hcons hdone herror]
        rw [hres] at hitem
        exact hitem.trans (ih w')

/-! ### Reports -/

/-- What the updates say about one blob. -/
structure BlobReport where
  index : Nat
  hash : Hash
  size : Nat
  endOffsets : List Nat

namespace BlobReport

def updates (report : BlobReport) : List RequestUpdate :=
  .started report.index report.hash report.size :: report.endOffsets.map .progress

/-- The ends of the leaves of an export. -/
def leafEnds (items : List (EncodedItem Hash)) : List Nat :=
  items.filterMap (fun | .leaf leaf => some (leaf.offset + leaf.data.length) | _ => none)

/-- The report is about the blob, and it tells what its export sent. -/
structure Describes (report : BlobReport) (item : BlobItem) (items : List (EncodedItem Hash)) : Prop where
  index : report.index = item.index
  hash : report.hash = item.hash
  size : items.head? = some (.size report.size)
  endOffsets : report.endOffsets.Sublist (leafEnds items)

end BlobReport

/-- The size comes first, and once, in an export that sends anything of the blob. -/
def SizeFirst (items : List (EncodedItem Hash)) : Prop :=
  (∃ size rest, items = .size size :: rest ∧ ∀ n, .size n ∉ rest) ∨
    ∀ item ∈ items, (∀ n, item ≠ .size n) ∧ ∀ leaf, item ≠ .leaf leaf

/-- The updates that are delivered during a part of the transfer.  A receiver that is dropped stays dropped. -/
structure Updates (w w' : ProgressWriter) (updates : List RequestUpdate) : Prop where
  appended : w'.handler.updates.delivered = w.handler.updates.delivered ++ updates
  closed : w.handler.updates.isClosed = true → w'.handler.updates.isClosed = true
  silent : w.handler.updates.isClosed = true → updates = []

namespace Updates

private theorem refl (w : ProgressWriter) : Updates w w [] := ⟨by simp, id, fun _ => rfl⟩

private theorem trans {w w' w'' : ProgressWriter} {us us' : List RequestUpdate} (h : Updates w w' us)
    (h' : Updates w' w'' us') :
    Updates w w'' (us ++ us') where
  appended := by rw [h'.appended, h.appended, List.append_assoc]
  closed hc := h'.closed (h.closed hc)
  silent hc := by rw [h.silent hc, h'.silent (h.closed hc), List.append_nil]

end Updates

/-- The receiver is dropped, or the channel stays full. -/
def UpdateChannel.refuses (ch : UpdateChannel) : Bool := ch.isClosed || ch.stalled ch.calls

/-- An update that must arrive does, unless the receiver is dropped or the channel stays full. -/
theorem UpdateChannel.send_spec (ch : UpdateChannel) (update : RequestUpdate) :
    (ch.isClosed = true → (ch.send update).2.isClosed = true ∧ (ch.send update).2.delivered = ch.delivered) ∧
    (ch.isClosed = false → ch.stalled ch.calls = true →
      (ch.send update).2.waits = true ∧ (ch.send update).2.delivered = ch.delivered) ∧
    (ch.refuses = false → (ch.send update).2.delivered = ch.delivered ++ [update]) := by
  refine ⟨?_, ?_, ?_⟩
  · intro h
    rw [send, if_pos h]
    exact ⟨ch.closed_succ _ h, rfl⟩
  · intro h hstalled
    rw [send, if_neg (by simp [h]), if_pos hstalled]
    exact ⟨rfl, rfl⟩
  · intro h
    rw [refuses, Bool.or_eq_false_iff] at h
    rw [send, if_neg (by simp [h.1]), if_neg (by simp [h.2])]

section

variable {σ : Type} (store : StoreOps σ) (seen : Seen σ)

/-- What the store exports for a blob of a response. -/
def exported (item : BlobItem) : ExportBaoProgress := store.exportBao (seen.atBlob item.index) item.hash item.ranges

/-- What sending a blob has to write to the stream. -/
def blobPieces (item : BlobItem) : List Piece := exportPieces (exported store seen item)

/-- The report describes what the store exported for the blob. -/
def Reports (report : BlobReport) (item : BlobItem) : Prop :=
  ∃ items, exported store seen item = .ok items ∧ report.Describes item items

/-- The store sends the size of a blob first, or nothing of it. -/
def ExportsSize : Prop := ∀ s hash ranges items, store.exportBao s hash ranges = .ok items → SizeFirst items

/-- The store sends the size of the blob. -/
def SendsSize (item : BlobItem) : Prop := ∃ items n, exported store seen item = .ok items ∧ items.head? = some (.size n)

variable {store seen}

/-- `send_blob` is the receive loop, or the error of the request. -/
theorem sendBlob_eq (store : StoreOps σ) (seen : Seen σ) (item : BlobItem) (w : ProgressWriter) :
    (∃ e, exported store seen item = .error e ∧
      (sendBlob store seen item.index item.hash item.ranges w).1.isOk = false ∧
      (sendBlob store seen item.index item.hash item.ranges w).2 = w) ∨
    ∃ items, exported store seen item = .ok items ∧
      (sendBlob store seen item.index item.hash item.ranges w).1.isOk =
        (w.writeItems item.hash item.index items).1.isOk ∧
      (sendBlob store seen item.index item.hash item.ranges w).2 = (w.writeItems item.hash item.index items).2 := by
  have heq : ∀ res w', w.writeQuinnWithProgress (exported store seen item) item.hash item.index = (res, w') →
      (sendBlob store seen item.index item.hash item.ranges w).1.isOk = res.isOk ∧
        (sendBlob store seen item.index item.hash item.ranges w).2 = w' := by
    intro res w' h
    unfold exported at h
    unfold sendBlob
    rw [h]
    cases res <;> exact ⟨rfl, rfl⟩
  cases hexport : exported store seen item with
  | error e => exact Or.inl ⟨e, rfl, heq (.error e) w (by rw [hexport]; rfl)⟩
  | ok items => exact Or.inr ⟨items, rfl, heq _ _ (by rw [hexport]; rfl)⟩

theorem sendBlob_writes :
    (sendBlob store seen).Does (fun ok item w w' => Accounted ok (blobPieces store seen item) w w') := by
  intro item w
  rcases sendBlob_eq store seen item w with ⟨e, hexport, hok, hw⟩ | ⟨items, hexport, hok, hw⟩
  · rw [hok, hw, blobPieces, hexport]
    exact .refl _ w
  · rw [hok, hw, blobPieces, hexport]
    exact accounted_writeItems w item.hash item.index items

/-- What a run of `send_blob` writes. -/
theorem accounted_of_traced {pieces : BlobItem → List Piece} {result : Except ProviderError Unit}
    {items : List BlobItem}
    {w w' : ProgressWriter} (h : Traced (fun ok item w w' => Accounted ok (pieces item) w w') result items w w') :
    Accounted result.isOk (items.flatMap pieces) w w' := by
  induction h with
  | stop result w => exact .refl _ w
  | failed e head => rwa [List.flatMap_singleton]
  | step head _ ih => exact head.trans ih

end

end Events

end IrohBlobs
