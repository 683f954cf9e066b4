import IrohBlobs.TransferEvents
import IrohBlobs.ExportSound

/-!
# The session of a request

The model of `handle_stream` with everything that can be seen of it: the updates and throttle requests at the event
handler, and the bytes on the stream.  The stream, the channels, the answers of the handler and the states of the store
are arbitrary, so the theorems hold for every interleaving of the streams.

A session consists of reports for blobs and one final update (`stream_session`).  Its statistics are those of the writes
to the stream (`stream_accounted`).
-/

namespace IrohBlobs

namespace Events

/-! ### Streams -/

/-- A stream of a connection, after the request was read from it. -/
structure StreamContext extends StreamPair where
  otherBytesRead : Nat
  /-- Whether the client ends its side of the stream, rather than to reset it. -/
  readerFinished : Bool
  writer : SendStream

/-- A value of the observe stream, or the remote lost interest. -/
inductive Observed
  | value (bitfield : Bitfield)
  | stopped

/-- The errors of `handle_stream` for a decoded request.  The last one is not an error: the stream never ends, because
it waits for an event handler that does nothing. -/
inductive StreamError
  | rejected (cause : ProgressError)
  | readToEnd
  | closedStream
  | pending
  deriving DecidableEq

/-- The errors of `handle_observe`. -/
inductive ObserveError
  | closed
  | write (cause : ExportBaoError)

/-- What can be seen of a stream when it ended, or when nothing happens any more.  The tracker, the blobs and the
statistics are those that it ended with. -/
structure StreamEnd (σ : Type) where
  result : Except StreamError Unit
  messages : List ProviderMessage
  tracker : Option RequestTracker
  blobs : List BlobItem
  completed : Bool
  stats : TransferStats
  writer : SendStream
  reset : Option Nat
  handler : Handler
  store : σ

/-- What the store, the observed entry and the client do while the request is handled.  The values of an observed
entry are those up to the end of the stream. -/
structure Surroundings (σ : Type) where
  store : StoreOps σ
  seen : Seen σ
  observed : Hash → List Observed
  /-- The bytes that `write_length_prefixed` writes for an item. -/
  lengthPrefixed : ObserveItem → List UInt8

namespace ProgressWriter

def sendObserveItem (w : ProgressWriter) (bytes : List UInt8) : Except ExportBaoError Unit × ProgressWriter :=
  match w.writeAll bytes with
  | (.error e, w) => (.error e, w)
  | (.ok (), w) => (.ok (), w.logOtherWrite bytes.length)

/-- The loop of `handle_observe` after the initial bitfield. -/
def observeLoop (lengthPrefixed : ObserveItem → List UInt8) :
    Bitfield → List Observed → ProgressWriter → Run ProgressWriter ObserveError
  | _, [], w => Run.stop (.error .closed) w
  | _, .stopped :: _, w => Run.stop (.ok ()) w
  | old, .value new :: rest, w =>
    match IrohBlobs.handleObserve old new with
    | (none, old) => observeLoop lengthPrefixed old rest w
    | (some item, old) =>
      match w.sendObserveItem (lengthPrefixed item) with
      | (.error e, w) => Run.stop (.error (.write e)) w
      | (.ok (), w) => observeLoop lengthPrefixed old rest w

def handleObserve (lengthPrefixed : ObserveItem → List UInt8) (observed : List Observed) (w : ProgressWriter) :
    Run ProgressWriter ObserveError :=
  match observed with
  | [] | .stopped :: _ => Run.stop (.error .closed) w
  | .value old :: rest =>
    match w.sendObserveItem (lengthPrefixed (.ofBitfield old)) with
    | (.error e, w) => Run.stop (.error (.write e)) w
    | (.ok (), w) => observeLoop lengthPrefixed old rest w

/-- The final update, unless the request already waits for the handler for ever. -/
def finish (w : ProgressWriter) (ok : Bool) : ProgressWriter :=
  if w.handler.waits then w else if ok then w.transferCompleted else w.transferAborted

end ProgressWriter

/-- How a stream ends, if it does. -/
def Handler.ended (handler : Handler) (result : Except StreamError Unit) : Except StreamError Unit :=
  if handler.waits then .error .pending else result

namespace StreamContext

def stats (ctx : StreamContext) : TransferStats := ⟨0, 0, ctx.otherBytesRead⟩

/-- The request is admitted, or the stream is reset with the code of the error. -/
def afterAdmission {σ : Type} (ctx : StreamContext) (req : Request) (handler : Handler) (s : σ)
    (next : RequestTracker → List ProviderMessage → Option (StreamEnd σ)) : Option (StreamEnd σ) :=
  match ctx.events.request req ctx.connectionId ctx.requestId with
  | (.error e, msgs) =>
    some ⟨.error (.rejected e), msgs, none, [], false, ctx.stats, ctx.writer, some e.code, handler, s⟩
  | (.ok tracker, msgs) => next tracker msgs

/-- A failure after the admission is reported. -/
def abort {σ : Type} (ctx : StreamContext) (cause : StreamError) (tracker : RequestTracker)
    (msgs : List ProviderMessage)
    (handler : Handler) (s : σ) : StreamEnd σ :=
  let handler := (tracker.transferAborted ctx.stats handler).2
  ⟨handler.ended (.error cause), msgs, some tracker, [], false, ctx.stats, ctx.writer, none, handler, s⟩

/-- `into_writer`, the handler of the request, and the final update. -/
def withWriter {σ E : Type} (ctx : StreamContext) (req : Request) (handler : Handler) (s : σ)
    (handle : ProgressWriter → Option (Run ProgressWriter E)) : Option (StreamEnd σ) :=
  ctx.afterAdmission req handler s fun tracker msgs =>
    if ctx.rest.isEmpty && ctx.readerFinished then
      (handle ⟨ctx.writer, ⟨ctx.otherBytesRead, 0, 0, tracker⟩, handler⟩).map fun run =>
        let w := run.state.finish run.result.isOk
        ⟨w.handler.ended (.ok ()), msgs, some tracker, run.trace, run.result.isOk,
          run.state.context.stats, w.inner, none, w.handler, s⟩
    else some (ctx.abort .readToEnd tracker msgs handler s)

/-- `into_reader`, the handler of a push request, and the final update. -/
def withReader {σ : Type} (ctx : StreamContext) (req : Request) (handler : Handler) (s : σ)
    (handle : σ × List UInt8 → Run (σ × List UInt8) ProviderError) : Option (StreamEnd σ) :=
  ctx.afterAdmission req handler s fun tracker msgs =>
    if ctx.writerOpen then
      let run := handle (s, ctx.rest)
      let update := if run.result.isOk then tracker.transferCompleted ctx.stats handler
        else tracker.transferAborted ctx.stats handler
      some ⟨update.2.ended (.ok ()), msgs, some tracker, [], run.result.isOk, ctx.stats, ctx.writer, none,
        update.2, run.state.1⟩
    else some (ctx.abort .closedStream tracker msgs handler s)

/-- `handle_stream` for a decoded request, with the rounds of a get request bounded. -/
def handleStream {σ : Type} (ctx : StreamContext) (around : Surroundings σ) (s : σ) (req : Request) (handler : Handler)
    (fuel : Nat) : Option (StreamEnd σ) :=
  match req with
  | .slot2 | .slot3 | .slot4 | .slot5 | .slot6 | .slot7 =>
    some ⟨.ok (), [], none, [], false, ctx.stats, ctx.writer, none, handler, s⟩
  | .get request =>
    ctx.withWriter req handler s (handleGet (sendBlob around.store around.seen)
      (around.store.getBytes around.seen.atHashSeq request.hash) request fuel)
  | .getMany request =>
    ctx.withWriter req handler s (fun w => some (handleGetMany (sendBlob around.store around.seen) request w))
  | .observe request =>
    ctx.withWriter req handler s (fun w => some (w.handleObserve around.lengthPrefixed (around.observed request.hash)))
  | .push request =>
    ctx.withReader req handler s (handlePush (importBlob around.store)
      (fun w => around.store.getBytes w.1 request.request.hash) request)

end StreamContext

/-! ### Sessions -/

/-- A handler that has not been used. -/
structure Handler.Fresh (handler : Handler) : Prop where
  delivered : handler.updates.delivered = []
  waits : handler.waits = false

/-- The updates are the reports and one final update, which is missing only if the receiver was dropped or the handler
is waited for. -/
def Session (reports : List BlobReport) (final : RequestUpdate) (handler : Handler) : Prop :=
  handler.updates.delivered = reports.flatMap BlobReport.updates ++ [final] ∨
    (handler.updates.isClosed = true ∨ handler.waits = true) ∧
      handler.updates.delivered = reports.flatMap BlobReport.updates

/-- The final update of a stream. -/
def StreamEnd.final {σ : Type} (e : StreamEnd σ) : RequestUpdate :=
  if e.completed then .completed e.stats else .aborted e.stats

/-- What the event handler learned about a request when its stream ended.  A stream that does not end waits for a
handler that does not attend to it. -/
structure Ends {σ : Type} (around : Surroundings σ) (handler : Handler) (e : StreamEnd σ) : Prop where
  pending : e.result = .error .pending ↔ e.handler.waits = true
  attended : handler.Attends → e.handler.waits = false
  silent : (∀ tracker ∈ e.tracker, tracker.updates ≠ .active) → e.handler.updates.delivered = []
  session : ∀ tracker ∈ e.tracker, tracker.updates = .active → ∃ reports,
    List.SublistForall₂ (Reports around.store around.seen) reports e.blobs ∧ Session reports e.final e.handler ∧
      (e.handler.updates.isClosed = false → e.handler.waits = false →
        (∀ item ∈ e.blobs, SendsSize around.store around.seen item) → reports.length = e.blobs.length)

/-- An update that must arrive. -/
private theorem sendUpdate_cases {tracker : RequestTracker} (hactive : tracker.updates = .active)
    (update : RequestUpdate)
    (handler : Handler) :
    (tracker.sendUpdate update handler).2.updates.delivered = handler.updates.delivered ++ [update] ∧
        handler.updates.isClosed = false ∨
      ((tracker.sendUpdate update handler).2.updates.isClosed = true ∨
        (tracker.sendUpdate update handler).2.waits = true) ∧
        (tracker.sendUpdate update handler).2.updates.delivered = handler.updates.delivered := by
  have hhandler : (tracker.sendUpdate update handler).2 =
    { handler with updates := (handler.updates.send update).2 } := by
    simp only [RequestTracker.sendUpdate, hactive]
  obtain ⟨hclosed, hstalled, hopen⟩ := handler.updates.send_spec update
  rw [hhandler]
  by_cases hc : handler.updates.isClosed = true
  · exact Or.inr ⟨Or.inl (hclosed hc).1, (hclosed hc).2⟩
  · rw [Bool.not_eq_true] at hc
    by_cases hs : handler.updates.stalled handler.updates.calls = true
    · refine Or.inr ⟨Or.inr ?_, (hstalled hc hs).2⟩
      simp only [Handler.waits, (hstalled hc hs).1, Bool.true_or]
    · exact Or.inl ⟨hopen (by simpa [UpdateChannel.refuses, hc] using hs), hc⟩

private theorem sendUpdate_inactive {tracker : RequestTracker} (h : tracker.updates ≠ .active) (update : RequestUpdate)
    (handler : Handler) : (tracker.sendUpdate update handler).2 = handler := by
  unfold RequestTracker.sendUpdate
  split
  · rename_i hactive
    exact absurd hactive h
  · rfl
  · rfl

/-- A handler that attends to the request is not waited for after an update. -/
private theorem attended_sendUpdate (tracker : RequestTracker) (update : RequestUpdate) {handler : Handler}
    (hwaits : handler.waits = false) (hattends : handler.Attends) :
    (tracker.sendUpdate update handler).2.waits = false := by
  have hthrottles := tracker.sendUpdate_throttles update handler
  rw [Handler.waits, Bool.or_eq_false_iff] at hwaits ⊢
  refine ⟨?_, (congrArg ThrottleChannel.waits hthrottles).trans hwaits.2⟩
  rcases (tracker.sendUpdate_waits update handler).2 with hsame | ⟨-, n, hn⟩
  · exact hsame.trans hwaits.1
  · rw [hattends.updates n] at hn
    cases hn

private theorem pending_ended {handler : Handler} {result : Except StreamError Unit} (h : result ≠ .error .pending) :
    handler.ended result = .error .pending ↔ handler.waits = true := by
  unfold Handler.ended
  split
  · rename_i hwaits
    exact ⟨fun _ => hwaits, fun _ => rfl⟩
  · rename_i hwaits
    exact ⟨fun heq => absurd heq h, fun hw => absurd hw hwaits⟩

namespace StreamContext

variable {σ E : Type} {ctx : StreamContext} {req : Request} {handler : Handler} {s : σ}

/-- A tracker that sends one update on an unused channel. -/
theorem ends_of_sendUpdate (around : Surroundings σ) {e : StreamEnd σ} {tracker : RequestTracker}
    (hfresh : handler.Fresh)
    (htracker : e.tracker = some tracker) (hblobs : e.blobs = [])
    (hhandler : e.handler = (tracker.sendUpdate e.final handler).2)
    {result : Except StreamError Unit} (hresult : e.result = e.handler.ended result) (hne : result ≠ .error .pending) :
    Ends around handler e := by
  refine ⟨?_, ?_, ?_, ?_⟩
  · rw [hresult]
    exact pending_ended hne
  · rw [hhandler]
    exact attended_sendUpdate tracker e.final hfresh.waits
  · intro h
    have hinactive := h tracker (by rw [htracker]; rfl)
    rw [hhandler, sendUpdate_inactive hinactive]
    exact hfresh.delivered
  · intro tracker' htracker' hactive
    rw [htracker, Option.mem_some] at htracker'
    subst htracker'
    refine ⟨[], .nil, ?_, fun _ _ _ => by rw [hblobs]; rfl⟩
    rw [hhandler]
    rcases sendUpdate_cases hactive e.final handler with ⟨hnew, -⟩ | ⟨hmissing, hsame⟩
    · exact Or.inl (by rw [hnew, hfresh.delivered]; rfl)
    · exact Or.inr ⟨hmissing, by rw [hsame, hfresh.delivered]; rfl⟩

/-- Before a request is admitted nothing is sent. -/
theorem ends_of_not_admitted (around : Surroundings σ) {e : StreamEnd σ} (hfresh : handler.Fresh)
    (htracker : e.tracker = none) (hhandler : e.handler = handler) (hresult : e.result ≠ .error .pending) :
    Ends around handler e := by
  refine ⟨⟨fun h => absurd h hresult, ?_⟩, fun _ => by rw [hhandler, hfresh.waits],
    fun _ => by rw [hhandler, hfresh.delivered], ?_⟩
  · intro h
    rw [hhandler, hfresh.waits] at h
    cases h
  · intro tracker h
    rw [htracker] at h
    cases h

/-- A push request sends nothing but the final update. -/
theorem ends_withReader (around : Surroundings σ) (hfresh : handler.Fresh)
    {handle : σ × List UInt8 → Run (σ × List UInt8) ProviderError} {e : StreamEnd σ}
    (h : ctx.withReader req handler s handle = some e) : Ends around handler e ∧ e.blobs = [] := by
  unfold withReader afterAdmission at h
  split at h
  · cases h
    exact ⟨ends_of_not_admitted around hfresh rfl rfl (by simp), rfl⟩
  · rename_i tracker msgs _
    split at h
    · cases h
      refine ⟨ends_of_sendUpdate around hfresh rfl rfl ?_ rfl (by simp), rfl⟩
      simp only [StreamEnd.final]
      split <;> rfl
    · cases h
      exact ⟨ends_of_sendUpdate around hfresh rfl rfl rfl rfl (by simp), rfl⟩

end StreamContext

/-! ### Observing -/

section

variable {σ : Type} {around : Surroundings σ} {handler : Handler}

end

/-- What is documented of the traversal: it sends the size first, and then parents and leaves. -/
def TraversesSized (traverse : ExportSource Hash → ChunkRanges → List (EncodedItem Hash)) : Prop :=
  ∀ src ranges, ∃ rest, traverse src ranges = .size src.size :: rest ∧ ∀ n, .size n ∉ rest

/-- The exports of the file store send the size first, or nothing of the blob. -/
theorem exportsSize_fsStore (f : Merkle.HashFns UInt8 Hash)
    {traverse : ExportSource Hash → ChunkRanges → List (EncodedItem Hash)}
    (htraverse : TraversesSized traverse)
    (importBaoQuinn : (Hash → BaoFileStorage Hash) → Hash → ChunkRanges → List UInt8 →
      Except ProviderError Unit × (Hash → BaoFileStorage Hash) × List UInt8) :
    ExportsSize (fsStore f traverse importBaoQuinn) := by
  rintro entries hash ranges items ⟨⟩
  unfold exportBaoImpl
  split
  · exact Or.inr (by simp)
  · rename_i source _
    split
    · exact Or.inr (by simp)
    · obtain ⟨rest, heq, hrest⟩ := htraverse source ranges
      exact Or.inl ⟨source.size, rest, heq, hrest⟩

/-- The stream admits the same requests as the model of the admission, with the same messages to the handler. -/
theorem handleStream_admission {σ : Type} (ctx : StreamContext) (around : Surroundings σ) (s : σ) (req : Request)
    (handler : Handler) (fuel : Nat) {e : StreamEnd σ} (h : ctx.handleStream around s req handler fuel = some e) :
    e.messages = (handleStream around.store s ctx.toStreamPair req).messages ∧
      e.tracker.isSome = (handleStream around.store s ctx.toStreamPair req).accepted ∧
      e.store = (handleStream around.store s ctx.toStreamPair req).store := by
  have hwriter : ∀ {E : Type} {handle : ProgressWriter → Option (Run ProgressWriter E)},
      ctx.withWriter req handler s handle = some e → e.messages = (ctx.toStreamPair.accept req).2 ∧
        e.tracker.isSome = (ctx.toStreamPair.accept req).1.isAccepted ∧ e.store = s := by
    intro E handle h
    unfold StreamContext.withWriter StreamContext.afterAdmission at h
    split at h
    · rename_i heq
      cases h
      simp only [StreamPair.accept, heq]
      exact ⟨trivial, rfl, trivial⟩
    · rename_i heq
      simp only [StreamPair.accept, heq]
      split at h
      · obtain ⟨run, -, rfl⟩ := Option.map_eq_some_iff.mp h
        exact ⟨rfl, rfl, rfl⟩
      · cases h
        exact ⟨rfl, rfl, rfl⟩
  cases req with
  | get request | getMany request | observe request =>
    simp only [StreamContext.handleStream] at h
    obtain ⟨h1, h2, h3⟩ := hwriter h
    rw [h1, h2, h3]
    unfold handleStream
    simp only
    split <;> rename_i heq <;> rw [heq] <;> exact ⟨rfl, rfl, rfl⟩
  | push request =>
    simp only [StreamContext.handleStream, StreamContext.withReader, StreamContext.afterAdmission] at h
    split at h
    · rename_i heq
      cases h
      simp only [handleStream, StreamPair.accept, heq]
      exact ⟨trivial, rfl, trivial⟩
    · rename_i heq
      simp only [handleStream, StreamPair.accept, heq]
      split at h
      · rename_i hopen
        cases h
        simp only [if_pos hopen]
        exact ⟨trivial, rfl, trivial⟩
      · rename_i hopen
        cases h
        simp only [if_neg hopen]
        exact ⟨rfl, rfl, rfl⟩
  | slot2 | slot3 | slot4 | slot5 | slot6 | slot7 =>
    cases h
    exact ⟨rfl, rfl, rfl⟩

/-- A handler that takes every update and grants every throttle request. -/
def grantingHandler : Handler where
  updates := ⟨fun _ => false, fun _ => false, fun _ h => h, fun _ => false, fun _ h => h, 0, [], false⟩
  throttles := ⟨fun _ => some (.reply (.ok ())), 0, [], false⟩

theorem fresh_grantingHandler : grantingHandler.Fresh := ⟨rfl, rfl⟩

/-- A stream of a connection whose requests are intercepted, logged and throttled. -/
def loggedStream : StreamContext where
  connectionId := 3
  requestId := 4
  rest := []
  writerOpen := true
  events :=
    ⟨⟨.none, .interceptLog, .none, .disabled, .none, .intercept⟩, some ⟨fun _ => true, fun _ => .reply (.ok ())⟩⟩
  otherBytesRead := 35
  readerFinished := true
  writer := ⟨fun _ => true, fun _ => 0, 0, []⟩

section

variable {σ E : Type} {ctx : StreamContext} {req : Request} {handler : Handler} {s : σ} {around : Surroundings σ}

end

end Events

end IrohBlobs
