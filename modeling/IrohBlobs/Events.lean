import IrohBlobs.Provider

/-!
# Events and request admission

The event mask and the admission of requests: `provider/events.rs` and `handle_stream` of `provider.rs`.  A request
reaches its handler only if `EventSender::request` returns a tracker.  The mask decides whether the event handler is
asked (intercept), told (notify) or bypassed, or the request is rejected outright.

`EventSender.request` reads one mask field for all kinds of requests.  The theorems say for which pairs of masks this
makes no difference, and what it means for push requests.
-/

namespace IrohBlobs

namespace Events

inductive ConnectMode
  | none
  | notify
  | intercept
  deriving DecidableEq

inductive ObserveMode
  | none
  | notify
  | intercept
  deriving DecidableEq

inductive RequestMode
  | none
  | notify
  | intercept
  | notifyLog
  | interceptLog
  | disabled
  deriving DecidableEq

inductive ThrottleMode
  | none
  | intercept
  deriving DecidableEq

inductive AbortReason
  | rateLimited
  | permission
  deriving DecidableEq

inductive ProgressError
  | limit
  | permission
  | internal
  deriving DecidableEq

/-- The error code sent to the client. -/
def ProgressError.code : ProgressError → Nat
  | .permission => 1
  | .limit => 2
  | .internal => 3

def AbortReason.toProgressError : AbortReason → ProgressError
  | .rateLimited => .limit
  | .permission => .permission

structure EventMask where
  connected : ConnectMode
  get : RequestMode
  getMany : RequestMode
  push : RequestMode
  observe : ObserveMode
  throttle : ThrottleMode
  deriving DecidableEq

/-- All event notifications are disabled, and push requests are disabled. -/
def EventMask.default : EventMask := ⟨.none, .none, .none, .disabled, .none, .none⟩

/-- The requests a client can send.  The slots of the wire format are reserved. -/
inductive Request
  | get (request : GetRequest Hash)
  | observe (request : ObserveRequest Hash)
  | slot2
  | slot3
  | slot4
  | slot5
  | slot6
  | slot7
  | push (request : PushRequest Hash)
  | getMany (request : GetManyRequest Hash)

structure RequestReceived where
  request : Request
  connectionId : Nat
  requestId : Nat

/-- The answer to an intercepted request: it could not be sent, the answer was dropped, or the handler decided. -/
inductive InterceptReply
  | sendError
  | recvError
  | reply (result : Except AbortReason Unit)

/-- The behaviour of the event handler behind the client. -/
structure Client where
  /-- Whether the notification is delivered. -/
  notify : RequestReceived → Bool
  intercept : RequestReceived → InterceptReply

structure EventSender where
  mask : EventMask
  inner : Option Client

/-- The messages that reach the event handler. -/
inductive ProviderMessage
  | notify (msg : RequestReceived)
  | intercept (msg : RequestReceived)

inductive RequestUpdates
  | none
  | active
  | disabled
  deriving DecidableEq

structure RequestTracker where
  updates : RequestUpdates
  /-- The connection and request that are throttled. -/
  throttle : Option (Nat × Nat)
  deriving DecidableEq

namespace EventSender

def createTracker (sender : EventSender) (updates : RequestUpdates) (connectionId requestId : Nat) : RequestTracker :=
  match sender.mask.throttle with
  | .none => ⟨updates, none⟩
  | .intercept => ⟨updates, sender.inner.map (fun _ => (connectionId, requestId))⟩

def notifyStreaming (client : Client) (msg : RequestReceived) (updates : RequestUpdates) :
    Except ProgressError RequestUpdates × List ProviderMessage :=
  if client.notify msg then (.ok updates, [.notify msg]) else (.error .internal, [])

/-- The request is sent, and bails out if it is not allowed. -/
def clientStreaming (client : Client) (msg : RequestReceived) (updates : RequestUpdates) :
    Except ProgressError RequestUpdates × List ProviderMessage :=
  match client.intercept msg with
  | .sendError => (.error .internal, [])
  | .recvError => (.error .internal, [.intercept msg])
  | .reply (.error reason) => (.error reason.toProgressError, [.intercept msg])
  | .reply (.ok ()) => (.ok updates, [.intercept msg])

/-- The decision of `request`, with the messages that it sends. -/
def requestUpdates (sender : EventSender) (msg : RequestReceived) :
    Except ProgressError RequestUpdates × List ProviderMessage :=
  match sender.mask.get, sender.inner with
  | .none, _ => (.ok .none, [])
  | .notify, some client => notifyStreaming client msg .disabled
  | .intercept, some client => clientStreaming client msg .disabled
  | .notifyLog, some client => notifyStreaming client msg .active
  | .interceptLog, some client => clientStreaming client msg .active
  | .disabled, _ => (.error .permission, [])
  | _, none => (.ok .none, [])

/-- Abstract request, for all request types. -/
def request (sender : EventSender) (req : Request) (connectionId requestId : Nat) :
    Except ProgressError RequestTracker × List ProviderMessage :=
  match sender.requestUpdates ⟨req, connectionId, requestId⟩ with
  | (.ok updates, msgs) => (.ok (sender.createTracker updates connectionId requestId), msgs)
  | (.error e, msgs) => (.error e, msgs)

end EventSender

/-! ### Streams -/

/-- A stream of a connection after the request was read from it. -/
structure StreamPair where
  connectionId : Nat
  requestId : Nat
  /-- What the client sends after the request. -/
  rest : List UInt8
  /-- Whether the sending side can be finished. -/
  writerOpen : Bool
  events : EventSender

/-- How the request was admitted. -/
inductive Admission
  | accepted (tracker : RequestTracker)
  | rejected (e : ProgressError)
  deriving DecidableEq

def StreamPair.accept (pair : StreamPair) (req : Request) : Admission × List ProviderMessage :=
  match pair.events.request req pair.connectionId pair.requestId with
  | (.ok tracker, msgs) => (.accepted tracker, msgs)
  | (.error e, msgs) => (.rejected e, msgs)

/-- What a stream did to the store with states `σ`, and how its request was admitted. -/
structure Outcome (σ : Type) where
  accepted : Bool
  messages : List ProviderMessage
  store : σ

/-- The import of one blob of a push request. -/
def importBlob {σ : Type} (store : StoreOps σ) : Op (σ × List UInt8) ProviderError := fun _ hash ranges w =>
  match store.importBaoQuinn w.1 hash ranges w.2 with
  | (res, s, rest) => (res, (s, rest))

/-- `handle_stream` for a decoded request.  Only push requests can change the store; the responses to the others are not
part of the outcome. -/
def handleStream {σ : Type} (store : StoreOps σ) (s : σ) (pair : StreamPair) (req : Request) : Outcome σ :=
  match req with
  | .slot2 | .slot3 | .slot4 | .slot5 | .slot6 | .slot7 => ⟨false, [], s⟩
  | .get _ | .getMany _ | .observe _ =>
    match pair.accept req with
    | (.accepted _, msgs) => ⟨true, msgs, s⟩
    | (.rejected _, msgs) => ⟨false, msgs, s⟩
  | .push request =>
    match pair.accept req with
    | (.rejected _, msgs) => ⟨false, msgs, s⟩
    | (.accepted _, msgs) =>
      -- the sending side of the stream is finished first
      if pair.writerOpen then
        ⟨true, msgs, (handlePush (importBlob store) (fun w => store.getBytes w.1 request.request.hash) request
          (s, pair.rest)).state.1⟩
      else ⟨true, msgs, s⟩

/-! ### What the admission depends on -/

inductive RequestKind
  | get
  | getMany
  | push
  | observe
  deriving DecidableEq

def Request.kind : Request → Option RequestKind
  | .get _ => some .get
  | .getMany _ => some .getMany
  | .push _ => some .push
  | .observe _ => some .observe
  | .slot2 | .slot3 | .slot4 | .slot5 | .slot6 | .slot7 => none

/-- The masks agree on the field of a request kind, and on throttling. -/
def EventMask.AgreeOn (kind : RequestKind) (m m' : EventMask) : Prop :=
  m.throttle = m'.throttle ∧
    match kind with
    | .get => m.get = m'.get
    | .getMany => m.getMany = m'.getMany
    | .push => m.push = m'.push
    | .observe => m.observe = m'.observe

/-- What a mode decides, leaving aside the logging of transfers. -/
inductive Decision
  | bypass
  | notify
  | intercept
  | reject
  deriving DecidableEq

def RequestMode.decision : RequestMode → Decision
  | .none => .bypass
  | .notify | .notifyLog => .notify
  | .intercept | .interceptLog => .intercept
  | .disabled => .reject

/-- The admission that a decision leads to, with the messages to the handler. -/
def Decision.admits (d : Decision) (inner : Option Client) (msg : RequestReceived) : Bool × List ProviderMessage :=
  match d, inner with
  | .bypass, _ => (true, [])
  | .reject, _ => (false, [])
  | .notify, some client => if client.notify msg then (true, [.notify msg]) else (false, [])
  | .intercept, some client =>
    match client.intercept msg with
    | .sendError => (false, [])
    | .recvError => (false, [.intercept msg])
    | .reply (.error _) => (false, [.intercept msg])
    | .reply (.ok ()) => (true, [.intercept msg])
  | _, none => (true, [])

def Admission.isAccepted : Admission → Bool
  | .accepted _ => true
  | .rejected _ => false

/-- Every request is admitted by the decision of the field for get requests. -/
private theorem accept_eq (pair : StreamPair) (req : Request) :
    ((pair.accept req).1.isAccepted, (pair.accept req).2) =
      pair.events.mask.get.decision.admits pair.events.inner ⟨req, pair.connectionId, pair.requestId⟩ := by
  obtain ⟨cid, rid, rest, wo, ⟨⟨conn, get, getMany, push, obs, thr⟩, inner⟩⟩ := pair
  simp only [StreamPair.accept, EventSender.request, EventSender.requestUpdates]
  cases inner with
  | none => cases get <;> rfl
  | some client =>
    cases get with
    | none | disabled => rfl
    | notify | notifyLog =>
      simp only [RequestMode.decision, Decision.admits, EventSender.notifyStreaming]
      cases client.notify ⟨req, cid, rid⟩ <;> rfl
    | intercept | interceptLog =>
      simp only [RequestMode.decision, Decision.admits, EventSender.clientStreaming]
      rcases client.intercept ⟨req, cid, rid⟩ with _ | _ | ⟨_ | _⟩ <;> rfl

/-- The outcome of a stream, from the admission of its request. -/
private theorem handleStream_eq {σ : Type} (store : StoreOps σ) (s : σ) (pair : StreamPair) (req : Request)
    (hreq : req.kind.isSome) :
    (handleStream store s pair req).accepted = (pair.accept req).1.isAccepted ∧
    (handleStream store s pair req).messages = (pair.accept req).2 ∧
    (handleStream store s pair req).store =
      match req with
      | .push request =>
        if (pair.accept req).1.isAccepted && pair.writerOpen then
          (handlePush (importBlob store) (fun w => store.getBytes w.1 request.request.hash) request
            (s, pair.rest)).state.1
        else s
      | _ => s := by
  unfold handleStream
  cases req with
  | slot2 | slot3 | slot4 | slot5 | slot6 | slot7 => simp [Request.kind] at hreq
  | get r | getMany r | observe r =>
    simp only
    split <;> rename_i h <;> simp [h, Admission.isAccepted]
  | push r =>
    simp only
    split
    · rename_i h
      simp [h, Admission.isAccepted]
    · rename_i h
      by_cases hw : pair.writerOpen <;> simp [h, hw, Admission.isAccepted]

/-- Requests of a kind have the same admission and leave the same store under both masks: for every store and store
state, every event handler, every stream and every request of the kind. -/
def SameOutcome (kind : RequestKind) (m m' : EventMask) : Prop :=
  ∀ (σ : Type) (store : StoreOps σ) (s : σ) (inner : Option Client) (pair : StreamPair) (req : Request),
    req.kind = some kind →
      (handleStream store s { pair with events := ⟨m, inner⟩ } req).accepted =
        (handleStream store s { pair with events := ⟨m', inner⟩ } req).accepted ∧
      (handleStream store s { pair with events := ⟨m, inner⟩ } req).store =
        (handleStream store s { pair with events := ⟨m', inner⟩ } req).store

/-- No push request changes the store. -/
def PushKeepsStore (m : EventMask) : Prop :=
  ∀ (σ : Type) (store : StoreOps σ) (s : σ) (inner : Option Client) (pair : StreamPair) (request : PushRequest Hash),
    (handleStream store s { pair with events := ⟨m, inner⟩ } (.push request)).store = s

private theorem sameOutcome_of_decision {kind : RequestKind} {m m' : EventMask}
    (h : m.get.decision = m'.get.decision) : SameOutcome kind m m' := by
  intro σ store s inner pair req hreq
  have hsome : req.kind.isSome := by simp [hreq]
  obtain ⟨h1, -, h3⟩ := handleStream_eq store s { pair with events := ⟨m, inner⟩ } req hsome
  obtain ⟨h1', -, h3'⟩ := handleStream_eq store s { pair with events := ⟨m', inner⟩ } req hsome
  have haccept : ({ pair with events := ⟨m, inner⟩ } : StreamPair).accept req |>.1.isAccepted =
      (({ pair with events := ⟨m', inner⟩ } : StreamPair).accept req).1.isAccepted := by
    have e := congrArg Prod.fst (accept_eq { pair with events := ⟨m, inner⟩ } req)
    have e' := congrArg Prod.fst (accept_eq { pair with events := ⟨m', inner⟩ } req)
    simp only at e e'
    rw [e, e', h]
  refine ⟨by rw [h1, h1', haccept], ?_⟩
  rw [h3, h3']
  cases req <;> simp only [haccept]

/-- A request of every kind. -/
private theorem exists_request (kind : RequestKind) : ∃ req : Request, req.kind = some kind := by
  cases kind with
  | get => exact ⟨.get ⟨Hash.replicate 0, .empty⟩, rfl⟩
  | getMany => exact ⟨.getMany ⟨[], .empty⟩, rfl⟩
  | push => exact ⟨.push ⟨⟨Hash.replicate 0, .empty⟩⟩, rfl⟩
  | observe => exact ⟨.observe ⟨Hash.replicate 0, ⟨[]⟩⟩, rfl⟩

/-- A store whose state records whether something was imported. -/
def recordingStore : StoreOps Bool where
  exportBao _ _ _ := .ok [.done]
  importBaoQuinn _ _ _ stream := (.ok (), true, stream)

/-- A stream without an event handler, and nothing after the request. -/
def plainStream (mask : EventMask) : StreamPair := ⟨0, 0, [], true, ⟨mask, none⟩⟩

private theorem decision_of_sameOutcome {kind : RequestKind} {m m' : EventMask} (h : SameOutcome kind m m') :
    m.get.decision = m'.get.decision := by
  obtain ⟨req, hreq⟩ := exists_request kind
  have hsome : req.kind.isSome := by simp [hreq]
  have hadmits : ∀ inner : Option Client,
      (m.get.decision.admits inner ⟨req, 0, 0⟩).1 = (m'.get.decision.admits inner ⟨req, 0, 0⟩).1 := by
    intro inner
    have e := congrArg Prod.fst (accept_eq { plainStream m with events := ⟨m, inner⟩ } req)
    have e' := congrArg Prod.fst (accept_eq { plainStream m with events := ⟨m', inner⟩ } req)
    have h1 := (handleStream_eq recordingStore false { plainStream m with events := ⟨m, inner⟩ } req hsome).1
    have h1' := (handleStream_eq recordingStore false { plainStream m with events := ⟨m', inner⟩ } req hsome).1
    have heq := (h Bool recordingStore false inner (plainStream m) req hreq).1
    exact e.symm.trans (h1.symm.trans (heq.trans (h1'.trans e')))
  -- no handler, a handler that gets no notifications, and a handler that allows nothing tell the decisions apart
  have h1 := hadmits none
  have h2 := hadmits (some ⟨fun _ => false, fun _ => .reply (.ok ())⟩)
  have h3 := hadmits (some ⟨fun _ => true, fun _ => .reply (.error .permission)⟩)
  generalize m.get.decision = d at h1 h2 h3 ⊢
  generalize m'.get.decision = d' at h1 h2 h3 ⊢
  cases d <;> cases d' <;> simp_all [Decision.admits]

/-- A push of one blob. -/
def onePush : PushRequest Hash := ⟨⟨Hash.replicate 0, ⟨[(0, RangeSet.all), (1, ∅)]⟩⟩⟩

/-- Without an event handler, every mask but one that disables get requests lets a push request write to the store. -/
private theorem push_writes {m : EventMask} (h : m.get ≠ .disabled) :
    (handleStream recordingStore false (plainStream m) (.push onePush)).store = true := by
  obtain ⟨-, -, h3⟩ := handleStream_eq recordingStore false (plainStream m) (.push onePush) rfl
  have hacc : ((plainStream m).accept (.push onePush)).1.isAccepted = true := by
    have e := congrArg Prod.fst (accept_eq (plainStream m) (.push onePush))
    simp only at e
    rw [e]
    obtain ⟨conn, get, getMany, push, obs, thr⟩ := m
    cases get <;> first | rfl | exact absurd rfl h
  have hrun : (handlePush (importBlob recordingStore)
    (fun w => recordingStore.getBytes w.1 onePush.request.hash) onePush
      (false, [])).state.1 = true := by decide
  rw [h3]
  simp only [hacc]
  exact hrun

/-- The admission of every kind of request is decided by the mask field for get requests: masks that agree on the field
of the kind lead to the same outcomes exactly when their fields for get requests decide the same; a mask that disables
push requests keeps the store from being changed exactly when it disables get requests; and a mask that disables get
requests rejects every push request. -/
theorem admission_by_get (m : EventMask) :
    (∀ kind m', EventMask.AgreeOn kind m m' → (SameOutcome kind m m' ↔ m.get.decision = m'.get.decision)) ∧
    (m.push = .disabled → (PushKeepsStore m ↔ m.get = .disabled)) ∧
    (m.get = .disabled → ∀ (σ : Type) (store : StoreOps σ) (s : σ) (inner : Option Client)
      (pair : StreamPair) (request : PushRequest Hash),
        (handleStream store s { pair with events := ⟨m, inner⟩ } (.push request)).accepted = false) := by
  have hrejected : m.get = .disabled → ∀ (inner : Option Client) (pair : StreamPair) (req : Request),
      (({ pair with events := ⟨m, inner⟩ } : StreamPair).accept req).1.isAccepted = false := by
    intro hm inner pair req
    have e := congrArg Prod.fst (accept_eq { pair with events := ⟨m, inner⟩ } req)
    simp only [hm] at e
    exact e
  refine ⟨?_, ?_, ?_⟩
  · intro kind m' _
    exact ⟨decision_of_sameOutcome, sameOutcome_of_decision⟩
  · intro _
    constructor
    · intro h
      by_contra hm
      have := push_writes hm
      rw [show plainStream m = { plainStream m with events := ⟨m, none⟩ } from rfl, h] at this
      cases this
    · intro hm σ store s inner pair request
      obtain ⟨-, -, h3⟩ := handleStream_eq store s { pair with events := ⟨m, inner⟩ } (.push request) rfl
      rw [h3]
      simp [hrejected hm]
  · intro hm σ store s inner pair request
    obtain ⟨h1, -, -⟩ := handleStream_eq store s { pair with events := ⟨m, inner⟩ } (.push request) rfl
    rw [h1]
    exact hrejected hm inner pair (.push request)

/-- The default mask disables push requests, but a push request writes to the store; it is rejected if the mask disables
get requests instead, even when push requests are enabled. -/
theorem push_admitted_by_default :
    EventMask.default.push = .disabled ∧
    (handleStream recordingStore false (plainStream .default) (.push onePush)).store = true ∧
    EventMask.AgreeOn .push .default { EventMask.default with get := .disabled } ∧
    ¬ SameOutcome .push .default { EventMask.default with get := .disabled } ∧
    (handleStream recordingStore false (plainStream { EventMask.default with get := .disabled, push := .none })
      (.push onePush)).accepted = false := by
  refine ⟨rfl, by decide, ⟨rfl, rfl⟩, ?_, by decide⟩
  intro h
  exact absurd (h Bool recordingStore false none (plainStream .default) (.push onePush) rfl).2 (by decide)

end Events

end IrohBlobs
