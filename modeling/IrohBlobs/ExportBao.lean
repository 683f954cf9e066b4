import IrohBlobs.HashSeq

/-!
# Exports and their consumers

The items of a bao export and the functions of `api/blobs.rs` that consume them.  An export is a channel: a list of
items followed by the close of the channel, which happens whenever the producing task ends.  A consumer that stops at
the first `Done` or `Error` item is an instance of `drain`.

What is proved about all of them is when success means that the producer finished: exactly when the items contain a
`Done` or an `Error` (`dataToBytes_sound_iff` and the lemmas after it).
-/

namespace IrohBlobs

/-- A leaf of the tree: data at an offset of the blob. -/
structure Leaf where
  offset : Nat
  data : List UInt8
  deriving DecidableEq

/-- A parent of the tree with the hashes of its children.  Nodes are numbered in order. -/
structure Parent (H : Type) where
  node : Nat
  pair : H × H
  deriving DecidableEq

/-- The errors of an export. -/
inductive EncodeError
  | parentHashMismatch (node : Nat)
  | leafHashMismatch (chunk : Nat)
  | parentWrite (node : Nat)
  | leafWrite (chunk : Nat)
  | sizeMismatch
  | io
  deriving DecidableEq

/-- The items of an export. -/
inductive EncodedItem (H : Type)
  | size (size : Nat)
  | parent (parent : Parent H)
  | leaf (leaf : Leaf)
  | error (cause : EncodeError)
  | done
  deriving DecidableEq

/-- The errors a consumer returns.  The last one is not an error: the consumer never returns, because it waits for an
event handler that does nothing. -/
inductive ExportBaoError
  | request
  | encode (cause : EncodeError)
  | write
  | client
  | pending
  deriving DecidableEq

/-- A running export: the request may fail, and otherwise there is a channel of items that is then closed. -/
abbrev ExportBaoProgress := Except ExportBaoError (List (EncodedItem Hash))

/-- The producer reported how the export ended. -/
def Terminated (items : List (EncodedItem Hash)) : Prop := .done ∈ items ∨ ∃ e, .error e ∈ items

/-! ### Consumers that stop at the end item -/

section Drain

variable {σ : Type} (onSize : σ → Nat → Except ExportBaoError σ) (onParent : σ → Parent Hash → Except ExportBaoError σ)
  (onLeaf : σ → Leaf → Except ExportBaoError σ)

/-- The receive loop: items update a state until `Done`, an `Error`, or the close of the channel. -/
def drain : σ → List (EncodedItem Hash) → Except ExportBaoError σ
  | s, [] => .ok s
  | s, .size size :: rest => onSize s size >>= fun s => drain s rest
  | s, .parent parent :: rest => onParent s parent >>= fun s => drain s rest
  | s, .leaf leaf :: rest => onLeaf s leaf >>= fun s => drain s rest
  | _, .error cause :: _ => .error (.encode cause)
  | s, .done :: _ => .ok s

private theorem bind_eq_ok {ε α β : Type} {x : Except ε α} {f : α → Except ε β} {b : β} (h : x >>= f = .ok b) :
    ∃ a, x = .ok a ∧ f a = .ok b := by
  cases x with
  | error e => cases h
  | ok a => exact ⟨a, rfl, h⟩

/-- Success means that the loop met `Done`, or no end item at all. -/
theorem drain_ok {s s' : σ} {items : List (EncodedItem Hash)} (h : drain onSize onParent onLeaf s items = .ok s') :
    .done ∈ items ∨ ¬ Terminated items := by
  induction items generalizing s with
  | nil => right; simp [Terminated]
  | cons item items ih =>
    have step : ∀ t, drain onSize onParent onLeaf t items = .ok s' → item ≠ .done → (∀ e, item ≠ .error e) →
        .done ∈ item :: items ∨ ¬ Terminated (item :: items) := by
      intro t ht hd he
      rcases ih ht with hdone | hnot
      · exact Or.inl (by simp [hdone])
      · right
        rintro (hdone | ⟨e, herr⟩)
        · exact hnot (Or.inl (by simpa [hd.symm] using hdone))
        · exact hnot (Or.inr ⟨e, by simpa [(he e).symm] using herr⟩)
    cases item with
    | done => exact Or.inl (by simp)
    | error e => cases h
    | size n =>
      obtain ⟨t, -, ht⟩ := bind_eq_ok h
      exact step t ht (by simp) (by simp)
    | parent p =>
      obtain ⟨t, -, ht⟩ := bind_eq_ok h
      exact step t ht (by simp) (by simp)
    | leaf l =>
      obtain ⟨t, -, ht⟩ := bind_eq_ok h
      exact step t ht (by simp) (by simp)

/-- If the steps succeed, a stream without an end item is consumed to the close of the channel with success. -/
private theorem drain_of_not_terminated {P : σ → Prop} (hs : ∀ s n, P s → ∃ t, onSize s n = .ok t ∧ P t)
    (hp : ∀ s p, P s → ∃ t, onParent s p = .ok t ∧ P t) (hl : ∀ s l, P s → ∃ t, onLeaf s l = .ok t ∧ P t)
    {items : List (EncodedItem Hash)} (h : ¬ Terminated items) {s : σ} (hP : P s) :
    ∃ s', drain onSize onParent onLeaf s items = .ok s' := by
  induction items generalizing s with
  | nil => exact ⟨s, rfl⟩
  | cons item items ih =>
    have hrest : ¬ Terminated items := by
      rintro (hd | ⟨e, he⟩)
      · exact h (Or.inl (by simp [hd]))
      · exact h (Or.inr ⟨e, by simp [he]⟩)
    cases item with
    | done => exact absurd (Or.inl (by simp)) h
    | error e => exact absurd (Or.inr ⟨e, by simp⟩) h
    | size n =>
      obtain ⟨t, ht, hPt⟩ := hs s n hP
      obtain ⟨s', hs'⟩ := ih hrest hPt
      exact ⟨s', by rw [drain, ht]; exact hs'⟩
    | parent p =>
      obtain ⟨t, ht, hPt⟩ := hp s p hP
      obtain ⟨s', hs'⟩ := ih hrest hPt
      exact ⟨s', by rw [drain, ht]; exact hs'⟩
    | leaf l =>
      obtain ⟨t, ht, hPt⟩ := hl s l hP
      obtain ⟨s', hs'⟩ := ih hrest hPt
      exact ⟨s', by rw [drain, ht]; exact hs'⟩

/-- A consumer whose steps always succeed is exact on finished exports. -/
private theorem drain_sound_iff {P : σ → Prop} (hs : ∀ s n, P s → ∃ t, onSize s n = .ok t ∧ P t)
    (hp : ∀ s p, P s → ∃ t, onParent s p = .ok t ∧ P t) (hl : ∀ s l, P s → ∃ t, onLeaf s l = .ok t ∧ P t)
    (items : List (EncodedItem Hash)) {s : σ} (hP : P s) :
    (∀ s', drain onSize onParent onLeaf s items = .ok s' → .done ∈ items) ↔ Terminated items := by
  constructor
  · intro h
    by_contra hn
    obtain ⟨s', hs'⟩ := drain_of_not_terminated onSize onParent onLeaf hs hp hl hn hP
    exact hn (Or.inl (h s' hs'))
  · intro h s' hs'
    exact (drain_ok _ _ _ hs').resolve_right (not_not_intro h)

end Drain

/-! ### Reading an export into memory -/

/-- The loop of `data_to_bytes` keeps the data of the leaves as they arrive. -/
def collectLeaves : List (List UInt8) → List (EncodedItem Hash) → Except ExportBaoError (List (List UInt8)) :=
  drain (fun data _ => .ok data) (fun data _ => .ok data) (fun data leaf => .ok (data ++ [leaf.data]))

def dataToBytes (progress : ExportBaoProgress) : Except ExportBaoError (List UInt8) := do
  let items ← progress
  let data ← collectLeaves [] items
  match data with
  | [data] => pure data
  | data => pure data.flatten

def dataToVec (progress : ExportBaoProgress) : Except ExportBaoError (List UInt8) := do
  let items ← progress
  drain (fun data _ => .ok data) (fun data _ => .ok data) (fun data leaf => .ok (data ++ leaf.data)) [] items

/-- The eight bytes of a `u64`, the lowest first. -/
def toLeBytes (n : Nat) : List UInt8 := (List.range 8).map (fun i => UInt8.ofNat (n / 256 ^ i))

/-- The 64 bytes of a pair of hashes. -/
def pairBytes (parent : Parent Hash) : List UInt8 := parent.pair.1.bytes ++ parent.pair.2.bytes

/-- `stream` turns a failed request into an error item. -/
def stream (progress : ExportBaoProgress) : List (EncodedItem Hash) :=
  match progress with
  | .ok items => items
  | .error _ => [.error .io]

/-- The encoding of one item; `Done` has none. -/
def intoBytes : EncodedItem Hash → Option (Except ExportBaoError (List UInt8))
  | .size size => some (.ok (toLeBytes size))
  | .parent parent => some (.ok (pairBytes parent))
  | .leaf leaf => some (.ok leaf.data)
  | .done => none
  | .error cause => some (.error (.encode cause))

def intoByteStream (progress : ExportBaoProgress) : List (Except ExportBaoError (List UInt8)) :=
  (stream progress).filterMap intoBytes

def baoToVec (progress : ExportBaoProgress) : Except ExportBaoError (List UInt8) :=
  (intoByteStream progress).foldlM (fun data item => do pure (data ++ (← item))) []

/-- `data_to_bytes` reports success only for finished exports exactly when the export reported its end. -/
theorem dataToBytes_sound_iff (items : List (EncodedItem Hash)) :
    (∀ b, dataToBytes (.ok items) = .ok b → .done ∈ items) ↔ Terminated items := by
  rw [← drain_sound_iff (fun data _ => .ok data) (fun data _ => .ok data)
    (fun (data : List (List UInt8)) leaf => .ok (data ++ [leaf.data])) (P := fun _ => True)
    (fun s _ _ => ⟨s, rfl, trivial⟩) (fun s _ _ => ⟨s, rfl, trivial⟩) (fun _ _ _ => ⟨_, rfl, trivial⟩) items
    (s := []) trivial]
  constructor
  · intro h data hd
    have hres : ∃ b, dataToBytes (.ok items) = .ok b := by
      unfold dataToBytes collectLeaves
      simp only [bind, Except.bind, hd]
      split <;> exact ⟨_, rfl⟩
    obtain ⟨b, hb⟩ := hres
    exact h b hb
  · intro h b hb
    unfold dataToBytes at hb
    obtain ⟨items', hi, hb⟩ := bind_eq_ok hb
    cases hi
    obtain ⟨data, hd, -⟩ := bind_eq_ok hb
    exact h data hd

theorem dataToVec_sound_iff (items : List (EncodedItem Hash)) :
    (∀ b, dataToVec (.ok items) = .ok b → .done ∈ items) ↔ Terminated items :=
  drain_sound_iff _ _ _ (P := fun _ => True) (fun s _ _ => ⟨s, rfl, trivial⟩) (fun s _ _ => ⟨s, rfl, trivial⟩)
    (fun _ _ _ => ⟨_, rfl, trivial⟩) items trivial

/-- `bao_to_vec` fails exactly when an item is an error. -/
private theorem foldlM_intoBytes (items : List (EncodedItem Hash)) (data : List UInt8) :
    (∃ b, (items.filterMap intoBytes).foldlM (fun data item => do pure (data ++ (← item))) data = .ok b) ↔
      ∀ e, .error e ∉ items := by
  induction items generalizing data with
  | nil => simp [pure, Except.pure]
  | cons item items ih =>
    cases item with
    | error e =>
      constructor
      · rintro ⟨b, hb⟩
        cases hb
      · intro h
        exact absurd List.mem_cons_self (h e)
    | done =>
      rw [List.filterMap_cons_none rfl]
      simpa using ih data
    | size n => simpa [intoBytes, bind, Except.bind, pure, Except.pure] using ih (data ++ toLeBytes n)
    | parent p => simpa [intoBytes, bind, Except.bind, pure, Except.pure] using ih (data ++ pairBytes p)
    | leaf l => simpa [intoBytes, bind, Except.bind, pure, Except.pure] using ih (data ++ l.data)

theorem baoToVec_sound_iff (items : List (EncodedItem Hash)) :
    (∀ b, baoToVec (.ok items) = .ok b → .done ∈ items) ↔ Terminated items := by
  have hok := foldlM_intoBytes items []
  constructor
  · intro h
    by_cases he : ∃ e, .error e ∈ items
    · exact Or.inr he
    · obtain ⟨b, hb⟩ := hok.mpr (not_exists.mp he)
      exact Or.inl (h b hb)
  · rintro (hd | ⟨e, he⟩) b hb
    · exact hd
    · exact absurd he (hok.mp ⟨b, hb⟩ e)

/-! ### Writing an export to a stream -/

/-- A send stream.  `accepts n` says whether the `n`-th write succeeds, and `part n` how much of its data it leaves on
the stream otherwise. -/
structure SendStream where
  accepts : Nat → Bool
  part : Nat → Nat
  writes : Nat
  sent : List UInt8

def SendStream.writeAll (w : SendStream) (data : List UInt8) : Except ExportBaoError SendStream :=
  if w.accepts w.writes then .ok { w with writes := w.writes + 1, sent := w.sent ++ data } else .error .write

/-- The stream after a write that failed. -/
def SendStream.broken (w : SendStream) (data : List UInt8) : SendStream :=
  { w with writes := w.writes + 1, sent := w.sent ++ data.take (w.part w.writes) }

def writeQuinn (progress : ExportBaoProgress) (target : SendStream) : Except ExportBaoError SendStream := do
  let items ← progress
  drain (fun w size => w.writeAll (toLeBytes size)) (fun w parent => w.writeAll (pairBytes parent))
    (fun w leaf => w.writeAll leaf.data) target items

/-- A leaf is written and then reported.  `notify index offset len` is the outcome of `notify_payload_write`. -/
def writeLeaf (notify : Nat → Nat → Nat → Bool) (index : Nat) (w : SendStream) (leaf : Leaf) :
    Except ExportBaoError SendStream := do
  let w ← w.writeAll leaf.data
  if notify index leaf.offset leaf.data.length then pure w else throw .client

/-- The variant that reports payload writes; the other reports have no outcome. -/
def writeQuinnWithProgress (progress : ExportBaoProgress) (writer : SendStream) (notify : Nat → Nat → Nat → Bool)
    (index : Nat) : Except ExportBaoError SendStream := do
  let items ← progress
  drain (fun w size => w.writeAll (toLeBytes size)) (fun w parent => w.writeAll (pairBytes parent))
    (writeLeaf notify index) writer items

private theorem writeAll_ok (w : SendStream) (data : List UInt8) (h : ∀ n, w.accepts n = true) :
    ∃ t, w.writeAll data = .ok t ∧ ∀ n, t.accepts n = true :=
  ⟨{ w with writes := w.writes + 1, sent := w.sent ++ data }, by simp [SendStream.writeAll, h], h⟩

/-- For every receiving side: a success of `write_quinn` means a finished export exactly when the end was reported. -/
theorem writeQuinn_sound_iff (items : List (EncodedItem Hash)) :
    (∀ w w', writeQuinn (.ok items) w = .ok w' → .done ∈ items) ↔ Terminated items := by
  constructor
  · intro h
    rw [← drain_sound_iff _ _ _ (P := fun w : SendStream => ∀ n, w.accepts n = true)
      (fun w n => writeAll_ok w (toLeBytes n)) (fun w p => writeAll_ok w (pairBytes p))
      (fun w l => writeAll_ok w l.data) items (s := ⟨fun _ => true, fun _ => 0, 0, []⟩) (fun _ => rfl)]
    exact h ⟨fun _ => true, fun _ => 0, 0, []⟩
  · intro h w w' hw
    exact (drain_ok _ _ _ hw).resolve_right (not_not_intro h)

private theorem writeLeaf_ok (w : SendStream) (leaf : Leaf) (h : ∀ n, w.accepts n = true) :
    ∃ t, writeLeaf (fun _ _ _ => true) 0 w leaf = .ok t ∧ ∀ n, t.accepts n = true := by
  obtain ⟨t, ht, hPt⟩ := writeAll_ok w leaf.data h
  exact ⟨t, by simp only [writeLeaf, ht, bind, Except.bind]; rfl, hPt⟩

theorem writeQuinnWithProgress_sound_iff (items : List (EncodedItem Hash)) :
    (∀ w notify index w', writeQuinnWithProgress (.ok items) w notify index = .ok w' → .done ∈ items) ↔
      Terminated items := by
  constructor
  · intro h
    rw [← drain_sound_iff _ _ _ (P := fun w : SendStream => ∀ n, w.accepts n = true)
      (fun w n => writeAll_ok w (toLeBytes n)) (fun w p => writeAll_ok w (pairBytes p)) writeLeaf_ok
      items (s := ⟨fun _ => true, fun _ => 0, 0, []⟩) (fun _ => rfl)]
    exact h ⟨fun _ => true, fun _ => 0, 0, []⟩ (fun _ _ _ => true) 0
  · intro h w notify index w' hw
    exact (drain_ok _ _ _ hw).resolve_right (not_not_intro h)

/-! ### Exports to a path -/

/-- The items of an export to a path. -/
inductive ExportProgressItem
  | size (size : Nat)
  | copyProgress (offset : Nat)
  | done
  | error
  deriving DecidableEq

/-- The loop of `ExportProgress::finish`, for a bounded number of receive calls.  A closed channel gives `None`,
which falls into the default branch. -/
def finishLoop : Nat → Option Nat → List ExportProgressItem → Option (Except ExportBaoError Nat)
  | 0, _, _ => none
  | fuel + 1, size, items =>
    match items with
    | .done :: _ =>
      match size with
      | some size => some (.ok size)
      | none => some (.error .request)
    | .size s :: rest => finishLoop fuel (some s) rest
    | .error :: _ => some (.error .request)
    | .copyProgress _ :: rest => finishLoop fuel size rest
    | [] => finishLoop fuel size []

/-- The result of `finish` within `fuel` receive calls; `none` while it is still running. -/
def finish (fuel : Nat) (progress : Except ExportBaoError (List ExportProgressItem)) :
    Option (Except ExportBaoError Nat) :=
  match progress with
  | .ok items => finishLoop fuel none items
  | .error e => some (.error e)

/-- The producer of an export to a path reported how the export ended. -/
def ExportProgressItem.Terminated (items : List ExportProgressItem) : Prop := .done ∈ items ∨ .error ∈ items

namespace ExportProgressItem

/-- On a closed channel `finish` never returns. -/
theorem finishLoop_nil (fuel : Nat) (size : Option Nat) : finishLoop fuel size [] = none := by
  induction fuel with
  | zero => rfl
  | succ fuel ih => exact ih

private theorem finishLoop_of_not_terminated {items : List ExportProgressItem} (h : ¬ Terminated items) (fuel : Nat)
    (size : Option Nat) : finishLoop fuel size items = none := by
  induction items generalizing fuel size with
  | nil => exact finishLoop_nil fuel size
  | cons item items ih =>
    have hrest : ¬ Terminated items := fun ht => h (ht.imp (by simp +contextual) (by simp +contextual))
    cases fuel with
    | zero => rfl
    | succ fuel =>
      cases item with
      | done => exact absurd (Or.inl (by simp)) h
      | error => exact absurd (Or.inr (by simp)) h
      | size n => exact ih hrest fuel (some n)
      | copyProgress n => exact ih hrest fuel size

private theorem finishLoop_of_terminated {items : List ExportProgressItem} (h : Terminated items) {fuel : Nat}
    (hfuel : items.length ≤ fuel) (size : Option Nat) :
    ∃ r, finishLoop fuel size items = some r ∧ ∀ n, r = .ok n → .done ∈ items := by
  induction items generalizing fuel size with
  | nil => simp [Terminated] at h
  | cons item items ih =>
    cases fuel with
    | zero => simp at hfuel
    | succ fuel =>
      have hlen : items.length ≤ fuel := by simpa using hfuel
      cases item with
      | done =>
        cases size with
        | none => exact ⟨_, rfl, by simp⟩
        | some n => exact ⟨_, rfl, by simp⟩
      | error => exact ⟨_, rfl, by simp⟩
      | size n =>
        obtain ⟨r, hr, hd⟩ := ih (by simpa [Terminated] using h) hlen (some n)
        exact ⟨r, hr, fun m hm => by simp [hd m hm]⟩
      | copyProgress n =>
        obtain ⟨r, hr, hd⟩ := ih (by simpa [Terminated] using h) hlen size
        exact ⟨r, hr, fun m hm => by simp [hd m hm]⟩

/-- `finish` returns at all, and reports success only for finished exports, exactly when the end was reported. -/
theorem finish_sound_iff (items : List ExportProgressItem) :
    (∃ fuel r, finish fuel (.ok items) = some r ∧ ∀ n, r = .ok n → .done ∈ items) ↔ Terminated items := by
  constructor
  · rintro ⟨fuel, r, hr, -⟩
    by_contra hn
    rw [finish, finishLoop_of_not_terminated hn] at hr
    cases hr
  · intro h
    obtain ⟨r, hr, hd⟩ := finishLoop_of_terminated h (Nat.le_refl _) none
    exact ⟨items.length, r, hr, hd⟩

end ExportProgressItem

/-! ### Exports of hash sequences -/

/-- Part of a hash sequence, at an offset in bytes. -/
structure HashSeqChunk where
  offset : Nat
  chunk : HashSeq

namespace HashSeqChunk

def tryFrom (leaf : Leaf) : Option HashSeqChunk := (HashSeq.new leaf.data).map (fun chunk => ⟨leaf.offset, chunk⟩)

/-- The index of the first hash. -/
def base (c : HashSeqChunk) : Nat := c.offset / 32

end HashSeqChunk

/-- The errors met while a blob is read as a hash sequence. -/
inductive HashesError
  | encode (cause : EncodeError)
  | invalidHashSequence
  deriving DecidableEq

/-- What one item contributes to `hashes_with_index`.  Errors are reported, and the reading continues. -/
def hashesOfItem : EncodedItem Hash → List (Except HashesError (Nat × Hash))
  | .leaf leaf =>
    match HashSeqChunk.tryFrom leaf with
    | some slice => slice.chunk.iter.zipIdx.map (fun p => .ok (slice.base + p.2, p.1))
    | none => [.error .invalidHashSequence]
  | .error e => [.error (.encode e)]
  | _ => []

def hashesWithIndex (progress : ExportBaoProgress) : List (Except HashesError (Nat × Hash)) :=
  (stream progress).flatMap hashesOfItem

def hashes (progress : ExportBaoProgress) : List (Except HashesError Hash) :=
  (hashesWithIndex progress).map (fun item => item.map Prod.snd)

end IrohBlobs
