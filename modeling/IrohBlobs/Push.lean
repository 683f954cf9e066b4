import IrohBlobs.Download
import IrohBlobs.TransferSession

/-!
# Pushes

The receiving side of a push with its imports: `handle_push` in `provider.rs` with `import_bao_reader` in `api/blobs.rs`
for the blobs, as part of the stream of the request.  The store, the transfers and the fates of the blobs are those of
the downloads (`Download`).

An import of a push takes the answer of the store into account, unlike that of a download.  So whatever writes fail, a
push that is reported as completed has brought everything (`push_local`), as long as no import finds an entry that can
not be read, and the store can read what it has of the hash sequence.
-/

namespace IrohBlobs

namespace Push

open Remote Downloader StoredSeq

/-! ### The import of a blob -/

/-- The bound of the channel to the import. -/
def localUpdateCap : Nat := 32

/-- The driver sends the next item, or comes to the end of the stream. -/
def write (s : Transfer) : Option Transfer :=
  match s.writer, s.incoming with
  | .sending, item :: incoming =>
    -- the import has dropped the receiver
    if s.answer.isSome then some { s with writer := .failed }
    else if s.channel.length < localUpdateCap then some { s with incoming, channel := s.channel ++ [item] }
    else none
  | .sending, [] => some { s with writer := if s.ends then .done else .failed }
  | _, _ => none

/-- The other tasks do the same as in a download. -/
def poll (options : InlineOptions) (s : Transfer) : Turn → Transfer
  | .writer => (write s).getD s
  | .store io => s.poll options (.store io)
  | .other hash entry => s.poll options (.other hash entry)

/-- All turns, each with the state before it. -/
def history (options : InlineOptions) (s : Transfer) : List Turn → List (Transfer × Turn)
  | [] => []
  | turn :: turns => (s, turn) :: history options (poll options s turn) turns

section

variable {c : Contents} (responses : Responses c) (traverse : ExportSource Hash → ChunkRanges → List (EncodedItem Hash))
  (options : InlineOptions)

/-- The part of `import_bao_reader` after the size.  Both the driver and the import have to succeed. -/
def importBlob (hash : Hash) (ranges : ChunkRanges) (fate : BlobFate) (w : World) : Except ProviderError Unit × World :=
  let items := Downloader.sentItems responses hash ranges fate.sent
  let start := Transfer.start hash (c.size hash) items fate.sent.isNone w.entries
  let s := fate.turns.foldl (poll options) start
  let log := w.log ++ history options start fate.turns
  match s.writer, s.answer with
  | .done, some true => (.ok (), { w with entries := s.entries, answers := w.answers ++ [true], log })
  | _, answer => (.error .importBao, { w with entries := s.entries, answers := w.answers ++ answer.toList, log })

/-- `import_bao_quinn` -/
def importBaoQuinn (hash : Hash) (ranges : ChunkRanges) (w : World) : Except ProviderError Unit × World :=
  let w := { w with starts := w.starts ++ [(hash, w.entries)] }
  match w.fates with
  | [] => (.error .importBao, w)
  | fate :: fates =>
    if fate.header = false then (.error .importBao, { w with fates })
    else if c.size hash = 0 then
      -- there is nothing to import
      if hash = .EMPTY then (.ok (), { w with fates }) else (.error .importBao, { w with fates })
    else importBlob responses options hash ranges fate { w with fates }

/-- The store, as the provider uses it. -/
def store : StoreOps World where
  exportBao w hash ranges := w.exportBao traverse hash ranges
  importBaoQuinn w hash ranges rest :=
    ((importBaoQuinn responses options hash ranges w).1, (importBaoQuinn responses options hash ranges w).2, rest)

end

/-- The condition on a turn.  The import finds an entry that can be read, and its writes leave nothing out or fail;
the other tasks remove nothing, and their entries have the right sizes. -/
def Turn.Allowed (size : Hash → Nat) (s : Transfer) : Turn → Prop
  | .writer => True
  | .store io => (s.answer = none → (s.entries s.hash).bitfield ≠ none) ∧ WritesAll io
  | .other hash entry => (∀ x, Has (s.entries hash) x → Has entry x) ∧ Sized (size hash) entry

/-- All turns meet the condition. -/
def Allowed (c : Contents) (log : List (Transfer × Turn)) : Prop := ∀ p ∈ log, Turn.Allowed c.size p.1 p.2

/-! ### The invariant of an import -/

/-- Nothing is lost, and an import that has answered that it is done has written everything that was sent. -/
structure Kept (S : Nat) (items : List (BaoContentItem Hash)) (before : Hash → BaoFileStorage Hash)
    (s : Transfer) : Prop where
  keeps : ∀ hash x, Has (before hash) x → Has (s.entries hash) x
  done : s.writer = .done → s.incoming = [] ∧ s.ends = true
  answered : s.answer = some true → s.writer ≠ .sending ∧
    (s.writer = .done → ∀ x, Claims S items x → Has (s.entries s.hash) x)

/-- The entries have the right sizes, and the import has received the items up to those in the channel.  It has failed,
or nothing is lost. -/
structure ImportInv (size : Hash → Nat) (items : List (BaoContentItem Hash)) (before : Hash → BaoFileStorage Hash)
    (s : Transfer) : Prop where
  sized : ∀ hash, Sized (size hash) (s.entries hash)
  importing : s.answer = none → ∃ received rest, items = received ++ (s.channel ++ rest) ∧
    (s.writer ≠ .failed → rest = s.incoming) ∧ Importing (size s.hash) (s.entries s.hash) s.stream received
  cases : s.answer = some false ∨ Kept (size s.hash) items before s

section

variable {size : Hash → Nat} {items : List (BaoContentItem Hash)} {before : Hash → BaoFileStorage Hash} {s : Transfer}

private theorem importInv_start {hash : Hash} {ends : Bool} {entries : Hash → BaoFileStorage Hash}
    (h : ∀ hash, Sized (size hash) (entries hash)) :
    ImportInv size items entries (Transfer.start hash (size hash) items ends entries) := by
  have hstart : TransferInv size items entries (Transfer.start hash (size hash) items ends entries) :=
    transferInv_start h
  refine ⟨h, hstart.importing, Or.inr ⟨fun _ _ hx => hx, ?_, ?_⟩⟩
  · intro hdone
    cases hdone
  · intro hanswer
    cases hanswer

/-- What the driver can do. -/
theorem write_cases (s : Transfer) (options : InlineOptions) :
    poll options s .writer = s ∨ poll options s .writer = { s with writer := .failed } ∨
      (s.incoming = [] ∧ s.ends = true ∧ s.writer = .sending ∧ poll options s .writer = { s with writer := .done }) ∨
      ∃ item incoming, s.incoming = item :: incoming ∧ s.answer = none ∧ s.writer = .sending ∧
        poll options s .writer = { s with incoming, channel := s.channel ++ [item] } := by
  obtain ⟨hash, incoming, ends, writer, channel, stream, answer, entries⟩ := s
  cases writer with
  | failed => exact Or.inl rfl
  | done => exact Or.inl rfl
  | sending =>
    cases incoming with
    | nil =>
      cases ends with
      | false => exact Or.inr (Or.inl rfl)
      | true => exact Or.inr (Or.inr (Or.inl ⟨rfl, rfl, rfl, rfl⟩))
    | cons item incoming =>
      unfold poll write
      dsimp only
      split
      · exact Or.inr (Or.inl rfl)
      · rename_i hnone
        rw [Bool.not_eq_true, Option.isSome_eq_false_iff, Option.isNone_iff_eq_none] at hnone
        split
        · exact Or.inr (Or.inr (Or.inr ⟨item, incoming, rfl, hnone, rfl, rfl⟩))
        · exact Or.inl rfl

/-- The driver takes a turn. -/
private theorem ImportInv.write (h : ImportInv size items before s) (options : InlineOptions) :
    ImportInv size items before (poll options s .writer) := by
  rcases write_cases s options with heq | heq | ⟨hincoming, hends, hwriter, heq⟩ | ⟨item, incoming, hincoming,
    hnone, hwriter, heq⟩
  · rw [heq]
    exact h
  · rw [heq]
    refine ⟨h.sized, ?_, h.cases.imp_right (fun hkept => ⟨hkept.keeps, ?_, ?_⟩)⟩
    · intro hanswer
      obtain ⟨received, rest, hitems, -, himporting⟩ := h.importing hanswer
      exact ⟨received, rest, hitems, fun hne => absurd rfl hne, himporting⟩
    · intro hdone
      cases hdone
    · intro _
      exact ⟨by simp, fun hdone => by cases hdone⟩
  · have hne : s.writer ≠ .failed := by rw [hwriter]; simp
    rw [heq]
    refine ⟨h.sized, ?_, h.cases.imp_right (fun hkept => ⟨hkept.keeps, fun _ => ⟨hincoming, hends⟩, ?_⟩)⟩
    · intro hanswer
      obtain ⟨received, rest, hitems, hrest, himporting⟩ := h.importing hanswer
      exact ⟨received, rest, hitems, fun _ => hrest hne, himporting⟩
    · intro hanswer
      exact absurd hwriter (hkept.answered hanswer).1
  · have hne : s.writer ≠ .failed := by rw [hwriter]; simp
    rw [heq]
    refine ⟨h.sized, ?_, h.cases.imp_right (fun hkept => ⟨hkept.keeps, ?_, ?_⟩)⟩
    · intro hanswer
      obtain ⟨received, rest, hitems, hrest, himporting⟩ := h.importing hanswer
      rw [hrest hne, hincoming] at hitems
      exact ⟨received, incoming, by rw [hitems]; simp, fun _ => rfl, himporting⟩
    · intro hdone
      exact absurd (hwriter.symm.trans hdone) (by simp)
    · intro hanswer
      cases hnone.symm.trans hanswer

/-- Other tasks take a turn. -/
private theorem ImportInv.other (h : ImportInv size items before s) {hash : Hash} {entry : BaoFileStorage Hash}
    (hallowed : Turn.Allowed size s (.other hash entry)) (options : InlineOptions) :
    ImportInv size items before (poll options s (.other hash entry)) := by
  have hkeeps := keeps_update hallowed.1
  refine ⟨sized_update h.sized hallowed.2, ?_, h.cases.imp_right (fun hkept => ⟨?_, hkept.done, ?_⟩)⟩
  · intro hanswer
    obtain ⟨received, rest, hitems, hrest, himporting⟩ := h.importing hanswer
    exact ⟨received, rest, hitems, hrest, himporting.mono (hkeeps s.hash)⟩
  · exact fun hash' x hx => hkeeps hash' x (hkept.keeps hash' x hx)
  · intro hanswer
    obtain ⟨hne, hhas⟩ := hkept.answered hanswer
    exact ⟨hne, fun hdone x hx => hkeeps s.hash x (hhas hdone x hx)⟩

/-- The import has failed. -/
private theorem ImportInv.failed (h : ImportInv size items before s) (channel : List (BaoContentItem Hash)) :
    ImportInv size items before
      { s with channel, entries := Function.update s.entries s.hash .poisoned, answer := some false } := by
  refine ⟨sized_update h.sized (Or.inl rfl), ?_, Or.inl rfl⟩
  intro hanswer
  cases hanswer

/-- The import has received an item. -/
private theorem ImportInv.received (h : ImportInv size items before s) (hanswer : s.answer = none)
    {item : BaoContentItem Hash}
    {channel rest received : List (BaoContentItem Hash)} (hitems : items = received ++ ((item :: channel) ++ rest))
    (hrest : s.writer ≠ .failed → rest = s.incoming) {entry' : BaoFileStorage Hash} {st' : ImportBao.ImportStream Hash}
    (hreceived : Received (size s.hash) (s.entries s.hash) entry' st' (received ++ [item])) :
    ImportInv size items before
      { s with channel, entries := Function.update s.entries s.hash entry', stream := st' } := by
  refine ⟨sized_update h.sized (Or.inr hreceived.inv), ?_, ?_⟩
  · intro _
    refine ⟨received ++ [item], rest, by rw [hitems]; simp, hrest, ?_⟩
    dsimp only
    rw [Function.update_self]
    exact hreceived.importing
  · refine h.cases.imp_right (fun hkept => ⟨?_, hkept.done, ?_⟩)
    · exact fun hash x hx => keeps_update hreceived.keeps hash x (hkept.keeps hash x hx)
    · intro hsome
      cases hanswer.symm.trans hsome

/-- The import has come to its end. -/
private theorem ImportInv.finished (h : ImportInv size items before s) (hanswer : s.answer = none)
    (hchannel : s.channel = [])
    (hwriter : s.writer ≠ .sending) {entry' : BaoFileStorage Hash}
    (hwritten : Written (size s.hash) s.stream.batch (s.entries s.hash) entry') :
    ImportInv size items before { s with entries := Function.update s.entries s.hash entry', answer := some true } := by
  refine ⟨sized_update h.sized (Or.inr hwritten.inv), ?_, ?_⟩
  · intro hnone
    cases hnone
  · rcases h.cases with hfalse | hkept
    · cases hanswer.symm.trans hfalse
    · refine Or.inr ⟨fun hash x hx => keeps_update hwritten.keeps hash x (hkept.keeps hash x hx), hkept.done,
        fun _ => ⟨hwriter, ?_⟩⟩
      intro hdone
      obtain ⟨received, rest, hitems, hrest, himporting⟩ := h.importing hanswer
      have hne : s.writer ≠ .failed := by rw [show s.writer = .done from hdone]; simp
      rw [hchannel, hrest hne, (hkept.done hdone).1, List.append_nil, List.append_nil] at hitems
      dsimp only
      rw [Function.update_self, hitems]
      exact himporting.flushed hwritten

/-- The import takes a turn. -/
private theorem ImportInv.receive (h : ImportInv size items before s) (hpos : s.answer = none → 0 < size s.hash)
    (hleaves : ∀ leaf, .leaf leaf ∈ items → CurrentSize.LeafOf (size s.hash) leaf) {io : Option Omits}
    (hallowed : Turn.Allowed size s (.store io)) (options : InlineOptions) :
    ImportInv size items before (poll options s (.store io)) := by
  rw [poll, Transfer.poll]
  cases hanswer : s.answer with
  | some answer =>
    rw [Transfer.receive, hanswer]
    exact h
  | none =>
    have he : CurrentSize.EntryInv (size s.hash) (s.entries s.hash) :=
      (h.sized s.hash).resolve_left (hallowed.1 hanswer)
    obtain ⟨received, rest, hitems, hrest, himporting⟩ := h.importing hanswer
    have hbatch : ∀ leaf, .leaf leaf ∈ received → CurrentSize.LeafOf (size s.hash) leaf := by
      intro leaf hleaf
      apply hleaves leaf
      rw [hitems]
      exact List.mem_append_left _ hleaf
    cases hchannel : s.channel with
    | cons item channel =>
      rw [hchannel] at hitems
      have hleaf : ∀ leaf, item = .leaf leaf → CurrentSize.LeafOf (size s.hash) leaf := by
        rintro leaf rfl
        apply hleaves leaf
        rw [hitems]
        simp
      rw [Transfer.receive, hanswer, hchannel]
      dsimp only
      rcases recv_cases options he (hpos hanswer) himporting hbatch hleaf hallowed.2 with
        ⟨entry', st', hentry, hstream, hreceived⟩ | ⟨-, hentry, hstream⟩
      · rw [hentry, hstream]
        have hnext := h.received hanswer hitems hrest hreceived
        rw [hanswer] at hnext
        exact hnext
      · rw [hentry, hstream]
        exact h.failed channel
    | nil =>
      rw [Transfer.receive, hanswer, hchannel]
      dsimp only
      split
      · exact h
      · rename_i hwriter
        have hleaves' : ∀ leaf, .leaf leaf ∈ s.stream.batch → CurrentSize.LeafOf (size s.hash) leaf := by
          obtain ⟨written, rfl, -⟩ := himporting.written
          exact fun leaf hleaf => hbatch leaf (List.mem_append_right _ hleaf)
        split
        · rename_i hempty
          have hwritten : Written (size s.hash) s.stream.batch (s.entries s.hash) (s.entries s.hash) := by
            refine ⟨he, fun _ hx => hx, ?_⟩
            rw [List.isEmpty_iff.mp hempty]
            exact fun x hx => absurd hx not_claims_nil
          have hnext := h.finished hanswer hchannel hwriter hwritten
          rw [Function.update_eq_self, hchannel] at hnext
          exact hnext
        · rw [himporting.size, himporting.ranges]
          rcases importWrite_cases options he (hpos hanswer) hleaves'
            hallowed.2 with ⟨entry', hwrite, hwritten⟩ | ⟨-, hwrite⟩
          · rw [hwrite]
            have hnext := h.finished hanswer hchannel hwriter hwritten
            rw [hchannel] at hnext
            exact hnext
          · rw [hwrite]
            exact h.failed []

/-- The hash and the end of the stream do not change, and an answer stays. -/
private theorem fixed_poll (s : Transfer) (options : InlineOptions) (turn : Turn) :
    (poll options s turn).hash = s.hash ∧ (poll options s turn).ends = s.ends ∧
      ((poll options s turn).answer = none → s.answer = none) := by
  cases turn with
  | writer =>
    rcases write_cases s options with heq | heq | ⟨-, -, -, heq⟩ | ⟨_, _, -, -, -, heq⟩ <;> rw [heq] <;>
      exact ⟨rfl, rfl, id⟩
  | store io =>
    obtain ⟨hhash, hends⟩ := Remote.fixed_poll s options (.store io)
    exact ⟨hhash, hends, answer_poll⟩
  | other hash entry => exact ⟨rfl, rfl, id⟩

/-- The invariant holds after any number of turns that meet the condition. -/
private theorem ImportInv.run {options : InlineOptions} {turns : List Turn} (h : ImportInv size items before s)
    (hpos : s.answer = none → 0 < size s.hash)
    (hleaves : ∀ leaf, .leaf leaf ∈ items → CurrentSize.LeafOf (size s.hash) leaf)
    (hallowed : ∀ p ∈ history options s turns, Turn.Allowed size p.1 p.2) :
    ImportInv size items before (turns.foldl (poll options) s) ∧
      (turns.foldl (poll options) s).hash = s.hash ∧ (turns.foldl (poll options) s).ends = s.ends := by
  induction turns generalizing s with
  | nil => exact ⟨h, rfl, rfl⟩
  | cons turn turns ih =>
    rw [history, List.forall_mem_cons] at hallowed
    rw [List.foldl_cons]
    obtain ⟨hhash, hends, hnone⟩ := fixed_poll s options turn
    have hnext : ImportInv size items before (poll options s turn) := by
      cases turn with
      | writer => exact h.write options
      | store io => exact h.receive hpos hleaves hallowed.1 options
      | other hash entry => exact h.other hallowed.1 options
    have hrun :=
      ih hnext (fun hanswer => by rw [hhash]; exact hpos (hnone hanswer)) (by rw [hhash]; exact hleaves) hallowed.2
    rw [hhash, hends] at hrun
    exact hrun

end

/-! ### The run of a push -/

section

variable {W : Type} {op : Op W ProviderError} {getBytes : W → Except ProviderError (List UInt8)}

private theorem executes_step {item : BlobItem} {items : List BlobItem} {w : W} {next : W → Run W ProviderError}
    (hok : (Run.step op item w next).result = .ok ())
    (h : ∀ w', (next w').result = .ok () → Executes op items w' (next w').state) :
    Executes op (item :: items) w (Run.step op item w next).state := by
  unfold Run.step at hok ⊢
  split
  · rename_i w' hw
    rw [hw] at hok
    exact .cons hw (h w' hok)
  · rename_i e w' hw
    rw [hw] at hok
    cases hok

/-- The children of a push, if it succeeds. -/
private theorem executes_pushChildren (root : Hash) (all : List Hash) (ranges : ChunkRangesSeq) {n : Nat}
    {hashes : List Hash} (hdrop : all.drop n = hashes) (w : W)
    (hok : (pushChildren op n hashes (ranges.iterAt (n + 1)) w).result = .ok ()) :
    Executes op (scheduleFrom (root :: all) ranges (n + 1)) w
      (pushChildren op n hashes (ranges.iterAt (n + 1)) w).state := by
  induction hashes generalizing n w with
  | nil =>
    rw [scheduleFrom_of_length_le (by simpa using List.drop_eq_nil_iff.mp hdrop)]
    exact .nil w
  | cons hash hashes ih =>
    have hget : (root :: all)[n + 1]? = some hash := by
      have := congrArg List.head? hdrop
      rwa [List.head?_drop, List.head?_cons] at this
    have hdrop' : all.drop (n + 1) = hashes := by
      rw [← List.tail_drop, hdrop, List.tail_cons]
    unfold pushChildren at hok ⊢
    rw [ranges.next_iterAt] at hok ⊢
    simp only at hok ⊢
    split at hok
    · rename_i he
      rw [if_pos he, scheduleFrom_skip he]
      exact ih hdrop' w hok
    · rename_i he
      rw [if_neg he, scheduleFrom_selected hget (by simpa using he)]
      exact executes_step hok (fun w' hok' => ih hdrop' w' hok')

/-- What `handle_push` has done if it succeeds: it has imported the root, if it is selected, and the selected children
of the hash sequence that it then got from the store. -/
private theorem executes_handlePush {request : PushRequest Hash} {w : W}
    (hok : (handlePush op getBytes request w).result = .ok ()) :
    ∃ w₁, ((request.request.ranges.get 0).isEmpty = true ∧ w₁ = w ∨
        op 0 request.request.hash (request.request.ranges.get 0) w = (.ok (), w₁)) ∧
      (request.request.ranges.isBlob = true ∧ (handlePush op getBytes request w).state = w₁ ∨
        ∃ seq : HashSeq, getBytes w₁ = .ok seq.bytes ∧
          Executes op (scheduleFrom (request.request.hash :: seq.iter) request.request.ranges 1) w₁
            (handlePush op getBytes request w).state) := by
  have hrest : ∀ w₁, (pushRest op getBytes request (request.request.ranges.iterAt 1) w₁).result = .ok () →
      (request.request.ranges.isBlob = true ∧
        (pushRest op getBytes request (request.request.ranges.iterAt 1) w₁).state = w₁ ∨
      ∃ seq : HashSeq, getBytes w₁ = .ok seq.bytes ∧
        Executes op (scheduleFrom (request.request.hash :: seq.iter) request.request.ranges 1) w₁
          (pushRest op getBytes request (request.request.ranges.iterAt 1) w₁).state) := by
    intro w₁ hok
    unfold pushRest at hok ⊢
    split at hok
    · rename_i hblob
      rw [if_pos hblob]
      exact Or.inl ⟨hblob, rfl⟩
    · rename_i hblob
      rw [if_neg hblob]
      cases hread : readHashSeq (getBytes w₁) with
      | error e =>
        rw [hread] at hok
        cases hok
      | ok seq =>
        rw [hread] at hok
        exact Or.inr ⟨seq, readHashSeq_eq_ok hread, executes_pushChildren _ seq.iter _ rfl w₁ hok⟩
  have hnext : request.request.ranges.iterInfinite.next =
      (request.request.ranges.get 0, request.request.ranges.iterAt 1) := request.request.ranges.next_iterAt 0
  unfold handlePush at hok ⊢
  rw [hnext] at hok ⊢
  simp only at hok ⊢
  cases he : (request.request.ranges.get 0).isEmpty with
  | true =>
    simp only [he, Bool.not_true, Bool.false_eq_true, ↓reduceIte] at hok ⊢
    exact ⟨w, Or.inl ⟨trivial, rfl⟩, hrest w hok⟩
  | false =>
    simp only [he, Bool.not_false, ↓reduceIte] at hok ⊢
    unfold Run.step at hok ⊢
    split at hok
    · rename_i w₁ hw
      simp only [hw]
      exact ⟨w₁, Or.inr rfl, hrest w₁ hok⟩
    · cases hok

end

/-! ### What a push brings -/

/-- The blobs were imported with success. -/
structure Brings (c : Contents) (items : List BlobItem) (w w' : World) : Prop where
  log : ∀ p ∈ w.log, p ∈ w'.log
  starts : ∀ p ∈ w.starts, p ∈ w'.starts
  sized : Allowed c w'.log → w.Sized c → w'.Sized c
  grows : Allowed c w'.log → w.Sized c → Grows w w'
  has : Allowed c w'.log → w.Sized c → ∀ item ∈ items, ∀ x ∈ item.ranges, Has (w'.entry item.hash) x

/-- What was pushed is local, and `is_complete` says so if the ranges are sorted. -/
structure Pushed (c : Contents) (traverse : ExportSource Hash → ChunkRanges → List (EncodedItem Hash)) (w : World)
    (request : GetRequest Hash) : Prop where
  everything : Local c w request
  isComplete : request.ranges.entries.Pairwise (fun a b => a.1 < b.1) →
    ∀ info : LocalInfo, info.BuiltFor (w.client traverse) request → Fuel.Returns info.isComplete true

section

variable {c : Contents} {responses : Responses c} {traverse : ExportSource Hash → ChunkRanges → List (EncodedItem Hash)}
  {options : InlineOptions} {w w' w'' : World} {items items' : List BlobItem}

private theorem Brings.refl (w : World) : Brings c [] w w :=
  ⟨fun _ hp => hp, fun _ hp => hp, fun _ h => h, fun _ _ _ _ hx => hx, by simp⟩

private theorem Brings.trans (h : Brings c items w w') (h' : Brings c items' w' w'') :
    Brings c (items ++ items') w w'' := by
  have hearlier : Allowed c w''.log → Allowed c w'.log := fun hallowed p hp => hallowed p (h'.log p hp)
  refine ⟨fun p hp => h'.log p (h.log p hp), fun p hp => h'.starts p (h.starts p hp), ?_, ?_, ?_⟩
  · intro hallowed hsized
    exact h'.sized hallowed (h.sized (hearlier hallowed) hsized)
  · intro hallowed hsized hash x hx
    exact h'.grows hallowed (h.sized (hearlier hallowed) hsized) hash x (h.grows (hearlier hallowed) hsized hash x hx)
  · intro hallowed hsized
    have hsized' := h.sized (hearlier hallowed) hsized
    rw [List.forall_mem_append]
    refine ⟨?_, h'.has hallowed hsized'⟩
    intro item hitem x hx
    exact h'.grows hallowed hsized' item.hash x (h.has (hearlier hallowed) hsized item hitem x hx)

/-- An import that succeeds has brought the ranges of the blob. -/
private theorem brings_importBlob {i : Nat} {hash : Hash} (hpos : 0 < c.size hash)
    {ranges : ChunkRanges} {fate : BlobFate}
    (h : importBlob responses options hash ranges fate w = (.ok (), w')) : Brings c [⟨i, hash, ranges⟩] w w' := by
  have hne : hash ≠ .EMPTY := by
    rintro rfl
    rw [Contents.size, c.empty] at hpos
    exact Nat.lt_irrefl 0 hpos
  unfold importBlob at h
  dsimp only at h
  split at h
  · rename_i hwriter hanswer
    cases h
    -- what the invariant says at the end
    have hrun : Allowed c (w.log ++ history options (Transfer.start hash (c.size hash)
        (Downloader.sentItems responses hash ranges fate.sent) fate.sent.isNone w.entries) fate.turns) →
        w.Sized c → _ :=
      fun hallowed hsized => (importInv_start hsized).run (fun _ => hpos) (leaves_sentItems fate.sent)
        (fun p hp => hallowed p (List.mem_append_right _ hp))
    generalize fate.turns.foldl (poll options)
      (Transfer.start hash (c.size hash) (Downloader.sentItems responses hash ranges fate.sent)
      fate.sent.isNone w.entries) = s at hwriter hanswer hrun ⊢
    have hkept : Allowed c (w.log ++ history options (Transfer.start hash (c.size hash)
        (Downloader.sentItems responses hash ranges fate.sent) fate.sent.isNone w.entries) fate.turns) → w.Sized c →
        Kept (c.size hash) (Downloader.sentItems responses hash ranges fate.sent) w.entries s := by
      intro hallowed hsized
      obtain ⟨hfinal, hhash, -⟩ := hrun hallowed hsized
      have hcases := hfinal.cases
      rw [hhash] at hcases
      rcases hcases with hfalse | hkept
      · cases hanswer.symm.trans hfalse
      · exact hkept
    refine ⟨fun p hp => List.mem_append_left _ hp, fun _ hp => hp, ?_, ?_, ?_⟩
    · intro hallowed hsized
      exact (hrun hallowed hsized).1.sized
    · intro hallowed hsized
      exact grows_of_entries (hkept hallowed hsized).keeps
    · intro hallowed hsized
      have hfinal := hkept hallowed hsized
      obtain ⟨-, hhash, hends⟩ := hrun hallowed hsized
      have hall : fate.sent = none := Option.isNone_iff_eq_none.mp (hends.symm.trans (hfinal.done hwriter).2)
      rw [List.forall_mem_singleton]
      intro x hx
      have hclaims : Claims (c.size hash) (Downloader.sentItems responses hash ranges fate.sent) x := by
        rw [hall]
        exact responses.covers hash ranges hpos x hx
      have hhas := (hfinal.answered hanswer).2 hwriter x hclaims
      rw [World.entry, if_neg hne]
      rw [hhash] at hhas
      exact hhas
  · cases h

variable (responses options) in
/-- An import that succeeds was recorded, too. -/
private theorem brings_importBaoQuinn {i : Nat} {hash : Hash} {ranges : ChunkRanges}
    (h : importBaoQuinn responses options hash ranges w = (.ok (), w')) :
    Brings c [⟨i, hash, ranges⟩] w w' ∧ (hash, w.entries) ∈ w'.starts := by
  have hmem : (hash, w.entries) ∈ w.starts ++ [(hash, w.entries)] := List.mem_append_right _ (List.mem_singleton_self _)
  unfold importBaoQuinn at h
  dsimp only at h
  split at h
  · cases h
  · split at h
    · cases h
    · split at h
      · split at h
        · rename_i hempty
          cases h
          refine ⟨⟨fun _ hp => hp, fun _ hp => List.mem_append_left _ hp, fun _ hsized => hsized,
            fun _ _ _ _ hx => hx, ?_⟩, hmem⟩
          intro _ _
          rw [List.forall_mem_singleton]
          intro x _
          rw [World.entry, if_pos hempty]
          exact ⟨_, rfl, RangeSet.mem_all x⟩
        · cases h
      · rename_i hsize
        have hbrings := brings_importBlob (i := i) (Nat.pos_of_ne_zero hsize) h
        exact ⟨⟨hbrings.log, fun p hp => hbrings.starts p (List.mem_append_left _ hp), hbrings.sized,
          hbrings.grows, hbrings.has⟩, hbrings.starts _ hmem⟩

/-- The import of one blob of the stream. -/
theorem brings_importBlob_of_ok {item : BlobItem} {v v₁ : World × List UInt8}
    (h : Events.importBlob (store responses traverse options) item.index item.hash item.ranges v = (.ok (), v₁)) :
    Brings c [item] v.1 v₁.1 ∧ (item.hash, v.1.entries) ∈ v₁.1.starts := by
  simp only [Events.importBlob, store, Prod.mk.injEq] at h
  obtain ⟨hok, rfl⟩ := h
  exact brings_importBaoQuinn responses options (by rw [← hok])

/-- Blobs that were imported one after the other. -/
private theorem brings_executes {v v' : World × List UInt8}
    (h : Executes (Events.importBlob (store responses traverse options)) items v v') : Brings c items v.1 v'.1 := by
  induction h with
  | nil v => exact .refl v.1
  | @cons item items v v₁ v' head tail ih => exact (brings_importBlob_of_ok head).1.trans ih

/-- The store before the first blob is recorded when its import starts. -/
private theorem start_of_imports {v v' : World × List UInt8}
    (h : Executes (Events.importBlob (store responses traverse options)) items v v') :
    items = [] ∧ v'.1 = v.1 ∨ ∃ item rest, items = item :: rest ∧ (item.hash, v.1.entries) ∈ v'.1.starts := by
  cases h with
  | nil => exact Or.inl ⟨rfl, rfl⟩
  | @cons item items _ v₁ _ head tail =>
    exact Or.inr ⟨item, items, rfl, (brings_executes tail).starts _ (brings_importBlob_of_ok head).2⟩

private theorem getBytes_store {root : Hash} {bytes : List UInt8}
    (h : StoreOps.getBytes (store responses traverse options) w root = .ok bytes) :
    dataToBytes (w.exportBao traverse root RangeSet.all) = .ok bytes := by
  unfold StoreOps.getBytes at h
  simp only [store] at h
  cases hbytes : dataToBytes (w.exportBao traverse root RangeSet.all) with
  | error e =>
    rw [hbytes] at h
    cases h
  | ok bytes' =>
    rw [hbytes] at h
    cases h
    rfl

/-- Nothing that was pushed is missing. -/
private theorem pushed_of_available {f : Merkle.HashFns UInt8 Hash} {request : GetRequest Hash}
    (ht : Traverses f request.hash traverse) (honly : OnlyBlob f request.hash (c.blob request.hash))
    (hsized : w.Sized c) (hreads : request.ranges.isBlob = true ∨ ReadsSeq f c request.hash w)
    (hfirst : ∀ x ∈ request.ranges.get 0, Has (w.entry request.hash) x)
    (hrest : ∀ i, (request.ranges.get (i + 1)).isEmpty = false → Available c w request i) :
    Pushed c traverse w request := by
  refine ⟨⟨hfirst, fun i hash hchild x hx => ?_⟩, fun hsorted info hbuilt => ?_⟩
  · have hlt := child_lt hchild
    rcases hrest i (RangeSet.isEmpty_eq_false_iff.mpr ⟨x, hx⟩) with ⟨b, -, -, hle⟩ | ⟨hash', hchild', -, hhas⟩
    · omega
    · rw [hchild, Option.some.injEq] at hchild'
      rw [hchild']
      exact hhas x hx
  · have hroot : rootRanges request = request.ranges.get 0 := ChunkRangesSeq.next_iter_of_sorted hsorted
    exact isComplete_of_found ht honly hbuilt hsized hreads ⟨by rw [hroot]; exact hfirst, hrest⟩

/-- `handle_push` has brought everything if it succeeds. -/
private theorem pushed_of_ok {f : Merkle.HashFns UInt8 Hash} {request : PushRequest Hash}
    (ht : Traverses f request.request.hash traverse)
    (honly : OnlyBlob f request.request.hash (c.blob request.request.hash))
    {v : World × List UInt8} (hsized : v.1.Sized c)
    (hok : (handlePush (Events.importBlob (store responses traverse options))
      (fun v => StoreOps.getBytes (store responses traverse options) v.1 request.request.hash) request v).result =
        .ok ())
    (hallowed : Allowed c (handlePush (Events.importBlob (store responses traverse options))
      (fun v => StoreOps.getBytes (store responses traverse options) v.1 request.request.hash) request v).state.1.log)
    (hreads : request.request.ranges.isBlob = true ∨ ReadsSeq f c request.request.hash
      (handlePush (Events.importBlob (store responses traverse options))
        (fun v => StoreOps.getBytes (store responses traverse options) v.1 request.request.hash) request v).state.1) :
    Pushed c traverse (handlePush (Events.importBlob (store responses traverse options))
      (fun v => StoreOps.getBytes (store responses traverse options) v.1 request.request.hash) request v).state.1
      request.request := by
  obtain ⟨v₁, hfirst, hrest⟩ := executes_handlePush hok
  generalize (handlePush (Events.importBlob (store responses traverse options))
    (fun v => StoreOps.getBytes (store responses traverse options) v.1 request.request.hash) request v).state = v'
    at hrest hallowed hreads ⊢
  -- the root
  have hroot : ∃ items, Brings c items v.1 v₁.1 ∧ ((request.request.ranges.get 0).isEmpty = true ∨
      (⟨0, request.request.hash, request.request.ranges.get 0⟩ : BlobItem) ∈ items) := by
    rcases hfirst with ⟨hempty, rfl⟩ | hop
    · exact ⟨[], .refl _, Or.inl hempty⟩
    · have hexec : Executes (Events.importBlob (store responses traverse options))
          [⟨0, request.request.hash, request.request.ranges.get 0⟩] v v₁ := .cons hop (.nil v₁)
      exact ⟨_, brings_executes hexec, Or.inr List.mem_cons_self⟩
  obtain ⟨items, hbrings, hitem⟩ := hroot
  -- the children
  have hchildren : ∃ items', Brings c items' v₁.1 v'.1 ∧ (request.request.ranges.isBlob = true ∨
      ∃ seq : HashSeq, seq.bytes = c.blob request.request.hash ∧
        (∀ x, x < Merkle.treeChunks (c.size request.request.hash) → Has (v₁.1.entry request.request.hash) x) ∧
        items' = scheduleFrom (request.request.hash :: seq.iter) request.request.ranges 1) := by
    rcases hrest with ⟨hblob, rfl⟩ | ⟨seq, hbytes, hexec⟩
    · exact ⟨[], .refl _, Or.inl hblob⟩
    · refine ⟨_, brings_executes hexec, hreads.imp_right (fun hreads => ?_)⟩
      obtain ⟨hblob, hall⟩ := whole_of_getBytes ht honly hreads (getBytes_store hbytes) (start_of_imports hexec)
      exact ⟨seq, hblob, hall, rfl⟩
  obtain ⟨items', hbrings', hseq⟩ := hchildren
  have hsized₁ := hbrings.sized (fun p hp => hallowed p (hbrings'.log p hp)) hsized
  have hsized' := hbrings'.sized hallowed hsized₁
  have hgrows := hbrings'.grows hallowed hsized₁
  refine pushed_of_available ht honly hsized' hreads ?_ ?_
  · intro x hx
    rcases hitem with hempty | hmem
    · exact absurd hx (RangeSet.isEmpty_iff.mp hempty x)
    · exact (hbrings.trans hbrings').has hallowed hsized _ (List.mem_append_left _ hmem) x hx
  · intro i hne
    rcases hseq with hblob | ⟨seq, hbytes, hall, rfl⟩
    · rw [get_succ_of_isBlob hblob] at hne
      cases hne
    · refine available_of_whole hsized' (fun x hx => hgrows _ x (hall x hx)) ((child_cases hbytes i).imp_right ?_)
      rintro ⟨hash, hchild, hlookup⟩
      exact ⟨hash, hchild, hbrings'.has hallowed hsized₁ _ (mem_scheduleFrom (by omega) hlookup hne)⟩

end

/-! ### The stream of a push -/

open Events

/-- A push that is reported as completed to the event handler has completed, and everything that was pushed is local,
whatever writes of the imports fail. -/
theorem push_local {c : Contents} {f : Merkle.HashFns UInt8 Hash} (responses : Responses c)
    {traverse : ExportSource Hash → ChunkRanges → List (EncodedItem Hash)} (options : InlineOptions)
    (request : PushRequest Hash)
    (ht : Traverses f request.request.hash traverse)
    (honly : OnlyBlob f request.request.hash (c.blob request.request.hash))
    {around : Surroundings World} (hstore : around.store = store responses traverse options) {w : World}
    (hsized : w.Sized c)
    (ctx : StreamContext) {handler : Handler} (hfresh : handler.Fresh)
    (fuel : Nat) {e : StreamEnd World} (h : ctx.handleStream around w (.push request) handler fuel = some e)
    (hallowed : Allowed c e.store.log)
    (hreads : request.request.ranges.isBlob = true ∨ ReadsSeq f c request.request.hash e.store) :
    (∀ stats, .completed stats ∈ e.handler.updates.delivered → e.completed = true) ∧
      (e.completed = true → Pushed c traverse e.store request.request) := by
  refine ⟨?_, ?_⟩
  · intro stats hmem
    obtain ⟨hends, hblobs⟩ := StreamContext.ends_withReader around hfresh h
    by_contra hnot
    have hfinal : e.final = .aborted e.stats := by simp [StreamEnd.final, hnot]
    by_cases hactive : ∃ tracker ∈ e.tracker, tracker.updates = .active
    · obtain ⟨tracker, htracker, hactive⟩ := hactive
      obtain ⟨reports, hreports, hsession, -⟩ := hends.session tracker htracker hactive
      rw [hblobs] at hreports
      cases hreports
      rw [hfinal] at hsession
      rcases hsession with hdelivered | ⟨-, hdelivered⟩
      · rw [hdelivered] at hmem
        simp at hmem
      · rw [hdelivered] at hmem
        simp at hmem
    · rw [hends.silent (fun tracker htracker hup => hactive ⟨tracker, htracker, hup⟩)] at hmem
      cases hmem
  · intro hcompleted
    simp only [StreamContext.handleStream, hstore, StreamContext.withReader, StreamContext.afterAdmission] at h
    split at h
    · cases h
      cases hcompleted
    · split at h
      · cases h
        have hok : ∀ r : Except ProviderError Unit, r.isOk = true → r = .ok () := by
          rintro (e | u) hr
          · cases hr
          · rfl
        exact pushed_of_ok ht honly (v := (w, ctx.rest)) hsized (hok _ hcompleted) hallowed hreads
      · cases h
        cases hcompleted

/-- A world in which a hash sequence is going to be pushed with its children.  The entry of the first child is
poisoned after the write of another task failed, and is reset before the child arrives. -/
def seqWorld : World :=
  ⟨fun hash => if hash = .replicate 2 then .poisoned else .nonExisting,
    [sends (some .none),
      ⟨true, none, [.other (.replicate 2) .nonExisting, .writer, .store (some .none), .writer, .store (some .none)]⟩,
      sends (some .none)],
    [], [], []⟩

def seqAround : Surroundings World :=
  ⟨store twoChildrenResponses traverseSeq ⟨16384, 16384⟩, ⟨fun _ => seqWorld, seqWorld⟩, fun _ => [], fun _ => []⟩

private theorem allowed_of_meets {c : Contents} {log : List (Transfer × Turn)} (h : Meets c log) : Allowed c log := by
  rintro ⟨s, turn⟩ hp
  have hmeets := h (s, turn) hp
  cases turn with
  | writer => exact trivial
  | store io => exact ⟨hmeets.1, hmeets.2.2⟩
  | other hash entry => exact hmeets

theorem push_local_twoChildren : ∃ e,
    loggedStream.handleStream seqAround seqWorld (.push ⟨seqRequest⟩) grantingHandler 0 = some e ∧
      (∃ stats, e.handler.updates.delivered = [.completed stats]) ∧
        Pushed twoChildren traverseSeq e.store seqRequest := by
  have hrun : ((loggedStream.handleStream seqAround seqWorld (.push ⟨seqRequest⟩) grantingHandler 0).map fun e =>
      e.handler.updates.delivered == [.completed ⟨0, 0, 35⟩] && e.store.log.all works && readsSeq e.store) =
        some true := by
    decide +kernel
  obtain ⟨e, he, hchecks⟩ := Option.map_eq_some_iff.mp hrun
  rw [Bool.and_eq_true, Bool.and_eq_true] at hchecks
  obtain ⟨⟨hdelivered, hlog⟩, hreads⟩ := hchecks
  rw [beq_iff_eq] at hdelivered
  have hsized : seqWorld.Sized twoChildren := by
    intro hash
    unfold seqWorld
    dsimp only
    split
    · exact Or.inl rfl
    · exact Or.inr trivial
  obtain ⟨hcompleted, hpushed⟩ :=
    push_local twoChildrenResponses ⟨16384, 16384⟩ ⟨seqRequest⟩ traverses_seq onlyBlob_seq rfl hsized
    loggedStream fresh_grantingHandler 0 he (allowed_of_meets (meets_of_works hlog)) (Or.inr (reads_of_readsSeq hreads))
  exact ⟨e, he, ⟨_, hdelivered⟩, hpushed (hcompleted _ (by rw [hdelivered]; exact List.mem_singleton_self _))⟩

end Push

end IrohBlobs
