import IrohBlobs.Get
import IrohBlobs.Missing
import IrohBlobs.StoredSeq

/-!
# Downloads

The model of `execute_get` in `api/downloader.rs`.  The providers are tried one after the other: what is local is
determined, what is missing is requested with `execute_get_sink`, and the items of each blob go through an import into
the store (`Transfer`).  The downloader succeeds as soon as everything is local, or one provider has sent everything.

A provider sends the right items, but it can stop at any time.  What a download did is recorded: all turns of its
transfers, each with the state before it, and the entries at the start of each transfer.  A download that succeeds has
brought everything (`download_local`), unless an import fails to write its last batch after the getter has sent all
items (`not_downloaded_lastWrite`), or the store can not read what it has of the hash sequence.
-/

namespace IrohBlobs

namespace Downloader

open Remote Get StoredSeq

/-- The contents of the blobs. -/
structure Contents where
  blob : Hash → List UInt8
  empty : blob .EMPTY = []

namespace Contents

variable (c : Contents)

def size (hash : Hash) : Nat := (c.blob hash).length

/-- The hash at an index of a blob that is a hash sequence. -/
def child (root : Hash) (i : Nat) : Option Hash := (HashSeq.new (c.blob root)).bind (fun seq => seq.get i)

end Contents

/-- What the `bao_tree` crate sends for ranges of a blob: leaves of the blob, for all chunks of the ranges, and the
last chunk if the ranges reach beyond the end. -/
structure Responses (c : Contents) where
  items : Hash → ChunkRanges → List (BaoContentItem Hash)
  leaves : ∀ hash ranges leaf, .leaf leaf ∈ items hash ranges → CurrentSize.LeafOf (c.size hash) leaf
  covers : ∀ hash ranges, 0 < c.size hash → ∀ x ∈ ranges, Claims (c.size hash) (items hash ranges) x

/-- What happens with a blob: whether its header arrives, how many items are sent if not all of them are, and the
turns of the transfer. -/
structure BlobFate where
  header : Bool
  sent : Option Nat
  turns : List Turn

/-- What happens with a provider: what other tasks do before, whether there is a connection, whether the request is
sent, what happens with the blobs of the response, and how it ends. -/
structure Provider where
  before : List Turn
  connects : Bool
  sent : Except GetError Unit
  blobs : List BlobFate
  closing : Except GetError Unit

/-- The entries of the store, what is going to happen with the next blobs, the answers of the imports of the current
provider, all turns so far, and the blobs that were requested so far, each with the entries at that time. -/
structure World where
  entries : Hash → BaoFileStorage Hash
  fates : List BlobFate
  answers : List Bool
  log : List (Transfer × Turn)
  starts : List (Hash × (Hash → BaoFileStorage Hash))

/-- The entry of the empty blob is always complete. -/
def World.entry (w : World) (hash : Hash) : BaoFileStorage Hash :=
  if hash = .EMPTY then .complete ⟨.empty, 0, .empty⟩ else w.entries hash

section

variable {c : Contents} (responses : Responses c) (traverse : ExportSource Hash → ChunkRanges → List (EncodedItem Hash))
  (options : InlineOptions)

/-- An export of an entry of the store, with the given traversal. -/
def World.exportBao (w : World) (hash : Hash) (ranges : ChunkRanges) : ExportBaoProgress :=
  .ok (exportBaoImpl traverse .EMPTY hash (w.entry hash) ranges)

/-- The store as `local_for_request` sees it. -/
def World.client (w : World) : StoreClient Unit where
  observe _ hash :=
    match (w.entry hash).bitfield with
    | some bitfield => .ok bitfield
    | none => .error ()
  exportBao := w.exportBao traverse

/-- `get_bytes` -/
def getBytes (root : Hash) (w : World) : Except GetError (List UInt8) :=
  match dataToBytes (w.exportBao traverse root RangeSet.all) with
  | .ok bytes => .ok bytes
  | .error _ => .error .localFailure

/-- The items that a provider sends of a response. -/
def sentItems (hash : Hash) (ranges : ChunkRanges) : Option Nat → List (BaoContentItem Hash)
  | none => responses.items hash ranges
  | some sent => (responses.items hash ranges).take sent

/-- The part of `get_blob_ranges_impl` after the header.  A transfer that is not done when its turns are over is given
up. -/
def transferBlob (hash : Hash) (ranges : ChunkRanges) (fate : BlobFate) (w : World) : Except GetError Unit × World :=
  let start := Transfer.start hash (c.size hash) (sentItems responses hash ranges fate.sent) fate.sent.isNone w.entries
  let s := fate.turns.foldl (Transfer.poll options) start
  let log := w.log ++ start.history options fate.turns
  match s.writer, s.answer with
  | .done, some answer => (.ok (), { w with entries := s.entries, answers := w.answers ++ [answer], log })
  | _, _ => (.error .localFailure, { w with entries := s.entries, log })

/-- `get_blob_ranges_impl` -/
def getBlobRanges : Op World GetError := fun _ hash ranges w =>
  let w := { w with starts := w.starts ++ [(hash, w.entries)] }
  match w.fates with
  | [] => (.error .atBlobHeaderNext, w)
  | fate :: fates =>
    if fate.header = false then (.error .atBlobHeaderNext, { w with fates })
    else if c.size hash = 0 then
      -- there is nothing to import
      if hash = .EMPTY ∧ fate.sent = none then (.ok (), { w with fates }) else (.error .decode, { w with fates })
    else transferBlob responses options hash ranges fate { w with fates }

/-- Other tasks of the store take turns. -/
def World.wait (w : World) (turns : List Turn) : World :=
  { w with
    entries := (turns.foldl (Transfer.poll options) (Transfer.idle w.entries)).entries
    log := w.log ++ (Transfer.idle w.entries).history options turns }

inductive DownloadError
  | local
  | unable
  deriving DecidableEq

/-- `execute_get` -/
def executeGet (request : GetRequest Hash) (fuel : Nat) :
    List Provider → World → Option (Except DownloadError Unit × World)
  | [], w => some (.error .unable, w)
  | provider :: providers, w =>
    let w := w.wait options provider.before
    match localForRequest (w.client traverse) request fuel with
    | none => none
    | some (.error _) => some (.error .local, w)
    | some (.ok info) =>
      match info.isComplete fuel with
      | none => none
      | some true => some (.ok (), w)
      | some false =>
        if provider.connects = false then executeGet request fuel providers w
        else
          (info.missing fuel).bind fun missing =>
            (executeGetSink (getBlobRanges responses options) (fun _ _ => provider.closing)
              (getBytes traverse request.hash)
              provider.sent missing fuel { w with fates := provider.blobs, answers := [] }).bind fun run =>
                match run.result with
                | .ok () => some (.ok (), run.state)
                | .error _ => executeGet request fuel providers run.state

end

/-! ### What a download does to the store -/

/-- All turns meet the condition. -/
def Meets (c : Contents) (log : List (Transfer × Turn)) : Prop := ∀ p ∈ log, p.2.Meets c.size p.1

def World.Sized (c : Contents) (w : World) : Prop := ∀ hash, Remote.Sized (c.size hash) (w.entries hash)

/-- What is recorded grows.  If the turns meet the condition, the entries keep the right sizes, and no import answers
with an error. -/
structure Step (c : Contents) (w w' : World) : Prop where
  log : ∀ p ∈ w.log, p ∈ w'.log
  starts : ∀ p ∈ w.starts, p ∈ w'.starts
  sized : Meets c w'.log → w.Sized c → w'.Sized c
  answers : Meets c w'.log → w.Sized c → (∀ answer ∈ w.answers, answer = true) → ∀ answer ∈ w'.answers, answer = true

/-- Nothing is removed from the store. -/
def Grows (w w' : World) : Prop := ∀ hash x, Has (w.entry hash) x → Has (w'.entry hash) x

section

variable {c : Contents} {responses : Responses c} {options : InlineOptions} {w w' w'' : World}

/-- The log, the entries and the answers stay. -/
theorem Step.same (hlog : w'.log = w.log) (hstarts : ∀ p ∈ w.starts, p ∈ w'.starts) (hentries : w'.entries = w.entries)
    (hanswers : ∀ answer ∈ w'.answers, answer ∈ w.answers) : Step c w w' := by
  refine ⟨fun p hp => hlog ▸ hp, hstarts, ?_, fun _ _ hall answer hmem => hall answer (hanswers answer hmem)⟩
  intro _ hsized hash
  rw [hentries]
  exact hsized hash

private theorem Step.refl (w : World) : Step c w w := Step.same rfl (fun _ hp => hp) rfl (fun _ hmem => hmem)

private theorem Step.trans (h : Step c w w') (h' : Step c w' w'') : Step c w w'' := by
  refine ⟨fun p hp => h'.log p (h.log p hp), fun p hp => h'.starts p (h.starts p hp), ?_, ?_⟩
  · intro hmeets hsized
    exact h'.sized hmeets (h.sized (fun p hp => hmeets p (h'.log p hp)) hsized)
  · intro hmeets hsized hall
    have hmeets₁ : Meets c w'.log := fun p hp => hmeets p (h'.log p hp)
    exact h'.answers hmeets (h.sized hmeets₁ hsized) (h.answers hmeets₁ hsized hall)

theorem grows_of_entries (h : ∀ hash x, Has (w.entries hash) x → Has (w'.entries hash) x) : Grows w w' := by
  intro hash x hx
  unfold World.entry at hx ⊢
  split
  · exact ⟨_, rfl, RangeSet.mem_all x⟩
  · rename_i hne
    rw [if_neg hne] at hx
    exact h hash x hx

private theorem sized_entry (h : w.Sized c) (hash : Hash) : Remote.Sized (c.size hash) (w.entry hash) := by
  unfold World.entry
  split
  · rename_i heq
    refine Or.inr ?_
    rw [heq, Contents.size, c.empty]
    rfl
  · exact h hash

theorem leaves_sentItems {hash : Hash} {ranges : ChunkRanges} (sent : Option Nat) :
    ∀ leaf, .leaf leaf ∈ sentItems responses hash ranges sent → CurrentSize.LeafOf (c.size hash) leaf := by
  intro leaf hleaf
  cases sent with
  | none => exact responses.leaves hash ranges leaf hleaf
  | some sent => exact responses.leaves hash ranges leaf (List.mem_of_mem_take hleaf)

/-- Other tasks of the store. -/
private theorem step_wait (turns : List Turn) : Step c w (w.wait options turns) := by
  refine ⟨fun p hp => List.mem_append_left _ hp, fun _ hp => hp, ?_, fun _ _ hall => hall⟩
  intro hmeets hsized
  have hidle : TransferInv c.size [] w.entries (Transfer.idle w.entries) := transferInv_idle hsized
  have hrun : TransferInv c.size [] w.entries (turns.foldl (Transfer.poll options) (Transfer.idle w.entries)) := by
    apply hidle.run
    · intro hanswer
      cases hanswer
    · intro leaf hleaf
      cases hleaf
    · exact fun p hp => hmeets p (List.mem_append_right _ hp)
  exact hrun.sized

/-- What handling a blob does. -/
structure Handled (hash : Hash) (ranges : ChunkRanges) (w w' : World) : Prop where
  grows : Grows w w'
  has : ∀ x ∈ ranges, Has (w'.entry hash) x

variable (responses options) in
private theorem step_transferBlob {hash : Hash} (hpos : 0 < c.size hash) (ranges : ChunkRanges)
    (fate : BlobFate) (w : World) :
    Step c w (transferBlob responses options hash ranges fate w).2 ∧
      ∀ w', transferBlob responses options hash ranges fate w = (.ok (), w') → Meets c w'.log → w.Sized c →
        Handled hash ranges w w' := by
  have hinv : ∀ log, Meets c log →
      (∀ p ∈ (Transfer.start hash (c.size hash) (sentItems responses hash ranges fate.sent) fate.sent.isNone
        w.entries).history
        options fate.turns, p ∈ log) → w.Sized c →
      TransferInv c.size (sentItems responses hash ranges fate.sent) w.entries (fate.turns.foldl (Transfer.poll options)
        (Transfer.start hash (c.size hash) (sentItems responses hash ranges fate.sent)
          fate.sent.isNone w.entries)) := by
    intro log hmeets hlog hsized
    apply (transferInv_start hsized).run
    · exact fun _ => hpos
    · exact leaves_sentItems fate.sent
    · exact fun p hp => hmeets p (hlog p hp)
  have hne : hash ≠ .EMPTY := by
    rintro rfl
    rw [Contents.size, c.empty] at hpos
    exact Nat.lt_irrefl 0 hpos
  unfold transferBlob
  dsimp only
  split
  · rename_i answer hwriter hanswer
    refine ⟨⟨fun p hp => List.mem_append_left _ hp, fun _ hp => hp, ?_, ?_⟩, ?_⟩
    · intro hmeets hsized
      exact (hinv _ hmeets (fun p hp => List.mem_append_right _ hp) hsized).sized
    · intro hmeets hsized hall answer' hmem
      rcases List.mem_append.mp hmem with hmem | hmem
      · exact hall answer' hmem
      · rw [List.mem_singleton.mp hmem]
        exact ((hinv _ hmeets (fun p hp => List.mem_append_right _ hp) hsized).done hwriter hanswer).1
    · rintro w' ⟨⟩ hmeets hsized
      have hfinal := hinv _ hmeets (fun p hp => List.mem_append_right _ hp) hsized
      obtain ⟨-, hends, hkeeps, hhas⟩ := hfinal.done hwriter hanswer
      obtain ⟨hhash, hsent⟩ := fixed_run
        (Transfer.start hash (c.size hash) (sentItems responses hash ranges fate.sent) fate.sent.isNone w.entries)
          options fate.turns
      have hall : fate.sent = none := Option.isNone_iff_eq_none.mp (hsent.symm.trans hends)
      rw [hhash] at hhas
      refine ⟨grows_of_entries hkeeps, ?_⟩
      intro x hx
      have hclaims : Claims (c.size hash) (sentItems responses hash ranges fate.sent) x := by
        rw [hall]
        exact responses.covers hash ranges hpos x hx
      rw [World.entry, if_neg hne]
      exact hhas x hclaims
  · refine ⟨⟨fun p hp => List.mem_append_left _ hp, fun _ hp => hp, ?_, fun _ _ hall => hall⟩, ?_⟩
    · intro hmeets hsized
      exact (hinv _ hmeets (fun p hp => List.mem_append_right _ hp) hsized).sized
    · rintro w' ⟨⟩

variable (responses options) in
private theorem step_getBlobRanges (i : Nat) (hash : Hash) (ranges : ChunkRanges) (w : World) :
    Step c w (getBlobRanges responses options i hash ranges w).2 ∧
      ∀ w', getBlobRanges responses options i hash ranges w = (.ok (), w') → Meets c w'.log → w.Sized c →
        Handled hash ranges w w' := by
  have hsame : ∀ fates, Step c w { w with fates, starts := w.starts ++ [(hash, w.entries)] } :=
    fun fates => Step.same rfl (fun p hp => List.mem_append_left _ hp) rfl (fun _ hmem => hmem)
  unfold getBlobRanges
  dsimp only
  split
  · refine ⟨hsame w.fates, ?_⟩
    rintro w' ⟨⟩
  · rename_i fate fates hfates
    split
    · refine ⟨hsame fates, ?_⟩
      rintro w' ⟨⟩
    · split
      · split
        · rename_i hempty
          refine ⟨hsame fates, ?_⟩
          rintro w' ⟨⟩ hmeets hsized
          refine ⟨fun _ _ hx => hx, ?_⟩
          intro x _
          rw [World.entry, if_pos hempty.1]
          exact ⟨_, rfl, RangeSet.mem_all x⟩
        · refine ⟨hsame fates, ?_⟩
          rintro w' ⟨⟩
      · rename_i hsize
        obtain ⟨hstep, hhandled⟩ := step_transferBlob responses options (Nat.pos_of_ne_zero hsize) ranges fate
          { w with fates, starts := w.starts ++ [(hash, w.entries)] }
        refine ⟨(hsame fates).trans hstep, ?_⟩
        intro w' hw' hmeets hsized
        obtain ⟨hgrows, hhas⟩ := hhandled w' hw' hmeets hsized
        exact ⟨hgrows, hhas⟩

variable (responses options) in
/-- What is recorded of a blob that is requested. -/
private theorem mem_starts_getBlobRanges (i : Nat) (hash : Hash) (ranges : ChunkRanges) (w : World) :
    (hash, w.entries) ∈ (getBlobRanges responses options i hash ranges w).2.starts := by
  have hmem : (hash, w.entries) ∈ w.starts ++ [(hash, w.entries)] := List.mem_append_right _ (List.mem_singleton_self _)
  unfold getBlobRanges
  dsimp only
  split
  · exact hmem
  · split
    · exact hmem
    · split
      · split
        · exact hmem
        · exact hmem
      · unfold transferBlob
        dsimp only
        split
        · exact hmem
        · exact hmem

/-- What handling several blobs does. -/
private theorem executes_handled {items : List BlobItem} (h : Executes (getBlobRanges responses options) items w w') :
    Step c w w' ∧ (Meets c w'.log → w.Sized c → Grows w w' ∧
      ∀ item ∈ items, ∀ x ∈ item.ranges, Has (w'.entry item.hash) x) := by
  induction h with
  | nil w =>
    refine ⟨Step.refl w, fun _ _ => ⟨fun _ _ hx => hx, ?_⟩⟩
    intro item hitem
    cases hitem
  | @cons item items w w₁ w' head tail ih =>
    obtain ⟨hstep, hhandled⟩ := step_getBlobRanges responses options item.index item.hash item.ranges w
    rw [head] at hstep
    refine ⟨hstep.trans ih.1, ?_⟩
    intro hmeets hsized
    have hmeets₁ : Meets c w₁.log := fun p hp => hmeets p (ih.1.log p hp)
    obtain ⟨hgrows, hhas⟩ := hhandled w₁ head hmeets₁ hsized
    obtain ⟨hgrows', hhas'⟩ := ih.2 hmeets (hstep.sized hmeets₁ hsized)
    refine ⟨fun hash x hx => hgrows' hash x (hgrows hash x hx), ?_⟩
    rw [List.forall_mem_cons]
    exact ⟨fun x hx => hgrows' item.hash x (hhas x hx), hhas'⟩

end

/-! ### What is local -/

/-- Every requested chunk of the root, and of every child that exists, is in the store. -/
structure Local (c : Contents) (w : World) (request : GetRequest Hash) : Prop where
  root : ∀ x ∈ request.ranges.get 0, Has (w.entry request.hash) x
  child : ∀ i hash, c.child request.hash i = some hash → ∀ x ∈ request.ranges.get (i + 1), Has (w.entry hash) x

/-- The ranges that are read for the root, with the finite iterator. -/
def rootRanges (request : GetRequest Hash) : ChunkRanges := (request.ranges.iter.next.map Prod.fst).getD ∅

/-- The requested chunks of a child are there, and so is the chunk with its hash.  Otherwise the child lies after the
end of the hash sequence, whose size is known. -/
def Available (c : Contents) (w : World) (request : GetRequest Hash) (i : Nat) : Prop :=
  (∃ b, (w.entry request.hash).bitfield = some b ∧ b.isValidated = true ∧ c.size request.hash / 32 ≤ i) ∨
    ∃ hash, c.child request.hash i = some hash ∧ Covers (c.size request.hash) (w.entry request.hash) (i * 32 / 1024) ∧
      ∀ x ∈ request.ranges.get (i + 1), Has (w.entry hash) x

/-- What a `LocalInfo` for which `is_complete` holds has found. -/
structure Found (c : Contents) (w : World) (request : GetRequest Hash) : Prop where
  root : ∀ x ∈ rootRanges request, Has (w.entry request.hash) x
  child : ∀ i, (request.ranges.get (i + 1)).isEmpty = false → Available c w request i

/-- The root is a hash sequence.  When a child is requested, and in the end, its entry is settled. -/
structure ReadsSeq (f : Merkle.HashFns UInt8 Hash) (c : Contents) (root : Hash) (w : World) : Prop where
  seq : c.size root % 32 = 0
  children : root ≠ .EMPTY → ∀ p ∈ w.starts, (∃ i, c.child root i = some p.1) → Settled f root (p.2 root)
  atEnd : root ≠ .EMPTY → Settled f root (w.entries root)

section

variable {c : Contents} {traverse : ExportSource Hash → ChunkRanges → List (EncodedItem Hash)} {w : World}
  {request : GetRequest Hash} {info : LocalInfo} {f : Merkle.HashFns UInt8 Hash}

/-- A child that exists lies before the end. -/
theorem child_lt {root hash : Hash} {i : Nat} (h : c.child root i = some hash) : i < c.size root / 32 := by
  obtain ⟨seq, hseq, hget⟩ := Option.bind_eq_some_iff.mp h
  unfold HashSeq.get at hget
  split at hget
  · rename_i hlt
    rw [HashSeq.len, HashSeq.new_eq_some hseq] at hlt
    exact hlt
  · cases hget

private theorem ne_empty_of_child {root hash : Hash} {i : Nat} (h : c.child root i = some hash) : root ≠ .EMPTY := by
  rintro rfl
  have hlt := child_lt h
  rw [Contents.size, c.empty] at hlt
  exact Nat.not_lt_zero i hlt

/-- If everything was found, it is local. -/
private theorem Found.isLocal (h : Found c w request) (hroot : ∀ x ∈ request.ranges.get 0, x ∈ rootRanges request) :
    Local c w request := by
  refine ⟨fun x hx => h.root x (hroot x hx), ?_⟩
  intro i hash hchild x hx
  have hlt := child_lt hchild
  rcases h.child i (RangeSet.isEmpty_eq_false_iff.mpr ⟨x, hx⟩) with ⟨b, -, -, hle⟩ | ⟨hash', hchild', -, hhas⟩
  · omega
  · rw [hchild, Option.some.injEq] at hchild'
    rw [hchild']
    exact hhas x hx

private theorem observe_client {n : Nat} {hash : Hash} {b : Bitfield} :
    (w.client traverse).observe n hash = .ok b ↔ (w.entry hash).bitfield = some b := by
  cases hb : (w.entry hash).bitfield with
  | none => simp [World.client, hb]
  | some b' => simp [World.client, hb]

/-- A validated size is the right one. -/
theorem validated_size (hsized : w.Sized c) {hash : Hash} {b : Bitfield} (hb : (w.entry hash).bitfield = some b)
    (hvalid : b.isValidated = true) : b.size = c.size hash ∧ (w.entry hash).currentSize = some (c.size hash) := by
  rcases sized_entry hsized hash with hnone | hinv
  · rw [hb] at hnone
    cases hnone
  · exact hinv.rightSize b hb hvalid

private theorem validatedSize_iff (hsized : w.Sized c) {hash : Hash} {b : Bitfield}
    (hb : (w.entry hash).bitfield = some b) {size : Nat} :
    b.validatedSize = some size ↔ b.isValidated = true ∧ size = c.size hash := by
  unfold Bitfield.validatedSize
  split
  · rename_i hvalid
    rw [(validated_size hsized hb hvalid).1, Option.some.injEq, and_iff_right hvalid]
    exact eq_comm
  · rename_i hnot
    simp [hnot]

/-- The leaves that are exported end within the entry. -/
theorem within_client (ht : Traverses f request.hash traverse) (hsized : w.Sized c) :
    ExportsWithin (w.client traverse) request.hash := by
  rintro bitfield size items leaf hobserve hsize ⟨⟩ hleaf
  have hb := observe_client.mp hobserve
  obtain ⟨hvalid, rfl⟩ := (validatedSize_iff hsized hb).mp hsize
  rcases StoredSeq.exportBaoImpl_cases traverse request.hash
    (w.entry request.hash) bitfield.ranges with heq | ⟨heq, -⟩ | ⟨src, hroot, hsrc, heq⟩
  · rw [heq] at hleaf
    simp at hleaf
  · rw [heq] at hleaf
    cases hleaf
  · rw [heq] at hleaf
    obtain ⟨first, stop, hof, -⟩ := ht.leaf src bitfield.ranges leaf hroot hleaf
    have hcurrent := (validated_size hsized hb hvalid).2
    rw [BaoFileStorage.currentSize_eq _ request.hash, hsrc, Option.map_some, Option.some.injEq] at hcurrent
    have hoffset := hof.offset
    have hlength := hof.length
    have hlt := hof.lt
    have hle := hof.le
    have htree : Merkle.treeChunks src.size = max 1 ((src.size + 1023) / 1024) := rfl
    omega

/-- The children of a hash sequence. -/
theorem exists_seq {root : Hash} (h : c.size root % 32 = 0) :
    ∃ seq : HashSeq, seq.bytes = c.blob root ∧ ∀ i, c.child root i = seq.get i := by
  refine ⟨⟨c.blob root, h⟩, rfl, fun i => ?_⟩
  have hnew := HashSeq.new_bytes ⟨c.blob root, h⟩
  dsimp only at hnew
  rw [Contents.child, hnew, Option.bind_some]

/-- A child that is known has the right hash, and the chunk with its hash is there. -/
theorem known_sound (ht : Traverses f request.hash traverse) (honly : OnlyBlob f request.hash (c.blob request.hash))
    (hbuilt : info.BuiltFor (w.client traverse) request) (hseq : c.size request.hash % 32 = 0) {i : Nat} {b : Bitfield}
    (hk : info.known i = some b) :
    ∃ hash, c.child request.hash i = some hash ∧ Covers (c.size request.hash) (w.entry request.hash) (i * 32 / 1024) ∧
      (w.entry hash).bitfield = some b := by
  obtain ⟨-, hobserve, -⟩ := hbuilt.cases
  rw [observe_client] at hobserve
  obtain ⟨seq, hbytes, hchild⟩ := exists_seq hseq
  rw [← hbytes] at honly
  obtain ⟨hash, n, hmem, hbitfield⟩ := hbuilt.known_observed hk
  obtain ⟨hget, x, hx, hc⟩ := child_of_export ht honly hmem
  rw [hbytes] at hc
  exact ⟨hash, by rw [hchild, hget], ⟨x, ⟨_, hobserve, hx⟩, hc⟩, observe_client.mp hbitfield⟩

/-- A child whose hash can be read is known. -/
private theorem known_of_covers (ht : Traverses f request.hash traverse)
    (honly : OnlyBlob f request.hash (c.blob request.hash))
    (hbuilt : info.BuiltFor (w.client traverse) request) (hblob : request.ranges.isBlob = false)
    (hseq : c.size request.hash % 32 = 0) (hsettled : Settled f request.hash (w.entry request.hash)) {i : Nat}
    (hne : (request.ranges.get (i + 1)).isEmpty = false) {hash : Hash} (hchild : c.child request.hash i = some hash)
    (hcovers : Covers (c.size request.hash) (w.entry request.hash) (i * 32 / 1024)) {b : Bitfield}
    (hb : (w.entry hash).bitfield = some b) : info.known i = some b := by
  obtain ⟨-, hobserve, -⟩ := hbuilt.cases
  rw [observe_client] at hobserve
  obtain ⟨seq, hbytes, hget⟩ := exists_seq hseq
  obtain ⟨x, ⟨b', hb', hx⟩, hc⟩ := hcovers
  rw [hobserve, Option.some.injEq] at hb'
  subst hb'
  have hmem : .ok (i, hash) ∈ hashesWithIndex ((w.client traverse).exportBao request.hash info.bitfield.ranges) := by
    rw [← hbytes] at honly
    refine export_of_child ht honly hsettled hobserve (by rw [← hget, hchild]) hx ?_
    rw [hbytes]
    exact hc
  obtain ⟨b', hk⟩ := Option.isSome_iff_exists.mp ((hbuilt.known_isSome_iff hblob i hne).mpr ⟨hash, hmem⟩)
  obtain ⟨hash', hchild', -, hb'⟩ := known_sound ht honly hbuilt hseq hk
  rw [hchild, Option.some.injEq] at hchild'
  subst hchild'
  rw [hb, Option.some.injEq] at hb'
  rw [hk, hb']

private theorem isBlob_of_nonempty {i : Nat} (hne : (request.ranges.get (i + 1)).isEmpty = false) :
    request.ranges.isBlob = false := by
  by_contra hblob
  rw [get_succ_of_isBlob (by simpa using hblob)] at hne
  cases hne

private theorem mem_bitfield_iff (hbuilt : info.BuiltFor (w.client traverse) request) {x : Nat} :
    x ∈ info.bitfield.ranges ↔ Has (w.entry request.hash) x := by
  obtain ⟨-, hobserve, -⟩ := hbuilt.cases
  rw [observe_client] at hobserve
  constructor
  · intro hx
    exact ⟨_, hobserve, hx⟩
  · rintro ⟨b, hb, hx⟩
    rw [hobserve, Option.some.injEq] at hb
    rwa [hb]

private theorem rootRequested_eq (hbuilt : info.BuiltFor (w.client traverse) request) :
    info.rootRequested = rootRanges request := by
  rw [LocalInfo.rootRequested, LocalInfo.requestedRootRanges, hbuilt.cases.1, rootRanges]

private theorem requested_eq (hbuilt : info.BuiltFor (w.client traverse) request) (i : Nat) :
    info.requested i = request.ranges.get i := by
  rw [LocalInfo.requested, hbuilt.cases.1]

/-- If `is_complete` holds, everything was found. -/
private theorem found_of_isComplete (ht : Traverses f request.hash traverse)
    (honly : OnlyBlob f request.hash (c.blob request.hash))
    (hbuilt : info.BuiltFor (w.client traverse) request) (hsized : w.Sized c)
    (hseq : request.ranges.isBlob = true ∨ c.size request.hash % 32 = 0)
    (hcomplete : Fuel.Returns info.isComplete true) :
    Found c w request := by
  obtain ⟨b, hreturns, hiff⟩ := LocalInfo.isComplete_spec (hbuilt.coherent (within_client ht hsized))
  obtain ⟨hroot, hchild⟩ := hiff.mp (hreturns.unique hcomplete)
  have hobserve := hbuilt.cases.2.1
  rw [observe_client] at hobserve
  rw [rootRequested_eq hbuilt] at hroot
  refine ⟨fun x hx => (mem_bitfield_iff hbuilt).mp (hroot x hx), fun i hne => ?_⟩
  have hblob := isBlob_of_nonempty hne
  have hseq := hseq.resolve_left (by rw [hblob]; simp)
  rcases hchild i (by rw [requested_eq hbuilt]; exact hne) with ⟨size, hsize, hle⟩ | ⟨b', hk, hx⟩
  · obtain ⟨hvalid, rfl⟩ := (validatedSize_iff hsized hobserve).mp hsize
    exact Or.inl ⟨_, hobserve, hvalid, hle⟩
  · obtain ⟨hash, hhash, hcovers, hb'⟩ := known_sound ht honly hbuilt hseq hk
    rw [requested_eq hbuilt] at hx
    exact Or.inr ⟨hash, hhash, hcovers, fun x hmem => ⟨b', hb', hx x hmem⟩⟩

/-- If everything was found and the hashes can be read, `is_complete` holds. -/
theorem isComplete_of_found (ht : Traverses f request.hash traverse)
    (honly : OnlyBlob f request.hash (c.blob request.hash))
    (hbuilt : info.BuiltFor (w.client traverse) request) (hsized : w.Sized c)
    (hreads : request.ranges.isBlob = true ∨ ReadsSeq f c request.hash w) (h : Found c w request) :
    Fuel.Returns info.isComplete true := by
  obtain ⟨b, hreturns, hiff⟩ := LocalInfo.isComplete_spec (hbuilt.coherent (within_client ht hsized))
  have hobserve := hbuilt.cases.2.1
  rw [observe_client] at hobserve
  have hb : b = true := by
    refine hiff.mpr ⟨?_, fun i hne => ?_⟩
    · rw [rootRequested_eq hbuilt]
      exact fun x hx => (mem_bitfield_iff hbuilt).mpr (h.root x hx)
    · rw [requested_eq hbuilt] at hne
      have hblob := isBlob_of_nonempty hne
      have hreads := hreads.resolve_left (by rw [hblob]; simp)
      rcases h.child i hne with ⟨b', hb', hvalid, hle⟩ | ⟨hash, hhash, hcovers, hx⟩
      · rw [hobserve, Option.some.injEq] at hb'
        subst hb'
        exact Or.inl ⟨_, (validatedSize_iff hsized hobserve).mpr ⟨hvalid, rfl⟩, hle⟩
      · obtain ⟨x, hmem⟩ := RangeSet.isEmpty_eq_false_iff.mp hne
        obtain ⟨b', hb', -⟩ := hx x hmem
        have hroot := ne_empty_of_child hhash
        have hsettled : Settled f request.hash (w.entry request.hash) := by
          rw [World.entry, if_neg hroot]
          exact hreads.atEnd hroot
        refine Or.inr ⟨b', known_of_covers ht honly hbuilt hblob hreads.seq hsettled hne hhash hcovers hb', ?_⟩
        rw [requested_eq hbuilt]
        intro y hy
        obtain ⟨b'', hb'', hmem'⟩ := hx y hy
        rw [hb', Option.some.injEq] at hb''
        rwa [hb'']
  rw [hb] at hreturns
  exact hreturns

/-- The size of a blob is known if its last chunk is local. -/
private theorem isValidated_iff {S : Nat} {entry : BaoFileStorage Hash} {b : Bitfield}
    (h : CurrentSize.EntryInv S entry)
    (hb : entry.bitfield = some b) : b.isValidated = true ↔ Merkle.chunks S - 1 ∈ b.ranges := by
  have hof : (∀ x ∈ b.ranges, 0 < S) → (b.isValidated = true ↔ Merkle.chunks S - 1 ∈ b.ranges) := by
    intro hpos
    have hfits := fits_of_entryInv h hb
    exact ⟨fun hvalid => ((CurrentSize.validated_iff hfits hpos).mp hvalid).1, CurrentSize.validated_of_last hfits hpos⟩
  cases entry with
  | nonExisting =>
    cases hb
    exact hof (fun x hx => absurd hx (RangeSet.not_mem_empty x))
  | partialFile fs =>
    cases hb
    exact hof h.pos
  | complete s =>
    cases hb
    refine iff_of_true ?_ (RangeSet.mem_all _)
    unfold Bitfield.isValidated
    split
    · exact RangeSet.isAll_iff.mpr RangeSet.mem_all
    · exact RangeSet.mem_iff.mp (RangeSet.mem_all _)
  | _ => exact False.elim h

private theorem exists_validated_iff (hsized : w.Sized c) (hash : Hash) :
    (∃ b, (w.entry hash).bitfield = some b ∧ b.isValidated = true) ↔
      Has (w.entry hash) (Merkle.chunks (c.size hash) - 1) := by
  rcases sized_entry hsized hash with hnone | hinv
  · refine iff_of_false ?_ ?_
    · rintro ⟨b, hb, -⟩
      cases hnone.symm.trans hb
    · rintro ⟨b, hb, -⟩
      cases hnone.symm.trans hb
  · constructor
    · rintro ⟨b, hb, hvalid⟩
      exact ⟨b, hb, (isValidated_iff hinv hb).mp hvalid⟩
    · rintro ⟨b, hb, hlast⟩
      exact ⟨b, hb, (isValidated_iff hinv hb).mpr hlast⟩

/-! ### What a response brings -/

variable {responses : Responses c} {options : InlineOptions} {w' : World} {missing : GetRequest Hash}

/-- Everything that was requested is there, and nothing is removed.  Children after the end of the hash sequence do
not exist.  Of a single blob, there are no children. -/
structure Fetched (c : Contents) (missing : GetRequest Hash) (isBlob : Bool) (w w' : World) : Prop where
  grows : Grows w w'
  root : ∀ x ∈ missing.ranges.get 0, Has (w'.entry missing.hash) x
  child : isBlob = false → ∀ i, (missing.ranges.get (i + 1)).isEmpty = false →
    (∀ x, x < Merkle.treeChunks (c.size missing.hash) → Has (w'.entry missing.hash) x) ∧
      (c.size missing.hash / 32 ≤ i ∨
        ∃ hash, c.child missing.hash i = some hash ∧ ∀ x ∈ missing.ranges.get (i + 1), Has (w'.entry hash) x)

/-- An index of the hash sequence, or one after its end. -/
theorem child_cases {root : Hash} {seq : HashSeq} (h : seq.bytes = c.blob root) (i : Nat) :
    c.size root / 32 ≤ i ∨ ∃ hash, c.child root i = some hash ∧ (root :: seq.iter)[i + 1]? = some hash := by
  cases hget : seq.get i with
  | none =>
    refine Or.inl ?_
    unfold HashSeq.get at hget
    split at hget
    · cases hget
    · rename_i hge
      rw [HashSeq.len, h] at hge
      exact Nat.not_lt.mp hge
  | some hash =>
    refine Or.inr ⟨hash, ?_, ?_⟩
    · rw [Contents.child, ← h, HashSeq.new_bytes]
      exact hget
    · rw [List.getElem?_cons_succ, HashSeq.getElem?_iter, hget]

/-- If the hash sequence could be read before its children were requested, it is there as a whole. -/
theorem whole_of_getBytes {root : Hash} (ht : Traverses f root traverse) (honly : OnlyBlob f root (c.blob root))
    (hreads : ReadsSeq f c root w') {ranges : ChunkRangesSeq} {seq : HashSeq}
    (hbytes : dataToBytes (w.exportBao traverse root RangeSet.all) = .ok seq.bytes)
    (hstart : scheduleFrom (root :: seq.iter) ranges 1 = [] ∧ w' = w ∨
      ∃ item items, scheduleFrom (root :: seq.iter) ranges 1 = item :: items ∧ (item.hash, w.entries) ∈ w'.starts) :
    seq.bytes = c.blob root ∧ ∀ x, x < Merkle.treeChunks (c.size root) → Has (w.entry root) x := by
  obtain ⟨blob, hblob, hget⟩ := exists_seq hreads.seq
  rw [← hblob] at honly
  by_cases hempty : root = .EMPTY
  · obtain ⟨heq, -⟩ := blob_of_getBytes ht honly (Or.inr hempty) hbytes
    refine ⟨by rw [heq, hblob], fun x _ => ?_⟩
    rw [World.entry, if_pos hempty]
    exact ⟨_, rfl, RangeSet.mem_all x⟩
  have hentry : w.entry root = w.entries root := if_neg hempty
  have hsize : (w.entry root).currentSize ≠ some 0 := by
    intro hzero
    -- nothing was read, and so nothing was requested
    rw [World.exportBao, getBytes_of_size_zero hzero hempty, Except.ok.injEq] at hbytes
    have hnil : scheduleFrom (root :: seq.iter) ranges 1 = [] := by
      refine scheduleFrom_of_length_le ?_
      rw [List.length_cons, HashSeq.length_iter, HashSeq.len, ← hbytes]
      rfl
    rcases hstart with ⟨-, rfl⟩ | ⟨item, items, hcons, -⟩
    · exact (hreads.atEnd hempty).size (by rwa [← hentry])
    · rw [hnil] at hcons
      cases hcons
  obtain ⟨heq, src, hsrc, hlen, hall⟩ := blob_of_getBytes ht honly (Or.inl hsize) hbytes
  have hsettled : Settled f root (w.entry root) := by
    rw [hentry]
    rcases hstart with ⟨-, rfl⟩ | ⟨item, items, hcons, hmem⟩
    · exact hreads.atEnd hempty
    · refine hreads.children hempty _ hmem ?_
      have hitem : item ∈ scheduleFrom (root :: seq.iter) ranges 1 := by
        rw [hcons]
        exact List.mem_cons_self
      obtain ⟨i, hi, hlookup⟩ := lookup_of_mem_scheduleFrom hitem
      obtain ⟨j, rfl⟩ := Nat.exists_eq_add_of_le' hi
      rw [List.getElem?_cons_succ, HashSeq.getElem?_iter] at hlookup
      refine ⟨j, ?_⟩
      rw [hget]
      obtain ⟨bytes, hmod⟩ := seq
      obtain ⟨bytes', hmod'⟩ := blob
      dsimp only at heq
      subst heq
      exact hlookup
  refine ⟨by rw [heq, hblob], fun x hx => ?_⟩
  have hbitfield : ∃ b, (w.entry root).bitfield = some b := by
    cases hentry : w.entry root with
    | initial | loading | poisoned | nonExisting =>
      rw [hentry] at hsrc
      cases hsrc
    | complete s | partialMem s | partialFile s => exact ⟨_, rfl⟩
  obtain ⟨b, hb⟩ := hbitfield
  rw [Contents.size, ← hblob, ← hlen] at hx
  exact ⟨b, hb, hsettled.recorded src b hsrc hb hall x hx⟩

private theorem getBytes_ok {root : Hash} {bytes : List UInt8} (h : getBytes traverse root w = .ok bytes) :
    dataToBytes (w.exportBao traverse root RangeSet.all) = .ok bytes := by
  unfold getBytes at h
  split at h
  · rename_i bytes' hbytes
    cases h
    exact hbytes
  · cases h

/-- The store before the first blob is recorded when the blob starts. -/
private theorem start_of_executes {items : List BlobItem} (h : Executes (getBlobRanges responses options) items w w') :
    items = [] ∧ w' = w ∨ ∃ item rest, items = item :: rest ∧ (item.hash, w.entries) ∈ w'.starts := by
  cases h with
  | nil => exact Or.inl ⟨rfl, rfl⟩
  | @cons item items _ w₁ _ head tail =>
    have hmem := mem_starts_getBlobRanges responses options item.index item.hash item.ranges w
    rw [head] at hmem
    exact Or.inr ⟨item, items, rfl, (executes_handled tail).1.starts _ hmem⟩

/-- The requested children of a hash sequence that was read are fetched. -/
private theorem child_of_executes (ht : Traverses f missing.hash traverse)
    (honly : OnlyBlob f missing.hash (c.blob missing.hash)) {seq : HashSeq}
    (hbytes : getBytes traverse missing.hash w = .ok seq.bytes)
    (hexec : Executes (getBlobRanges responses options) (scheduleFrom (missing.hash :: seq.iter) missing.ranges 1) w w')
    (hmeets : Meets c w'.log) (hreads : ReadsSeq f c missing.hash w') (hsized : w.Sized c) {i : Nat}
    (hne : (missing.ranges.get (i + 1)).isEmpty = false) :
    (∀ x, x < Merkle.treeChunks (c.size missing.hash) → Has (w.entry missing.hash) x) ∧
      (c.size missing.hash / 32 ≤ i ∨ ∃ hash, c.child missing.hash i = some hash ∧
        ∀ x ∈ missing.ranges.get (i + 1), Has (w'.entry hash) x) := by
  obtain ⟨-, hhandled⟩ := executes_handled hexec
  obtain ⟨-, hhas⟩ := hhandled hmeets hsized
  obtain ⟨hblob, hall⟩ := whole_of_getBytes ht honly hreads (getBytes_ok hbytes) (start_of_executes hexec)
  refine ⟨hall, (child_cases hblob i).imp_right ?_⟩
  rintro ⟨hash, hchild, hlookup⟩
  exact ⟨hash, hchild, hhas _ (mem_scheduleFrom (by omega) hlookup hne)⟩

/-- What `execute_get_sink` has brought if it succeeds. -/
private theorem fetched_of_run (ht : Traverses f missing.hash traverse)
    (honly : OnlyBlob f missing.hash (c.blob missing.hash))
    {close : AtClosing → World → Except GetError Unit} {sent : Except GetError Unit} {fuel : Nat}
    {run : Run World GetError}
    (hrun : executeGetSink (getBlobRanges responses options) close
      (getBytes traverse missing.hash) sent missing fuel w = some run)
    (hok : run.result = .ok ()) (hmeets : Meets c run.state.log) (hsized : w.Sized c) {isBlob : Bool}
    (hreads : isBlob = true ∨ ReadsSeq f c missing.hash run.state) : Fetched c missing isBlob w run.state := by
  obtain ⟨w₁, hfirst, hrest⟩ := executes_executeGetSink hrun hok
  -- the children
  have hchildren : Step c w₁ run.state ∧ (w₁.Sized c → Grows w₁ run.state ∧
      (isBlob = false → ∀ i, (missing.ranges.get (i + 1)).isEmpty = false →
        (∀ x, x < Merkle.treeChunks (c.size missing.hash) → Has (w₁.entry missing.hash) x) ∧
          (c.size missing.hash / 32 ≤ i ∨
            ∃ hash, c.child missing.hash i = some hash ∧
              ∀ x ∈ missing.ranges.get (i + 1), Has (run.state.entry hash) x))) := by
    rcases hrest with ⟨hempty, hstate⟩ | ⟨seq, hbytes, hexec⟩
    · rw [hstate]
      refine ⟨Step.refl w₁, fun _ => ⟨fun _ _ hx => hx, ?_⟩⟩
      intro _ i hne
      rw [hempty (i + 1) (by omega)] at hne
      cases hne
    · obtain ⟨hstep, hhandled⟩ := executes_handled hexec
      refine ⟨hstep, fun hsized₁ => ?_⟩
      obtain ⟨hgrows, -⟩ := hhandled hmeets hsized₁
      refine ⟨hgrows, fun hblob i hne => ?_⟩
      have hreads := hreads.resolve_left (by rw [hblob]; simp)
      exact child_of_executes ht honly hbytes hexec hmeets hreads hsized₁ hne
  -- the root
  have hroot : Step c w w₁ ∧ (Meets c w₁.log → Handled missing.hash (missing.ranges.get 0) w w₁) := by
    rcases hfirst with ⟨hempty, rfl⟩ | hop
    · refine ⟨Step.refl w₁, fun _ => ⟨fun _ _ hx => hx, ?_⟩⟩
      intro x hx
      exact absurd hx (RangeSet.isEmpty_iff.mp hempty x)
    · obtain ⟨hstep, hhandled⟩ := step_getBlobRanges responses options 0 missing.hash (missing.ranges.get 0) w
      rw [hop] at hstep
      exact ⟨hstep, fun hmeets₁ => hhandled w₁ hop hmeets₁ hsized⟩
  have hmeets₁ : Meets c w₁.log := fun p hp => hmeets p (hchildren.1.log p hp)
  obtain ⟨hgrows₁, hhas₁⟩ := hroot.2 hmeets₁
  obtain ⟨hgrows₂, hchild⟩ := hchildren.2 (hroot.1.sized hmeets₁ hsized)
  refine ⟨fun hash x hx => hgrows₂ hash x (hgrows₁ hash x hx), fun x hx => hgrows₂ _ x (hhas₁ x hx), ?_⟩
  intro hblob i hne
  obtain ⟨hall, hor⟩ := hchild hblob i hne
  exact ⟨fun x hx => hgrows₂ _ x (hall x hx), hor⟩

/-- A child is available once the hash sequence is there as a whole. -/
theorem available_of_whole (hsized : w.Sized c)
    (hall : ∀ x, x < Merkle.treeChunks (c.size request.hash) → Has (w.entry request.hash) x) {i : Nat}
    (h : c.size request.hash / 32 ≤ i ∨
      ∃ hash, c.child request.hash i = some hash ∧ ∀ x ∈ request.ranges.get (i + 1), Has (w.entry hash) x) :
    Available c w request i := by
  have htree : Merkle.treeChunks (c.size request.hash) = max 1 (Merkle.chunks (c.size request.hash)) := rfl
  rcases h with hle | ⟨hash, hchild, hhas⟩
  · -- the size is known once the last chunk is there
    obtain ⟨b, hb, hvalid⟩ := (exists_validated_iff hsized request.hash).mpr (hall _ (by omega))
    exact Or.inl ⟨b, hb, hvalid, hle⟩
  · have hlt := child_lt hchild
    have hchunks : Merkle.chunks (c.size request.hash) = (c.size request.hash + 1023) / 1024 := rfl
    exact Or.inr ⟨hash, hchild, ⟨i * 32 / 1024, hall _ (by omega), by omega⟩, hhas⟩

/-- If what was missing has been fetched, everything is found. -/
private theorem found_of_fetched (ht : Traverses f request.hash traverse)
    (honly : OnlyBlob f request.hash (c.blob request.hash))
    (hbuilt : info.BuiltFor (w.client traverse) request) (hsized : w.Sized c) (hsized' : w'.Sized c)
    (hseq : request.ranges.isBlob = true ∨ c.size request.hash % 32 = 0) {fuel : Nat}
    (hmissing : info.missing fuel = some missing)
    (h : Fetched c missing request.ranges.isBlob w w') : Found c w' request := by
  obtain ⟨m, hreturns, hhash, hroot, hchild⟩ := LocalInfo.missing_covers (hbuilt.coherent (within_client ht hsized))
  obtain rfl := (info.stable_missing.returns hmissing).unique hreturns
  have hobserve := hbuilt.cases.2.1
  rw [observe_client] at hobserve
  rw [hbuilt.cases.1] at hhash
  rw [rootRequested_eq hbuilt] at hroot
  obtain ⟨hgrows, hfirst, hrest⟩ := h
  rw [hhash] at hfirst hrest
  refine ⟨fun x hx => ?_, fun i hne => ?_⟩
  · by_cases hmem : x ∈ info.bitfield.ranges
    · exact hgrows request.hash x ((mem_bitfield_iff hbuilt).mp hmem)
    · apply hfirst x
      rw [hroot, RangeSet.mem_sdiff]
      exact ⟨hx, hmem⟩
  · by_cases hend : ∃ b, (w.entry request.hash).bitfield = some b ∧ b.isValidated = true ∧ c.size request.hash / 32 ≤ i
    · obtain ⟨b, hb, hvalid, hle⟩ := hend
      have hhas := (exists_validated_iff hsized request.hash).mp ⟨b, hb, hvalid⟩
      obtain ⟨b', hb', hvalid'⟩ := (exists_validated_iff hsized' request.hash).mpr (hgrows request.hash _ hhas)
      exact Or.inl ⟨b', hb', hvalid', hle⟩
    · have hbelow : ∀ size, info.bitfield.validatedSize = some size → i < size / 32 := by
        intro size hsize
        by_contra hge
        obtain ⟨hvalid, rfl⟩ := (validatedSize_iff hsized hobserve).mp hsize
        exact hend ⟨_, hobserve, hvalid, by omega⟩
      have hat := hchild i hbelow
      have hblob := isBlob_of_nonempty hne
      have hseq := hseq.resolve_left (by rw [hblob]; simp)
      have hrest := hrest hblob
      cases hk : info.known i with
      | none =>
        have hget : missing.ranges.get (i + 1) = request.ranges.get (i + 1) := by
          rw [hat, LocalInfo.missingAt, hk]
          exact requested_eq hbuilt (i + 1)
        rw [← hget] at hne
        obtain ⟨hall, hor⟩ := hrest i hne
        rw [hget] at hor
        exact available_of_whole hsized' hall hor
      | some b =>
        have hget : missing.ranges.get (i + 1) = request.ranges.get (i + 1) \ b.ranges := by
          rw [hat, LocalInfo.missingAt, hk]
          exact congrArg (· \ b.ranges) (requested_eq hbuilt (i + 1))
        obtain ⟨hash, hhash, hcovers, hb⟩ := known_sound ht honly hbuilt hseq hk
        refine Or.inr ⟨hash, hhash, hcovers.mono (hgrows request.hash), fun x hx => ?_⟩
        by_cases hmem : x ∈ b.ranges
        · exact hgrows hash x ⟨b, hb, hmem⟩
        · have hx' : x ∈ missing.ranges.get (i + 1) := by
            rw [hget, RangeSet.mem_sdiff]
            exact ⟨hx, hmem⟩
          obtain ⟨-, hor⟩ := hrest i (RangeSet.isEmpty_eq_false_iff.mpr ⟨x, hx'⟩)
          rcases hor with hle | ⟨hash', hhash', hhas⟩
          · have hlt := child_lt hhash
            omega
          · rw [hhash, Option.some.injEq] at hhash'
            rw [hhash']
            exact hhas x hx'

/-! ### The loop over the providers -/

/-- The store before a download. -/
def World.new (entries : Hash → BaoFileStorage Hash) : World := ⟨entries, [], [], [], []⟩

private theorem step_executeGetSink {close : AtClosing → World → Except GetError Unit} {root : Hash}
    {sent : Except GetError Unit}
    {fuel : Nat} {run : Run World GetError}
    (hrun : executeGetSink (getBlobRanges responses options) close
      (getBytes traverse root) sent missing fuel w = some run) :
    Step c w run.state :=
  rel_executeGetSink (Step c) Step.refl Step.trans
    (fun i h r w => (step_getBlobRanges responses options i h r w).1) hrun

/-- A download that succeeds finds everything in the end. -/
private theorem found_of_executeGet (ht : Traverses f request.hash traverse)
    (honly : OnlyBlob f request.hash (c.blob request.hash))
    {fuel : Nat} {providers : List Provider} {result : Except DownloadError Unit}
    (hrun : executeGet responses traverse options request fuel providers w = some (result, w')) :
    Step c w w' ∧ (result = .ok () → Meets c w'.log → w.Sized c →
      request.ranges.isBlob = true ∨ ReadsSeq f c request.hash w' → Found c w' request) := by
  induction providers generalizing w with
  | nil =>
    cases hrun
    refine ⟨Step.refl _, ?_⟩
    intro hok
    cases hok
  | cons provider providers ih =>
    have hwait : Step c w (w.wait options provider.before) := step_wait provider.before
    rw [executeGet] at hrun
    generalize w.wait options provider.before = w₁ at hwait hrun
    -- the next provider is tried
    have hnext : ∀ w₂, Step c w₁ w₂ → executeGet responses traverse options request fuel providers w₂ =
      some (result, w') →
        Step c w w' ∧ (result = .ok () → Meets c w'.log → w.Sized c →
          request.ranges.isBlob = true ∨ ReadsSeq f c request.hash w' → Found c w' request) := by
      intro w₂ hstep hrun
      obtain ⟨hstep', hfound⟩ := ih hrun
      have hfirst : Step c w w₂ := hwait.trans hstep
      refine ⟨hfirst.trans hstep', fun hok hmeets hsized => hfound hok hmeets ?_⟩
      exact hfirst.sized (fun p hp => hmeets p (hstep'.log p hp)) hsized
    cases hinfo : localForRequest (w₁.client traverse) request fuel with
    | none =>
      rw [hinfo] at hrun
      cases hrun
    | some outcome =>
      rw [hinfo] at hrun
      cases outcome with
      | error e =>
        cases hrun
        refine ⟨hwait, ?_⟩
        intro hok
        cases hok
      | ok info =>
        have hbuilt : info.BuiltFor (w₁.client traverse) request := ⟨fuel, hinfo⟩
        dsimp only at hrun
        cases hcomplete : info.isComplete fuel with
        | none =>
          rw [hcomplete] at hrun
          cases hrun
        | some complete =>
          rw [hcomplete] at hrun
          cases complete with
          | true =>
            cases hrun
            refine ⟨hwait, fun _ hmeets hsized hreads => ?_⟩
            exact found_of_isComplete ht honly hbuilt (hwait.sized hmeets hsized) (hreads.imp_right ReadsSeq.seq)
              ((info.stable_isComplete).returns hcomplete)
          | false =>
            dsimp only at hrun
            split at hrun
            · exact hnext w₁ (Step.refl w₁) hrun
            · obtain ⟨missing, hmissing, hrun⟩ := Option.bind_eq_some_iff.mp hrun
              obtain ⟨run, hsink, hrun⟩ := Option.bind_eq_some_iff.mp hrun
              have hreset : Step c w₁ { w₁ with fates := provider.blobs, answers := [] } :=
                Step.same rfl (fun _ hp => hp) rfl (fun _ hmem => by cases hmem)
              have hstep := hreset.trans (step_executeGetSink hsink)
              split at hrun
              · rename_i hok
                cases hrun
                refine ⟨hwait.trans hstep, fun _ hmeets hsized hreads => ?_⟩
                have hsized₁ := hwait.sized (fun p hp => hmeets p (hstep.log p hp)) hsized
                have hhash : missing.hash = request.hash := by
                  obtain ⟨m, hreturns, hhash, -⟩ :=
                    LocalInfo.missing_covers (hbuilt.coherent (within_client ht hsized₁))
                  rw [(info.stable_missing.returns hmissing).unique hreturns, hhash, hbuilt.cases.1]
                have hfetched : Fetched c missing request.ranges.isBlob w₁ run.state := by
                  rw [← hhash] at hsink ht honly hreads
                  obtain ⟨hgrows, hroot, hchild⟩ := fetched_of_run ht honly hsink hok hmeets hsized₁ hreads
                  exact ⟨hgrows, hroot, hchild⟩
                exact found_of_fetched ht honly hbuilt hsized₁ (hstep.sized hmeets hsized₁)
                  (hreads.imp_right ReadsSeq.seq) hmissing
                  hfetched
              · exact hnext run.state hstep hrun

/-- What a successful download promises: the requested chunks are local, `is_complete` says so, and no import of the
last provider has answered with an error. -/
structure Downloaded (c : Contents) (traverse : ExportSource Hash → ChunkRanges → List (EncodedItem Hash)) (w : World)
    (request : GetRequest Hash) : Prop where
  everything : Local c w request
  isComplete : ∀ info : LocalInfo, info.BuiltFor (w.client traverse) request → Fuel.Returns info.isComplete true
  answers : ∀ answer ∈ w.answers, answer = true

/-- If a write of an import fails only while the getter is going to fail anyway, and what is stored of the hash
sequence can be read, a successful download has brought everything. -/
theorem download_local {f : Merkle.HashFns UInt8 Hash} (responses : Responses c) (options : InlineOptions)
    {request : GetRequest Hash} (ht : Traverses f request.hash traverse)
    (honly : OnlyBlob f request.hash (c.blob request.hash))
    {entries : Hash → BaoFileStorage Hash} (hsized : ∀ hash, Remote.Sized (c.size hash) (entries hash))
    (hroot : ∀ x ∈ request.ranges.get 0, x ∈ rootRanges request) {fuel : Nat} {providers : List Provider} {w : World}
    (hrun : executeGet responses traverse options request fuel providers (World.new entries) = some (.ok (), w))
    (hmeets : Meets c w.log) (hreads : request.ranges.isBlob = true ∨ ReadsSeq f c request.hash w) :
    Downloaded c traverse w request := by
  obtain ⟨hstep, hfound⟩ := found_of_executeGet ht honly hrun
  have hall : Found c w request := hfound rfl hmeets hsized hreads
  refine ⟨hall.isLocal hroot, ?_, hstep.answers hmeets hsized (fun _ hmem => by cases hmem)⟩
  intro info hbuilt
  exact isComplete_of_found ht honly hbuilt (hstep.sized hmeets hsized) hreads hall

end

/-! ### Blobs of one chunk -/

/-- A response for a blob of one chunk is one leaf. -/
def chunkItems (c : Contents) (hash : Hash) (ranges : ChunkRanges) : List (BaoContentItem Hash) :=
  if (c.blob hash).isEmpty || ranges.isEmpty then [] else [.leaf ⟨0, c.blob hash⟩]

section

variable {c : Contents}

private theorem leaves_chunk (hsmall : ∀ hash, c.size hash ≤ 1024) (hash : Hash) (ranges : ChunkRanges) (leaf : Leaf)
    (h : .leaf leaf ∈ chunkItems c hash ranges) : CurrentSize.LeafOf (c.size hash) leaf := by
  unfold chunkItems at h
  split at h
  · cases h
  · rename_i hcond
    cases List.mem_singleton.mp h
    have hpos : 0 < (c.blob hash).length := by
      rw [List.length_pos_iff]
      rintro hnil
      simp [hnil] at hcond
    have hle := hsmall hash
    rw [Contents.size] at hle ⊢
    refine ⟨rfl, hpos, Or.inl (Nat.zero_add _), ?_⟩
    unfold CurrentSize.slot
    dsimp only
    omega

private theorem covers_chunk (hsmall : ∀ hash, c.size hash ≤ 1024) (hash : Hash) (ranges : ChunkRanges)
    (hpos : 0 < c.size hash)
    (x : Nat) (hx : x ∈ ranges) : Claims (c.size hash) (chunkItems c hash ranges) x := by
  have hle := hsmall hash
  have hne : (c.blob hash).isEmpty = false := by
    rw [List.isEmpty_eq_false_iff, ← List.length_pos_iff]
    exact hpos
  have hitems : chunkItems c hash ranges = [.leaf ⟨0, c.blob hash⟩] := by
    rw [chunkItems, hne, RangeSet.isEmpty_eq_false_iff.mpr ⟨x, hx⟩]
    rfl
  have hchunks : Merkle.chunks (c.size hash) = 1 := by
    unfold Merkle.chunks
    omega
  have hzero : 0 ∈ CurrentSize.batchRanges ([.leaf ⟨0, c.blob hash⟩] : List (BaoContentItem Hash)) := by
    rw [CurrentSize.mem_batchRanges]
    refine ⟨_, List.mem_singleton_self _, ?_⟩
    have hlen : 0 < (c.blob hash).length := hpos
    rw [ImportBao.chunkRange, RangeSet.mem_range]
    unfold Merkle.chunks
    dsimp only
    omega
  rw [hitems, Claims, hchunks]
  rcases Nat.eq_zero_or_pos x with rfl | hx
  · exact Or.inl hzero
  · exact Or.inr ⟨hx, hzero⟩

def chunkResponses (c : Contents) (hsmall : ∀ hash, c.size hash ≤ 1024) : Responses c where
  items := chunkItems c
  leaves := leaves_chunk hsmall
  covers := covers_chunk hsmall

end

/-- A hash sequence with two children, of one and of two bytes. -/
def seqBytes : List UInt8 := List.replicate 32 2 ++ List.replicate 32 3

def twoChildren : Contents where
  blob hash :=
    if hash = .replicate 1 then seqBytes
    else if hash = .replicate 2 then [1]
    else if hash = .replicate 3 then [1, 2]
    else []
  empty := by decide

private theorem small_twoChildren (hash : Hash) : twoChildren.size hash ≤ 1024 := by
  unfold Contents.size twoChildren
  dsimp only
  split
  · decide
  · split
    · decide
    · split <;> decide

/-- Only the hash sequence has the hash of its root. -/
def seqHash : Merkle.HashFns UInt8 Hash :=
  ⟨fun _ data _ => if data = seqBytes then .replicate 1 else .replicate 4, fun _ _ _ => .replicate 4⟩

/-- The hash sequence is stored. -/
def storesSeq (src : ExportSource Hash) : Bool :=
  src.size == 64 && (List.range 64).all (fun i => src.data.cell i == seqBytes[i]?)

/-- The traversal of the hash sequence, which has one chunk. -/
def traverseSeq (src : ExportSource Hash) (ranges : ChunkRanges) : List (EncodedItem Hash) :=
  if ranges.isEmpty then [.size src.size, .done]
  else if storesSeq src then [.size src.size, .leaf ⟨0, seqBytes⟩, .done]
  else [.size src.size, .error (.leafHashMismatch 0)]

private theorem storesSeq_iff {src : ExportSource Hash} :
    storesSeq src = true ↔ src.size = 64 ∧ ∀ i, i < 64 → src.data.cell i = seqBytes[i]? := by
  simp [storesSeq]

/-- A chunk verifies exactly if it is the only one of the stored hash sequence. -/
private theorem verifies_seq_iff {src : ExportSource Hash} (hroot : src.root = .replicate 1) {x : Nat} :
    src.Verifies seqHash x ↔ x = 0 ∧ storesSeq src = true := by
  have hne : Hash.replicate 1 ≠ .replicate 4 := by decide
  rw [storesSeq_iff]
  constructor
  · rintro ⟨p, hp, hle, h1, h2, hpairs, data, hlen, hcells, hexpected⟩
    have hnil : p = [] := by
      cases p with
      | nil => rfl
      | cons b r =>
        obtain ⟨h1, h2, -, -, heq⟩ := hpairs [] b r rfl
        rw [ExportSource.expected, List.getLast?_nil, hroot, Option.some.injEq] at heq
        exact absurd heq hne
    subst hnil
    rw [ExportSource.expected, List.getLast?_nil, hroot, Option.some.injEq] at hexpected
    simp only [Merkle.sub] at h1 h2 hle hlen hcells hexpected
    have hdata : data = seqBytes := by
      by_contra hdata
      by_cases hone : Merkle.chunks data.length ≤ 1
      · rw [Merkle.hashSubtree_of_le hone, seqHash] at hexpected
        dsimp only at hexpected
        rw [if_neg hdata] at hexpected
        exact hne hexpected
      · rw [Merkle.hashSubtree_of_lt (by omega)] at hexpected
        exact hne hexpected
    subst hdata
    have hseq : seqBytes.length = 64 := by decide
    have htree : Merkle.treeChunks src.size = max 1 ((src.size + 1023) / 1024) := rfl
    rw [hseq] at hlen hcells
    refine ⟨by omega, by omega, fun i hi => ?_⟩
    have hcell := hcells i hi
    rwa [Nat.zero_mul, Nat.zero_add] at hcell
  · rintro ⟨rfl, hsize, hcells⟩
    have htree : Merkle.treeChunks src.size = 1 := by
      rw [hsize]
      decide
    refine ⟨[], trivial, ?_, ?_, ?_, ?_, seqBytes, ?_, ?_, ?_⟩
    · simp only [Merkle.sub, htree]
      decide
    · simp only [Merkle.sub]
      exact Nat.le_refl 0
    · simp only [Merkle.sub, htree]
      decide
    · intro q b r hnil
      simp at hnil
    · simp only [Merkle.sub, hsize]
      decide
    · intro i hi
      simp only [Merkle.sub, Nat.zero_mul, Nat.zero_add]
      exact hcells i hi
    · rw [ExportSource.expected, List.getLast?_nil, hroot, Merkle.hashSubtree_of_le (by decide)]
      rfl

private theorem selected_of_storesSeq {src : ExportSource Hash} (h : storesSeq src = true) (x : Nat) :
    src.selected x = 0 := by
  have hsize := (storesSeq_iff.mp h).1
  rw [ExportSource.selected, hsize]
  exact Nat.min_eq_right (Nat.zero_le x)

theorem traverses_seq : Traverses seqHash (.replicate 1) traverseSeq := by
  have hleaf : ∀ src ranges leaf, .leaf leaf ∈ traverseSeq src ranges →
      (∃ x, x ∈ ranges) ∧ storesSeq src = true ∧ leaf = ⟨0, seqBytes⟩ := by
    intro src ranges leaf h
    unfold traverseSeq at h
    split at h
    · simp at h
    · rename_i hne
      split at h
      · rename_i hstores
        refine ⟨RangeSet.isEmpty_eq_false_iff.mp (by simpa using hne), hstores, ?_⟩
        simpa using h
      · simp at h
  refine ⟨?_, ?_, ?_, ?_⟩
  · intro src ranges hroot
    unfold traverseSeq
    split
    · rename_i hempty
      exact ⟨[], .done, rfl, by simp, Or.inl ⟨rfl, fun x hx => absurd hx (RangeSet.isEmpty_iff.mp hempty x)⟩⟩
    · rename_i hne
      split
      · rename_i hstores
        refine ⟨[.leaf ⟨0, seqBytes⟩], .done, rfl, by simp, Or.inl ⟨rfl, fun x _ => ?_⟩⟩
        rw [verifies_seq_iff hroot]
        exact ⟨selected_of_storesSeq hstores x, hstores⟩
      · rename_i hstores
        obtain ⟨x, hx⟩ := RangeSet.isEmpty_eq_false_iff.mp (by simpa using hne)
        refine ⟨[], _, rfl, by simp, Or.inr ⟨⟨_, rfl⟩, x, hx, fun hverifies => ?_⟩⟩
        exact hstores ((verifies_seq_iff hroot).mp hverifies).2
  · intro src ranges leaf hroot h
    obtain ⟨⟨x, hx⟩, hstores, rfl⟩ := hleaf src ranges leaf h
    obtain ⟨hsize, hcells⟩ := storesSeq_iff.mp hstores
    refine ⟨0, 1, ⟨Nat.one_pos, ?_, rfl, ?_, ?_⟩, ?_⟩
    · rw [hsize]
      decide
    · rw [hsize]
      decide
    · intro i hi
      rw [Nat.zero_add]
      exact hcells i hi
    · intro k _ hk
      obtain rfl : k = 0 := by omega
      exact ⟨(verifies_seq_iff hroot).mpr ⟨rfl, hstores⟩, x, hx, selected_of_storesSeq hstores x⟩
  · intro src ranges hroot hdone x hx
    have hne : ¬ ranges.isEmpty = true := fun hempty => RangeSet.isEmpty_iff.mp hempty x hx
    unfold traverseSeq at hdone ⊢
    rw [if_neg hne] at hdone ⊢
    split at hdone
    · rename_i hstores
      rw [if_pos hstores]
      refine ⟨⟨0, seqBytes⟩, by simp, Nat.zero_le _, ?_⟩
      rw [(storesSeq_iff.mp hstores).1]
      exact Nat.min_le_right _ _
    · simp at hdone
  · intro src ranges _
    unfold traverseSeq
    split
    · exact List.Pairwise.nil
    · split
      · exact List.pairwise_singleton _ _
      · exact List.Pairwise.nil

theorem onlyBlob_seq : OnlyBlob seqHash (.replicate 1) (twoChildren.blob (.replicate 1)) := by
  have hblob : twoChildren.blob (.replicate 1) = seqBytes := rfl
  rw [hblob]
  constructor
  · intro src x i hroot hverifies _ _ hi
    obtain ⟨-, hstores⟩ := (verifies_seq_iff hroot).mp hverifies
    obtain ⟨hsize, hcells⟩ := storesSeq_iff.mp hstores
    exact hcells i (by omega)
  · intro src hroot hverifies
    exact (storesSeq_iff.mp ((verifies_seq_iff hroot).mp hverifies).2).1

/-- The entry is complete with the hash sequence. -/
def hasSeq : BaoFileStorage Hash → Bool
  | .complete s => storesSeq ⟨s.size, .replicate 1, s.data, s.outboard⟩
  | _ => false

private theorem settled_of_hasSeq {entry : BaoFileStorage Hash} (h : hasSeq entry = true) :
    Settled seqHash (.replicate 1) entry := by
  cases entry with
  | complete s =>
    have hsize : s.size = 64 := (storesSeq_iff.mp h).1
    refine ⟨?_, ?_, ?_⟩
    · rintro hzero
      rw [BaoFileStorage.currentSize, hsize] at hzero
      cases hzero
    · rintro src b ⟨⟩ ⟨⟩ x _
      exact (verifies_seq_iff rfl).mpr ⟨selected_of_storesSeq h x, h⟩
    · rintro src b ⟨⟩ ⟨⟩ _ x _
      exact RangeSet.mem_all x
  | _ => cases h

/-- A turn that meets the condition: writes leave nothing out and fail only for a getter that is going to fail, and
entries that can not be read are reset. -/
def works (p : Transfer × Turn) : Bool :=
  match p.2 with
  | .writer => true
  | .store io =>
    (p.1.entries p.1.hash).bitfield.isSome && (io.isSome || p.1.writer == .failed) && io.getD .none == .none
  | .other hash .nonExisting => (p.1.entries hash).bitfield.isNone
  | .other _ _ => false

theorem meets_of_works {c : Contents} {log : List (Transfer × Turn)} (h : log.all works = true) : Meets c log := by
  rintro ⟨s, turn⟩ hp
  have hworks := List.all_eq_true.mp h (s, turn) hp
  cases turn with
  | writer => exact trivial
  | store io =>
    obtain ⟨hboth, hall⟩ := Bool.and_eq_true_iff.mp hworks
    obtain ⟨hsome, hfails⟩ := Bool.and_eq_true_iff.mp hboth
    refine ⟨fun _ hnone => ?_, ?_, ?_⟩
    · rw [hnone] at hsome
      cases hsome
    · rintro rfl
      exact Or.inl (by simpa using hfails)
    · rintro omits rfl
      exact beq_iff_eq.mp hall
  | other hash entry =>
    cases entry with
    | nonExisting =>
      have hnone : (s.entries hash).bitfield = none := Option.isNone_iff_eq_none.mp hworks
      refine ⟨?_, Or.inr trivial⟩
      rintro x ⟨b, hb, -⟩
      rw [hnone] at hb
      cases hb
    | _ => cases hworks

/-- The sequence can be read when its children are requested. -/
def readsSeq (w : World) : Bool :=
  hasSeq (w.entries (.replicate 1)) && w.starts.all (fun p => p.1 == .replicate 1 || hasSeq (p.2 (.replicate 1)))

theorem reads_of_readsSeq {w : World} (h : readsSeq w = true) : ReadsSeq seqHash twoChildren (.replicate 1) w := by
  obtain ⟨hend, hall⟩ := Bool.and_eq_true_iff.mp h
  refine ⟨by decide, fun _ p hp hchild => ?_, fun _ => settled_of_hasSeq hend⟩
  have hor := List.all_eq_true.mp hall p hp
  rw [Bool.or_eq_true] at hor
  rcases hor with heq | hhas
  · -- the sequence is not one of its children
    obtain ⟨i, hi⟩ := hchild
    rw [beq_iff_eq] at heq
    rw [heq] at hi
    have hlt := child_lt hi
    have hsize : twoChildren.size (.replicate 1) / 32 = 2 := by decide
    rw [hsize] at hlt
    interval_cases i
    · exact absurd hi (by decide)
    · exact absurd hi (by decide)
  · exact settled_of_hasSeq hhas

/-- A blob that arrives as a whole, with the result of the last write of the import. -/
def sends (io : Option Omits) : BlobFate := ⟨true, none, [.writer, .writer, .store (some .none), .store io]⟩

/-- The first provider breaks off after the leaf of the first child, and the write of the leaf fails.  The second one
sends what is missing. -/
def twoProviders : List Provider :=
  [⟨[], true, .ok (), [sends (some .none), ⟨true, some 1, [.writer, .writer, .store (some .none), .store none]⟩],
    .ok ()⟩, ⟨[.other (.replicate 2) .nonExisting], true, .ok (), [sends (some .none), sends (some .none)], .ok ()⟩]

def twoChildrenResponses : Responses twoChildren := chunkResponses twoChildren small_twoChildren

def seqRequest : GetRequest Hash := ⟨.replicate 1, ChunkRangesSeq.fromRanges [RangeSet.all, RangeSet.all, RangeSet.all]⟩

theorem download_local_twoProviders :
    ∃ w, executeGet twoChildrenResponses traverseSeq ⟨16384, 16384⟩ seqRequest 10 twoProviders
      (World.new fun _ => .nonExisting) =
        some (.ok (), w) ∧ Downloaded twoChildren traverseSeq w seqRequest := by
  have hrun : ((executeGet twoChildrenResponses traverseSeq ⟨16384, 16384⟩ seqRequest 10 twoProviders
      (World.new fun _ => .nonExisting)).map fun p => p.1.isOk && p.2.log.all works && readsSeq p.2) = some true := by
    decide +kernel
  obtain ⟨⟨result, w⟩, hrun, hchecks⟩ := Option.map_eq_some_iff.mp hrun
  rw [Bool.and_eq_true, Bool.and_eq_true] at hchecks
  obtain ⟨⟨hok, hlog⟩, hreads⟩ := hchecks
  cases result with
  | error e => cases hok
  | ok u =>
    have hsized : ∀ hash, Remote.Sized (twoChildren.size hash) (.nonExisting : BaoFileStorage Hash) :=
      fun _ => Or.inr trivial
    have hroot : ∀ x ∈ seqRequest.ranges.get 0, x ∈ rootRanges seqRequest := fun x _ => RangeSet.mem_all x
    exact ⟨w, hrun, download_local twoChildrenResponses ⟨16384, 16384⟩ traverses_seq onlyBlob_seq hsized hroot hrun
      (meets_of_works hlog) (Or.inr (reads_of_readsSeq hreads))⟩

/-- The last write of the import fails after everything was sent.  The import answers with an error, and the download
succeeds. -/
theorem not_downloaded_lastWrite :
    ∃ w, executeGet twoChildrenResponses traverseSeq ⟨16384, 16384⟩
      ⟨.replicate 2, ChunkRangesSeq.fromRanges [RangeSet.all]⟩ 10
        [⟨[], true, .ok (), [sends none], .ok ()⟩] (World.new fun _ => .nonExisting) = some (.ok (), w) ∧
      w.answers = [false] ∧ (∀ x, ¬ Has (w.entry (.replicate 2)) x) ∧
      ¬ Local twoChildren w ⟨.replicate 2, ChunkRangesSeq.fromRanges [RangeSet.all]⟩ := by
  have hrun : ∃ w, executeGet twoChildrenResponses traverseSeq ⟨16384, 16384⟩
      ⟨.replicate 2, ChunkRangesSeq.fromRanges [RangeSet.all]⟩ 10 [⟨[], true, .ok (), [sends none], .ok ()⟩]
      (World.new fun _ => .nonExisting) = some (.ok (), w) ∧ w.answers = [false] ∧
        (w.entry (.replicate 2)).bitfield = none := ⟨_, rfl, rfl, rfl⟩
  obtain ⟨w, hrun, hanswers, hnone⟩ := hrun
  have hnot : ∀ x, ¬ Has (w.entry (.replicate 2)) x := by
    rintro x ⟨b, hb, -⟩
    cases hnone.symm.trans hb
  refine ⟨w, hrun, hanswers, hnot, fun hlocal => hnot 0 (hlocal.root 0 ?_)⟩
  decide

end Downloader

end IrohBlobs
