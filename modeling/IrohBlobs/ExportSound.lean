import IrohBlobs.Provider
import IrohBlobs.Traverse

/-!
# Exports that report success

What success of a consumer says about the blob, for the exports of the file store.  The traversal compares the data of
each chunk group and the pairs above it with what is expected (`ValidatedPayload`); that the whole payload then hashes
to the root follows by induction over the tree (`nodeHash_of_validated`).

The exception are entries of unknown size: their export sends nothing at all, which all consumers take for an empty
blob (`UnknownSize`).
-/

namespace IrohBlobs

open Merkle BaoTree

section

variable (f : HashFns UInt8 Hash)

/-- The data of the leaves of an export. -/
def payload (items : List (EncodedItem Hash)) : List UInt8 :=
  items.flatMap (fun | .leaf leaf => leaf.data | _ => [])

/-- The data has the best known size, and all hashes that a traversal of all ranges compares are equal. -/
structure ValidatedPayload (src : ExportSource Hash) (data : List UInt8) : Prop where
  length : data.length = src.size
  pair : ∀ p, IsPath 16 (treeChunks src.size) p → 16 < (sub (treeChunks src.size) p).2 →
    ∃ h1 h2, src.outboard.cell (2 * slot (treeChunks src.size) p) = some h1 ∧
      src.outboard.cell (2 * slot (treeChunks src.size) p + 1) = some h2 ∧
        src.expected p = some (f.parent h1 h2 p.isEmpty)
  group : ∀ p, IsPath 16 (treeChunks src.size) p → (sub (treeChunks src.size) p).2 ≤ 16 →
    src.expected p = some (hashSubtree f (sub (treeChunks src.size) p).1
      (region data (sub (treeChunks src.size) p).1 (sub (treeChunks src.size) p).2) p.isEmpty)

/-- What is documented of the traversal: it sends the size and then the encoding, and it ends with `Done` if
everything was compared and equal, with an error otherwise. -/
def TraversesSound (traverse : ExportSource Hash → ChunkRanges → List (EncodedItem Hash)) : Prop :=
  ∀ src ranges, ∃ body last, traverse src ranges = .size src.size :: body ++ [last] ∧
    (∀ item ∈ body, item ≠ .done ∧ ∀ e, item ≠ .error e) ∧
    ((∃ e, last = .error e) ∨ (last = .done ∧ (ranges = RangeSet.all → ValidatedPayload f src (payload body))))

/-! ### The payload of a finished export -/

variable {f}

/-- All nodes of a validated traversal have the hashes of the payload. -/
private theorem nodeHash_of_validated {src : ExportSource Hash} {data : List UInt8}
    (h : ValidatedPayload f src data) {p : List Bool}
    (hp : IsPath 16 (treeChunks src.size) p) : src.expected p = some (nodeHash f data p) := by
  have hlen := h.length
  induction hm : (sub (treeChunks src.size) p).2 using Nat.strong_induction_on generalizing p with
  | _ m ih =>
  by_cases hle : (sub (treeChunks src.size) p).2 ≤ 16
  · rw [h.group p hp hle, nodeHash, hlen]
  · obtain ⟨h1, h2, hc1, hc2, he⟩ := h.pair p hp (by omega)
    have hlt := left_lt (n := (sub (treeChunks src.size) p).2) (by omega)
    have hpos := left_pos (sub (treeChunks src.size) p).2
    -- the children are expected to have the hashes of the pair
    have hl := ih _ (by rw [sub_concat_left]; omega) (isPath_concat (b := false) hp (by omega)) rfl
    have hr := ih _ (by rw [sub_concat_right]; simp only; omega) (isPath_concat (b := true) hp (by omega)) rfl
    simp only [ExportSource.expected, List.getLast?_concat, List.dropLast_concat] at hl hr
    simp only [Bool.false_eq_true, if_false, Nat.add_zero, hc1, Option.some.injEq] at hl
    simp only [if_true, hc2, Option.some.injEq] at hr
    have hpath : IsPath 1 (treeChunks data.length) p := by
      rw [hlen]
      exact hp.mono (by omega)
    have hparent := nodeHash_eq_parent f hpath (by rw [hlen]; omega)
    rw [he, hl, hr, hparent]

private theorem collectLeaves_append {body : List (EncodedItem Hash)}
    (hbody : ∀ item ∈ body, item ≠ .done ∧ ∀ e, item ≠ .error e) (rest : List (EncodedItem Hash))
    (data : List (List UInt8)) :
    ∃ leaves, leaves.flatten = data.flatten ++ payload body ∧
      collectLeaves data (body ++ rest) = collectLeaves leaves rest := by
  induction body generalizing data with
  | nil => exact ⟨data, by simp [payload], rfl⟩
  | cons item body ih =>
    have hrest := fun item' hmem => hbody item' (List.mem_cons_of_mem _ hmem)
    obtain ⟨hd, he⟩ := hbody item List.mem_cons_self
    cases item with
    | done => exact absurd rfl hd
    | error e => exact absurd rfl (he e)
    | size n => exact ih hrest data
    | parent p => exact ih hrest data
    | leaf l =>
      obtain ⟨leaves, h1, h2⟩ := ih hrest (data ++ [l.data])
      refine ⟨leaves, ?_, h2⟩
      rw [h1]
      simp [payload]

/-- `data_to_bytes` of a finished export is its payload. -/
theorem dataToBytes_done {size : Nat} {body : List (EncodedItem Hash)}
    (hbody : ∀ item ∈ body, item ≠ .done ∧ ∀ e, item ≠ .error e) :
    dataToBytes (.ok (.size size :: body ++ [.done])) = .ok (payload body) := by
  obtain ⟨leaves, h1, h2⟩ := collectLeaves_append hbody [.done] []
  have hcollect : collectLeaves [] (.size size :: body ++ [.done]) = .ok leaves := h2
  unfold dataToBytes
  simp only [bind, Except.bind, hcollect]
  rw [List.flatten_nil, List.nil_append] at h1
  rw [← h1]
  split
  · simp [pure, Except.pure]
  · rfl

theorem dataToBytes_error {size : Nat} {body : List (EncodedItem Hash)} {e : EncodeError}
    (hbody : ∀ item ∈ body, item ≠ .done ∧ ∀ e, item ≠ .error e) :
    dataToBytes (.ok (.size size :: body ++ [.error e])) = .error (.encode e) := by
  obtain ⟨leaves, -, h2⟩ := collectLeaves_append hbody [.error e] []
  have hcollect : collectLeaves [] (.size size :: body ++ [.error e]) = .error (.encode e) := h2
  unfold dataToBytes
  simp only [bind, Except.bind, hcollect]

end

/-! ### Runs of the provider -/

section Runs

variable {W : Type} {op : Op W ProviderError}

/-- The run went on only after blobs that were handled with success. -/
structure OkExceptLast (op : Op W ProviderError) (run : Run W ProviderError) : Prop where
  init : ∀ item ∈ run.trace.dropLast, ∃ w, (op item.index item.hash item.ranges w).1 = .ok ()
  all : run.result = .ok () → ∀ item ∈ run.trace, ∃ w, (op item.index item.hash item.ranges w).1 = .ok ()

private theorem okExceptLast_stop (result : Except ProviderError Unit) (w : W) : OkExceptLast op (Run.stop result w) :=
  ⟨by simp [Run.stop], by simp [Run.stop]⟩

private theorem okExceptLast_stepOpt {item : BlobItem} {w : W} {next : W → Option (Run W ProviderError)}
    (hnext : ∀ w' run, next w' = some run → OkExceptLast op run) {run : Run W ProviderError}
    (h : Run.stepOpt op item w next = some run) : OkExceptLast op run := by
  unfold Run.stepOpt at h
  split at h
  · rename_i w' hop
    obtain ⟨run', hrun', rfl⟩ := Option.map_eq_some_iff.mp h
    obtain ⟨h1, h2⟩ := hnext w' run' hrun'
    have hitem : ∃ w, (op item.index item.hash item.ranges w).1 = .ok () := ⟨w, by rw [hop]⟩
    refine ⟨fun item' hmem => ?_, fun hr item' hmem => ?_⟩
    · simp only [Run.after, List.singleton_append] at hmem
      cases htrace : run'.trace with
      | nil => simp [htrace] at hmem
      | cons a l =>
        rw [htrace, List.dropLast_cons_cons] at hmem
        rcases List.mem_cons.mp hmem with rfl | hmem
        · exact hitem
        · exact h1 item' (by rw [htrace]; exact hmem)
    · rcases List.mem_cons.mp hmem with rfl | hmem
      · exact hitem
      · exact h2 hr item' hmem
  · cases h
    exact ⟨by simp, fun hr => by cases hr⟩

private theorem okExceptLast_handleGetLoop {hash : Hash} {getBytes : Except ProviderError (List UInt8)} {fuel : Nat}
    {it : ChunkRangesSeq.NonEmptyIter} {hashSeq : Option HashSeq} {w : W} {run : Run W ProviderError}
    (h : handleGetLoop op hash getBytes fuel it hashSeq w = some run) : OkExceptLast op run := by
  induction fuel generalizing it hashSeq w run with
  | zero => cases h
  | succ fuel ih =>
    unfold handleGetLoop at h
    split at h
    · cases h
      exact okExceptLast_stop _ _
    · split at h
      · exact okExceptLast_stepOpt (fun _ _ hr => ih hr) h
      · split at h
        · cases h
          exact okExceptLast_stop _ _
        · split at h
          · cases h
            exact okExceptLast_stop _ _
          · exact okExceptLast_stepOpt (fun _ _ hr => ih hr) h

/-- `handle_get` goes on with the next blob only after a success. -/
private theorem okExceptLast_handleGet {getBytes : Except ProviderError (List UInt8)} {request : GetRequest Hash}
    {fuel : Nat} {w : W}
    {run : Run W ProviderError} (h : handleGet op getBytes request fuel w = some run) : OkExceptLast op run :=
  okExceptLast_handleGetLoop h

end Runs

/-! ### The file store -/

section

variable (f : HashFns UInt8 Hash) (traverse : ExportSource Hash → ChunkRanges → List (EncodedItem Hash))
  (importBaoQuinn : (Hash → BaoFileStorage Hash) → Hash → ChunkRanges → List UInt8 →
    Except ProviderError Unit × (Hash → BaoFileStorage Hash) × List UInt8)

/-- The file store as the provider uses it.  Its state are the entries. -/
def fsStore : StoreOps (Hash → BaoFileStorage Hash) where
  exportBao entries hash ranges := .ok (exportBaoImpl traverse (nodeHash f [] []) hash (entries hash) ranges)
  importBaoQuinn

/-- The entry exists, but nothing is known of its size. -/
def UnknownSize (entries : Hash → BaoFileStorage Hash) (hash : Hash) : Prop :=
  (entries hash).currentSize = some 0 ∧ hash ≠ nodeHash f [] []

/-- Success of the exports of a store means what it says. -/
structure ExportsSound (entries : Hash → BaoFileStorage Hash) : Prop where
  getBytes : ∀ hash b, (fsStore f traverse importBaoQuinn).getBytes entries hash = .ok b → nodeHash f b [] = hash
  handleGet : ∀ notify request fuel w run,
    handleGet (sendBlob (fsStore f traverse importBaoQuinn) entries notify)
      ((fsStore f traverse importBaoQuinn).getBytes entries request.hash) request fuel w = some run →
    ∀ item ∈ run.trace.dropLast, .done ∈ exportBaoImpl traverse (nodeHash f [] []) item.hash
      (entries item.hash) item.ranges

variable {f traverse importBaoQuinn}

variable (traverse) in
/-- The items of an export of an entry of known size: an error, or a traversal. -/
theorem exportBaoImpl_cases {entries : Hash → BaoFileStorage Hash} {hash : Hash} (h : ¬ UnknownSize f entries hash)
    (ranges : ChunkRanges) :
    exportBaoImpl traverse (nodeHash f [] []) hash (entries hash) ranges = [.error .io] ∨
      ∃ src, src.root = hash ∧
        exportBaoImpl traverse (nodeHash f [] []) hash (entries hash) ranges = traverse src ranges := by
  unfold exportBaoImpl
  cases hsrc : (entries hash).source hash with
  | none => exact Or.inl rfl
  | some src =>
    refine Or.inr ⟨src, BaoFileStorage.root_of_source hsrc, if_neg (fun hzero => h ⟨?_, hzero.2⟩)⟩
    rw [BaoFileStorage.currentSize_eq _ hash, hsrc, Option.map_some, hzero.1]

/-- Every export of an entry of known size reports its end. -/
private theorem terminated_export (ht : TraversesSound f traverse) {entries : Hash → BaoFileStorage Hash} {hash : Hash}
    (h : ¬ UnknownSize f entries hash) (ranges : ChunkRanges) :
    Terminated (exportBaoImpl traverse (nodeHash f [] []) hash (entries hash) ranges) := by
  rcases exportBaoImpl_cases traverse h ranges with herr | ⟨src, -, heq⟩
  · rw [herr]
    exact Or.inr ⟨.io, by simp⟩
  · obtain ⟨body, last, hbody, -, hlast⟩ := ht src ranges
    rw [heq, hbody]
    rcases hlast with ⟨e, rfl⟩ | ⟨rfl, -⟩
    · exact Or.inr ⟨e, by simp⟩
    · exact Or.inl (by simp)

private theorem getBytes_sound (ht : TraversesSound f traverse) {entries : Hash → BaoFileStorage Hash} {hash : Hash}
    (h : ¬ UnknownSize f entries hash) {b : List UInt8}
    (hb : (fsStore f traverse importBaoQuinn).getBytes entries hash = .ok b) : nodeHash f b [] = hash := by
  simp only [StoreOps.getBytes, fsStore] at hb
  rcases exportBaoImpl_cases traverse h RangeSet.all with herr | ⟨src, hroot, heq⟩
  · rw [herr] at hb
    cases hb
  · obtain ⟨body, last, hbody, hitems, hlast⟩ := ht src RangeSet.all
    rw [heq, hbody] at hb
    rcases hlast with ⟨e, rfl⟩ | ⟨rfl, hvalid⟩
    · rw [dataToBytes_error hitems] at hb
      cases hb
    · rw [dataToBytes_done hitems] at hb
      cases hb
      have := nodeHash_of_validated (hvalid rfl) (p := []) trivial
      rw [← hroot]
      exact (Option.some.inj this).symm

/-- Exports of a store are sound exactly if there is no entry of unknown size. -/
private theorem exportsSound_iff (ht : TraversesSound f traverse) (entries : Hash → BaoFileStorage Hash) :
    ExportsSound f traverse importBaoQuinn entries ↔ ∀ hash, ¬ UnknownSize f entries hash := by
  constructor
  · intro h hash ⟨hsize, hne⟩
    -- nothing is sent, which is taken for the empty blob
    refine hne (h.getBytes hash [] ?_).symm
    rw [BaoFileStorage.currentSize_eq _ hash, Option.map_eq_some_iff] at hsize
    obtain ⟨src, hsrc, hzero⟩ := hsize
    simp only [StoreOps.getBytes, fsStore, exportBaoImpl, hsrc]
    rw [if_pos ⟨hzero, hne⟩]
    rfl
  · intro h
    refine ⟨fun hash b hb => getBytes_sound ht (h hash) hb, fun notify request fuel w run hrun item hmem => ?_⟩
    obtain ⟨w', hw'⟩ := (okExceptLast_handleGet hrun).init item hmem
    have hsound := (writeQuinnWithProgress_sound_iff _).mpr (terminated_export ht (h item.hash) item.ranges)
    unfold sendBlob at hw'
    split at hw'
    · rename_i w'' hwrite
      exact hsound w' notify item.index w'' hwrite
    · cases hw'

variable (importBaoQuinn) in
/-- When success of an export means that it is complete: for each consumer exactly on the channels on which the producer
reported the end, and for the file store exactly if there is no entry of unknown size. -/
theorem exports_complete_iff (ht : TraversesSound f traverse) :
    (∀ items : List (EncodedItem Hash),
      ((∀ b, dataToBytes (.ok items) = .ok b → .done ∈ items) ↔ Terminated items) ∧
      ((∀ b, dataToVec (.ok items) = .ok b → .done ∈ items) ↔ Terminated items) ∧
      ((∀ b, baoToVec (.ok items) = .ok b → .done ∈ items) ↔ Terminated items) ∧
      ((∀ w w', writeQuinn (.ok items) w = .ok w' → .done ∈ items) ↔ Terminated items) ∧
      ((∀ w notify index w', writeQuinnWithProgress (.ok items) w notify index = .ok w' → .done ∈ items) ↔
        Terminated items)) ∧
    (∀ items : List ExportProgressItem,
      (∃ fuel r, finish fuel (.ok items) = some r ∧ ∀ n, r = .ok n → .done ∈ items) ↔
        ExportProgressItem.Terminated items) ∧
    ∀ entries, ExportsSound f traverse importBaoQuinn entries ↔ ∀ hash, ¬ UnknownSize f entries hash :=
  ⟨fun items => ⟨dataToBytes_sound_iff items, dataToVec_sound_iff items, baoToVec_sound_iff items,
    writeQuinn_sound_iff items, writeQuinnWithProgress_sound_iff items⟩, ExportProgressItem.finish_sound_iff,
      exportsSound_iff ht⟩

end

/-! ### A blob with one chunk group -/

/-- A hash function that looks at the first byte. -/
def firstByteHash : HashFns UInt8 Hash := ⟨fun _ data _ => .replicate (data.headD 0), fun l _ _ => l⟩

/-- The traversal of a source with one chunk group; others fail. -/
def traverseOneGroup (src : ExportSource Hash) (_ : ChunkRanges) : List (EncodedItem Hash) :=
  let data := (List.range src.size).filterMap src.data.cell
  if src.size ≤ 16384 ∧ data.length = src.size ∧ hashSubtree firstByteHash 0 data true = src.root then
    [.size src.size, .leaf ⟨0, data⟩, .done]
  else [.size src.size, .error (.leafHashMismatch 0)]

private theorem traversesSound_oneGroup : TraversesSound firstByteHash traverseOneGroup := by
  intro src ranges
  unfold traverseOneGroup
  simp only
  split
  · rename_i h
    obtain ⟨hsize, hlen, hroot⟩ := h
    refine ⟨[.leaf ⟨0, (List.range src.size).filterMap src.data.cell⟩], .done, rfl, by simp, Or.inr ⟨rfl, fun _ => ?_⟩⟩
    have hpay : payload [.leaf ⟨0, (List.range src.size).filterMap src.data.cell⟩] =
        (List.range src.size).filterMap src.data.cell := by simp [payload]
    rw [hpay]
    have hn : treeChunks src.size ≤ 16 := by
      unfold treeChunks chunks
      omega
    -- the only path is the empty one
    have hnil : ∀ p, IsPath 16 (treeChunks src.size) p → p = [] := by
      intro p hp
      cases p with
      | nil => rfl
      | cons b p => exact absurd hp.lt (by omega)
    refine ⟨hlen, fun p hp hlt => ?_, fun p hp _ => ?_⟩
    · rw [hnil p hp] at hlt
      exact absurd hlt (by simp only [sub]; omega)
    · rw [hnil p hp]
      have hnode := nodeHash_nil firstByteHash ((List.range src.size).filterMap src.data.cell)
      rw [nodeHash, hlen] at hnode
      rw [hnode, hroot]
      rfl
  · exact ⟨[], _, rfl, by simp, Or.inl ⟨_, rfl⟩⟩

/-- A store with a complete blob of one byte. -/
def oneByteEntries (hash : Hash) : BaoFileStorage Hash :=
  if hash = .replicate 1 then .complete ⟨⟨1, fun _ => some 1⟩, 1, .empty⟩ else .nonExisting

theorem exports_complete_oneByte :
    (fsStore firstByteHash traverseOneGroup (fun s _ _ data => (.ok (), s, data))).getBytes
      oneByteEntries (.replicate 1) =
        .ok [1] ∧
      nodeHash firstByteHash [1] [] = .replicate 1 := by
  have hb : (fsStore firstByteHash traverseOneGroup (fun s _ _ data => (.ok (), s, data))).getBytes oneByteEntries
      (.replicate 1) = .ok [1] := by
    have hroot : hashSubtree firstByteHash 0 [1] true = .replicate 1 := hashSubtree_of_le (by decide)
    have hexport : exportBaoImpl traverseOneGroup (nodeHash firstByteHash [] []) (.replicate 1)
        (oneByteEntries (.replicate 1)) RangeSet.all = [.size 1, .leaf ⟨0, [1]⟩, .done] := by
      simp only [exportBaoImpl, oneByteEntries, if_true, BaoFileStorage.source]
      rw [if_neg (by simp)]
      exact if_pos ⟨by decide, rfl, hroot⟩
    simp only [StoreOps.getBytes, fsStore, hexport]
    rfl
  have h := exports_complete_iff (fun s _ _ data => (.ok (), s, data)) traversesSound_oneGroup
  refine ⟨hb, ((h.2.2 oneByteEntries).mpr (fun hash hu => ?_)).getBytes _ _ hb⟩
  have hsize := hu.1
  unfold oneByteEntries at hsize
  split at hsize <;> cases hsize

theorem not_exports_complete_nothingSent :
    (dataToBytes (.ok []) = .ok [] ∧ .done ∉ ([] : List (EncodedItem Hash))) ∧ (∀ fuel, finish fuel (.ok []) = none) ∧
      (fsStore firstByteHash traverseOneGroup (fun s _ _ data => (.ok (), s, data))).getBytes
          (fun _ => .partialFile ⟨.empty, .empty, ⟨1, fun _ => some 0⟩, ⟨16384, ∅⟩⟩) (.replicate 1) = .ok [] ∧
      nodeHash firstByteHash [] [] ≠ .replicate 1 := by
  have hne : nodeHash firstByteHash [] [] ≠ .replicate 1 := by
    rw [nodeHash_nil, hashSubtree_of_le (by decide)]
    decide
  refine ⟨⟨rfl, by simp⟩, fun fuel => ExportProgressItem.finishLoop_nil fuel none, ?_, hne⟩
  simp only [StoreOps.getBytes, fsStore, exportBaoImpl, BaoFileStorage.source]
  rw [if_pos ⟨rfl, hne.symm⟩]
  rfl

end IrohBlobs
