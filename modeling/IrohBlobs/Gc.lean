import IrohBlobs.ExportBao
import Mathlib.Data.Finset.Basic

/-!
# Garbage collection

The model of `store/fs/gc.rs`: the mark task collects the roots from tags and temp tags and visits them in the order
of a hash set; a hash sequence root is traversed only if its hash was not live before.  The sweep task deletes the
blobs that are not live, in batches.

A run of the mark task is described by the roots it traverses (`mem_markRoots`).  From this follows when every child
of a complete hash sequence root is live in the end, for every order of the roots.
-/

namespace IrohBlobs

inductive BlobFormat
  | raw
  | hashSeq
  deriving DecidableEq

def BlobFormat.isRaw : BlobFormat → Bool
  | .raw => true
  | .hashSeq => false

structure HashAndFormat where
  hash : Hash
  format : BlobFormat
  deriving DecidableEq

namespace Gc

/-- The errors of the requests to the store. -/
inductive ApiError
  | request
  deriving DecidableEq

/-- What garbage collection sees of the store.  Listings can fail as a whole, and at each item. -/
structure Store where
  tags : Except ApiError (List (Except ApiError HashAndFormat))
  tempTags : Except ApiError (List HashAndFormat)
  /-- The export of all ranges of a blob. -/
  exportBao : Hash → ExportBaoProgress
  /-- The data of the complete blobs. -/
  content : Hash → Option (List UInt8)
  listBlobs : Except ApiError (List (Except ApiError Hash))
  /-- Whether a delete request is answered. -/
  deleteAnswered : List Hash → Bool
  /-- Whether the request to clear the protected set is answered. -/
  clearAnswered : Bool
  /-- Whether the request to sync the database is answered. -/
  syncAnswered : Bool

/-- The order in which the elements of a hash set are visited. -/
structure IterationOrder where
  list : Finset HashAndFormat → List HashAndFormat
  nodup : ∀ s, (list s).Nodup
  mem : ∀ s r, r ∈ list s ↔ r ∈ s

/-! ### Mark -/

/-- The roots: all tags and temp tags. -/
def collectRoots (store : Store) : Except ApiError (Finset HashAndFormat) := do
  let tags ← store.tags
  let roots ← tags.foldlM (fun roots tag => do pure (insert (← tag) roots)) ∅
  let tts ← store.tempTags
  pure (tts.foldl (fun roots tt => insert tt roots) roots)

/-- The hashes of the stream are added; errors are only reported. -/
def insertHashes (live : Finset Hash) (stream : List (Except HashesError Hash)) : Finset Hash :=
  stream.foldl (fun live item => match item with | .ok hash => insert hash live | .error _ => live) live

/-- The visit of one root. -/
def markRoot (store : Store) (live : Finset Hash) (root : HashAndFormat) : Finset Hash :=
  let inserted := root.hash ∉ live
  let live := insert root.hash live
  -- we need to do this for all formats except raw
  if inserted ∧ !root.format.isRaw then insertHashes live (hashes (store.exportBao root.hash)) else live

def markRoots (store : Store) (live : Finset Hash) (roots : List HashAndFormat) : Finset Hash :=
  roots.foldl (markRoot store) live

/-- Compute the set of live hashes. -/
def gcMarkTask (store : Store) (order : IterationOrder) (live : Finset Hash) : Except ApiError (Finset Hash) := do
  let roots ← collectRoots store
  pure (markRoots store live (order.list roots))

/-! ### Sweep -/

/-- The entries of the database, and the hashes protected since the start of the run. -/
structure Blobs where
  entries : Finset Hash
  isProtected : Finset Hash

/-- A delete request without `force` skips protected hashes. -/
def deleteEntry (isProtected : Finset Hash) (entries : Finset Hash) (hash : Hash) : Finset Hash :=
  if hash ∈ isProtected then entries else entries.erase hash

def Blobs.delete (blobs : Blobs) (hashes : List Hash) : Blobs :=
  { blobs with entries := hashes.foldl (deleteEntry blobs.isProtected) blobs.entries }

/-- The request of the sweep task; an unanswered request ends the task. -/
def deleteRequest (store : Store) (hashes : List Hash) (blobs : Blobs) : Except ApiError Unit × Blobs :=
  if store.deleteAnswered hashes then (.ok (), blobs.delete hashes) else (.error .request, blobs)

/-- The loop over the listed blobs. -/
def sweepLoop (store : Store) (live : Finset Hash) :
    List (Except ApiError Hash) → List Hash → Blobs → Except ApiError Unit × Blobs
  | [], batch, blobs => if batch.isEmpty then (.ok (), blobs) else deleteRequest store batch blobs
  | .error e :: _, _, blobs => (.error e, blobs)
  | .ok hash :: rest, batch, blobs =>
    let batch := if hash ∈ live then batch else batch ++ [hash]
    if 100 ≤ batch.length then
      match deleteRequest store batch blobs with
      | (.error e, blobs) => (.error e, blobs)
      | (.ok (), blobs) => sweepLoop store live rest [] blobs
    else sweepLoop store live rest batch blobs

def gcSweepTask (store : Store) (live : Finset Hash) (blobs : Blobs) : Except ApiError Unit × Blobs :=
  match store.listBlobs with
  | .error e => (.error e, blobs)
  | .ok list =>
    match sweepLoop store live list [] blobs with
    | (.error e, blobs) => (.error e, blobs)
    | (.ok (), blobs) => (if store.syncAnswered then .ok () else .error .request, blobs)

/-- One run: the protected set is cleared, then mark and sweep.  `protectedMeanwhile` are the hashes that other tasks
protect during the run. -/
def gcRunOnce (store : Store) (order : IterationOrder) (live : Finset Hash) (protectedMeanwhile : Finset Hash)
    (blobs : Blobs) : Except ApiError Unit × Blobs :=
  if store.clearAnswered then
    let blobs := { blobs with isProtected := protectedMeanwhile }
    match gcMarkTask store order live with
    | .error e => (.error e, blobs)
    | .ok live => gcSweepTask store live blobs
  else (.error .request, blobs)

/-! ### What a run of the mark task adds -/

/-- The hashes that the traversal of a root adds. -/
def Store.exported (store : Store) (h : Hash) : List Hash :=
  (hashes (store.exportBao h)).filterMap Except.toOption

private theorem mem_insertHashes {live : Finset Hash} {stream : List (Except HashesError Hash)} {x : Hash} :
    x ∈ insertHashes live stream ↔ x ∈ live ∨ x ∈ stream.filterMap Except.toOption := by
  induction stream generalizing live with
  | nil => simp [insertHashes]
  | cons item stream ih =>
    cases item with
    | ok h =>
      have := @ih (insert h live)
      simp only [insertHashes, List.foldl_cons] at this ⊢
      rw [this]
      simp only [Finset.mem_insert, Except.toOption, List.filterMap_cons, List.mem_cons]
      tauto
    | error e =>
      have := @ih live
      simpa [insertHashes, Except.toOption] using this

private theorem mem_markRoot {store : Store} {live : Finset Hash} {r : HashAndFormat} {x : Hash} :
    x ∈ markRoot store live r ↔
      x ∈ live ∨ x = r.hash ∨ (r.hash ∉ live ∧ r.format = .hashSeq ∧ x ∈ store.exported r.hash) := by
  obtain ⟨h, f⟩ := r
  unfold markRoot
  cases f with
  | raw =>
    simp only [BlobFormat.isRaw, Bool.not_true, Bool.false_eq_true, and_false, ↓reduceIte, Finset.mem_insert]
    simp only [reduceCtorEq, false_and, and_false, or_false]
    exact or_comm
  | hashSeq =>
    by_cases hl : h ∈ live
    · simp only [hl, not_true_eq_false, false_and, ↓reduceIte, Finset.mem_insert, or_false]
      exact or_comm
    · simp only [hl, not_false_eq_true, BlobFormat.isRaw, Bool.not_false, and_self, ↓reduceIte, mem_insertHashes,
        Finset.mem_insert, true_and, Store.exported]
      tauto

/-- The roots that a run of the mark loop traverses, in order. -/
def traversed (store : Store) : Finset Hash → List HashAndFormat → List Hash
  | _, [] => []
  | live, r :: rest =>
    if r.hash ∉ live ∧ r.format = .hashSeq then r.hash :: traversed store (markRoot store live r) rest
    else traversed store (markRoot store live r) rest

/-- The live set of a run: what was live, the roots, and the exports of the traversed roots. -/
theorem mem_markRoots {store : Store} {live : Finset Hash} {roots : List HashAndFormat} {x : Hash} :
    x ∈ markRoots store live roots ↔
      x ∈ live ∨ (∃ r ∈ roots, r.hash = x) ∨ ∃ g ∈ traversed store live roots, x ∈ store.exported g := by
  induction roots generalizing live with
  | nil => simp [markRoots, traversed]
  | cons r roots ih =>
    have hstep : markRoots store live (r :: roots) = markRoots store (markRoot store live r) roots := rfl
    rw [hstep, ih, mem_markRoot, traversed]
    by_cases h : r.hash ∉ live ∧ r.format = .hashSeq
    · simp only [h, List.mem_cons, exists_eq_or_imp, not_false_eq_true, and_self, ↓reduceIte, true_and,
        eq_comm (a := x)]
      simp only [or_assoc, or_left_comm]
    · have h' : ¬ (r.hash ∉ live ∧ r.format = .hashSeq ∧ x ∈ store.exported r.hash) := fun hc => h ⟨hc.1, hc.2.1⟩
      simp only [h, h', List.mem_cons, exists_eq_or_imp, ↓reduceIte, or_false, eq_comm (a := x), or_assoc]

private theorem subset_markRoot {store : Store} {live : Finset Hash} {r : HashAndFormat} {x : Hash} (h : x ∈ live) :
    x ∈ markRoot store live r := mem_markRoot.mpr (Or.inl h)

/-- A traversed root is a hash sequence that was not live before the run. -/
private theorem traversed_mem {store : Store} {live : Finset Hash} {roots : List HashAndFormat} {g : Hash}
    (hg : g ∈ traversed store live roots) : ⟨g, .hashSeq⟩ ∈ roots ∧ g ∉ live := by
  induction roots generalizing live with
  | nil => simp [traversed] at hg
  | cons r roots ih =>
    rw [traversed] at hg
    have hrest : g ∈ traversed store (markRoot store live r) roots → ⟨g, .hashSeq⟩ ∈ r :: roots ∧ g ∉ live := by
      intro h
      obtain ⟨h1, h2⟩ := ih h
      exact ⟨List.mem_cons_of_mem _ h1, fun hl => h2 (subset_markRoot hl)⟩
    split at hg
    · rename_i hr
      rcases List.mem_cons.mp hg with rfl | hg
      · obtain ⟨h, f⟩ := r
        obtain ⟨hr1, rfl⟩ := hr
        exact ⟨List.mem_cons_self, hr1⟩
      · exact hrest hg
    · exact hrest hg

/-- Traversed roots are distinct, and none is exported by an earlier one. -/
private theorem traversed_pairwise (store : Store) (live : Finset Hash) (roots : List HashAndFormat) :
    (traversed store live roots).Pairwise (fun g g' => g ≠ g' ∧ g' ∉ store.exported g) := by
  induction roots generalizing live with
  | nil => exact List.Pairwise.nil
  | cons r roots ih =>
    rw [traversed]
    split
    · rename_i hr
      refine List.pairwise_cons.mpr ⟨?_, ih _⟩
      intro g' hg'
      have hnot := (traversed_mem hg').2
      refine ⟨?_, ?_⟩
      · rintro rfl
        exact hnot (mem_markRoot.mpr (Or.inr (Or.inl rfl)))
      · intro hexp
        exact hnot (mem_markRoot.mpr (Or.inr (Or.inr ⟨hr.1, hr.2, hexp⟩)))
    · exact ih _

/-- A hash sequence root that is not traversed was live when it was visited. -/
private theorem traversed_or {store : Store} {live : Finset Hash} {roots : List HashAndFormat} {h : Hash}
    (hh : ⟨h, .hashSeq⟩ ∈ roots) :
    h ∈ traversed store live roots ∨ h ∈ live ∨ ⟨h, .raw⟩ ∈ roots ∨
      ∃ g ∈ traversed store live roots, h ∈ store.exported g := by
  induction roots generalizing live with
  | nil => simp at hh
  | cons r roots ih =>
    obtain ⟨k, f⟩ := r
    rcases List.mem_cons.mp hh with heq | hmem
    · obtain ⟨rfl, rfl⟩ : h = k ∧ BlobFormat.hashSeq = f := by simpa using heq
      by_cases hl : h ∈ live
      · exact Or.inr (Or.inl hl)
      · left
        rw [traversed, if_pos ⟨hl, rfl⟩]
        exact List.mem_cons_self
    · have hsub : ∀ g, g ∈ traversed store (markRoot store live ⟨k, f⟩) roots →
          g ∈ traversed store live (⟨k, f⟩ :: roots) := by
        intro g hg
        rw [traversed]
        split
        · exact List.mem_cons_of_mem _ hg
        · exact hg
      rcases @ih (markRoot store live ⟨k, f⟩) hmem with h1 | h1 | h1 | ⟨g, hg, h1⟩
      · exact Or.inl (hsub h h1)
      · rcases mem_markRoot.mp h1 with h2 | h2 | ⟨h2, h3, h4⟩
        · exact Or.inr (Or.inl h2)
        · cases f with
          | raw => subst h2; exact Or.inr (Or.inr (Or.inl List.mem_cons_self))
          | hashSeq =>
            by_cases hl : k ∈ live
            · exact Or.inr (Or.inl (h2 ▸ hl))
            · left
              rw [traversed, if_pos ⟨hl, rfl⟩, h2]
              exact List.mem_cons_self
        · refine Or.inr (Or.inr (Or.inr ⟨k, ?_, h4⟩))
          rw [traversed, if_pos ⟨h2, h3⟩]
          exact List.mem_cons_self
      · exact Or.inr (Or.inr (Or.inl (List.mem_cons_of_mem _ h1)))
      · exact Or.inr (Or.inr (Or.inr ⟨g, hsub g hg, h1⟩))

/-! ### Every child of a complete hash sequence root is live -/

/-- The children of a complete hash sequence. -/
def Store.children (store : Store) (h : Hash) : List Hash :=
  match (store.content h).bind HashSeq.new with
  | some seq => seq.iter
  | none => []

/-- The leaves of an export, in order. -/
def leaves (items : List (EncodedItem Hash)) : List Leaf :=
  items.filterMap (fun item => match item with | .leaf leaf => some leaf | _ => none)

/-- An export of a complete blob yields all its leaves: their data is the blob, and all but the last are whole
chunks. -/
structure YieldsAll (data : List UInt8) (items : List (EncodedItem Hash)) : Prop where
  flatMap_data : (leaves items).flatMap Leaf.data = data
  whole : ∀ leaf ∈ (leaves items).dropLast, leaf.data.length % 1024 = 0

/-- The exports of complete blobs yield all their leaves. -/
def ExportsComplete (store : Store) : Prop :=
  ∀ h data, store.content h = some data → ∃ items, store.exportBao h = .ok items ∧ YieldsAll data items

/-- The hashes read from one leaf. -/
private def hashesOfLeaf (leaf : Leaf) : List Hash := ((HashSeq.new leaf.data).map HashSeq.iter).getD []

private theorem mem_exported_of_leaf {store : Store} {h c : Hash} {items : List (EncodedItem Hash)} {leaf : Leaf}
    (he : store.exportBao h = .ok items) (hl : leaf ∈ leaves items) (hc : c ∈ hashesOfLeaf leaf) :
    c ∈ store.exported h := by
  have hitem : EncodedItem.leaf leaf ∈ items := by
    obtain ⟨item, hi, hm⟩ := List.mem_filterMap.mp hl
    cases item <;> simp_all
  unfold hashesOfLeaf at hc
  cases hs : HashSeq.new leaf.data with
  | none => simp [hs] at hc
  | some seq =>
    simp only [hs, Option.map_some, Option.getD_some] at hc
    obtain ⟨i, hi, hget⟩ := List.mem_iff_getElem.mp hc
    refine List.mem_filterMap.mpr ⟨.ok c, ?_, rfl⟩
    refine List.mem_map.mpr ⟨.ok (leaf.offset / 32 + i, c), ?_, rfl⟩
    refine List.mem_flatMap.mpr ⟨.leaf leaf, by rw [he]; exact hitem, ?_⟩
    have htry : HashSeqChunk.tryFrom leaf = some ⟨leaf.offset, seq⟩ := by simp [HashSeqChunk.tryFrom, hs]
    simp only [hashesOfItem, htry]
    exact List.mem_map.mpr ⟨(c, i), List.mk_mem_zipIdx_iff_getElem?.mpr (hget ▸ List.getElem?_eq_getElem hi), rfl⟩

/-- Leaves of whole hashes, read one by one, give the hashes of the concatenation. -/
private theorem iter_flatMap {ls : List Leaf} (h : ∀ l ∈ ls, l.data.length % 32 = 0) {seq : HashSeq}
    (hseq : seq.bytes = ls.flatMap Leaf.data) : seq.iter = ls.flatMap hashesOfLeaf := by
  induction ls generalizing seq with
  | nil =>
    have : seq = HashSeq.ofHashes [] := by
      obtain ⟨bytes, hb⟩ := seq
      simp only [List.flatMap_nil] at hseq
      subst hseq
      rfl
    rw [this, HashSeq.iter_ofHashes]
    rfl
  | cons l ls ih =>
    have hl := h l List.mem_cons_self
    have hls : (ls.flatMap Leaf.data).length % 32 = 0 := by
      have hb := seq.length_mod
      rw [hseq, List.flatMap_cons, List.length_append] at hb
      omega
    have hsplit : seq = HashSeq.append ⟨l.data, hl⟩ ⟨ls.flatMap Leaf.data, hls⟩ := by
      obtain ⟨bytes, hb⟩ := seq
      simp only at hseq
      subst hseq
      rfl
    have hrest : (HashSeq.mk (ls.flatMap Leaf.data) hls).iter = _ :=
      ih (fun l' hl' => h l' (List.mem_cons_of_mem _ hl'))  rfl
    rw [hsplit, HashSeq.iter_append, hrest, List.flatMap_cons]
    congr 1
    simp [hashesOfLeaf, HashSeq.new, hl]

private theorem length_mod_of_whole {ls : List Leaf} (hw : ∀ l ∈ ls.dropLast, l.data.length % 1024 = 0)
    (ht : (ls.flatMap Leaf.data).length % 32 = 0) : ∀ l ∈ ls, l.data.length % 32 = 0 := by
  induction ls with
  | nil => simp
  | cons l ls ih =>
    cases ls with
    | nil => simpa using ht
    | cons l' ls =>
      have hl : l.data.length % 1024 = 0 := hw l (by simp)
      intro x hx
      rcases List.mem_cons.mp hx with rfl | hx
      · omega
      · refine ih (fun y hy => hw y (by simp [hy])) ?_ x hx
        rw [List.flatMap_cons, List.length_append] at ht
        omega

/-- The traversal of a complete hash sequence adds all its children. -/
private theorem children_subset_exported {store : Store} (hexp : ExportsComplete store) {h c : Hash}
    (hc : c ∈ store.children h) : c ∈ store.exported h := by
  unfold Store.children at hc
  cases hcont : store.content h with
  | none => simp [hcont] at hc
  | some data =>
    cases hnew : HashSeq.new data with
    | none => simp [hcont, hnew] at hc
    | some seq =>
      obtain ⟨items, hi, hy⟩ := hexp h data hcont
      have hbytes := HashSeq.new_eq_some hnew
      simp only [hcont, Option.bind_some, hnew] at hc
      have hmod : ((leaves items).flatMap Leaf.data).length % 32 = 0 := by
        rw [hy.flatMap_data, ← hbytes]
        exact seq.length_mod
      rw [iter_flatMap (length_mod_of_whole hy.whole hmod) (by rw [hbytes, hy.flatMap_data])] at hc
      obtain ⟨leaf, hl, hc⟩ := List.mem_flatMap.mp hc
      exact mem_exported_of_leaf hi hl hc

/-- What is left after the deletion of some hashes. -/
theorem mem_foldl_deleteEntry {isProtected entries : Finset Hash} {hashes : List Hash} {c : Hash} :
    c ∈ hashes.foldl (deleteEntry isProtected) entries ↔ c ∈ entries ∧ (c ∈ isProtected ∨ c ∉ hashes) := by
  induction hashes generalizing entries with
  | nil => simp
  | cons h hashes ih =>
    rw [List.foldl_cons, ih]
    unfold deleteEntry
    by_cases hp : h ∈ isProtected
    · rw [if_pos hp, List.mem_cons, not_or]
      constructor
      · rintro ⟨hc, hprot | hn⟩
        · exact ⟨hc, Or.inl hprot⟩
        · by_cases heq : c = h
          · exact ⟨hc, Or.inl (heq ▸ hp)⟩
          · exact ⟨hc, Or.inr ⟨heq, hn⟩⟩
      · rintro ⟨hc, hprot | ⟨-, hn⟩⟩
        · exact ⟨hc, Or.inl hprot⟩
        · exact ⟨hc, Or.inr hn⟩
    · rw [if_neg hp, Finset.mem_erase, List.mem_cons, not_or]
      constructor
      · rintro ⟨⟨hne, hc⟩, hprot | hn⟩
        · exact ⟨hc, Or.inl hprot⟩
        · exact ⟨hc, Or.inr ⟨hne, hn⟩⟩
      · rintro ⟨hc, hprot | ⟨hne, hn⟩⟩
        · exact ⟨⟨fun heq => hp (heq ▸ hprot), hc⟩, Or.inl hprot⟩
        · exact ⟨⟨hne, hc⟩, Or.inr hn⟩

/-- A delete request removes only the hashes it names. -/
private theorem mem_delete {blobs : Blobs} {hashes : List Hash} {c : Hash} (hc : c ∈ blobs.entries)
    (hn : c ∉ hashes) : c ∈ (blobs.delete hashes).entries := mem_foldl_deleteEntry.mpr ⟨hc, Or.inr hn⟩

private theorem mem_deleteRequest {store : Store} {blobs : Blobs} {hashes : List Hash} {c : Hash}
    (hc : c ∈ blobs.entries) (hn : c ∉ hashes) : c ∈ (deleteRequest store hashes blobs).2.entries := by
  unfold deleteRequest
  split
  · exact mem_delete hc hn
  · exact hc

private theorem mem_sweepLoop {store : Store} {live : Finset Hash} {list : List (Except ApiError Hash)}
    {batch : List Hash} {blobs : Blobs} {c : Hash} (hl : c ∈ live) (hb : c ∉ batch) (hc : c ∈ blobs.entries) :
    c ∈ (sweepLoop store live list batch blobs).2.entries := by
  induction list generalizing batch blobs with
  | nil =>
    unfold sweepLoop
    split
    · exact hc
    · exact mem_deleteRequest hc hb
  | cons item list ih =>
    cases item with
    | error e => exact hc
    | ok hash =>
      have hb' : c ∉ if hash ∈ live then batch else batch ++ [hash] := by
        split
        · exact hb
        · rename_i hh
          simp only [List.mem_append, List.mem_singleton, not_or]
          exact ⟨hb, fun he => hh (he ▸ hl)⟩
      unfold sweepLoop
      simp only
      generalize (if hash ∈ live then batch else batch ++ [hash]) = batch' at hb' ⊢
      split
      · have hdel : c ∈ (deleteRequest store batch' blobs).2.entries := mem_deleteRequest hc hb'
        split
        · rename_i hres
          rw [hres] at hdel
          exact hdel
        · rename_i hres
          rw [hres] at hdel
          exact ih (by simp) hdel
      · exact ih hb' hc

/-- The sweep deletes no live blob. -/
private theorem mem_gcSweepTask {store : Store} {live : Finset Hash} {blobs : Blobs} {c : Hash} (hl : c ∈ live)
    (hc : c ∈ blobs.entries) : c ∈ (gcSweepTask store live blobs).2.entries := by
  unfold gcSweepTask
  split
  · exact hc
  · rename_i list _
    have hloop : c ∈ (sweepLoop store live list [] blobs).2.entries := mem_sweepLoop hl (by simp) hc
    split
    · rename_i hres
      rw [hres] at hloop
      exact hloop
    · rename_i hres
      rw [hres] at hloop
      exact hloop

/-- Marking is complete: in every order of the roots a successful mark task ends with all root hashes and all children
of complete hash sequence roots in the live set, and the sweep that follows keeps these children. -/
def MarkComplete (store : Store) (live : Finset Hash) : Prop :=
  ∀ (order : IterationOrder) (roots : Finset HashAndFormat) (live' : Finset Hash), collectRoots store = .ok roots →
    gcMarkTask store order live = .ok live' →
      (∀ r ∈ roots, r.hash ∈ live') ∧
      ∀ h, ⟨h, .hashSeq⟩ ∈ roots → ∀ c ∈ store.children h,
        c ∈ live' ∧ ∀ blobs : Blobs, c ∈ blobs.entries → c ∈ (gcSweepTask store live' blobs).2.entries

/-- Every hash sequence root that lists `c` can be live when its turn comes: it is live from the start, or it is a raw
root too, or it is listed by one of the `visited` roots.  The latter do not list `c`, and can be visited first, in
their order: none is live from the start, or listed by an earlier one. -/
def Shadowed (store : Store) (roots : Finset HashAndFormat) (live : Finset Hash) (c : Hash) : Prop :=
  ∃ visited : List Hash,
    (∀ g ∈ visited, ⟨g, .hashSeq⟩ ∈ roots ∧ g ∉ live ∧ c ∉ store.exported g) ∧
    visited.Pairwise (fun g g' => g ≠ g' ∧ g' ∉ store.exported g) ∧
    ∀ h, ⟨h, .hashSeq⟩ ∈ roots → c ∈ store.exported h →
      h ∈ live ∨ ⟨h, .raw⟩ ∈ roots ∨ ∃ g ∈ visited, h ∈ store.exported g

/-- A run in which `c` is not live in the end shows how the roots that list `c` were shadowed. -/
theorem shadowed_of_not_mem {store : Store} {order : List HashAndFormat} {roots : Finset HashAndFormat}
    {live : Finset Hash} {c : Hash} (horder : ∀ r, r ∈ order ↔ r ∈ roots) (hc : c ∉ markRoots store live order) :
    Shadowed store roots live c := by
  have hnot : ∀ g ∈ traversed store live order, c ∉ store.exported g :=
    fun g hg hexp => hc (mem_markRoots.mpr (Or.inr (Or.inr ⟨g, hg, hexp⟩)))
  refine ⟨traversed store live order, ?_, traversed_pairwise store live order, ?_⟩
  · intro g hg
    obtain ⟨h1, h2⟩ := traversed_mem hg
    exact ⟨(horder _).mp h1, h2, hnot g hg⟩
  · intro h hh hexp
    rcases @traversed_or store live order h ((horder _).mpr hh) with h1 | h1 | h1 | h1
    · exact absurd hexp (hnot h h1)
    · exact Or.inl h1
    · exact Or.inr (Or.inl ((horder _).mp h1))
    · exact Or.inr (Or.inr h1)

/-- Roots that are live, raw or do not list `c` leave `c` dead. -/
private theorem not_mem_markRoots {store : Store} {live : Finset Hash} {roots : List HashAndFormat} {c : Hash}
    (hc : c ∉ live) (hroot : ∀ r ∈ roots, r.hash ≠ c)
    (h : ∀ r ∈ roots, r.hash ∈ live ∨ r.format = .raw ∨ c ∉ store.exported r.hash) :
    c ∉ markRoots store live roots := by
  intro hm
  rcases mem_markRoots.mp hm with h1 | ⟨r, hr, h1⟩ | ⟨g, hg, h1⟩
  · exact hc h1
  · exact hroot r hr h1
  · obtain ⟨hgr, hgl⟩ := traversed_mem hg
    rcases h _ hgr with h2 | h2 | h2
    · exact hgl h2
    · cases h2
    · exact h2 h1

/-- Hash sequence roots that are not live, and not listed by earlier ones, are all traversed. -/
private theorem traversed_visited {store : Store} {live : Finset Hash} {visited : List Hash}
    (hlive : ∀ g ∈ visited, g ∉ live) (hpair : visited.Pairwise (fun g g' => g ≠ g' ∧ g' ∉ store.exported g)) :
    traversed store live (visited.map (⟨·, .hashSeq⟩)) = visited := by
  induction visited generalizing live with
  | nil => rfl
  | cons g visited ih =>
    rw [List.pairwise_cons] at hpair
    rw [List.map_cons, traversed, if_pos ⟨hlive g List.mem_cons_self, rfl⟩, ih ?_ hpair.2]
    intro g' hg' hmem
    rcases mem_markRoot.mp hmem with h1 | h1 | ⟨-, -, h1⟩
    · exact hlive g' (List.mem_cons_of_mem _ hg') h1
    · exact (hpair.1 g' hg').1 h1.symm
    · exact (hpair.1 g' hg').2 h1

/-- The visited roots first, then the raw roots, then the other hash sequences. -/
private noncomputable def shadowOrder (roots : Finset HashAndFormat) (visited : List Hash) : List HashAndFormat :=
  visited.map (⟨·, .hashSeq⟩) ++ ((roots.filter (fun r => r.format = .raw)).toList ++
    (roots.filter (fun r => r.format = .hashSeq ∧ r.hash ∉ visited)).toList)

private theorem mem_shadowOrder {roots : Finset HashAndFormat} {visited : List Hash}
    (hv : ∀ g ∈ visited, ⟨g, .hashSeq⟩ ∈ roots) (r : HashAndFormat) : r ∈ shadowOrder roots visited ↔ r ∈ roots := by
  obtain ⟨h, f⟩ := r
  simp only [shadowOrder, List.mem_append, List.mem_map, HashAndFormat.mk.injEq, Finset.mem_toList, Finset.mem_filter]
  constructor
  · rintro (⟨g, hg, rfl, rfl⟩ | h1 | h1)
    · exact hv g hg
    · exact h1.1
    · exact h1.1
  · intro hr
    cases f with
    | raw => exact Or.inr (Or.inl ⟨hr, rfl⟩)
    | hashSeq =>
      by_cases hm : h ∈ visited
      · exact Or.inl ⟨h, hm, rfl, rfl⟩
      · exact Or.inr (Or.inr ⟨hr, rfl, hm⟩)

private theorem nodup_shadowOrder {roots : Finset HashAndFormat} {visited : List Hash} (hv : visited.Nodup) :
    (shadowOrder roots visited).Nodup := by
  refine List.nodup_append.mpr ⟨hv.map ?_, List.nodup_append.mpr ⟨Finset.nodup_toList _, Finset.nodup_toList _, ?_⟩, ?_⟩
  · intro a b hab
    simpa using hab
  · intro r hr r' hr' heq
    subst heq
    simp only [Finset.mem_toList, Finset.mem_filter] at hr hr'
    rw [hr.2] at hr'
    exact absurd hr'.2.1 (by simp)
  · intro r hr r' hr' heq
    subst heq
    obtain ⟨g, hg, rfl⟩ := List.mem_map.mp hr
    simp only [List.mem_append, Finset.mem_toList, Finset.mem_filter, reduceCtorEq, and_false,
      true_and, false_or] at hr'
    exact hr'.2 hg

/-- If the roots that list `c` are shadowed, some order of the roots leaves `c` dead. -/
private theorem exists_order_of_shadowed {store : Store} {roots : Finset HashAndFormat} {live : Finset Hash} {c : Hash}
    (h : Shadowed store roots live c) (hc : c ∉ live) (hroot : ∀ r ∈ roots, r.hash ≠ c) :
    ∃ order : IterationOrder, c ∉ markRoots store live (order.list roots) := by
  classical
  obtain ⟨visited, hv, hpair, hall⟩ := h
  have hmem := mem_shadowOrder (fun g hg => (hv g hg).1)
  have hnodup : (shadowOrder roots visited).Nodup := nodup_shadowOrder (hpair.imp And.left)
  refine ⟨⟨fun s => if s = roots then shadowOrder roots visited else s.toList, ?_, ?_⟩, ?_⟩
  · intro s
    split
    · exact hnodup
    · exact Finset.nodup_toList s
  · intro s r
    split
    · rename_i hs; rw [hs]; exact hmem r
    · exact Finset.mem_toList
  · simp only [↓reduceIte]
    -- after the visited roots `c` is dead, and what they list is live
    have hv1 : c ∉ markRoots store live (visited.map (⟨·, .hashSeq⟩)) := by
      refine not_mem_markRoots hc ?_ ?_
      · intro r hr
        obtain ⟨g, hg, rfl⟩ := List.mem_map.mp hr
        exact hroot _ (hv g hg).1
      · intro r hr
        obtain ⟨g, hg, rfl⟩ := List.mem_map.mp hr
        exact Or.inr (Or.inr (hv g hg).2.2)
    have hlisted : ∀ g ∈ visited, ∀ x ∈ store.exported g, x ∈ markRoots store live (visited.map (⟨·, .hashSeq⟩)) := by
      intro g hg x hx
      refine mem_markRoots.mpr (Or.inr (Or.inr ⟨g, ?_, hx⟩))
      rw [traversed_visited (fun g hg => (hv g hg).2.1) hpair]
      exact hg
    rw [shadowOrder, markRoots, List.foldl_append, List.foldl_append]
    refine not_mem_markRoots (not_mem_markRoots hv1 ?_ ?_) ?_ ?_
    · intro r hr
      exact hroot r (Finset.mem_filter.mp (Finset.mem_toList.mp hr)).1
    · intro r hr
      exact Or.inr (Or.inl (Finset.mem_filter.mp (Finset.mem_toList.mp hr)).2)
    · intro r hr
      exact hroot r (Finset.mem_filter.mp (Finset.mem_toList.mp hr)).1
    · intro r hr
      obtain ⟨hr1, hr2, -⟩ := Finset.mem_filter.mp (Finset.mem_toList.mp hr)
      obtain ⟨h, f⟩ := r
      simp only at hr2
      subst hr2
      by_cases hexp : c ∈ store.exported h
      · left
        refine mem_markRoots.mpr ?_
        rcases hall h hr1 hexp with h1 | h1 | ⟨g, hg, h1⟩
        · exact Or.inl (mem_markRoots.mpr (Or.inl h1))
        · refine Or.inr (Or.inl ⟨⟨h, .raw⟩, ?_, rfl⟩)
          exact Finset.mem_toList.mpr (Finset.mem_filter.mpr ⟨h1, rfl⟩)
        · exact Or.inl (hlisted g hg h h1)
      · exact Or.inr (Or.inr hexp)

private theorem gcMarkTask_eq {store : Store} {order : IterationOrder} {roots : Finset HashAndFormat}
    {live : Finset Hash} (h : collectRoots store = .ok roots) :
    gcMarkTask store order live = .ok (markRoots store live (order.list roots)) := by
  simp only [gcMarkTask, h, bind, Except.bind, pure, Except.pure]

/-- Marking is complete if no child of a complete hash sequence root is shadowed. -/
private theorem markComplete_of_not_shadowed {store : Store} {live : Finset Hash}
    (hcond : ∀ roots, collectRoots store = .ok roots → ∀ h, ⟨h, .hashSeq⟩ ∈ roots → ∀ c ∈ store.children h,
      c ∈ live ∨ (∃ r ∈ roots, r.hash = c) ∨ ¬ Shadowed store roots live c) : MarkComplete store live := by
  intro order roots live' hroots hlive
  rw [gcMarkTask_eq hroots, Except.ok.injEq] at hlive
  subst hlive
  have hmem := order.mem roots
  refine ⟨?_, ?_⟩
  · intro r hr
    exact mem_markRoots.mpr (Or.inr (Or.inl ⟨r, (hmem r).mpr hr, rfl⟩))
  · intro h hh c hc
    have hlive : c ∈ markRoots store live (order.list roots) := by
      by_contra hnot
      rcases hcond roots hroots h hh c hc with h1 | ⟨r, hr, h1⟩ | h1
      · exact hnot (mem_markRoots.mpr (Or.inl h1))
      · exact hnot (mem_markRoots.mpr (Or.inr (Or.inl ⟨r, (hmem r).mpr hr, h1⟩)))
      · exact h1 (shadowed_of_not_mem hmem hnot)
    exact ⟨hlive, fun blobs hb => mem_gcSweepTask hlive hb⟩

/-- Marking is complete exactly when no child of a complete hash sequence root is shadowed, unless it is live from the
start or a root itself. -/
theorem markComplete_iff (store : Store) (live : Finset Hash) :
    MarkComplete store live ↔
      ∀ roots, collectRoots store = .ok roots → ∀ h, ⟨h, .hashSeq⟩ ∈ roots → ∀ c ∈ store.children h,
        c ∈ live ∨ (∃ r ∈ roots, r.hash = c) ∨ ¬ Shadowed store roots live c := by
  refine ⟨?_, markComplete_of_not_shadowed⟩
  intro hm roots hroots h hh c hc
  by_contra hcon
  simp only [not_or, not_not, not_exists, not_and] at hcon
  obtain ⟨h1, h2, h3⟩ := hcon
  obtain ⟨order, horder⟩ := exists_order_of_shadowed h3 h1 h2
  exact horder ((hm order roots _ hroots (gcMarkTask_eq hroots)).2 h hh c hc).1

/-- Marking is complete if no hash sequence root is live at the start, a raw root too, or listed by another one. -/
theorem markComplete_of_disjoint {store : Store} (hexp : ExportsComplete store) {live : Finset Hash}
    (h : ∀ roots, collectRoots store = .ok roots → ∀ h, ⟨h, .hashSeq⟩ ∈ roots →
      h ∉ live ∧ ⟨h, .raw⟩ ∉ roots ∧ ∀ g, ⟨g, .hashSeq⟩ ∈ roots → h ∉ store.exported g) :
    MarkComplete store live := by
  refine markComplete_of_not_shadowed ?_
  intro roots hroots k hk c hc
  obtain ⟨h1, h2, h3⟩ := h roots hroots k hk
  refine Or.inr (Or.inr ?_)
  rintro ⟨visited, hv, -, hall⟩
  rcases hall k hk (children_subset_exported hexp hc) with h4 | h4 | ⟨g, hg, h4⟩
  · exact h1 h4
  · exact h2 h4
  · exact h3 g (hv g hg).1 h4

section Example

/-- A store with one tagged hash sequence, whose only child is present. -/
def oneChildStore : Store where
  tags := .ok [.ok ⟨Hash.replicate 1, .hashSeq⟩]
  tempTags := .ok []
  exportBao h :=
    if h = Hash.replicate 1 then .ok [.size 32, .leaf ⟨0, (Hash.replicate 2).bytes⟩, .done] else .ok [.done]
  content h := if h = Hash.replicate 1 then some (Hash.replicate 2).bytes else none
  listBlobs := .ok [.ok (Hash.replicate 1), .ok (Hash.replicate 2)]
  deleteAnswered _ := true
  clearAnswered := true
  syncAnswered := true

private theorem oneChildStore_exportsComplete : ExportsComplete oneChildStore := by
  intro h data hd
  simp only [oneChildStore] at hd ⊢
  split at hd
  · rename_i hh
    cases hd
    exact ⟨_, if_pos hh, rfl, by simp [leaves]⟩
  · cases hd

/-- If the callback protects only the hash sequence, its child is not marked, and the run deletes it. -/
theorem not_markComplete_oneChild :
    ExportsComplete oneChildStore ∧ ¬ MarkComplete oneChildStore {Hash.replicate 1} ∧
      ∀ order, gcRunOnce oneChildStore order {Hash.replicate 1} ∅ ⟨{Hash.replicate 1, Hash.replicate 2}, ∅⟩ =
        (.ok (), ⟨{Hash.replicate 1}, ∅⟩) := by
  have hroots : collectRoots oneChildStore = .ok {⟨Hash.replicate 1, .hashSeq⟩} := by decide
  have hmark : ∀ order : IterationOrder, gcMarkTask oneChildStore order {Hash.replicate 1} =
    .ok {Hash.replicate 1} := by
    intro order
    have hlist : order.list {⟨Hash.replicate 1, .hashSeq⟩} = [⟨Hash.replicate 1, .hashSeq⟩] := by
      rw [← List.perm_singleton]
      exact (List.perm_ext_iff_of_nodup (order.nodup _) (by simp)).mpr (fun r => by simp [order.mem])
    rw [gcMarkTask_eq hroots, hlist]
    decide
  refine ⟨oneChildStore_exportsComplete, ?_, ?_⟩
  · intro h
    have order : IterationOrder := ⟨Finset.toList, Finset.nodup_toList, fun _ _ => Finset.mem_toList⟩
    have hc := ((h order _ _ hroots (hmark order)).2 (Hash.replicate 1) (by decide) (Hash.replicate 2) (by decide)).1
    exact absurd hc (by decide)
  · intro order
    have hdel : ([Hash.replicate 2].foldl (deleteEntry ∅) {Hash.replicate 1, Hash.replicate 2}) =
      {Hash.replicate 1} := by decide
    rw [gcRunOnce, hmark, if_pos (show oneChildStore.clearAnswered = true from rfl)]
    simp only [gcSweepTask, oneChildStore, sweepLoop, Finset.mem_singleton, ↓reduceIte, List.length_nil,
      show ¬ Hash.replicate 2 = Hash.replicate
        1 by decide, List.nil_append, List.length_singleton, deleteRequest, Blobs.delete,
      List.isEmpty_cons, Bool.false_eq_true, hdel, Nat.not_ofNat_le_one, nonpos_iff_eq_zero, OfNat.ofNat_ne_zero]

end Example

end Gc

end IrohBlobs
