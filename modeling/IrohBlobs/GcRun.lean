import IrohBlobs.MetaActor

/-!
# Garbage collection next to other clients

One `gc_run_once` talks to the store in several requests: it clears the protected hashes, lists the tags, lists the temp
tags, reads the hash sequences, lists the blobs and deletes the unmarked ones in batches.  Between any two of them other
clients import blobs, change tags, and create and drop temp tags.

The file store protects every hash that is updated during the run, so what is imported meanwhile stays.  It also keeps
what is covered by a tag or a temp tag all the time, unless the cover moves from a temp tag to a tag between the two
listings.  The memory store protects nothing: it keeps an import only if the run does not see it unmarked.

The conditions are about what clients do, and about what the store has when the run asks for it.  The latter is kept in
`State.seen`, which no step reads.  `Linked` says that the run works with what it has asked for.
-/

namespace IrohBlobs

namespace GcRun

open Meta (Tag Tags)

/-! ### The store -/

/-- A live temp tag.  `imported` says that an import has sent it to its client, with `Done`. -/
structure TempTag where
  scope : Nat
  value : HashAndFormat
  imported : Bool
  deriving DecidableEq

structure Store where
  tags : Tags
  tempTags : List TempTag
  entries : Finset Hash
  isProtected : Finset Hash

/-- Where the run is. -/
inductive Phase
  | idle
  | cleared
  | tagsListed (roots : Finset HashAndFormat)
  | rootsListed (roots : Finset HashAndFormat)
  | marked (live : Finset Hash)
  | sweeping (live : Finset Hash) (blobs batch : List Hash)
  | done

/-- What the store had when the run asked for it: the tags, the temp tags, the contents of the hash sequences and the
blobs.  Of the blobs those are kept that no delete request was made for; the sweep has passed the first ones of
them. -/
structure Seen where
  tags : Tags
  tempTags : List TempTag
  exportBao : Hash → ExportBaoProgress
  pending : List Hash
  passed : Nat

def Seen.start : Seen := ⟨[], [], fun _ => .ok [], [], 0⟩

structure State where
  store : Store
  phase : Phase
  seen : Seen

/-- What clients and the run do.  `I` are the imports of a store. -/
inductive Action (I : Type)
  | setTag (name : Tag) (value : HashAndFormat)
  | createTag (now : Tag) (value : HashAndFormat)
  | deleteTags (lower upper : Option Tag)
  | renameTag (source target : Tag)
  | createTempTag (scope : Nat) (value : HashAndFormat)
  | dropTempTag (tag : TempTag)
  | endScope (scope : Nat)
  | importBlob (i : I)
  | clearProtected
  | listTags
  | listTempTags
  | mark (exportBao : Hash → ExportBaoProgress) (order : List HashAndFormat)
  | listBlobs (blobs : List Hash)
  | sweepNext
  | deleteBatch
  | finish
  | abort

/-- What marking sees of the store. -/
def exportStore (exportBao : Hash → ExportBaoProgress) : Gc.Store where
  tags := .ok []
  tempTags := .ok []
  exportBao
  content _ := none
  listBlobs := .ok []
  deleteAnswered _ := true
  clearAnswered := true
  syncAnswered := true

variable {I : Type} (doImport : I → Store → Store) (live₀ : Finset Hash)

/-- The commands of clients. -/
def client (s : Store) : Action I → Option Store
  | .setTag name value => some { s with tags := s.tags.insert name value }
  | .createTag now value => some { s with tags := s.tags.insert (Meta.autoTag now s.tags) value }
  | .deleteTags lower upper => some { s with tags := s.tags.filter (fun t => !Meta.inRange lower upper t.1) }
  | .renameTag source target => some { s with tags := (Meta.renameTag s.tags source target).getD s.tags }
  | .createTempTag scope value => some { s with tempTags := ⟨scope, value, false⟩ :: s.tempTags }
  | .dropTempTag tag => some { s with tempTags := s.tempTags.erase tag }
  | .endScope scope => some { s with tempTags := s.tempTags.filter (fun t => t.scope != scope) }
  | .importBlob i => some (doImport i s)
  | _ => none

/-- The requests of the run.  `live₀` are the hashes that are protected by the caller; any request may fail. -/
def gcStep (s : State) : Action I → Option State
  | .clearProtected =>
    match s.phase with
    | .idle => some { s with store := { s.store with isProtected := ∅ }, phase := .cleared }
    | _ => none
  | .listTags =>
    match s.phase with
    | .cleared => some { s with phase := .tagsListed (s.store.tags.map Prod.snd).toFinset }
    | _ => none
  | .listTempTags =>
    match s.phase with
    | .tagsListed roots => some { s with phase := .rootsListed (roots ∪ (s.store.tempTags.map TempTag.value).toFinset) }
    | _ => none
  | .mark exportBao order =>
    match s.phase with
    | .rootsListed roots =>
      if order.Nodup ∧ order.toFinset = roots then
        some { s with phase := .marked (Gc.markRoots (exportStore exportBao) live₀ order) }
      else none
    | _ => none
  | .listBlobs blobs =>
    match s.phase with
    | .marked live =>
      if blobs.toFinset = s.store.entries then some { s with phase := .sweeping live blobs [] } else none
    | _ => none
  | .sweepNext =>
    match s.phase with
    | .sweeping live (hash :: blobs) batch =>
      if batch.length < 100 then
        some { s with phase := .sweeping live blobs (if hash ∈ live then batch else batch ++ [hash]) }
      else none
    | _ => none
  | .deleteBatch =>
    match s.phase with
    | .sweeping live blobs batch =>
      if 100 ≤ batch.length ∨ blobs = [] ∧ batch ≠ [] then
        some { s with
          store := { s.store with entries := batch.foldl (Gc.deleteEntry s.store.isProtected) s.store.entries }
          phase := .sweeping live blobs [] }
      else none
    | _ => none
  | .finish =>
    match s.phase with
    | .sweeping _ [] [] => some { s with phase := .done }
    | _ => none
  | .abort =>
    match s.phase with
    | .idle => none
    | .done => none
    | _ => some { s with phase := .done }
  | _ => none

/-- What a request of the run gets to see. -/
def Seen.next (seen : Seen) (s : Store) : Action I → Seen
  | .listTags => { seen with tags := s.tags }
  | .listTempTags => { seen with tempTags := s.tempTags }
  | .mark exportBao _ => { seen with exportBao }
  | .listBlobs blobs => { seen with pending := blobs, passed := 0 }
  | .sweepNext => { seen with passed := seen.passed + 1 }
  | .deleteBatch => { seen with pending := seen.pending.drop seen.passed, passed := 0 }
  | _ => seen

def step (s : State) (a : Action I) : Option State :=
  match client doImport s.store a with
  | some store => some { s with store }
  | none => (gcStep live₀ s a).map (fun s' => { s' with seen := s.seen.next s.store a })

namespace Seen

/-- The values of the listed tags and temp tags. -/
def roots (seen : Seen) : Finset HashAndFormat :=
  (seen.tags.map Prod.snd).toFinset ∪ (seen.tempTags.map TempTag.value).toFinset

/-- The hash is protected by the caller, or a listed tag or temp tag has it, or it is a child of a hash sequence that
a listed tag or temp tag has, and is found in any order of these. -/
def Marks (live₀ : Finset Hash) (seen : Seen) (hash : Hash) : Prop :=
  hash ∈ live₀ ∨ (∃ r ∈ seen.roots, r.hash = hash) ∨ ¬ Gc.Shadowed (exportStore seen.exportBao) seen.roots live₀ hash

end Seen

/-! ### The file store -/

/-- An `Update` or `Set` of a hash. -/
def update (hash : Hash) (s : Store) : Store :=
  { s with entries := insert hash s.entries, isProtected := insert hash s.isProtected }

/-- A root covers its hash and, if it is a hash sequence, the children of it. -/
def Covers (children : Hash → List Hash) (root : HashAndFormat) (hash : Hash) : Prop :=
  root.hash = hash ∨ root.format = .hashSeq ∧ hash ∈ children root.hash

/-- A tag or a live temp tag covers the hash. -/
def Covered (children : Hash → List Hash) (s : State) (hash : Hash) : Prop :=
  (∃ t ∈ s.store.tags, Covers children t.2 hash) ∨ ∃ t ∈ s.store.tempTags, Covers children t.value hash

/-- The cover of the hash does not get lost: between the listings of tags and temp tags, the last temp tag that covers
the hash is not dropped unless one of the listed tags covers it; and a hash that the listed tags and temp tags cover
is not shadowed when the hash sequences are read. -/
def CoverKept (children : Hash → List Hash) (hash : Hash) (s : State) : Action I → Prop
  | .dropTempTag tag => (∃ roots, s.phase = .tagsListed roots) →
    (∃ t ∈ s.seen.tags, Covers children t.2 hash) ∨ ∃ t ∈ s.store.tempTags.erase tag, Covers children t.value hash
  | .endScope scope => (∃ roots, s.phase = .tagsListed roots) →
    (∃ t ∈ s.seen.tags, Covers children t.2 hash) ∨
      ∃ t ∈ s.store.tempTags.filter (fun t => t.scope != scope), Covers children t.value hash
  | .mark exportBao _ => (∃ r ∈ s.seen.roots, Covers children r hash) → { s.seen with exportBao }.Marks live₀ hash
  | _ => True

variable {doImport} {live₀} {s s' : State} {a : Action I} {hash : Hash} {children : Hash → List Hash}

/-- A step is a command of a client, which leaves the run where it is, or a request of the run. -/
theorem step_cases (h : step doImport live₀ s a = some s') :
    (∃ store, client doImport s.store a = some store ∧ s' = { s with store }) ∨
      ∃ t, gcStep live₀ s a = some t ∧ s' = { t with seen := s.seen.next s.store a } := by
  unfold step at h
  cases hc : client doImport s.store a with
  | some store =>
    rw [hc] at h
    cases h
    exact Or.inl ⟨store, rfl, rfl⟩
  | none =>
    rw [hc] at h
    obtain ⟨t, ht, rfl⟩ := Option.map_eq_some_iff.mp h
    exact Or.inr ⟨t, ht, rfl⟩

/-- No client of the file store removes an entry or a protection. -/
theorem client_update_subset {store store' : Store} {a : Action Hash} (h : client update store a = some store') :
    store.entries ⊆ store'.entries ∧ store.isProtected ⊆ store'.isProtected := by
  cases a with
  | importBlob i =>
    cases h
    exact ⟨Finset.subset_insert _ _, Finset.subset_insert _ _⟩
  | setTag name value => cases h; exact ⟨subset_rfl, subset_rfl⟩
  | createTag now value => cases h; exact ⟨subset_rfl, subset_rfl⟩
  | deleteTags lower upper => cases h; exact ⟨subset_rfl, subset_rfl⟩
  | renameTag source target => cases h; exact ⟨subset_rfl, subset_rfl⟩
  | createTempTag scope value => cases h; exact ⟨subset_rfl, subset_rfl⟩
  | dropTempTag tag => cases h; exact ⟨subset_rfl, subset_rfl⟩
  | endScope scope => cases h; exact ⟨subset_rfl, subset_rfl⟩
  | _ => cases h

/-- The requests of the run. -/
inductive GcStep (live₀ : Finset Hash) (s : State) : Action I → State → Prop
  | clearProtected (h : s.phase = .idle) :
    GcStep live₀ s .clearProtected { s with store := { s.store with isProtected := ∅ }, phase := .cleared }
  | listTags (h : s.phase = .cleared) :
    GcStep live₀ s .listTags { s with phase := .tagsListed (s.store.tags.map Prod.snd).toFinset }
  | listTempTags {roots} (h : s.phase = .tagsListed roots) :
    GcStep live₀ s .listTempTags
      { s with phase := .rootsListed (roots ∪ (s.store.tempTags.map TempTag.value).toFinset) }
  | mark (exportBao : Hash → ExportBaoProgress) (order : List HashAndFormat)
    (h : s.phase = .rootsListed order.toFinset) :
    GcStep live₀ s (.mark exportBao order)
      { s with phase := .marked (Gc.markRoots (exportStore exportBao) live₀ order) }
  | listBlobs {live} (blobs : List Hash) (h : s.phase = .marked live) (hblobs : blobs.toFinset = s.store.entries) :
    GcStep live₀ s (.listBlobs blobs) { s with phase := .sweeping live blobs [] }
  | sweepNext {live hash blobs batch} (h : s.phase = .sweeping live (hash :: blobs) batch) :
    GcStep live₀ s .sweepNext
      { s with phase := .sweeping live blobs (if hash ∈ live then batch else batch ++ [hash]) }
  | deleteBatch {live blobs batch} (h : s.phase = .sweeping live blobs batch) :
    GcStep live₀ s .deleteBatch
      { s with
        store := { s.store with entries := batch.foldl (Gc.deleteEntry s.store.isProtected) s.store.entries }
        phase := .sweeping live blobs [] }
  | stop {a : Action I} (h : s.phase ≠ .idle) : GcStep live₀ s a { s with phase := .done }

/-- What a request of the run can do. -/
theorem gcStep_cases (h : gcStep live₀ s a = some s') : GcStep live₀ s a s' := by
  unfold gcStep at h
  split at h
  · split at h <;> cases h
    rename_i hphase
    exact .clearProtected hphase
  · split at h <;> cases h
    rename_i hphase
    exact .listTags hphase
  · split at h <;> cases h
    rename_i roots hphase
    exact .listTempTags hphase
  · rename_i exportBao order
    split at h
    · rename_i roots hphase
      split at h <;> cases h
      rename_i horder
      exact .mark exportBao order (horder.2 ▸ hphase)
    · cases h
  · rename_i blobs
    split at h
    · rename_i live hphase
      split at h <;> cases h
      rename_i hblobs
      exact .listBlobs blobs hphase hblobs
    · cases h
  · split at h
    · rename_i live hash blobs batch hphase
      split at h <;> cases h
      exact .sweepNext hphase
    · cases h
  · split at h
    · rename_i live blobs batch hphase
      split at h <;> cases h
      exact .deleteBatch hphase
    · cases h
  · split at h <;> cases h
    rename_i live hphase
    exact .stop (by simp [hphase])
  · split at h <;> cases h
    rename_i hidle _
    exact .stop hidle
  · cases h

/-! ### The run works with what it has seen -/

/-- What the run has is what the store had: the roots, the live hashes, the rest of the blobs, and the unmarked ones
among the blobs that it has passed. -/
def Linked (live₀ : Finset Hash) (s : State) : Prop :=
  match s.phase with
  | .tagsListed roots => roots = (s.seen.tags.map Prod.snd).toFinset
  | .rootsListed roots => roots = s.seen.roots
  | .marked live => ∀ hash, s.seen.Marks live₀ hash → hash ∈ live
  | .sweeping live blobs batch =>
    (∀ hash, s.seen.Marks live₀ hash → hash ∈ live) ∧ blobs = s.seen.pending.drop s.seen.passed ∧
    ∀ hash ∈ batch, hash ∈ s.seen.pending ∧ hash ∉ live
  | .idle | .cleared | .done => True

/-- What must be marked is marked, in every order of the roots. -/
private theorem mem_markRoots_of_marks {exportBao : Hash → ExportBaoProgress} {order : List HashAndFormat} {seen : Seen}
    (horder : order.toFinset = seen.roots) (h : { seen with exportBao }.Marks live₀ hash) :
    hash ∈ Gc.markRoots (exportStore exportBao) live₀ order := by
  by_contra hnot
  rcases h with h | ⟨r, hr, h⟩ | h
  · exact hnot (Gc.mem_markRoots.mpr (Or.inl h))
  · have hmem : r ∈ order.toFinset := horder ▸ hr
    exact hnot (Gc.mem_markRoots.mpr (Or.inr (Or.inl ⟨r, List.mem_toFinset.mp hmem, h⟩)))
  · have hroots : ∀ r, r ∈ order ↔ r ∈ seen.roots := by
      intro r
      rw [← horder, List.mem_toFinset]
    exact h (Gc.shadowed_of_not_mem hroots hnot)

private theorem step_linked (hl : Linked live₀ s) (h : step doImport live₀ s a = some s') : Linked live₀ s' := by
  rcases step_cases h with ⟨store, -, rfl⟩ | ⟨t, hgc, rfl⟩
  · exact hl
  · unfold Linked at hl ⊢
    cases gcStep_cases hgc with
    | clearProtected hphase => trivial
    | listTags hphase => rfl
    | listTempTags hphase =>
      simp only [hphase] at hl
      exact congrArg (· ∪ _) hl
    | mark exportBao order hphase =>
      simp only [hphase] at hl
      exact fun hash hmarks => mem_markRoots_of_marks hl hmarks
    | listBlobs blobs hphase hblobs =>
      simp only [hphase] at hl
      exact ⟨hl, rfl, by simp⟩
    | sweepNext hphase =>
      simp only [hphase] at hl
      obtain ⟨hlive, hrest, hbatch⟩ := hl
      refine ⟨hlive, ?_, ?_⟩
      · rw [Seen.next, ← List.drop_drop, ← hrest, List.drop_one, List.tail_cons]
      · intro hash hmem
        split at hmem
        · exact hbatch hash hmem
        · rename_i hdead
          rcases List.mem_append.mp hmem with hmem | hmem
          · exact hbatch hash hmem
          · rw [List.mem_singleton.mp hmem]
            exact ⟨List.mem_of_mem_drop (hrest ▸ List.mem_cons_self), hdead⟩
    | deleteBatch hphase =>
      simp only [hphase] at hl
      exact ⟨hl.1, hl.2.1, by simp⟩
    | stop hphase => trivial

/-! ### What is updated during the run stays -/

/-- The hash was updated since the protected hashes were cleared. -/
structure Protected (hash : Hash) (s : State) : Prop where
  started : s.phase ≠ .idle
  entry : hash ∈ s.store.entries
  isProtected : hash ∈ s.store.isProtected

private theorem step_protected {a : Action Hash} (hp : Protected hash s) (h : step update live₀ s a = some s') :
    Protected hash s' := by
  rcases step_cases h with ⟨store, hclient, rfl⟩ | ⟨t, hgc, rfl⟩
  · obtain ⟨hentries, hprotected⟩ := client_update_subset hclient
    exact ⟨hp.started, hentries hp.entry, hprotected hp.isProtected⟩
  · cases gcStep_cases hgc with
    | clearProtected hidle => exact absurd hidle hp.started
    | listTags _ => exact ⟨by simp, hp.entry, hp.isProtected⟩
    | listTempTags _ => exact ⟨by simp, hp.entry, hp.isProtected⟩
    | mark _ _ _ => exact ⟨by simp, hp.entry, hp.isProtected⟩
    | listBlobs _ _ _ => exact ⟨by simp, hp.entry, hp.isProtected⟩
    | sweepNext _ => exact ⟨by simp, hp.entry, hp.isProtected⟩
    | deleteBatch _ =>
      refine ⟨by simp, ?_, hp.isProtected⟩
      exact Gc.mem_foldl_deleteEntry.mpr ⟨hp.entry, Or.inl hp.isProtected⟩
    | stop _ => exact ⟨by simp, hp.entry, hp.isProtected⟩

/-! ### What is covered during the run stays -/

/-- The run has seen, or will see, a cover of the hash. -/
def Found (live₀ : Finset Hash) (children : Hash → List Hash) (hash : Hash) (s : State) : Prop :=
  match s.phase with
  | .tagsListed _ =>
    (∃ t ∈ s.seen.tags, Covers children t.2 hash) ∨ ∃ t ∈ s.store.tempTags, Covers children t.value hash
  | .rootsListed _ => ∃ r ∈ s.seen.roots, Covers children r hash
  | .marked _ | .sweeping _ _ _ => s.seen.Marks live₀ hash
  | .idle | .cleared | .done => True

/-- The temp tags that cover a hash are lost only when one is dropped or a scope ends. -/
private theorem client_tempTags {store store' : Store} {a : Action Hash} (h : client update store a = some store') :
    (∀ t ∈ store.tempTags, t ∈ store'.tempTags) ∨
      (∃ tag, a = .dropTempTag tag ∧ store'.tempTags = store.tempTags.erase tag) ∨
      ∃ scope, a = .endScope scope ∧ store'.tempTags = store.tempTags.filter (fun t => t.scope != scope) := by
  cases a with
  | dropTempTag tag => cases h; exact Or.inr (Or.inl ⟨tag, rfl, rfl⟩)
  | endScope scope => cases h; exact Or.inr (Or.inr ⟨scope, rfl, rfl⟩)
  | createTempTag scope value => cases h; exact Or.inl (fun t ht => List.mem_cons_of_mem _ ht)
  | importBlob i => cases h; exact Or.inl (fun t ht => ht)
  | setTag name value => cases h; exact Or.inl (fun t ht => ht)
  | createTag now value => cases h; exact Or.inl (fun t ht => ht)
  | deleteTags lower upper => cases h; exact Or.inl (fun t ht => ht)
  | renameTag source target => cases h; exact Or.inl (fun t ht => ht)
  | _ => cases h

/-- A value of a listed tag or temp tag is a root. -/
theorem Seen.mem_roots {seen : Seen} {r : HashAndFormat} :
    r ∈ seen.roots ↔ (∃ t ∈ seen.tags, t.2 = r) ∨ ∃ t ∈ seen.tempTags, t.value = r := by
  simp only [Seen.roots, Finset.mem_union, List.mem_toFinset, List.mem_map]

/-- One step keeps the cover, and does not remove the hash. -/
private theorem step_found {a : Action Hash} (hcovered : Covered children s hash) (hl : Linked live₀ s)
    (hfound : Found live₀ children hash s) (hkept : CoverKept live₀ children hash s a)
    (h : step update live₀ s a = some s') :
    Found live₀ children hash s' ∧ (hash ∈ s.store.entries → hash ∈ s'.store.entries) := by
  unfold Found at hfound
  rcases step_cases h with ⟨store, hclient, rfl⟩ | ⟨t, hgc, rfl⟩
  · refine ⟨?_, fun hentry => (client_update_subset hclient).1 hentry⟩
    unfold Found
    cases hphase : s.phase with
    | tagsListed roots =>
      simp only [hphase] at hfound ⊢
      rcases client_tempTags hclient with hsame | ⟨tag, rfl, heq⟩ | ⟨scope, rfl, heq⟩
      · exact hfound.imp_right (fun ⟨t, ht, hc⟩ => ⟨t, hsame t ht, hc⟩)
      · rw [heq]
        exact hkept ⟨roots, hphase⟩
      · rw [heq]
        exact hkept ⟨roots, hphase⟩
    | rootsListed roots => simpa [hphase] using hfound
    | marked live => simpa [hphase] using hfound
    | sweeping live blobs batch => simpa [hphase] using hfound
    | idle => trivial
    | cleared => trivial
    | done => trivial
  · cases gcStep_cases hgc with
    | clearProtected _ => exact ⟨trivial, id⟩
    | listTags _ => exact ⟨hcovered, id⟩
    | listTempTags hphase =>
      refine ⟨?_, id⟩
      simp only [hphase] at hfound
      rcases hfound with ⟨t, ht, hc⟩ | ⟨t, ht, hc⟩
      · exact ⟨t.2, Seen.mem_roots.mpr (Or.inl ⟨t, ht, rfl⟩), hc⟩
      · exact ⟨t.value, Seen.mem_roots.mpr (Or.inr ⟨t, ht, rfl⟩), hc⟩
    | mark exportBao order hphase =>
      simp only [hphase] at hfound
      exact ⟨hkept hfound, id⟩
    | listBlobs _ hphase _ =>
      simp only [hphase] at hfound
      exact ⟨hfound, id⟩
    | sweepNext hphase =>
      simp only [hphase] at hfound
      exact ⟨hfound, id⟩
    | deleteBatch hphase =>
      simp only [hphase] at hfound
      refine ⟨hfound, fun hentry => Gc.mem_foldl_deleteEntry.mpr ⟨hentry, Or.inr fun hmem => ?_⟩⟩
      -- the batch has what the run has seen and not marked
      unfold Linked at hl
      simp only [hphase] at hl
      exact (hl.2.2 hash hmem).2 (hl.1 hash hfound)
    | stop _ => exact ⟨trivial, id⟩

private theorem step_linked_found {a : Action Hash} (hi : Linked live₀ s ∧ Found live₀ children hash s)
    (hok : Covered children s hash ∧ CoverKept live₀ children hash s a) (h : step update live₀ s a = some s') :
    (Linked live₀ s' ∧ Found live₀ children hash s') ∧ (hash ∈ s.store.entries → hash ∈ s'.store.entries) := by
  obtain ⟨hfound, hkeeps⟩ := step_found hok.1 hi.1 hi.2 hok.2 h
  exact ⟨⟨step_linked hi.1 h, hfound⟩, hkeeps⟩

/-- Garbage collection of the file store.  A hash that is updated after the protected hashes were cleared is there at
every later moment of the run.  A hash that is covered all the time is not removed by any step, if its cover does not
get lost. -/
theorem gc_keeps_covered (children : Hash → List Hash) (live₀ : Finset Hash) (hash : Hash) (s₀ : State)
    (hidle : s₀.phase = .idle) (actions : List (Action Hash)) :
    (∀ before after t s, actions = before ++ .importBlob hash :: after →
      StateMachine.run (step update live₀) s₀ before = some t → t.phase ≠ .idle →
      StateMachine.run (step update live₀) s₀ actions = some s → hash ∈ s.store.entries) ∧
    (StateMachine.RunMeets (step update live₀) (fun s _ => Covered children s hash) s₀ actions →
      StateMachine.RunMeets (step update live₀) (CoverKept live₀ children hash) s₀ actions →
      ∀ before a after t t', actions = before ++ a :: after →
        StateMachine.run (step update live₀) s₀ before = some t → step update live₀ t a = some t' →
        hash ∈ t.store.entries → hash ∈ t'.store.entries) := by
  constructor
  · rintro before after t s rfl hbefore hstarted hrun
    rw [StateMachine.run_append, hbefore, Option.bind_some] at hrun
    obtain ⟨t₁, ht₁, hrun⟩ := StateMachine.run_cons _ hrun
    cases ht₁
    have hp : Protected hash { t with store := update hash t.store } :=
      ⟨hstarted, Finset.mem_insert_self _ _, Finset.mem_insert_self _ _⟩
    exact (StateMachine.invariant_of_run _ step_protected hp hrun).entry
  · rintro hcovered hkept before a after t t' rfl hbefore ha hentry
    have hlinked : Linked live₀ s₀ := by
      unfold Linked
      rw [hidle]
      trivial
    have hfound : Found live₀ children hash s₀ := by
      unfold Found
      rw [hidle]
      trivial
    have hall := hcovered.and _ hkept
    have hinv : Linked live₀ s₀ ∧ Found live₀ children hash s₀ := ⟨hlinked, hfound⟩
    exact StateMachine.forall_step_of_run _ step_linked_found hinv hall hbefore ha hentry

/-- A hash sequence with a tag, and its child.  Nothing protects the other two blobs. -/
def taggedSeq : State :=
  ⟨⟨[([0], ⟨.replicate 1, .hashSeq⟩)], [], {.replicate 1, .replicate 2, .replicate 3, .replicate 4}, ∅⟩, .idle, .start⟩

/-- The tag of the sequence is renamed between the two listings.  One of the other blobs is updated meanwhile. -/
def renamedMeanwhile : List (Action Hash) :=
  [.clearProtected, .importBlob (.replicate 3), .listTags, .renameTag [0] [1], .listTempTags,
    .mark Gc.oneChildStore.exportBao [⟨.replicate 1, .hashSeq⟩],
    .listBlobs [.replicate 1, .replicate 2, .replicate 3, .replicate 4], .sweepNext, .sweepNext, .sweepNext, .sweepNext,
    .deleteBatch, .finish]

/-- The sequence has a tag all the time, no temp tag is dropped, and the sequence is read. -/
def seqKept (s : State) (a : Action Hash) : Bool :=
  s.store.tags.any (fun t => t.2 == ⟨.replicate 1, .hashSeq⟩) &&
    match a with
    | .dropTempTag _ | .endScope _ => false
    | .mark exportBao _ =>
      decide (s.seen.roots = {⟨.replicate 1, .hashSeq⟩} ∧
        (exportStore exportBao).exported (.replicate 1) = [.replicate 2])
    | _ => true

/-- The children of the sequence. -/
def seqChildren (hash : Hash) : List Hash := if hash = .replicate 1 then [.replicate 2] else []

private theorem covered_of_seqKept {s : State} {a : Action Hash} (h : seqKept s a = true) :
    Covered seqChildren s (.replicate 2) := by
  obtain ⟨htag, -⟩ := Bool.and_eq_true_iff.mp h
  obtain ⟨t, ht, heq⟩ := List.any_eq_true.mp htag
  refine Or.inl ⟨t, ht, ?_⟩
  rw [beq_iff_eq.mp heq]
  exact Or.inr ⟨rfl, by decide⟩

/-- The only root that lists the child is not shadowed. -/
private theorem coverKept_of_seqKept {s : State} {a : Action Hash} (h : seqKept s a = true) :
    CoverKept ∅ seqChildren (.replicate 2) s a := by
  obtain ⟨-, ha⟩ := Bool.and_eq_true_iff.mp h
  cases a with
  | dropTempTag tag => cases ha
  | endScope scope => cases ha
  | mark exportBao order =>
    intro _
    obtain ⟨hroots, hexported⟩ := of_decide_eq_true ha
    refine Or.inr (Or.inr ?_)
    rintro ⟨visited, hvisited, -, hall⟩
    have hempty : ∀ g, g ∉ visited := by
      intro g hg
      obtain ⟨hroot, -, hnot⟩ := hvisited g hg
      have heq : g = .replicate 1 := by
        rw [show Seen.roots { s.seen with exportBao } = s.seen.roots from rfl, hroots, Finset.mem_singleton] at hroot
        exact congrArg HashAndFormat.hash hroot
      rw [heq] at hnot
      exact hnot (by rw [hexported]; exact List.mem_singleton_self _)
    have hmem : (⟨.replicate 1, .hashSeq⟩ : HashAndFormat) ∈ Seen.roots { s.seen with exportBao } := by
      rw [show Seen.roots { s.seen with exportBao } = s.seen.roots from rfl, hroots]
      exact Finset.mem_singleton_self _
    rcases hall (.replicate 1) hmem (by rw [hexported]; exact List.mem_singleton_self _) with hlive | hraw | ⟨g, hg, -⟩
    · exact absurd hlive (Finset.notMem_empty _)
    · rw [show Seen.roots { s.seen with exportBao } = s.seen.roots from rfl, hroots, Finset.mem_singleton] at hraw
      cases hraw
    · exact hempty g hg
  | _ => trivial

theorem gc_keeps_covered_renamedMeanwhile :
    (∃ s, StateMachine.run (step update ∅) taggedSeq renamedMeanwhile = some s ∧ .replicate 3 ∈ s.store.entries) ∧
    ∀ before a after t t', renamedMeanwhile = before ++ a :: after →
      StateMachine.run (step update ∅) taggedSeq before = some t → step update ∅ t a = some t' →
      .replicate 2 ∈ t.store.entries → .replicate 2 ∈ t'.store.entries := by
  have hcheck : StateMachine.checkRun (step update ∅) seqKept taggedSeq renamedMeanwhile = true := by decide
  have hrun : ∃ s, StateMachine.run (step update ∅) taggedSeq renamedMeanwhile = some s := ⟨_, rfl⟩
  obtain ⟨s, hrun⟩ := hrun
  refine ⟨⟨s, hrun, ?_⟩, ?_⟩
  · have hstart : (StateMachine.run (step update ∅) taggedSeq [.clearProtected]) =
        some { taggedSeq with phase := .cleared } := rfl
    exact (gc_keeps_covered seqChildren ∅ (.replicate 3) taggedSeq rfl renamedMeanwhile).1
      [.clearProtected] _ _ s rfl hstart
      (by simp) hrun
  · exact (gc_keeps_covered seqChildren ∅ (.replicate 2) taggedSeq rfl renamedMeanwhile).2
      (StateMachine.runMeets_of_checkRun _ (fun _ _ => covered_of_seqKept) hcheck)
      (StateMachine.runMeets_of_checkRun _ (fun _ _ => coverKept_of_seqKept) hcheck)

/-- A blob with a temp tag. -/
def tempTagged : State := ⟨⟨[], [⟨0, ⟨.replicate 1, .raw⟩, true⟩], {.replicate 1}, ∅⟩, .idle, .start⟩

/-- The blob is tagged and then the temp tag is dropped, between the two listings. -/
def movedCover : List (Action Hash) :=
  [.clearProtected, .listTags, .setTag [0] ⟨.replicate 1, .raw⟩,
    .dropTempTag ⟨0, ⟨.replicate 1, .raw⟩, true⟩, .listTempTags, .mark (fun _ => .ok []) [], .listBlobs [.replicate 1],
      .sweepNext, .deleteBatch]

/-- The blob is covered all the time, but it is deleted. -/
theorem not_keeps_movedCover : ¬ ∀ (children : Hash → List Hash) (live₀ : Finset Hash) (hash : Hash) (s₀ s : State)
    (actions : List (Action Hash)), s₀.phase = .idle →
    StateMachine.RunMeets (step update live₀) (fun s _ => Covered children s hash) s₀ actions →
    StateMachine.run (step update live₀) s₀ actions = some s → hash ∈ s₀.store.entries → hash ∈ s.store.entries := by
  intro h
  have htemp : ∀ s : State, s.store.tempTags = [⟨0, ⟨.replicate 1, .raw⟩, true⟩] →
      Covered (fun _ => []) s (.replicate 1) := by
    intro s hs
    exact Or.inr ⟨_, by rw [hs]; exact List.mem_singleton_self _, Or.inl rfl⟩
  have htag : ∀ s : State, s.store.tags = [([0], ⟨.replicate 1, .raw⟩)] → Covered (fun _ => []) s (.replicate 1) := by
    intro s hs
    exact Or.inl ⟨_, by rw [hs]; exact List.mem_singleton_self _, Or.inl rfl⟩
  have hcovered : StateMachine.RunMeets (step update ∅) (fun s _ => Covered (fun _ => []) s (.replicate 1)) tempTagged
      movedCover := by
    refine ⟨htemp _ rfl, ?_⟩
    rintro s₁ ⟨⟩
    refine ⟨htemp _ rfl, ?_⟩
    rintro s₂ ⟨⟩
    refine ⟨htemp _ rfl, ?_⟩
    rintro s₃ ⟨⟩
    refine ⟨htag _ rfl, ?_⟩
    rintro s₄ ⟨⟩
    refine ⟨htag _ rfl, ?_⟩
    rintro s₅ ⟨⟩
    refine ⟨htag _ rfl, ?_⟩
    rintro s₆ ⟨⟩
    refine ⟨htag _ rfl, ?_⟩
    rintro s₇ ⟨⟩
    refine ⟨htag _ rfl, ?_⟩
    rintro s₈ ⟨⟩
    exact ⟨htag _ rfl, fun _ _ => trivial⟩
  have hmem := h (fun _ => []) ∅ (.replicate 1) tempTagged _ movedCover rfl hcovered rfl (by decide)
  exact absurd hmem (by decide)

/-! ### The memory store -/

inductive MemImport
  | getOrCreateEntry (hash : Hash)
  | finishImport (scope : Nat) (value : HashAndFormat)

/-- There is no entry for the empty blob. -/
def getOrCreateEntry (hash : Hash) (s : Store) : Store :=
  if hash = .EMPTY then s else { s with entries := insert hash s.entries }

def memImport : MemImport → Store → Store
  | .getOrCreateEntry hash, s => getOrCreateEntry hash s
  | .finishImport scope value, s =>
    let s := getOrCreateEntry value.hash s
    { s with tempTags := ⟨scope, value, true⟩ :: s.tempTags }

/-- The blob is in the memory store.  The empty blob always is. -/
def InStore (s : Store) (hash : Hash) : Prop := hash = .EMPTY ∨ hash ∈ s.entries

/-- The blobs whose import has finished, with a temp tag that is not dropped, are in the store. -/
def ImportsKept (s : State) : Prop := ∀ t ∈ s.store.tempTags, t.imported = true → InStore s.store t.value.hash

/-- The hash is not going to be deleted, whatever the run has seen: the run marks it, or it is not among the blobs
that are still to be swept. -/
def Safe (live₀ : Finset Hash) (s : State) (hash : Hash) : Prop :=
  match s.phase with
  | .marked _ => s.seen.Marks live₀ hash
  | .sweeping _ _ _ => hash ∈ s.seen.pending → s.seen.Marks live₀ hash
  | .idle | .cleared | .tagsListed _ | .rootsListed _ | .done => True

/-- The run does not see the import unmarked: if its temp tag was not listed, the hash is marked for another reason when
the hash sequences are read; and if it finishes after that, the hash is not going to be deleted. -/
def ImportSafe (live₀ : Finset Hash) (s : State) : Action MemImport → Prop
  | .mark exportBao _ => ∀ t ∈ s.store.tempTags, t.imported = true → t ∈ s.seen.tempTags ∨ t.value.hash = .EMPTY ∨
    { s.seen with exportBao }.Marks live₀ t.value.hash
  | .importBlob (.finishImport _ value) => value.hash = .EMPTY ∨ Safe live₀ s value.hash
  | _ => True

/-- The imported blobs are in the store, and none is going to be deleted. -/
def MemInv (live₀ : Finset Hash) (s : State) : Prop :=
  ∀ t ∈ s.store.tempTags, t.imported = true →
    t.value.hash = .EMPTY ∨ t.value.hash ∈ s.store.entries ∧ Safe live₀ s t.value.hash

private theorem MemInv.importsKept (h : MemInv live₀ s) : ImportsKept s := fun t ht hi => (h t ht hi).imp_right And.left

/-- A client of the memory store removes no entry, and only an import that finishes adds a temp tag of an import. -/
private theorem client_memImport {store store' : Store} {a : Action MemImport}
    (h : client memImport store a = some store') :
    store.entries ⊆ store'.entries ∧ ∀ t ∈ store'.tempTags, t.imported = true → t ∈ store.tempTags ∨
      (∃ scope, a = .importBlob (.finishImport scope t.value)) ∧ InStore store' t.value.hash := by
  have hcreate : ∀ hash, store.entries ⊆ (getOrCreateEntry hash store).entries ∧
      InStore (getOrCreateEntry hash store) hash ∧ (getOrCreateEntry hash store).tempTags = store.tempTags := by
    intro hash
    unfold getOrCreateEntry InStore
    split
    · rename_i hempty
      exact ⟨subset_rfl, Or.inl hempty, rfl⟩
    · exact ⟨Finset.subset_insert _ _, Or.inr (Finset.mem_insert_self _ _), rfl⟩
  cases a with
  | importBlob i =>
    cases h
    cases i with
    | getOrCreateEntry hash =>
      obtain ⟨hsub, -, htags⟩ := hcreate hash
      exact ⟨hsub, fun t ht _ => Or.inl (htags ▸ ht)⟩
    | finishImport scope value =>
      obtain ⟨hsub, hin, htags⟩ := hcreate value.hash
      refine ⟨hsub, ?_⟩
      intro t ht _
      rcases List.mem_cons.mp ht with rfl | ht
      · exact Or.inr ⟨⟨scope, rfl⟩, hin⟩
      · exact Or.inl (htags ▸ ht)
  | createTempTag scope value =>
    cases h
    refine ⟨subset_rfl, ?_⟩
    intro t ht hi
    rcases List.mem_cons.mp ht with rfl | ht
    · cases hi
    · exact Or.inl ht
  | dropTempTag tag => cases h; exact ⟨subset_rfl, fun t ht _ => Or.inl (List.mem_of_mem_erase ht)⟩
  | endScope scope => cases h; exact ⟨subset_rfl, fun t ht _ => Or.inl (List.mem_filter.mp ht).1⟩
  | setTag name value => cases h; exact ⟨subset_rfl, fun t ht _ => Or.inl ht⟩
  | createTag now value => cases h; exact ⟨subset_rfl, fun t ht _ => Or.inl ht⟩
  | deleteTags lower upper => cases h; exact ⟨subset_rfl, fun t ht _ => Or.inl ht⟩
  | renameTag source target => cases h; exact ⟨subset_rfl, fun t ht _ => Or.inl ht⟩
  | _ => cases h

/-- One step keeps the imported blobs. -/
private theorem step_memInv {a : Action MemImport} (hl : Linked live₀ s) (hinv : MemInv live₀ s)
    (hsafe : ImportSafe live₀ s a)
    (h : step memImport live₀ s a = some s') : MemInv live₀ s' := by
  rcases step_cases h with ⟨store, hclient, rfl⟩ | ⟨t', hgc, rfl⟩
  · obtain ⟨hsub, htags⟩ := client_memImport hclient
    intro t ht hi
    rcases htags t ht hi with hold | ⟨⟨scope, rfl⟩, hin⟩
    · exact (hinv t hold hi).imp_right (fun ⟨hentry, hs⟩ => ⟨hsub hentry, hs⟩)
    · rcases hin with hempty | hentry
      · exact Or.inl hempty
      · exact Or.imp_right (fun hs => ⟨hentry, hs⟩) hsafe
  · cases gcStep_cases hgc with
    | clearProtected _ => exact fun t ht hi => (hinv t ht hi).imp_right (fun h => ⟨h.1, trivial⟩)
    | listTags _ => exact fun t ht hi => (hinv t ht hi).imp_right (fun h => ⟨h.1, trivial⟩)
    | listTempTags _ => exact fun t ht hi => (hinv t ht hi).imp_right (fun h => ⟨h.1, trivial⟩)
    | stop _ => exact fun t ht hi => (hinv t ht hi).imp_right (fun h => ⟨h.1, trivial⟩)
    | mark exportBao order _ =>
      intro t ht hi
      rcases hinv t ht hi with hempty | ⟨hentry, -⟩
      · exact Or.inl hempty
      · rcases hsafe t ht hi with hlisted | hempty | hmarks
        · -- a temp tag that was listed is a root
          exact Or.inr ⟨hentry, Or.inr (Or.inl ⟨t.value, Seen.mem_roots.mpr (Or.inr ⟨t, hlisted, rfl⟩), rfl⟩)⟩
        · exact Or.inl hempty
        · exact Or.inr ⟨hentry, hmarks⟩
    | listBlobs blobs hphase _ =>
      intro t ht hi
      refine (hinv t ht hi).imp_right ?_
      rintro ⟨hentry, hs⟩
      unfold Safe at hs
      simp only [hphase] at hs
      exact ⟨hentry, fun _ => hs⟩
    | sweepNext hphase =>
      intro t ht hi
      refine (hinv t ht hi).imp_right ?_
      rintro ⟨hentry, hs⟩
      unfold Safe at hs
      simp only [hphase] at hs
      exact ⟨hentry, hs⟩
    | deleteBatch hphase =>
      unfold Linked at hl
      simp only [hphase] at hl
      obtain ⟨hlive, -, hbatch⟩ := hl
      intro t ht hi
      refine (hinv t ht hi).imp_right ?_
      rintro ⟨hentry, hs⟩
      unfold Safe at hs
      simp only [hphase] at hs
      refine ⟨Gc.mem_foldl_deleteEntry.mpr ⟨hentry, Or.inr fun hmem => ?_⟩,
        fun hpending => hs (List.mem_of_mem_drop hpending)⟩
      -- the batch has blobs that are still to be swept and were not marked
      obtain ⟨hpending, hdead⟩ := hbatch _ hmem
      exact hdead (hlive _ (hs hpending))

private theorem step_linked_memInv {a : Action MemImport} (hi : Linked live₀ s ∧ MemInv live₀ s)
    (hsafe : ImportSafe live₀ s a)
    (h : step memImport live₀ s a = some s') : Linked live₀ s' ∧ MemInv live₀ s' :=
  ⟨step_linked hi.1 h, step_memInv hi.1 hi.2 hsafe h⟩

/-- Garbage collection of the memory store keeps the imported blobs, if the run sees none of them unmarked. -/
theorem gc_keeps_imports (live₀ : Finset Hash) (s₀ s : State) (hidle : s₀.phase = .idle) (hkept : ImportsKept s₀)
    (actions : List (Action MemImport))
    (hsafe : StateMachine.RunMeets (step memImport live₀) (ImportSafe live₀) s₀ actions)
    (hrun : StateMachine.run (step memImport live₀) s₀ actions = some s) : ImportsKept s := by
  have hlinked : Linked live₀ s₀ := by
    unfold Linked
    rw [hidle]
    trivial
  have hmem : MemInv live₀ s₀ := by
    intro t ht hi
    refine (hkept t ht hi).imp_right (fun hentry => ⟨hentry, ?_⟩)
    unfold Safe
    rw [hidle]
    trivial
  have hinv : Linked live₀ s₀ ∧ MemInv live₀ s₀ := ⟨hlinked, hmem⟩
  exact (StateMachine.inv_of_run _ step_linked_memInv hinv hsafe hrun).2.importsKept

def State.empty : State := ⟨⟨[], [], ∅, ∅⟩, .idle, .start⟩

/-- A blob without a tag. -/
def unprotected : State := ⟨⟨[], [], {.replicate 3}, ∅⟩, .idle, .start⟩

/-- An import finishes before the temp tags are listed, and again after that.  Another one finishes during the sweep. -/
def importsMeanwhile : List (Action MemImport) :=
  [.clearProtected, .listTags, .importBlob (.finishImport 0 ⟨.replicate 1, .raw⟩), .listTempTags,
    .importBlob (.finishImport 1 ⟨.replicate 1, .raw⟩), .mark (fun _ => .ok []) [⟨.replicate 1, .raw⟩],
    .listBlobs [.replicate 1, .replicate 3], .importBlob (.finishImport 1 ⟨.replicate 2, .raw⟩), .sweepNext, .sweepNext,
    .deleteBatch, .finish]

/-- Imports are listed or roots, or the blob is not among those that are swept. -/
def importKept (s : State) : Action MemImport → Bool
  | .mark _ _ => s.store.tempTags.all (fun t => decide (∃ r ∈ s.seen.roots, r.hash = t.value.hash))
  | .importBlob (.finishImport _ value) =>
    match s.phase with
    | .marked _ => false
    | .sweeping _ _ _ => decide (value.hash ∉ s.seen.pending)
    | _ => true
  | _ => true

private theorem importSafe_of_importKept {s : State} {a : Action MemImport} (h : importKept s a = true) :
    ImportSafe ∅ s a := by
  cases a with
  | mark exportBao order =>
    intro t ht _
    have hroot := of_decide_eq_true (List.all_eq_true.mp h t ht)
    exact Or.inr (Or.inr (Or.inr (Or.inl hroot)))
  | importBlob i =>
    cases i with
    | getOrCreateEntry hash => trivial
    | finishImport scope value =>
      refine Or.inr ?_
      unfold importKept at h
      unfold Safe
      cases hphase : s.phase with
      | marked live =>
        simp only [hphase] at h
        cases h
      | sweeping live blobs batch =>
        simp only [hphase] at h
        exact fun hpending => absurd hpending (of_decide_eq_true h)
      | _ => trivial
  | _ => trivial

theorem gc_keeps_imports_importsMeanwhile : ∃ s,
    StateMachine.run (step memImport ∅) unprotected importsMeanwhile = some s ∧
    ImportsKept s ∧ s.store.entries = {.replicate 1, .replicate 2} := by
  have hcheck : StateMachine.checkRun (step memImport ∅) importKept unprotected importsMeanwhile = true := by decide
  refine ⟨_, rfl, ?_, by decide⟩
  exact gc_keeps_imports ∅ unprotected _ rfl (fun t ht => by cases ht) importsMeanwhile
    (StateMachine.runMeets_of_checkRun _ (fun _ _ => importSafe_of_importKept) hcheck) rfl

/-- An import that finishes after the temp tags were listed. -/
def lateImport : List (Action MemImport) :=
  [.clearProtected, .listTags, .listTempTags, .importBlob (.finishImport 0 ⟨.replicate 1, .raw⟩),
    .mark (fun _ => .ok []) [], .listBlobs [.replicate 1], .sweepNext, .deleteBatch, .finish]

theorem not_importsKept_lateImport : ¬ ∀ (live₀ : Finset Hash) (s : State) (actions : List (Action MemImport)),
    StateMachine.run (step memImport live₀) .empty actions = some s → s.phase = .done → ImportsKept s := by
  intro h
  have hkept := h ∅ _ lateImport rfl rfl ⟨0, ⟨.replicate 1, .raw⟩, true⟩ (by decide) rfl
  rcases hkept with hempty | hentry
  · exact absurd hempty (by decide)
  · exact absurd hentry (by decide)

end GcRun

end IrohBlobs
