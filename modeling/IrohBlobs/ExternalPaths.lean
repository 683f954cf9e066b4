import IrohBlobs.EntryUnion
import IrohBlobs.Leaks

/-!
# Lists of external paths

Imports by reference and exports with `TryReference` both extend the list of external paths of an entry: the first
through the union of entry states, which sorts the list, the second by setting the entry that was read before the
export, which sorts the list and cuts it off at `MAX_EXTERNAL_PATHS`.  The union has no bound, and an export
overwrites what others added since it read the entry.

So the lists are well formed in every run in which no import adds a path to a full list, and no export overwrites the
path of an export that has set its entry but not yet answered (`Meets`).
-/

namespace IrohBlobs

namespace ExternalPaths

open Meta
open Leaks (MAX_EXTERNAL_PATHS)

/-! ### The system -/

/-- Where an export with `TryReference` is: it has written inline data to its target, or has copied or moved the file
of the entry that it read, or has set the new entry. -/
inductive Stage
  | inlined
  | copied (read : List PathBuf) (size : Nat) (outboard : OutboardLocation (List UInt8))
  | written

structure Export where
  hash : Hash
  target : PathBuf
  stage : Stage

structure Store where
  txn : Txn
  exports : Nat → Option Export
  /-- The export that the last step has answered with `Done`. -/
  answered : Option (Hash × PathBuf)

def Store.empty : Store := ⟨⟨⟨fun _ => none, fun _ => none, fun _ => none⟩, ∅, ∅⟩, fun _ => none, none⟩

inductive Action
  /-- An import, or a bao import, sends its entry state to the metadata actor. -/
  | update (hash : Hash) (state : EntryState (List UInt8))
  /-- An export reads the entry and copies or moves its data. -/
  | copy (id : Nat) (hash : Hash) (target : PathBuf)
  | fail (id : Nat)
  | set (id : Nat)
  | done (id : Nat)

/-- The states that are sent: external data comes from an import by reference and has one path. -/
def isSent (hash : Hash) : EntryState (List UInt8) → Bool
  | .complete (.external paths _) _ => decide (hash ≠ .EMPTY) && decide (paths.length = 1)
  | _ => decide (hash ≠ .EMPTY)

/-- The paths that an export sets. -/
def exportPaths (read : List PathBuf) (target : PathBuf) : List PathBuf :=
  match read with
  -- the file was previously owned, and is moved
  | [] => [target]
  | _ => (((read ++ [target]).mergeSort (fun a b => decide (a ≤ b))).eraseReps).take MAX_EXTERNAL_PATHS

/-- `get_entry_state`.  The empty blob is always there. -/
def entryState (hash : Hash) (tables : Tables) : Option (EntryState Unit) :=
  if hash = .EMPTY then some (.complete (.inline ()) .notNeeded) else tables.blobs hash

def copy (s : Store) (hash : Hash) : Option Stage :=
  match entryState hash s.txn.tables with
  | some (.complete dataLocation outboardLocation) =>
    match loadOutboard s.txn.tables hash outboardLocation with
    | .error _ => none
    | .ok outboard =>
      match dataLocation with
      | .inline _ => some .inlined
      | .owned size => some (.copied [] size outboard)
      | .external [] _ => none
      | .external paths size => some (.copied paths size outboard)
  | _ => none

def step (s : Store) : Action → Option Store
  | .update hash state =>
    if isSent hash state then
      match handleUpdate s.txn hash state with
      | .ok txn => some { s with txn, answered := none }
      -- an error ends the actor
      | .error _ => none
    else none
  | .copy id hash target =>
    match s.exports id with
    | some _ => none
    | none =>
      (copy s hash).map fun stage =>
        { s with exports := Function.update s.exports id (some ⟨hash, target, stage⟩), answered := none }
  | .fail id => some { s with exports := Function.update s.exports id none, answered := none }
  | .set id =>
    match s.exports id with
    | some ⟨hash, target, .copied read size outboard⟩ =>
      some {
        txn := handleSet s.txn hash (.complete (.external (exportPaths read target) size) outboard)
        exports := Function.update s.exports id (some ⟨hash, target, .written⟩)
        answered := none }
    | _ => none
  | .done id =>
    match s.exports id with
    | some ⟨_, _, .copied _ _ _⟩ => none
    | some ⟨hash, target, _⟩ =>
      some { s with exports := Function.update s.exports id none, answered := some (hash, target) }
    | none => none

/-! ### The property -/

structure PathsOk (paths : List PathBuf) : Prop where
  nonempty : paths ≠ []
  sorted : paths.Pairwise (· < ·)
  bounded : paths.length ≤ MAX_EXTERNAL_PATHS

/-- The path is in the list of the entry, or the list is full. -/
def Listed (target : PathBuf) (entry : Option (EntryState Unit)) : Prop :=
  ∀ paths size outboard, entry = some (.complete (.external paths size) outboard) →
    target ∈ paths ∨ paths.length = MAX_EXTERNAL_PATHS

/-- The lists of all entries are well formed, and the export that was just answered is in its list. -/
structure WellFormed (s : Store) : Prop where
  pathsOk : ∀ hash paths size outboard, s.txn.tables.blobs hash =
    some (.complete (.external paths size) outboard) → PathsOk paths
  answered : ∀ hash target, s.answered = some (hash, target) → Listed target (s.txn.tables.blobs hash)

/-- The list that the export with the given list and target sets has the other path, or is full. -/
def Keeps (read : List PathBuf) (target other : PathBuf) : Prop :=
  other ∈ read ∨ other = target ∨ MAX_EXTERNAL_PATHS ≤ (read ++ [target]).toFinset.card

/-- An update does not add a path to a full list, an export keeps the paths of exports that have set the entry and not
yet answered, and the entry of inline data that was exported has not become external. -/
def Meets (s : Store) : Action → Prop
  | .update hash state =>
    ∀ paths size outboard, s.txn.tables.blobs hash = some (.complete (.external paths size) outboard) →
      ∀ path ∈ state.paths, path ∈ paths ∨ paths.length < MAX_EXTERNAL_PATHS
  | .set id =>
    ∀ hash target read size outboard, s.exports id = some ⟨hash, target, .copied read size outboard⟩ →
      ∀ other path, s.exports other = some ⟨hash, path, .written⟩ → Keeps read target path
  | .done id =>
    ∀ hash target, s.exports id = some ⟨hash, target, .inlined⟩ →
      ∀ paths size outboard, s.txn.tables.blobs hash ≠ some (.complete (.external paths size) outboard)
  | _ => True

/-! ### One step -/

private theorem mem_exportPaths {read : List PathBuf} {target path : PathBuf} (h : Keeps read target path) :
    path ∈ exportPaths read target ∨ (exportPaths read target).length = MAX_EXTERNAL_PATHS := by
  cases read with
  | nil =>
    rcases h with h | rfl | h
    · cases h
    · exact Or.inl (by simp [exportPaths])
    · simp [MAX_EXTERNAL_PATHS] at h
  | cons a l =>
    simp only [exportPaths, eraseReps_mergeSort, List.length_take, Finset.length_sort]
    by_cases hcard : MAX_EXTERNAL_PATHS ≤ (a :: l ++ [target]).toFinset.card
    · exact Or.inr (Nat.min_eq_left hcard)
    · left
      rw [List.take_of_length_le (by rw [Finset.length_sort]; omega), Finset.mem_sort, List.mem_toFinset]
      rcases h with h | rfl | h
      · exact List.mem_append_left _ h
      · simp
      · exact absurd h hcard

private theorem pathsOk_exportPaths (read : List PathBuf) (target : PathBuf) : PathsOk (exportPaths read target) := by
  cases read with
  | nil => exact ⟨by simp [exportPaths], by simp [exportPaths], by simp [exportPaths, MAX_EXTERNAL_PATHS]⟩
  | cons a l =>
    simp only [exportPaths, eraseReps_mergeSort]
    refine ⟨?_, ?_, List.length_take_le _ _⟩
    · intro hnil
      rw [List.take_eq_nil_iff] at hnil
      rcases hnil with hnil | hnil
      · simp [MAX_EXTERNAL_PATHS] at hnil
      · have hmem : target ∈ (a :: l ++ [target]).toFinset.sort (· ≤ ·) := by simp
        rw [hnil] at hmem
        cases hmem
    · exact (Finset.sortedLT_sort _).pairwise.sublist (List.take_sublist _ _)

/-- Where the paths of a union come from. -/
private theorem external_of_union {old new : EntryState Unit} {paths : List PathBuf} {size : Nat}
    {outboard : OutboardLocation Unit}
    (h : old.union new = .ok (.complete (.external paths size) outboard)) :
    (∃ ps m o, old = .complete (.external ps m) o ∧ paths = (ps ++ new.paths).toFinset.sort (· ≤ ·)) ∨
    (∃ ps m o, old = .complete (.external ps m) o ∧ new.paths = [] ∧ paths = ps) ∨
    (old.isComplete = false ∧ new = .complete (.external paths size) outboard) := by
  rcases old with ⟨_ | _ | ⟨ps, m⟩, o⟩ | a <;> rcases new with ⟨_ | _ | ⟨qs, k⟩, o'⟩ | b
  case complete.external.complete.external =>
    simp only [EntryState.union, DataLocation.union] at h
    split at h
    · next d hd =>
      split at hd
      · cases hd
      · cases hd
        cases h
        exact Or.inl ⟨ps, _, _, rfl, eraseReps_mergeSort _⟩
    · cases h
  case complete.external.partialState =>
    cases h
    exact Or.inr (Or.inl ⟨_, _, _, rfl, rfl, rfl⟩)
  case partialState.complete.external =>
    rcases a with _ | a <;> cases h <;> exact Or.inr (Or.inr ⟨rfl, rfl⟩)
  case partialState.partialState =>
    rcases a with _ | a <;> rcases b with _ | b <;> simp only [EntryState.union, Except.ok.injEq, reduceCtorEq] at h
    split at h <;> cases h
  all_goals cases h

/-- The entries of a step with a metadata command. -/
theorem blobs_handleUpdate {txn txn' : Txn} {hash : Hash} {state : EntryState (List UInt8)}
    (h : handleUpdate txn hash state = .ok txn') :
    (∀ h', h' ≠ hash → txn'.tables.blobs h' = txn.tables.blobs h') ∧
    ∃ res, txn'.tables.blobs hash = some res ∧
      ((txn.tables.blobs hash = none ∧ res = (splitState state).1) ∨
        ∃ old, txn.tables.blobs hash = some old ∧ old.union (splitState state).1 = .ok res) := by
  unfold handleUpdate at h
  cases hold : txn.tables.blobs hash with
  | none =>
    simp only [hold, Except.ok.injEq] at h
    subst h
    exact ⟨fun h' hne => by simp [Function.update_of_ne hne], _, by simp, Or.inl ⟨rfl, rfl⟩⟩
  | some old =>
    simp only [hold] at h
    cases hunion : old.union (splitState state).1 with
    | error e => simp [hunion] at h
    | ok res =>
      simp only [hunion, Except.ok.injEq] at h
      subst h
      exact ⟨fun h' hne => by simp [Function.update_of_ne hne], res, by simp, Or.inr ⟨old, rfl, hunion⟩⟩

private theorem paths_splitState (state : EntryState (List UInt8)) : (splitState state).1.paths = state.paths := by
  rcases state with ⟨_ | _ | _, _ | _ | _⟩ | _ <;> rfl

/-- A complete entry stays complete. -/
private theorem isComplete_union {old new res : EntryState Unit} (h : old.union new = .ok res)
    (hold : old.isComplete = true) :
    res.isComplete = true := by
  rcases old with ⟨_, _⟩ | _
  · rcases new with ⟨_, _⟩ | _ <;> simp only [EntryState.union] at h
    · split at h <;> cases h
      rfl
    · cases h
      rfl
  · cases hold

def IsComplete (entry : Option (EntryState Unit)) : Prop := ∃ state, entry = some state ∧ state.isComplete = true

/-- The invariant: exports that have read an entry or set it find a complete one, and their path is listed until they
are answered. -/
structure Inv (s : Store) : Prop extends WellFormed s where
  complete : ∀ id e, s.exports id = some e → e.stage = .inlined ∨ IsComplete (s.txn.tables.blobs e.hash)
  written : ∀ id hash target, s.exports id = some ⟨hash, target, .written⟩ → Listed target (s.txn.tables.blobs hash)

private theorem inv_empty : Inv .empty where
  pathsOk _ _ _ _ h := by cases h
  answered _ _ h := by cases h
  complete _ _ h := by cases h
  written _ _ _ h := by cases h

private theorem pathsOk_singleton (path : PathBuf) : PathsOk [path] := ⟨by simp, by simp, by simp [MAX_EXTERNAL_PATHS]⟩

/-- External data that is sent has one path. -/
private theorem paths_of_isSent {hash : Hash} {state : EntryState (List UInt8)} (h : isSent hash state = true)
    {paths : List PathBuf}
    {size : Nat} {outboard : OutboardLocation Unit}
    (hs : (splitState state).1 = .complete (.external paths size) outboard) :
    ∃ path, paths = [path] := by
  rcases state with ⟨_ | _ | ⟨ps, _⟩, _ | _ | _⟩ | _ <;> cases hs <;>
    · simp only [isSent, Bool.and_eq_true, decide_eq_true_eq] at h
      exact List.length_eq_one_iff.mp h.2

private theorem length_paths_of_isSent {hash : Hash} {state : EntryState (List UInt8)} (h : isSent hash state = true) :
    state.paths = [] ∨ ∃ path, state.paths = [path] := by
  rcases state with ⟨_ | _ | ⟨ps, _⟩, _⟩ | _
  · exact Or.inl rfl
  · exact Or.inl rfl
  · simp only [isSent, Bool.and_eq_true, decide_eq_true_eq] at h
    exact Or.inr (List.length_eq_one_iff.mp h.2)
  · exact Or.inl rfl

/-- A list that is not full has room for one more path. -/
private theorem pathsOk_union {paths news : List PathBuf} (h : PathsOk paths)
    (hnews : news = [] ∨ ∃ path, news = [path])
    (hroom : ∀ path ∈ news, path ∈ paths ∨ paths.length < MAX_EXTERNAL_PATHS) :
    PathsOk ((paths ++ news).toFinset.sort (· ≤ ·)) := by
  have hsort : paths.toFinset.sort (· ≤ ·) = paths := sort_toFinset_of_pairwise h.sorted
  rcases hnews with rfl | ⟨path, rfl⟩
  · rw [List.append_nil, hsort]
    exact h
  · have hset : (paths ++ [path]).toFinset = insert path paths.toFinset := by
      ext x
      simp
    rw [hset]
    refine ⟨?_, (Finset.sortedLT_sort _).pairwise, ?_⟩
    · intro hnil
      have hmem : path ∈ (insert path paths.toFinset).sort (· ≤ ·) := by simp
      rw [hnil] at hmem
      cases hmem
    · rw [Finset.length_sort]
      rcases hroom path (by simp) with hmem | hlt
      · rw [Finset.insert_eq_of_mem (List.mem_toFinset.mpr hmem)]
        exact (List.toFinset_card_le _).trans h.bounded
      · exact (Finset.card_insert_le _ _).trans ((Nat.succ_le_succ (List.toFinset_card_le _)).trans hlt)

/-- What an update does to a list of external paths. -/
private theorem update_external {s : Store} {hash : Hash} {state : EntryState (List UInt8)} {txn : Txn} (hinv : Inv s)
    (hsent : isSent hash state = true) (hok : Meets s (.update hash state))
    (h : handleUpdate s.txn hash state = .ok txn)
    {paths : List PathBuf} {size : Nat} {outboard : OutboardLocation Unit}
    (hentry : txn.tables.blobs hash = some (.complete (.external paths size) outboard)) :
    PathsOk paths ∧ (IsComplete (s.txn.tables.blobs hash) →
      ∃ ps m o, s.txn.tables.blobs hash = some (.complete (.external ps m) o) ∧ ps ⊆ paths) := by
  obtain ⟨-, res, hres, hcases⟩ := blobs_handleUpdate h
  rw [hentry, Option.some.injEq] at hres
  subst hres
  rcases hcases with ⟨hnone, hnew⟩ | ⟨old, hold, hunion⟩
  · obtain ⟨path, rfl⟩ := paths_of_isSent hsent hnew.symm
    refine ⟨pathsOk_singleton path, ?_⟩
    rintro ⟨_, hsome, -⟩
    rw [hnone] at hsome
    cases hsome
  · rcases external_of_union hunion with ⟨ps, m, o, rfl, rfl⟩ | ⟨ps, m, o, rfl, -, rfl⟩ | ⟨hstate, hnew⟩
    · have hps := hinv.pathsOk hash ps m o hold
      rw [paths_splitState]
      refine ⟨pathsOk_union hps (length_paths_of_isSent hsent) (hok ps m o hold), fun _ => ⟨ps, m, o, hold, ?_⟩⟩
      intro x hx
      simp [hx]
    · exact ⟨hinv.pathsOk hash paths m o hold, fun _ => ⟨paths, m, o, hold, List.Subset.refl _⟩⟩
    · obtain ⟨path, rfl⟩ := paths_of_isSent hsent hnew
      refine ⟨pathsOk_singleton path, ?_⟩
      rintro ⟨state', hsome, hcomplete⟩
      rw [hold, Option.some.injEq] at hsome
      subst hsome
      rw [hstate] at hcomplete
      cases hcomplete

/-- A list that is extended, and not beyond the bound, keeps what it lists. -/
private theorem listed_of_subset {target : PathBuf} {entry entry' : Option (EntryState Unit)} (h : Listed target entry)
    (hentry : ∀ paths size outboard, entry' = some (.complete (.external paths size) outboard) →
      PathsOk paths ∧ ∃ ps m o, entry = some (.complete (.external ps m) o) ∧ PathsOk ps ∧ ps ⊆ paths) :
        Listed target entry' := by
  intro paths size outboard hpaths
  obtain ⟨hok, ps, m, o, hps, hpsok, hsub⟩ := hentry paths size outboard hpaths
  rcases h ps m o hps with hmem | hfull
  · exact Or.inl (hsub hmem)
  · right
    have hle : ps.length ≤ paths.length := (List.subperm_of_subset (hpsok.sorted.imp ne_of_lt) hsub).length_le
    exact le_antisymm hok.bounded (hfull ▸ hle)

private theorem isComplete_handleUpdate {txn txn' : Txn} {hash : Hash} {state : EntryState (List UInt8)}
    (h : handleUpdate txn hash state = .ok txn') {hash' : Hash} (hcomplete : IsComplete (txn.tables.blobs hash')) :
    IsComplete (txn'.tables.blobs hash') := by
  obtain ⟨hother, res, hres, hcases⟩ := blobs_handleUpdate h
  by_cases heq : hash' = hash
  · subst heq
    obtain ⟨old, hold, hc⟩ := hcomplete
    rcases hcases with ⟨hnone, -⟩ | ⟨old', hold', hunion⟩
    · rw [hold] at hnone
      cases hnone
    · rw [hold, Option.some.injEq] at hold'
      subst hold'
      exact ⟨res, hres, isComplete_union hunion hc⟩
  · rw [hother hash' heq]
    exact hcomplete

/-- What an export finds. -/
private theorem copy_cases {s : Store} {hash : Hash} {stage : Stage} (h : copy s hash = some stage) :
    stage ≠ .written ∧ (stage = .inlined ∨ IsComplete (s.txn.tables.blobs hash)) := by
  unfold copy at h
  split at h
  · next dataLocation outboardLocation hentry =>
    split at h
    · cases h
    · unfold entryState at hentry
      split at hentry
      · cases hentry
        cases h
        exact ⟨by simp, Or.inl rfl⟩
      · split at h <;> cases h
        · exact ⟨by simp, Or.inl rfl⟩
        · exact ⟨by simp, Or.inr ⟨_, hentry, rfl⟩⟩
        · exact ⟨by simp, Or.inr ⟨_, hentry, rfl⟩⟩
  · cases h

private theorem inv_update {s : Store} (hinv : Inv s) {hash : Hash} {state : EntryState (List UInt8)} {txn : Txn}
    (hsent : isSent hash state = true) (hok : Meets s (.update hash state))
    (h : handleUpdate s.txn hash state = .ok txn) :
    Inv { s with txn, answered := none } := by
  have hother := (blobs_handleUpdate h).1
  refine ⟨⟨?_, fun _ _ ha => by cases ha⟩, ?_, ?_⟩
  · intro hash' paths size outboard hentry
    by_cases heq : hash' = hash
    · subst heq
      exact (update_external hinv hsent hok h hentry).1
    · exact hinv.pathsOk hash' paths size outboard (hother hash' heq ▸ hentry)
  · intro id e he
    rcases hinv.complete id e he with hstage | hcomplete
    · exact Or.inl hstage
    · exact Or.inr (isComplete_handleUpdate h hcomplete)
  · intro id hash' target he
    by_cases heq : hash' = hash
    · subst heq
      apply listed_of_subset (hinv.written id hash' target he)
      intro paths size outboard hentry
      obtain ⟨hpaths, hlist⟩ := update_external hinv hsent hok h hentry
      rcases hinv.complete id _ he with hstage | hcomplete
      · cases hstage
      · obtain ⟨ps, m, o, hps, hsub⟩ := hlist hcomplete
        exact ⟨hpaths, ps, m, o, hps, hinv.pathsOk hash' ps m o hps, hsub⟩
    · simp only
      rw [hother hash' heq]
      exact hinv.written id hash' target he

private theorem inv_set {s : Store} (hinv : Inv s) {id : Nat} {hash : Hash} {target : PathBuf}
    {read : List PathBuf} {size : Nat}
    {outboard : OutboardLocation (List UInt8)} (hok : Meets s (.set id))
    (he : s.exports id = some ⟨hash, target, .copied read size outboard⟩) :
    Inv {
      txn := handleSet s.txn hash (.complete (.external (exportPaths read target) size) outboard)
      exports := Function.update s.exports id (some ⟨hash, target, .written⟩)
      answered := none } := by
  have hblobs : ∀ hash', (handleSet s.txn hash
    (.complete (.external (exportPaths read target) size) outboard)).tables.blobs
      hash' = if hash' = hash then
        some (.complete (.external (exportPaths read target) size) outboard.splitInlineData.1) else s.txn.tables.blobs
          hash' := by
    intro hash'
    simp [handleSet, splitState, Function.update_apply, DataLocation.splitInlineData]
  refine ⟨⟨?_, fun _ _ ha => by cases ha⟩, ?_, ?_⟩
  · intro hash' paths size' outboard' hentry
    simp only [hblobs] at hentry
    split at hentry
    · cases hentry
      exact pathsOk_exportPaths read target
    · exact hinv.pathsOk hash' paths size' outboard' hentry
  · intro id' e' he'
    simp only [hblobs]
    by_cases heq : e'.hash = hash
    · exact Or.inr ⟨_, by rw [if_pos heq], rfl⟩
    · rw [if_neg heq]
      by_cases hid : id' = id
      · subst hid
        simp only [Function.update_self, Option.some.injEq] at he'
        subst he'
        exact absurd rfl heq
      · exact hinv.complete id' e' (by simpa [hid] using he')
  · intro id' hash' target' he' paths size' outboard' hentry
    simp only [hblobs] at hentry
    by_cases hid : id' = id
    · subst hid
      simp only [Function.update_self, Option.some.injEq, Export.mk.injEq, and_true] at he'
      obtain ⟨rfl, rfl⟩ := he'
      rw [if_pos rfl] at hentry
      cases hentry
      exact mem_exportPaths (Or.inr (Or.inl rfl))
    · have hother : s.exports id' = some ⟨hash', target', .written⟩ := by simpa [hid] using he'
      split at hentry
      · next heq =>
        subst heq
        cases hentry
        exact mem_exportPaths (hok hash' target read size outboard he id' target' hother)
      · exact hinv.written id' hash' target' hother paths size' outboard' hentry

/-- Removing an export, and answering one that is listed. -/
private theorem inv_remove {s : Store} (hinv : Inv s) (id : Nat) {answered : Option (Hash × PathBuf)}
    (hanswered : ∀ hash target, answered = some (hash, target) → Listed target (s.txn.tables.blobs hash)) :
    Inv { s with exports := Function.update s.exports id none, answered } := by
  have hsub : ∀ id' e, Function.update s.exports id none id' = some e → s.exports id' = some e := by
    intro id' e he
    rw [Function.update_apply] at he
    split at he
    · cases he
    · exact he
  exact ⟨⟨hinv.pathsOk, hanswered⟩, fun id' e he => hinv.complete id' e (hsub id' e he),
    fun id' hash target he => hinv.written id' hash target (hsub id' _ he)⟩

/-- Every step that meets the condition preserves the invariant. -/
private theorem inv_step {s s' : Store} {a : Action} (hinv : Inv s) (hok : Meets s a)
    (h : step s a = some s') : Inv s' := by
  cases a with
  | update hash state =>
    simp only [step] at h
    split at h
    · next hsent =>
      split at h <;> cases h
      next htxn => exact inv_update hinv hsent hok htxn
    · cases h
  | copy id hash target =>
    simp only [step] at h
    split at h
    · cases h
    · obtain ⟨stage, hstage, rfl⟩ := Option.map_eq_some_iff.mp h
      obtain ⟨hnew, hcomplete⟩ := copy_cases hstage
      refine ⟨⟨hinv.pathsOk, fun _ _ ha => by cases ha⟩, ?_, ?_⟩
      · intro id' e he
        simp only [Function.update_apply] at he
        split at he
        · cases he
          exact hcomplete
        · exact hinv.complete id' e he
      · intro id' hash' target' he
        simp only [Function.update_apply] at he
        split at he
        · cases he
          exact absurd rfl hnew
        · exact hinv.written id' hash' target' he
  | fail id =>
    cases h
    exact inv_remove hinv id (fun _ _ ha => by cases ha)
  | set id =>
    simp only [step] at h
    split at h
    · next he =>
      cases h
      exact inv_set hinv hok he
    · cases h
  | done id =>
    simp only [step] at h
    split at h
    · cases h
    · next hash target stage hnew he =>
      cases h
      apply inv_remove hinv id
      intro hash' target' ha
      simp only [Option.some.injEq, Prod.mk.injEq] at ha
      obtain ⟨rfl, rfl⟩ := ha
      cases stage with
      | inlined =>
        intro paths size outboard hentry
        exact absurd hentry (hok hash target he paths size outboard)
      | copied read size outboard => exact absurd rfl (hnew read size outboard)
      | written => exact hinv.written id hash target he
    · cases h

/-- In every run whose steps meet the condition, the lists are well formed, and an export that was just answered is
listed. -/
theorem wellFormed_of_meets {as : List Action} {s : Store} (hok : StateMachine.RunMeets step Meets .empty as)
    (hrun : StateMachine.run step .empty as = some s) : WellFormed s :=
  (StateMachine.inv_of_run step inv_step inv_empty hok hrun).toWellFormed

/-- Owned data is exported. -/
theorem wellFormed_export :
    ∃ s, StateMachine.run step .empty [.update (.replicate 1) (.complete (.owned 5) .notNeeded),
      .copy 0 (.replicate 1) (.ofBytes [47, 97]), .set 0, .done 0] =
      some s ∧ s.answered = some ((.replicate 1), (.ofBytes [47, 97])) ∧ WellFormed s := by
  have hmeets : StateMachine.RunMeets step Meets .empty
      [.update (.replicate 1) (.complete (.owned 5) .notNeeded), .copy 0 (.replicate 1) (.ofBytes [47, 97]),
        .set 0, .done 0] := ?_
  · exact ⟨_, rfl, rfl, wellFormed_of_meets hmeets rfl⟩
  refine StateMachine.RunMeets.cons step ?_ rfl (StateMachine.RunMeets.cons step trivial rfl
    (StateMachine.RunMeets.cons step ?_ rfl (StateMachine.RunMeets.cons step ?_ rfl trivial)))
  · intro paths size outboard h
    cases h
  · intro hash target read size outboard he other path hother
    simp only [Function.update_apply] at hother
    split at hother <;> cases hother
  · intro hash target he
    cases he

/-- Imports by reference extend the list without a bound. -/
private theorem run_imports (hash : Hash) (hne : hash ≠ .EMPTY) (paths : List PathBuf) {s : Store}
    {old : Finset PathBuf}
    (hs : s.txn.tables.blobs hash = some (.complete (.external (old.sort (· ≤ ·)) 5) .notNeeded)) :
    ∃ s', StateMachine.run step s (paths.map fun p => .update hash (.complete (.external [p] 5) .notNeeded)) = some s' ∧
      s'.txn.tables.blobs hash = some (.complete (.external ((old ∪ paths.toFinset).sort (· ≤ ·)) 5) .notNeeded) := by
  induction paths generalizing s old with
  | nil => exact ⟨s, rfl, by simpa using hs⟩
  | cons p paths ih =>
    have hset : (old.sort (· ≤ ·) ++ [p]).toFinset = insert p old := by
      ext x
      simp
    have hunion : EntryState.union (.complete (.external (old.sort (· ≤ ·)) 5) .notNeeded)
        (splitState (.complete (.external [p] 5) .notNeeded)).1 =
        .ok (.complete (.external ((insert p old).sort (· ≤ ·)) 5) .notNeeded) := by
      simp [EntryState.union, splitState, DataLocation.splitInlineData, DataLocation.union, eraseReps_mergeSort, hset]
    have hstep : ∃ s₁, step s (.update hash (.complete (.external [p] 5) .notNeeded)) = some s₁ ∧
        s₁.txn.tables.blobs hash = some (.complete (.external ((insert p old).sort (· ≤ ·)) 5) .notNeeded) := by
      have hsent : isSent hash (.complete (.external [p] 5) .notNeeded) = true := by simp [isSent, hne]
      simp only [step, hsent, if_true, handleUpdate, hs, hunion]
      exact ⟨_, rfl, by simp⟩
    obtain ⟨s₁, h₁, hs₁⟩ := hstep
    obtain ⟨s', hrun, hs'⟩ := ih hs₁
    refine ⟨s', by rw [List.map_cons, StateMachine.run, h₁]; exact hrun, ?_⟩
    have hunions : insert p old ∪ paths.toFinset = old ∪ (p :: paths).toFinset := by
      ext x
      simp only [Finset.mem_union, Finset.mem_insert, List.mem_toFinset, List.mem_cons]
      tauto
    rw [hs', hunions]

/-- Nine imports by reference give a list of nine paths. -/
theorem not_wellFormed_imports :
    ¬ ∀ (as : List Action) (s : Store), StateMachine.run step .empty as = some s → WellFormed s := by
  intro hall
  have hstep : ∃ s₁, step .empty (.update (.replicate 1) (.complete (.external [(.ofBytes [47, 97])] 5) .notNeeded)) =
    some s₁ ∧
      s₁.txn.tables.blobs (.replicate 1) = some
        (.complete (.external (({(.ofBytes [47, 97])} : Finset PathBuf).sort (· ≤ ·)) 5) .notNeeded) :=
    ⟨_, rfl, by simp⟩
  obtain ⟨s₁, h₁, hs₁⟩ := hstep
  obtain ⟨s, hrun, hs⟩ := run_imports (.replicate 1) (by decide) [(.ofBytes [47, 98]), (.ofBytes [47, 99]),
    (.ofBytes [47, 100]), (.ofBytes [47, 101]), (.ofBytes [47, 102]), (.ofBytes [47, 103]), (.ofBytes [47, 104]),
      (.ofBytes [47, 105])] hs₁
  have hrun' : StateMachine.run step .empty
    (.update (.replicate 1) (.complete (.external [(.ofBytes [47, 97])] 5) .notNeeded) ::
      [(.ofBytes [47, 98]), (.ofBytes [47, 99]), (.ofBytes [47, 100]), (.ofBytes [47, 101]), (.ofBytes [47, 102]),
        (.ofBytes [47, 103]), (.ofBytes [47, 104]), (.ofBytes [47, 105])].map fun p =>
        .update (.replicate 1) (.complete (.external [p] 5) .notNeeded)) = some s := by
    rw [StateMachine.run, h₁]
    exact hrun
  have hwf := hall _ s hrun'
  have hbounded := (hwf.pathsOk (.replicate 1) _ _ _ hs).bounded
  rw [Finset.length_sort] at hbounded
  revert hbounded
  decide

end ExternalPaths

end IrohBlobs
