import IrohBlobs.Meta
import IrohBlobs.StateMachine

/-!
# Imports and deletions

`finish_import_impl` of `store/fs.rs` next to the metadata actor.  An import task protects the files of its hash, moves
its temp files into place, opens them, and sends an update to the actor; the actor handles updates and deletions in
write transactions, and removes the marked files after each commit.  Any number of import tasks run between the steps of
the actor.

The invariant `Inv` says that the files of complete entries exist and are not marked, and that the same holds for the
files that an import has moved into place.  It is preserved as long as no deletion and no import get in each other's way
(`Undisturbed`).
-/

namespace IrohBlobs

namespace Meta

/-- Where the data of an import comes from. -/
inductive ImportSource
  | memory (data : List UInt8)
  | external (path : PathBuf) (size : Nat)
  | tempFile (path : PathBuf) (size : Nat)

/-- The outboard of an import. -/
inductive MemOrFile
  | mem (bytes : List UInt8)
  | file (path : PathBuf)

/-- The data location of the new entry. -/
def ImportSource.dataLocation : ImportSource → DataLocation (List UInt8)
  | .memory data => .inline data
  | .external path size => .external [path] size
  | .tempFile _ size => .owned size

/-- The outboard location of the new entry. -/
def MemOrFile.outboardLocation : MemOrFile → OutboardLocation (List UInt8)
  | .mem bytes => if bytes.isEmpty then .notNeeded else .inline bytes
  | .file _ => .owned

/-- The last step that an import task has completed. -/
inductive Stage
  | started
  | filesProtected
  | dataMoved
  | outboardMoved
  | dataOpened
  | sent
  deriving DecidableEq

/-- The position of a stage in the task. -/
def Stage.toNat : Stage → Nat
  | .started => 0
  | .filesProtected => 1
  | .dataMoved => 2
  | .outboardMoved => 3
  | .dataOpened => 4
  | .sent => 5

structure Import where
  hash : Hash
  source : ImportSource
  outboard : MemOrFile
  stage : Stage

/-- The import has a file for the part. -/
def Import.hasFile (imp : Import) : BaoFilePart → Bool
  | .data => match imp.source with | .tempFile _ _ => true | _ => false
  | .outboard => match imp.outboard with | .file _ => true | _ => false
  | _ => false

/-- The import is past the move of its file for the part. -/
def Import.moved (imp : Import) (part : BaoFilePart) : Prop :=
  imp.hasFile part = true ∧ (match part with | .data => 2 | _ => 3) ≤ imp.stage.toNat

/-- The import has opened its file for the part. -/
def Import.opened (imp : Import) (part : BaoFilePart) : Prop :=
  imp.hasFile part = true ∧ (match part with | .data => 4 | _ => 5) ≤ imp.stage.toNat

/-- The state that the import sends to the actor. -/
def Import.entryState (imp : Import) : EntryState (List UInt8) :=
  .complete imp.source.dataLocation imp.outboard.outboardLocation

/-- The actor: outside of a write transaction, inside one, between the commit of the database and that of the files, or
stopped by an error. -/
inductive Phase
  | idle
  | writing (tables : Tables)
  | committing
  | stopped

structure Store where
  committed : Tables
  phase : Phase
  isProtected : Finset Hash
  deleteSet : DeleteSet
  /-- Whether a file exists at its canonical path. -/
  files : Hash → BaoFilePart → Bool
  /-- The import tasks that are running. -/
  imports : Nat → Option Import

/-! ### Steps -/

/-- The actions of import tasks and of the actor.  A flag says whether an operation of the file system succeeds. -/
inductive Action
  | startImport (id : Nat) (hash : Hash) (source : ImportSource) (outboard : MemOrFile)
  | protect (id : Nat)
  | moveData (id : Nat) (ok : Bool)
  | moveOutboard (id : Nat) (ok : Bool)
  | openData (id : Nat) (ok : Bool)
  | openOutboard (id : Nat) (ok : Bool)
  | beginWrite
  | update (id : Nat)
  | updatePartial (hash : Hash) (size : Option Nat)
  | deleteBlobs (hashes : List Hash) (force : Bool)
  | clearProtected
  | commitDb
  | commitFiles (failed : Finset (Hash × BaoFilePart))
  | abort

/-- A file is created. -/
def createFile (files : Hash → BaoFilePart → Bool) (hash : Hash) (part : BaoFilePart) : Hash → BaoFilePart → Bool :=
  fun h p => if h = hash ∧ p = part then true else files h p

/-- An import task that is at the given stage. -/
def importAt (s : Store) (id : Nat) (stage : Stage) : Option Import :=
  match s.imports id with
  | some imp => if imp.stage = stage then some imp else none
  | none => none

def setImport (s : Store) (id : Nat) (imp : Option Import) : Store :=
  { s with imports := Function.update s.imports id imp }

/-- A failed rename is only logged. -/
def moveFile (s : Store) (id : Nat) (imp : Import) (part : BaoFilePart) (stage : Stage) (ok : Bool) : Store :=
  setImport (if imp.hasFile part && ok then { s with files := createFile s.files imp.hash part } else s) id
    (some { imp with stage := stage })

/-- Opening a file at its canonical path needs the file to exist.  If it fails, so does the import. -/
def openFile (s : Store) (id : Nat) (imp : Import) (part : BaoFilePart) (stage : Stage) (ok : Bool) : Store :=
  if ok && (!imp.hasFile part || s.files imp.hash part) then setImport s id (some { imp with stage := stage })
  else setImport s id none

/-- A command of the open write transaction.  An error drops the transaction and stops the actor. -/
def inTxn (s : Store) (tables : Tables) (command : Txn → Except ActorError Txn) : Store :=
  match command ⟨tables, s.deleteSet, s.isProtected⟩ with
  | .ok txn => { s with phase := .writing txn.tables, deleteSet := txn.ftx, isProtected := txn.isProtected }
  | .error _ => { s with phase := .stopped, deleteSet := ∅ }

def step (s : Store) : Action → Option Store
  | .startImport id hash source outboard =>
    match s.imports id with
    | none => some (setImport s id (some ⟨hash, source, outboard, .started⟩))
    | some _ => none
  | .protect id =>
    (importAt s id .started).map (fun imp =>
      setImport { s with deleteSet := s.deleteSet.protect imp.hash [.data, .outboard] } id
        (some { imp with stage := .filesProtected }))
  | .moveData id ok => (importAt s id .filesProtected).map (fun imp => moveFile s id imp .data .dataMoved ok)
  | .moveOutboard id ok => (importAt s id .dataMoved).map (fun imp => moveFile s id imp .outboard .outboardMoved ok)
  | .openData id ok => (importAt s id .outboardMoved).map (fun imp => openFile s id imp .data .dataOpened ok)
  | .openOutboard id ok => (importAt s id .dataOpened).map (fun imp => openFile s id imp .outboard .sent ok)
  | .beginWrite =>
    match s.phase with
    | .idle => some { s with phase := .writing s.committed }
    | _ => none
  | .update id =>
    match s.phase, importAt s id .sent with
    | .writing tables, some imp =>
      some (setImport (inTxn s tables (fun txn => handleUpdate txn imp.hash imp.entryState)) id none)
    | _, _ => none
  | .updatePartial hash size =>
    match s.phase with
    | .writing tables => some (inTxn s tables (fun txn => handleUpdate txn hash (.partialState size)))
    | _ => none
  | .deleteBlobs hashes force =>
    match s.phase with
    | .writing tables => some (inTxn s tables (fun txn => .ok (delete txn hashes force)))
    | _ => none
  | .clearProtected => some { s with isProtected := ∅ }
  | .commitDb =>
    match s.phase with
    | .writing tables => some { s with committed := tables, phase := .committing }
    | _ => none
  | .commitFiles failed =>
    match s.phase with
    | .committing =>
      some { s with
        phase := .idle
        files := fun h p => s.files h p && (!decide ((h, p) ∈ s.deleteSet) || decide ((h, p) ∈ failed))
        deleteSet := ∅ }
    | _ => none
  | .abort =>
    match s.phase with
    | .writing _ => some { s with phase := .stopped, deleteSet := ∅ }
    | _ => none

/-! ### The property -/

def DataLocation.isOwned {I : Type} : DataLocation I → Bool
  | .owned _ => true
  | _ => false

def OutboardLocation.isOwned {I : Type} : OutboardLocation I → Bool
  | .owned => true
  | _ => false

/-- The entry needs the file for the part at its canonical path. -/
def needsFile : EntryState Unit → BaoFilePart → Bool
  | .complete dataLocation _, .data => dataLocation.isOwned
  | .complete _ outboardLocation, .outboard => outboardLocation.isOwned
  | _, _ => false

/-- The files of committed entries exist. -/
def FilesExist (s : Store) : Prop :=
  ∀ h e p, s.committed.blobs h = some e → needsFile e p = true → s.files h p = true

/-- The deletion of the given hashes marks the file. -/
def deletionMarks (s : Store) (hashes : List Hash) (force : Bool) (h : Hash) (p : BaoFilePart) : Prop :=
  ∃ tables e, s.phase = .writing tables ∧ h ∈ hashes ∧ (force = true ∨ h ∉ s.isProtected) ∧ tables.blobs h = some e ∧
    p ∈ markedParts e

/-- A deletion marks no file that an unfinished import has moved into place, and an import moves no file into place
while the file is marked. -/
def Undisturbed (s : Store) : Action → Prop
  | .deleteBlobs hashes force =>
    ∀ id imp p, s.imports id = some imp → imp.moved p → ¬ deletionMarks s hashes force imp.hash p
  | .moveData id _ => ∀ imp, s.imports id = some imp → imp.hasFile .data = true → (imp.hash, .data) ∉ s.deleteSet
  | .moveOutboard id _ =>
    ∀ imp, s.imports id = some imp → imp.hasFile .outboard = true → (imp.hash, .outboard) ∉ s.deleteSet
  | _ => True

/-- The tables that the next commit is based on. -/
def Store.current (s : Store) : Tables :=
  match s.phase with
  | .writing tables => tables
  | _ => s.committed

structure Inv (s : Store) : Prop where
  current : ∀ h e p, s.current.blobs h = some e → needsFile e p = true → s.files h p = true ∧ (h, p) ∉ s.deleteSet
  committed : FilesExist s
  moved : ∀ id imp p, s.imports id = some imp → imp.moved p → (imp.hash, p) ∉ s.deleteSet
  opened : ∀ id imp p, s.imports id = some imp → imp.opened p → s.files imp.hash p = true
  marks : (s.phase = .idle ∨ s.phase = .stopped) → s.deleteSet = ∅

/-! ### What the commands of the actor do to the files that entries need -/

private theorem isOwned_union {a b r : DataLocation Unit} (h : a.union b = .ok r) (hr : r.isOwned = true) :
    a.isOwned = true ∨ b.isOwned = true := by
  cases a <;> cases b <;> simp only [DataLocation.union] at h
  case external.external =>
    split at h <;> cases h
    cases hr
  all_goals cases h; first | exact Or.inl hr | exact Or.inr hr

private theorem needsFile_union {old new res : EntryState Unit} (h : old.union new = .ok res) {p : BaoFilePart}
    (hp : needsFile res p = true) : needsFile old p = true ∨ needsFile new p = true := by
  cases old with
  | complete d o =>
    cases new with
    | partialState b =>
      cases h
      exact Or.inl hp
    | complete d' o' =>
      simp only [EntryState.union] at h
      split at h
      · rename_i d'' hd
        cases h
        cases p with
        | data => exact isOwned_union hd hp
        | outboard => exact Or.inl hp
        | sizes | bitfield => cases hp
      · cases h
  | partialState a =>
    cases new with
    | complete d o =>
      cases h
      exact Or.inr hp
    | partialState b =>
      have : res.isPartial = true := by
        cases a <;> cases b <;> simp only [EntryState.union] at h
        case some.some => split at h <;> cases h; rfl
        all_goals cases h; rfl
      cases res with
      | complete d o => cases this
      | partialState c => cases p <;> cases hp

/-- What an update does: the entry of its hash needs only files that the old entry or the update need, and only files
that no entry needs are marked. -/
private theorem handleUpdate_ok {txn txn' : Txn} {hash : Hash} {state : EntryState (List UInt8)}
    (h : handleUpdate txn hash state = .ok txn') :
    (∀ k, k ≠ hash → txn'.tables.blobs k = txn.tables.blobs k) ∧
    (∀ e p, txn'.tables.blobs hash = some e → needsFile e p = true →
      (∃ old, txn.tables.blobs hash = some old ∧ needsFile old p = true) ∨ needsFile (splitState state).1 p = true) ∧
    (∀ x ∈ txn'.ftx, x ∈ txn.ftx ∨ x.2 = .sizes ∨ x.2 = .bitfield) := by
  unfold handleUpdate at h
  simp only at h
  cases hold : txn.tables.blobs hash with
  | none =>
    simp only [hold] at h
    cases h
    refine ⟨fun k hk => Function.update_of_ne hk _ _, ?_, fun x hx => Or.inl hx⟩
    intro e p he hp
    simp only [Function.update_self, Option.some.injEq] at he
    subst he
    exact Or.inr hp
  | some old =>
    simp only [hold] at h
    cases hu : old.union (splitState state).1 with
    | error e => simp [hu] at h
    | ok res =>
      simp only [hu] at h
      cases h
      refine ⟨fun k hk => Function.update_of_ne hk _ _, ?_, ?_⟩
      · intro e p he hp
        simp only [Function.update_self, Option.some.injEq] at he
        subst he
        rcases needsFile_union hu hp with h1 | h1
        · exact Or.inl ⟨old, rfl, h1⟩
        · exact Or.inr h1
      · intro x hx
        simp only at hx
        split at hx
        · rcases DeleteSet.mem_delete.mp hx with h1 | ⟨-, h1⟩
          · exact Or.inl h1
          · right
            simpa using h1
        · exact Or.inl hx

/-- What a deletion does: entries are only removed, and the new marks are those of the removed entries. -/
private structure Deleted (force : Bool) (hashes : List Hash) (txn txn' : Txn) : Prop where
  isProtected : txn'.isProtected = txn.isProtected
  blobs : ∀ k e, txn'.tables.blobs k = some e → txn.tables.blobs k = some e
  marks : ∀ x ∈ txn'.ftx, x ∈ txn.ftx ∨
    (txn'.tables.blobs x.1 = none ∧ x.1 ∈ hashes ∧ (force = true ∨ x.1 ∉ txn.isProtected) ∧
      ∃ e, txn.tables.blobs x.1 = some e ∧ x.2 ∈ markedParts e)

private theorem deleted_deleteHash (force : Bool) (txn : Txn) (hash : Hash) :
    Deleted force [hash] txn (deleteHash force txn hash) := by
  unfold deleteHash
  split
  · exact ⟨rfl, fun _ _ h => h, fun _ hx => Or.inl hx⟩
  · rename_i hprot
    split
    · exact ⟨rfl, fun _ _ h => h, fun _ hx => Or.inl hx⟩
    · rename_i entry hentry
      refine ⟨rfl, fun k e hk => ?_, fun x hx => ?_⟩
      · change Function.update txn.tables.blobs hash none k = some e at hk
        by_cases hkh : k = hash
        · subst hkh
          simp at hk
        · rwa [Function.update_of_ne hkh] at hk
      · rcases DeleteSet.mem_delete.mp hx with h1 | ⟨h1, h2⟩
        · exact Or.inl h1
        · refine Or.inr ⟨by simp [h1], by simp [h1], ?_, entry, by rw [h1]; exact hentry, h2⟩
          rw [h1]
          by_cases hf : force = true
          · exact Or.inl hf
          · right
            simpa [hf] using hprot

private theorem Deleted.trans {force : Bool} {l l' : List Hash} {txn txn' txn'' : Txn} (h : Deleted force l txn txn')
    (h' : Deleted force l' txn' txn'') : Deleted force (l ++ l') txn txn'' := by
  refine ⟨h'.isProtected.trans h.isProtected, fun k e hk => h.blobs k e (h'.blobs k e hk), fun x hx => ?_⟩
  rcases h'.marks x hx with h1 | ⟨h1, h2, h3, e, h4, h5⟩
  · rcases h.marks x h1 with h2 | ⟨h2, h3, h4⟩
    · exact Or.inl h2
    · refine Or.inr ⟨?_, by simp [h3], h4⟩
      cases hres : txn''.tables.blobs x.1 with
      | none => rfl
      | some e => rw [h'.blobs x.1 e hres] at h2; cases h2
  · refine Or.inr ⟨h1, by simp [h2], ?_, e, h.blobs _ e h4, h5⟩
    rwa [h.isProtected] at h3

private theorem deleted_delete (txn : Txn) (hashes : List Hash) (force : Bool) :
    Deleted force hashes txn (delete txn hashes force) := by
  induction hashes generalizing txn with
  | nil => exact ⟨rfl, fun _ _ h => h, fun _ hx => Or.inl hx⟩
  | cons hash hashes ih => exact (deleted_deleteHash force txn hash).trans (ih (deleteHash force txn hash))

/-! ### The steps preserve the invariant -/

/-- The properties of the imports after one of them is replaced. -/
private theorem imports_update {s : Store} {id : Nat} {new : Option Import} {P : Import → Prop}
    (hnew : ∀ imp, new = some imp → P imp) (hold : ∀ i imp, s.imports i = some imp → P imp) :
    ∀ i imp, (setImport s id new).imports i = some imp → P imp := by
  intro i imp hi
  by_cases hid : i = id
  · subst hid
    simp only [setImport, Function.update_self] at hi
    exact hnew imp hi
  · simp only [setImport, Function.update_of_ne hid] at hi
    exact hold i imp hi

private theorem importAt_eq {s : Store} {id : Nat} {stage : Stage} {imp : Import}
    (h : importAt s id stage = some imp) : s.imports id = some imp ∧ imp.stage = stage := by
  unfold importAt at h
  split at h
  · rename_i imp' hi
    split at h
    · cases h
      exact ⟨hi, by assumption⟩
    · cases h
  · cases h

/-- Replacing an import preserves the invariant if the new one meets its part of it. -/
private theorem inv_setImport {s : Store} (hi : Inv s) {id : Nat} {new : Option Import}
    (hmoved : ∀ imp p, new = some imp → imp.moved p → (imp.hash, p) ∉ s.deleteSet)
    (hopened : ∀ imp p, new = some imp → imp.opened p → s.files imp.hash p = true) : Inv (setImport s id new) where
  current := hi.current
  committed := hi.committed
  moved i imp p := imports_update (P := fun imp => imp.moved p → (imp.hash, p) ∉ s.deleteSet)
    (fun imp h => hmoved imp p h) (fun i imp h => hi.moved i imp p h) i imp
  opened i imp p := imports_update (P := fun imp => imp.opened p → s.files imp.hash p = true)
    (fun imp h => hopened imp p h) (fun i imp h => hi.opened i imp p h) i imp
  marks := hi.marks

/-- Fewer marks preserve the invariant. -/
private theorem inv_protect {s : Store} (hi : Inv s) (hash : Hash) (parts : List BaoFilePart) :
    Inv { s with deleteSet := s.deleteSet.protect hash parts } where
  current h e p he hp := by
    obtain ⟨h1, h2⟩ := hi.current h e p he hp
    exact ⟨h1, fun hm => h2 (DeleteSet.mem_protect.mp hm).1⟩
  committed := hi.committed
  moved i imp p h hm hd := hi.moved i imp p h hm (DeleteSet.mem_protect.mp hd).1
  opened := hi.opened
  marks h := by
    simp only [hi.marks h]
    apply Finset.eq_empty_of_forall_notMem
    intro x hx
    exact absurd (DeleteSet.mem_protect.mp hx).1 (Finset.notMem_empty x)

/-- More files preserve the invariant. -/
private theorem inv_files {s : Store} (hi : Inv s) {files : Hash → BaoFilePart → Bool}
    (hf : ∀ h p, s.files h p = true → files h p = true) : Inv { s with files := files } where
  current h e p he hp := ⟨hf h p (hi.current h e p he hp).1, (hi.current h e p he hp).2⟩
  committed h e p he hp := hf h p (hi.committed h e p he hp)
  moved := hi.moved
  opened i imp p h ho := hf _ p (hi.opened i imp p h ho)
  marks := hi.marks

private theorem opened_moved {imp : Import} {p : BaoFilePart} (h : imp.opened p) : imp.moved p := by
  refine ⟨h.1, ?_⟩
  have := h.2
  cases p <;> simp only at this ⊢ <;> omega

private theorem not_moved {imp : Import} {p : BaoFilePart} (h : imp.stage.toNat < 2) : ¬ imp.moved p := by
  intro hm
  have := hm.2
  cases p <;> simp only at this <;> omega

private theorem not_opened {imp : Import} {p : BaoFilePart} (h : imp.stage.toNat < 4) : ¬ imp.opened p := by
  intro ho
  have := ho.2
  cases p <;> simp only at this <;> omega

/-- Both files are moved before the first one is opened. -/
private theorem moved_of_stage {imp : Import} {p : BaoFilePart} (hfile : imp.hasFile p = true)
    (h : 3 ≤ imp.stage.toNat) : imp.moved p := by
  refine ⟨hfile, ?_⟩
  cases p <;> simp only <;> omega

/-- A move makes only the moved part count as moved, and opens nothing. -/
private theorem inv_moveFile {s : Store} (hi : Inv s) {id : Nat} {imp : Import} (himp : s.imports id = some imp)
    {part : BaoFilePart} {stage : Stage} (ok : Bool)
    (hmoved : ∀ p, ({ imp with stage := stage } : Import).moved p → imp.moved p ∨ p = part)
    (hopened : ∀ p, ¬ ({ imp with stage := stage } : Import).opened p)
    (hpart : imp.hasFile part = true → (imp.hash, part) ∉ s.deleteSet) : Inv (moveFile s id imp part stage ok) := by
  have hfiles : Inv (if imp.hasFile part && ok then { s with files := createFile s.files imp.hash part } else s) := by
    split
    · exact inv_files hi (fun h p hp => by unfold createFile; split <;> simp [hp])
    · exact hi
  have hds : ∀ s' : Store, s' = (if imp.hasFile part && ok then { s with files := createFile s.files imp.hash part }
      else s) → s'.deleteSet = s.deleteSet := by
    rintro s' rfl
    split <;> rfl
  refine inv_setImport hfiles ?_ ?_
  · rintro imp' p ⟨⟩ hm
    rw [hds _ rfl]
    rcases hmoved p hm with h | rfl
    · exact hi.moved id imp p himp h
    · exact hpart hm.1
  · rintro imp' p ⟨⟩ ho
    exact absurd ho (hopened p)

/-- A successful open makes only the opened part count as opened. -/
private theorem inv_openFile {s : Store} (hi : Inv s) {id : Nat} {imp : Import} (himp : s.imports id = some imp)
    {part : BaoFilePart} {stage : Stage} (ok : Bool)
    (hmoved : ∀ p, ({ imp with stage := stage } : Import).moved p → imp.moved p)
    (hopened : ∀ p, ({ imp with stage := stage } : Import).opened p → imp.opened p ∨ p = part) :
    Inv (openFile s id imp part stage ok) := by
  unfold openFile
  split
  · rename_i hok
    refine inv_setImport hi ?_ ?_
    · rintro imp' p ⟨⟩ hm
      exact hi.moved id imp p himp (hmoved p hm)
    · rintro imp' p ⟨⟩ ho
      rcases hopened p ho with h | rfl
      · exact hi.opened id imp p himp h
      · have hfile : imp.hasFile p = true := ho.1
        simpa [hfile] using (Bool.and_eq_true_iff.mp hok).2
  · exact inv_setImport hi (fun _ _ h => by cases h) (fun _ _ h => by cases h)

/-- After an error the actor is stopped, without marks. -/
private theorem inv_stopped {s : Store} (hi : Inv s) : Inv { s with phase := .stopped, deleteSet := ∅ } where
  current h e p he hp := ⟨hi.committed h e p he hp, Finset.notMem_empty _⟩
  committed := hi.committed
  moved _ _ _ _ _ := Finset.notMem_empty _
  opened := hi.opened
  marks _ := rfl

/-- A command of the open transaction that adds no mark for needed files. -/
private theorem inv_writing {s : Store} (hi : Inv s) {txn : Txn}
    (hcurrent : ∀ h e p, txn.tables.blobs h = some e → needsFile e p = true →
      s.files h p = true ∧ (h, p) ∉ txn.ftx)
    (hmoved : ∀ id imp p, s.imports id = some imp → imp.moved p → (imp.hash, p) ∉ txn.ftx) :
    Inv { s with phase := .writing txn.tables, deleteSet := txn.ftx, isProtected := txn.isProtected } where
  current := hcurrent
  committed := hi.committed
  moved := hmoved
  opened := hi.opened
  marks h := by rcases h with h | h <;> cases h

private theorem part_of_needsFile {e : EntryState Unit} {p : BaoFilePart} (h : needsFile e p = true) :
    p ≠ .sizes ∧ p ≠ .bitfield := by
  cases e <;> cases p <;> first | cases h | exact ⟨by simp, by simp⟩

private theorem part_of_hasFile {imp : Import} {p : BaoFilePart} (h : imp.hasFile p = true) :
    p ≠ .sizes ∧ p ≠ .bitfield := by
  cases p <;> first | cases h | exact ⟨by simp, by simp⟩

/-- An update preserves the invariant if the files that it needs exist and are not marked. -/
private theorem inv_handleUpdate {s : Store} (hi : Inv s) {tables : Tables} (hphase : s.phase = .writing tables)
    {hash : Hash} {state : EntryState (List UInt8)}
    (hstate : ∀ p, needsFile (splitState state).1 p = true → s.files hash p = true ∧ (hash, p) ∉ s.deleteSet) :
    Inv (inTxn s tables (fun txn => handleUpdate txn hash state)) := by
  have hcur : s.current = tables := by simp only [Store.current, hphase]
  unfold inTxn
  split
  · rename_i txn htxn
    obtain ⟨hother, hhash, hmarks⟩ := handleUpdate_ok htxn
    have hnot : ∀ h p, p ≠ .sizes ∧ p ≠ .bitfield → (h, p) ∉ s.deleteSet → (h, p) ∉ txn.ftx := by
      intro h p hp hd hm
      rcases hmarks _ hm with h1 | h1 | h1
      · exact hd h1
      · exact hp.1 h1
      · exact hp.2 h1
    refine inv_writing hi ?_ ?_
    · intro h e p he hp
      have hex : s.files h p = true ∧ (h, p) ∉ s.deleteSet := by
        by_cases hh : h = hash
        · subst hh
          rcases hhash e p he hp with ⟨old, hold, hneeds⟩ | hneeds
          · exact hi.current h old p (by rw [hcur]; exact hold) hneeds
          · exact hstate p hneeds
        · rw [hother h hh] at he
          exact hi.current h e p (by rw [hcur]; exact he) hp
      exact ⟨hex.1, hnot h p (part_of_needsFile hp) hex.2⟩
    · intro i imp p himp hm
      exact hnot _ p (part_of_hasFile hm.1) (hi.moved i imp p himp hm)
  · exact inv_stopped hi

/-- The files that the state of an import needs are those of the import. -/
private theorem hasFile_of_needsFile {imp : Import} {p : BaoFilePart}
    (h : needsFile (splitState imp.entryState).1 p = true) : imp.hasFile p = true := by
  obtain ⟨hash, source, outboard, stage⟩ := imp
  cases p with
  | data =>
    cases source <;> first | rfl | cases h
  | outboard =>
    cases outboard with
    | file path => rfl
    | mem bytes =>
      simp only [Import.entryState, MemOrFile.outboardLocation] at h
      split at h <;> cases h
  | sizes | bitfield => cases h

private theorem inv_update {s : Store} (hi : Inv s) {tables : Tables} (hphase : s.phase = .writing tables) {id : Nat}
    {imp : Import} (himp : s.imports id = some imp) (hstage : imp.stage = .sent) :
    Inv (setImport (inTxn s tables (fun txn => handleUpdate txn imp.hash imp.entryState)) id none) := by
  refine inv_setImport (inv_handleUpdate hi hphase ?_) (fun _ _ h => by cases h) (fun _ _ h => by cases h)
  intro p hp
  have hopened : imp.opened p := by
    refine ⟨hasFile_of_needsFile hp, ?_⟩
    rw [hstage]
    cases p <;> simp [Stage.toNat]
  exact ⟨hi.opened id imp p himp hopened, hi.moved id imp p himp (opened_moved hopened)⟩

private theorem inv_deleteBlobs {s : Store} (hi : Inv s) {tables : Tables} (hphase : s.phase = .writing tables)
    {hashes : List Hash} {force : Bool} (hok : Undisturbed s (.deleteBlobs hashes force)) :
    Inv (inTxn s tables (fun txn => .ok (delete txn hashes force))) := by
  have hcur : s.current = tables := by simp only [Store.current, hphase]
  have hdel := deleted_delete ⟨tables, s.deleteSet, s.isProtected⟩ hashes force
  refine inv_writing hi ?_ ?_
  · intro h e p he hp
    obtain ⟨h1, h2⟩ := hi.current h e p (by rw [hcur]; exact hdel.blobs h e he) hp
    refine ⟨h1, fun hm => ?_⟩
    rcases hdel.marks _ hm with h3 | ⟨h3, -⟩
    · exact h2 h3
    · rw [h3] at he
      cases he
  · intro i imp p himp hmoved hm
    rcases hdel.marks _ hm with h1 | ⟨-, h2, h3, e, h4, h5⟩
    · exact hi.moved i imp p himp hmoved h1
    · exact hok i imp p himp hmoved ⟨tables, e, hphase, h2, h3, h4, h5⟩

private theorem inv_commitFiles {s : Store} (hi : Inv s) (hphase : s.phase = .committing)
    (failed : Finset (Hash × BaoFilePart)) :
    Inv { s with
      phase := .idle
      files := fun h p => s.files h p && (!decide ((h, p) ∈ s.deleteSet) || decide ((h, p) ∈ failed))
      deleteSet := ∅ } := by
  have hcur : s.current = s.committed := by simp only [Store.current, hphase]
  have hkeep : ∀ h e p, s.committed.blobs h = some e → needsFile e p = true →
      (s.files h p && (!decide ((h, p) ∈ s.deleteSet) || decide ((h, p) ∈ failed))) = true := by
    intro h e p he hp
    obtain ⟨h1, h2⟩ := hi.current h e p (by rw [hcur]; exact he) hp
    simp [h1, h2]
  refine ⟨fun h e p he hp => ⟨hkeep h e p he hp, Finset.notMem_empty _⟩, hkeep, fun _ _ _ _ _ => Finset.notMem_empty _,
    fun i imp p himp ho => ?_, fun _ => rfl⟩
  have h1 := hi.opened i imp p himp ho
  have h2 := hi.moved i imp p himp (opened_moved ho)
  simp [h1, h2]

private theorem inv_step {s s' : Store} {a : Action} (hi : Inv s) (hok : Undisturbed s a) (h : step s a = some s') :
    Inv s' := by
  cases a with
  | startImport id hash source outboard =>
    simp only [step] at h
    split at h
    · cases h
      refine inv_setImport hi ?_ ?_
      · rintro imp p ⟨⟩ hm
        exact absurd hm (not_moved (by simp [Stage.toNat]))
      · rintro imp p ⟨⟩ ho
        exact absurd ho (not_opened (by simp [Stage.toNat]))
    · cases h
  | protect id =>
    simp only [step, Option.map_eq_some_iff] at h
    obtain ⟨imp, himp, rfl⟩ := h
    refine inv_setImport (inv_protect hi imp.hash [.data, .outboard]) ?_ ?_
    · rintro imp' p ⟨⟩ hm
      exact absurd hm (not_moved (by simp [Stage.toNat]))
    · rintro imp' p ⟨⟩ ho
      exact absurd ho (not_opened (by simp [Stage.toNat]))
  | moveData id ok =>
    simp only [step, Option.map_eq_some_iff] at h
    obtain ⟨imp, himp, rfl⟩ := h
    obtain ⟨himp, hstage⟩ := importAt_eq himp
    refine inv_moveFile hi himp ok ?_ (fun p => not_opened (by simp [Stage.toNat])) (hok imp himp)
    intro p hm
    have := hm.2
    cases p <;> simp [Stage.toNat] at this ⊢
  | moveOutboard id ok =>
    simp only [step, Option.map_eq_some_iff] at h
    obtain ⟨imp, himp, rfl⟩ := h
    obtain ⟨himp, hstage⟩ := importAt_eq himp
    refine inv_moveFile hi himp ok ?_ (fun p => not_opened (by simp [Stage.toNat])) (hok imp himp)
    intro p hm
    obtain ⟨h1, h2⟩ := hm
    cases p with
    | data => exact Or.inl ⟨h1, by rw [hstage]; decide⟩
    | outboard => exact Or.inr rfl
    | sizes | bitfield => cases h1
  | openData id ok =>
    simp only [step, Option.map_eq_some_iff] at h
    obtain ⟨imp, himp, rfl⟩ := h
    obtain ⟨himp, hstage⟩ := importAt_eq himp
    refine inv_openFile hi himp ok (fun p hm => moved_of_stage hm.1 (by rw [hstage]; decide)) ?_
    intro p ho
    have := ho.2
    cases p <;> simp [Stage.toNat] at this ⊢
  | openOutboard id ok =>
    simp only [step, Option.map_eq_some_iff] at h
    obtain ⟨imp, himp, rfl⟩ := h
    obtain ⟨himp, hstage⟩ := importAt_eq himp
    refine inv_openFile hi himp ok (fun p hm => moved_of_stage hm.1 (by rw [hstage]; decide)) ?_
    intro p ho
    obtain ⟨h1, h2⟩ := ho
    cases p with
    | data => exact Or.inl ⟨h1, by rw [hstage]; decide⟩
    | outboard => exact Or.inr rfl
    | sizes | bitfield => cases h1
  | beginWrite =>
    simp only [step] at h
    split at h
    · rename_i hphase
      cases h
      refine ⟨fun h e p he hp => hi.current h e p (by simpa only [Store.current, hphase] using he) hp, hi.committed,
        hi.moved, hi.opened, fun h => by rcases h with h | h <;> cases h⟩
    · cases h
  | update id =>
    simp only [step] at h
    split at h
    · rename_i tables imp hphase himp
      cases h
      obtain ⟨himp, hstage⟩ := importAt_eq himp
      exact inv_update hi hphase himp hstage
    · cases h
  | updatePartial hash size =>
    simp only [step] at h
    split at h
    · rename_i tables hphase
      cases h
      exact inv_handleUpdate hi hphase (fun p hp => by cases p <;> cases hp)
    · cases h
  | deleteBlobs hashes force =>
    simp only [step] at h
    split at h
    · rename_i tables hphase
      cases h
      exact inv_deleteBlobs hi hphase hok
    · cases h
  | clearProtected =>
    cases h
    exact ⟨hi.current, hi.committed, hi.moved, hi.opened, hi.marks⟩
  | commitDb =>
    simp only [step] at h
    split at h
    · rename_i tables hphase
      cases h
      have hcur : s.current = tables := by simp only [Store.current, hphase]
      refine ⟨fun h e p he hp => hi.current h e p (by rw [hcur]; exact he) hp,
        fun h e p he hp => (hi.current h e p (by rw [hcur]; exact he) hp).1, hi.moved, hi.opened,
        fun h => by rcases h with h | h <;> cases h⟩
    · cases h
  | commitFiles failed =>
    simp only [step] at h
    split at h
    · rename_i hphase
      cases h
      exact inv_commitFiles hi hphase failed
    · cases h
  | abort =>
    simp only [step] at h
    split at h
    · cases h
      exact inv_stopped hi
    · cases h

/-! ### Runs -/

/-- A store at rest: no transaction and no import, and the files of the entries exist. -/
structure AtRest (s : Store) : Prop where
  phase : s.phase = .idle
  imports : ∀ id, s.imports id = none
  deleteSet : s.deleteSet = ∅
  filesExist : FilesExist s

private theorem inv_of_atRest {s : Store} (h : AtRest s) : Inv s := by
  have hcur : s.current = s.committed := by simp only [Store.current, h.phase]
  refine ⟨fun k e p he hp => ⟨h.filesExist k e p (by rw [← hcur]; exact he) hp, by simp [h.deleteSet]⟩, h.filesExist,
    fun id imp p himp => ?_, fun id imp p himp => ?_, fun _ => h.deleteSet⟩
  · rw [h.imports id] at himp
    cases himp
  · rw [h.imports id] at himp
    cases himp

/-- In every run in which deletions and imports do not disturb each other, the files of all committed entries exist in
every state. -/
theorem filesExist_of_undisturbed {s s' : Store} {actions : List Action} (h : AtRest s)
    (hok : StateMachine.RunMeets step Undisturbed s actions) (hrun : StateMachine.run step s actions = some s') :
    FilesExist s' :=
  (StateMachine.inv_of_run step (fun hi ho hs => inv_step hi ho hs) (inv_of_atRest h) hok hrun).committed

/-- A store without entries. -/
def emptyStore : Store := ⟨⟨fun _ => none, fun _ => none, fun _ => none⟩, .idle, ∅, ∅, fun _ _ => false, fun _ => none⟩

/-- A store with a complete entry that owns its files. -/
def ownedStore : Store :=
  { emptyStore with
    committed := ⟨fun h => if h = Hash.replicate 1 then some (.complete (.owned 20000) .owned) else none,
      fun _ => none, fun _ => none⟩
    files := fun h p => decide (h = Hash.replicate 1) && (decide (p = .data) || decide (p = .outboard)) }

private theorem atRest_ownedStore : AtRest ownedStore := by
  refine ⟨rfl, fun _ => rfl, rfl, ?_⟩
  intro h e p he hp
  simp only [ownedStore, Option.ite_none_right_eq_some] at he ⊢
  obtain ⟨rfl, he⟩ := he
  cases he
  cases p <;> first | rfl | cases hp

/-- An import task of a large file moves its files into place. -/
def importFiles (id : Nat) : List Action :=
  [.protect id, .moveData id true, .moveOutboard id true, .openData id true, .openOutboard id true]

/-- The blob of the entry is deleted and imported again, twice: in one transaction, with the import started before the
deletion and its files protected after it, and in two transactions. -/
def deleteAndImport : List Action :=
  [.startImport 0 (Hash.replicate 1) (.tempFile (.ofBytes [47, 100]) 20000) (.file (.ofBytes [47, 111])), .beginWrite,
    .deleteBlobs [Hash.replicate 1] false] ++ importFiles 0 ++ [.update 0, .commitDb, .commitFiles ∅] ++
  [.clearProtected, .beginWrite, .deleteBlobs [Hash.replicate 1] false, .commitDb, .commitFiles ∅,
    .startImport 1 (Hash.replicate 1) (.tempFile (.ofBytes [47, 100]) 20000) (.file (.ofBytes [47, 111]))] ++
      importFiles 1 ++
  [.beginWrite, .update 1, .commitDb, .commitFiles ∅]

/-- A deletion disturbs no import that has only started. -/
private theorem undisturbed_deleteBlobs {s : Store} (h : ∀ id imp, s.imports id = some imp → imp.stage = .started)
    (hashes : List Hash) (force : Bool) : Undisturbed s (.deleteBlobs hashes force) := by
  intro id imp p himp hm
  have := hm.2
  rw [h id imp himp] at this
  cases p <;> simp [Stage.toNat] at this

/-- The deletions and the imports do not disturb each other: the first deletion removes the entry and its files get
their marks, which the import takes back; the second one removes the files; and the files of the last import
exist. -/
theorem filesExist_of_import :
    ∃ s', StateMachine.run step ownedStore deleteAndImport = some s' ∧ FilesExist s' ∧
      s'.committed.blobs (Hash.replicate 1) = some (.complete (.owned 20000) .owned) := by
  have hok : StateMachine.RunMeets step Undisturbed ownedStore deleteAndImport := by
    refine .cons step trivial rfl (.cons step trivial rfl (.cons step (undisturbed_deleteBlobs ?_ _ _) rfl ?_))
    · rintro (_ | n) imp himp <;> cases himp
      rfl
    -- the import has its files unmarked before it moves them
    refine .cons step trivial rfl (.cons step ?_ rfl (.cons step ?_ rfl ?_))
    · rintro imp himp -
      cases himp
      decide
    · rintro imp himp -
      cases himp
      decide
    refine .cons step trivial rfl (.cons step trivial rfl (.cons step trivial rfl (.cons step trivial rfl ?_)))
    refine .cons step trivial rfl (.cons step trivial rfl (.cons step trivial rfl
      (.cons step (undisturbed_deleteBlobs ?_ _ _) rfl ?_)))
    · rintro (_ | n) imp himp <;> cases himp
    refine .cons step trivial rfl (.cons step trivial rfl (.cons step trivial rfl (.cons step trivial rfl ?_)))
    refine .cons step ?_ rfl (.cons step ?_ rfl ?_)
    · rintro imp himp -
      cases himp
      decide
    · rintro imp himp -
      cases himp
      decide
    exact .cons step trivial rfl (.cons step trivial rfl (.cons step trivial rfl (.cons step trivial rfl
      (.cons step trivial rfl (.cons step trivial rfl trivial)))))
  refine ⟨_, rfl, ?_, rfl⟩
  exact filesExist_of_undisturbed atRest_ownedStore hok rfl

/-- The same blob is imported again, and the old entry is deleted while the import has moved its files into place. -/
def reimportActions : List Action :=
  [.beginWrite, .startImport 0 (Hash.replicate 1) (.tempFile (.ofBytes [47, 100]) 20000) (.file (.ofBytes [47, 111])),
    .protect 0, .moveData 0 true, .moveOutboard 0 true, .openData 0 true, .openOutboard 0 true,
      .deleteBlobs [Hash.replicate 1] false,
    .update 0, .commitDb, .commitFiles ∅]

/-- The commit removes the files of the entry that the import has created again. -/
theorem not_filesExist_of_reimport :
    AtRest ownedStore ∧ ∃ s', StateMachine.run step ownedStore reimportActions = some s' ∧
      s'.committed.blobs (Hash.replicate 1) = some (.complete (.owned 20000) .owned) ∧
      s'.files (Hash.replicate 1) .data = false ∧ s'.files (Hash.replicate 1) .outboard = false ∧ ¬ FilesExist s' := by
  refine ⟨atRest_ownedStore, _, rfl, by decide, by decide, by decide, ?_⟩
  intro hf
  exact absurd (hf (Hash.replicate 1) (.complete (.owned 20000) .owned) .data (by decide) rfl) (by decide)

end Meta

end IrohBlobs
