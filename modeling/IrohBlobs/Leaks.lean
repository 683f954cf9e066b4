import IrohBlobs.BaoFile
import IrohBlobs.FinishImport
import IrohBlobs.MetaActor

/-!
# What a deletion leaves behind

The entry of one hash next to its rows of inline bytes, its files and the handle that the store keeps for it.  The
transitions are those of `bao_file.rs` and `fs.rs`: loading a handle, writing a batch of a bao import, finishing an
import, exporting with `TryReference`, the idle shutdown of the handle, and `DeleteBlobs`.  Each of them comes with its
command to the metadata actor and the commit of it.

A deletion removes what the entry references.  So it leaves something behind if and only if there is a row or a file
that the entry does not reference.  Several transitions stop referencing a row or a file without removing it: `Tidy`
says when they do not.
-/

namespace IrohBlobs

namespace Leaks

open Meta

/-! ### The store, seen from one hash -/

/-- The handle of the hash.  It is `closed` (`Initial`) until it is loaded. -/
inductive Handle
  | closed
  | nonExisting
  | partialFile (bitfield : Bitfield)
  | complete
  | poisoned

structure Store where
  tables : Tables
  isProtected : Finset Hash
  files : BaoFilePart → Bool
  handle : Handle

def Store.empty : Store := ⟨⟨fun _ => none, fun _ => none, fun _ => none⟩, ∅, fun _ => false, .closed⟩

variable (options : InlineOptions) (hash : Hash)

namespace Store

def entry (s : Store) : Option (EntryState Unit) := s.tables.blobs hash

def createFiles (s : Store) (parts : List BaoFilePart) : Store :=
  { s with files := fun p => s.files p || decide (p ∈ parts) }

/-- Commit the transaction, and remove the files that it has marked. -/
def commit (s : Store) (txn : Txn) : Store :=
  { s with
    tables := txn.tables
    isProtected := txn.isProtected
    files := fun p => s.files p && !decide ((hash, p) ∈ txn.ftx) }

/-- The `Update` command.  An error stops the metadata actor. -/
def update (s : Store) (state : EntryState (List UInt8)) : Option Store :=
  match handleUpdate ⟨s.tables, ∅, s.isProtected⟩ hash state with
  | .ok txn => some (s.commit hash txn)
  | .error _ => none

/-- The `Set` command. -/
def set (s : Store) (state : EntryState (List UInt8)) : Store :=
  s.commit hash (handleSet ⟨s.tables, ∅, s.isProtected⟩ hash state)

/-- The `DeleteBlobs` command. -/
def deleteBlobs (s : Store) (force : Bool) : Store :=
  s.commit hash (delete ⟨s.tables, ∅, s.isProtected⟩ [hash] force)

end Store

/-! ### Transitions -/

/-- What a rename across file systems may return. -/
inductive RenameResult
  | ok
  | cross
  | failed
  deriving DecidableEq

/-- The transitions.  They carry what is read from the outside: the bitfield of a loaded entry and whether the files can
be opened, the end of the last leaf of a batch, the bytes of the data and of the outboard. -/
inductive Action
  | load (bitfield : Bitfield) (ok : Bool) (data outboard : List UInt8)
  | writeBatch (maxOffset : Nat) (bitfield : Bitfield) (data outboard : List UInt8)
  | finishImport (source : ImportSource) (outboard : MemOrFile)
  | exportTryReference (target : PathBuf) (rename : RenameResult)
  | persist
  | deleteBlobs (force : Bool)

def completeData (size : Nat) (data : List UInt8) : DataLocation (List UInt8) :=
  if options.isInlinedData size then .inline data else .owned size

def completeOutboard (size : Nat) (outboard : List UInt8) : OutboardLocation (List UInt8) :=
  if options.isInlinedOutboard (rawOutboardSize size) then
    if rawOutboardSize size = 0 then .notNeeded else .inline outboard
  else .owned

/-- The new state of a partial entry that is complete. -/
def intoComplete (size : Nat) (data outboard : List UInt8) : EntryState (List UInt8) :=
  .complete (completeData options size data) (completeOutboard options size outboard)

/-- The files that an entry in memory creates when it is complete. -/
def memFiles (size : Nat) : List BaoFilePart :=
  (if options.isInlinedData size then [] else [.data]) ++
    if options.isInlinedOutboard (rawOutboardSize size) then [] else [.outboard]

/-- `BaoFileStorage::open`. -/
def load (s : Store) (bitfield : Bitfield) (ok : Bool) (data outboard : List UInt8) : Store :=
  if hash = .EMPTY then { s with handle := .complete }
  else
    match s.entry hash with
    | none => { s with handle := .nonExisting }
    | some (.complete _ _) => { s with handle := if ok then .complete else .poisoned }
    | some (.partialState _) =>
      if ok then
        let s := s.createFiles [.data, .outboard, .sizes]
        if bitfield.isComplete then
          { s.set hash (intoComplete options bitfield.size data outboard) with handle := .complete }
        else { s with handle := .partialFile bitfield }
      else { s with handle := .poisoned }

/-- `write_batch` on a partial file, and the update that follows it. -/
def writeFile (s : Store) (old bitfield : Bitfield) (always : Bool) (data outboard : List UInt8) : Option Store :=
  let new := (old.update bitfield).1
  if new.isComplete then
    (s.update hash (intoComplete options new.size data outboard)).map (fun s => { s with handle := .complete })
  else if always || (!old.isValidated && new.isValidated) then
    (s.update hash (.partialState new.validatedSize)).map (fun s => { s with handle := .partialFile new })
  else some { s with handle := .partialFile new }

def writeBatch (s : Store) (maxOffset : Nat) (bitfield : Bitfield) (data outboard : List UInt8) : Option Store :=
  match s.handle with
  | .closed => none
  | .nonExisting =>
    let new := (Bitfield.empty.update bitfield).1
    if maxOffset ≤ options.maxDataInlined ∧ new.isComplete then
      ((s.createFiles (memFiles options new.size)).update hash (intoComplete options new.size data outboard)).map
        (fun s => { s with handle := .complete })
    else writeFile options hash (s.createFiles [.data, .outboard, .sizes]) .empty bitfield true data outboard
  | .partialFile old => writeFile options hash s old bitfield false data outboard
  | .complete => some s
  | .poisoned => some s

/-- The files that an import moves into place. -/
def importFiles (source : ImportSource) (outboard : MemOrFile) : List BaoFilePart :=
  (match source with
    | .tempFile _ _ => [.data]
    | _ => []) ++
  match outboard with
  | .file _ => [.outboard]
  | .mem _ => []

def Handle.toComplete : Handle → Handle
  | .closed => .closed
  | .nonExisting => .complete
  | .partialFile _ => .complete
  | .complete => .complete
  | .poisoned => .poisoned

/-- `finish_import_impl`, with a handle that is loaded. -/
def finishImport (s : Store) (source : ImportSource) (outboard : MemOrFile) : Option Store :=
  match s.handle with
  | .closed => none
  | handle =>
    if hash = .EMPTY then some s
    else
      ((s.createFiles (importFiles source outboard)).update hash
        (.complete source.dataLocation outboard.outboardLocation)).map (fun s => { s with handle := handle.toComplete })

def MAX_EXTERNAL_PATHS : Nat := 8

/-- `export_path_impl` with `TryReference`.  The outboard is loaded from its row. -/
def exportTryReference (s : Store) (target : PathBuf) (rename : RenameResult) : Option Store :=
  match s.handle with
  | .closed => none
  | _ =>
    if hash = .EMPTY then some s
    else
      match s.entry hash with
      | none => none
      | some (.partialState _) => none
      | some (.complete dataLocation outboardLocation) =>
        match loadOutboard s.tables hash outboardLocation with
        | .error _ => none
        | .ok outboardLocation =>
          match dataLocation with
          | .inline _ => some s
          | .external [] _ => none
          | .external paths size =>
            let paths := (((paths ++ [target]).mergeSort (fun a b => decide (a ≤ b))).eraseReps).take MAX_EXTERNAL_PATHS
            some (s.set hash (.complete (.external paths size) outboardLocation))
          | .owned size =>
            if s.files .data then
              match rename with
              | .failed => none
              | .ok =>
                let s := { s with files := fun p => s.files p && !decide (p = BaoFilePart.data) }
                some (s.set hash (.complete (.external [target] size) outboardLocation))
              | .cross => some (s.set hash (.complete (.external [target] size) outboardLocation))
            else none

/-- The idle shutdown of the handle.  Only a partial entry writes its bitfield. -/
def persist (s : Store) : Option Store :=
  match s.handle with
  | .closed => none
  | .partialFile _ => some { s.createFiles [.bitfield] with handle := .closed }
  | _ => some { s with handle := .closed }

def step (s : Store) : Action → Option Store
  | .load bitfield ok data outboard =>
    match s.handle with
    | .closed => some (load options hash s bitfield ok data outboard)
    | _ => none
  | .writeBatch maxOffset bitfield data outboard => writeBatch options hash s maxOffset bitfield data outboard
  | .finishImport source outboard => finishImport hash s source outboard
  | .exportTryReference target rename => exportTryReference hash s target rename
  | .persist => persist s
  | .deleteBlobs force => some (s.deleteBlobs hash force)

/-! ### The property -/

/-- What the store may have for a hash besides its entry. -/
inductive Resource
  | inlineData
  | inlineOutboard
  | file (part : BaoFilePart)

def Store.has (s : Store) : Resource → Bool
  | .inlineData => (s.tables.inlineData hash).isSome
  | .inlineOutboard => (s.tables.inlineOutboard hash).isSome
  | .file part => s.files part

/-- No row and no file of the hash remains. -/
def NothingLeft (s : Store) : Prop := ∀ r, s.has hash r = false

/-- A deletion of the hash that is not skipped leaves nothing. -/
def DeletesAll (s : Store) : Prop :=
  ∀ force, (force = true ∨ hash ∉ s.isProtected) → NothingLeft hash (s.deleteBlobs hash force)

/-- The entry references a row or a file. -/
def references : EntryState Unit → Resource → Bool
  | .complete (.inline _) _, .inlineData => true
  | .complete _ (.inline _), .inlineOutboard => true
  | entry, .file part => decide (part ∈ markedParts entry)
  | _, _ => false

/-- Everything that is there is referenced by the entry. -/
def Clean (s : Store) : Prop := ∀ r, s.has hash r = true → ∃ e, s.entry hash = some e ∧ references e r = true

/-! ### The condition -/

def DataLocation.isInline {I : Type} : DataLocation I → Bool
  | .inline _ => true
  | _ => false

def OutboardLocation.isInline {I : Type} : OutboardLocation I → Bool
  | .inline _ => true
  | _ => false

/-- Completing the entry with the given locations leaves no row and no file behind that only the old entry, or only the
new state, references. -/
def TidyUpdate (s : Store) (dataLocation : DataLocation (List UInt8))
    (outboardLocation : OutboardLocation (List UInt8)) :
    Prop :=
  match s.entry hash with
  | none => True
  -- the files of a partial entry stay files
  | some (.partialState _) =>
    (s.files .data = true → dataLocation.isOwned = true) ∧ (s.files .outboard = true → outboardLocation.isOwned = true)
  -- data does not change between the table and a file, and the new outboard is where the old one is
  | some (.complete oldData oldOutboard) =>
    (dataLocation.isOwned = true → s.tables.inlineData hash = none) ∧
    (DataLocation.isInline dataLocation = true → oldData.isOwned = false) ∧
    (OutboardLocation.isInline outboardLocation = true → OutboardLocation.isInline oldOutboard = true) ∧
    (outboardLocation.isOwned = true → oldOutboard.isOwned = true)

/-- The transition leaves nothing behind. -/
def Tidy (s : Store) : Action → Prop
  -- a partial entry is not complete when it is loaded
  | .load bitfield ok _ _ => hash ≠ .EMPTY → ok = true → (∃ size, s.entry hash = some (.partialState size)) →
    bitfield.isComplete = false
  | .writeBatch maxOffset bitfield data outboard =>
    match s.handle with
    -- an entry does not go through the files to complete with its first batch
    | .nonExisting => maxOffset ≤ options.maxDataInlined ∨ (Bitfield.empty.update bitfield).1.isComplete = false
    | .partialFile old => (old.update bitfield).1.isComplete = true →
      TidyUpdate hash s (completeData options (old.update bitfield).1.size data)
        (completeOutboard options (old.update bitfield).1.size outboard)
    | _ => True
  | .finishImport source outboard => hash ≠ .EMPTY →
    TidyUpdate hash s source.dataLocation outboard.outboardLocation
  -- an owned file is not copied
  | .exportTryReference _ rename => hash ≠ .EMPTY → rename = .cross →
    ∀ size ol, s.entry hash ≠ some (.complete (.owned size) ol)
  -- the entry of a partial handle was not deleted
  | .persist => ∀ bitfield, s.handle = .partialFile bitfield → s.entry hash ≠ none
  | .deleteBlobs _ => True

/-! ### The commands -/

variable {options hash} {s s' : Store}

@[simp] theorem entry_createFiles (parts : List BaoFilePart) : (s.createFiles parts).entry hash = s.entry hash := rfl

private theorem has_createFiles {parts : List BaoFilePart} {r : Resource} :
    (s.createFiles parts).has hash r = true ↔ s.has hash r = true ∨ ∃ p ∈ parts, r = .file p := by
  cases r with
  | inlineData => simp [Store.has, Store.createFiles]
  | inlineOutboard => simp [Store.has, Store.createFiles]
  | file p => simp [Store.has, Store.createFiles]

private theorem files_createFiles {parts : List BaoFilePart} {p : BaoFilePart} (hp : p ∈ parts) :
    (s.createFiles parts).files p = true := by
  simp [Store.createFiles, hp]

/-- The rows that a state carries. -/
def Carried (state : EntryState (List UInt8)) : Resource → Prop
  | .inlineData => (splitState state).2.1.isSome
  | .inlineOutboard => (splitState state).2.2.isSome
  | .file _ => False

private theorem Carried.references {state : EntryState (List UInt8)} {r : Resource} (h : Carried state r) :
    references (splitState state).1 r = true := by
  cases state with
  | partialState size => cases r <;> cases h
  | complete dl ol =>
    cases r with
    | inlineData =>
      cases dl with
      | inline data => rfl
      | owned size => cases h
      | external paths size => cases h
    | inlineOutboard =>
      cases ol with
      | inline outboard => cases dl <;> rfl
      | owned => cases h
      | notNeeded => cases h
    | file p => cases h

private theorem isSome_insertIfSome (table : Hash → Option (List UInt8)) (value : Option (List UInt8)) :
    (insertIfSome table hash value hash).isSome = true ↔ (table hash).isSome = true ∨ value.isSome = true := by
  cases value <;> simp [insertIfSome]

/-- What is there after `Set`. -/
theorem set_spec (hash : Hash) (s : Store) (state : EntryState (List UInt8)) :
    (s.set hash state).entry hash = some (splitState state).1 ∧
      ∀ r, (s.set hash state).has hash r = true ↔ s.has hash r = true ∨ Carried state r := by
  constructor
  · exact Function.update_self _ _ _
  · intro r
    cases r with
    | inlineData => exact isSome_insertIfSome _ _
    | inlineOutboard => exact isSome_insertIfSome _ _
    | file p => simp [Store.has, Store.set, Store.commit, handleSet, Carried]

/-- The files that a partial entry has, but not a complete one. -/
def Obsolete : Option (EntryState Unit) → EntryState Unit → Resource → Prop
  | some (.partialState _), .complete _ _, .file .sizes => True
  | some (.partialState _), .complete _ _, .file .bitfield => True
  | _, _, _ => False

def Merged : Option (EntryState Unit) → EntryState Unit → EntryState Unit → Prop
  | none, new, res => res = new
  | some old, new, res => old.union new = .ok res

theorem handleUpdate_spec {txn txn' : Txn} {state : EntryState (List UInt8)}
    (h : handleUpdate txn hash state = .ok txn') :
    ∃ res, Merged (txn.tables.blobs hash) (splitState state).1 res ∧
      txn'.tables = ⟨Function.update txn.tables.blobs hash (some res),
        insertIfSome txn.tables.inlineData hash (splitState state).2.1,
        insertIfSome txn.tables.inlineOutboard hash (splitState state).2.2⟩ ∧
      ∀ p, (hash, p) ∈ txn'.ftx ↔ (hash, p) ∈ txn.ftx ∨
        Obsolete (txn.tables.blobs hash) (splitState state).1 (.file p) := by
  unfold handleUpdate at h
  cases hold : txn.tables.blobs hash with
  | none =>
    simp only [hold] at h
    cases h
    exact ⟨_, rfl, rfl, fun p => by simp [Obsolete]⟩
  | some old =>
    simp only [hold] at h
    cases hu : old.union (splitState state).1 with
    | error e => simp [hu] at h
    | ok res =>
      simp only [hu] at h
      cases h
      refine ⟨res, hu, rfl, ?_⟩
      intro p
      cases old with
      | complete dl ol => simp [EntryState.isPartial, Obsolete]
      | partialState size =>
        cases state with
        | partialState size' => simp [EntryState.isPartial, EntryState.isComplete, splitState, Obsolete]
        | complete dl ol =>
          simp only [EntryState.isPartial, EntryState.isComplete, splitState, Bool.and_self, if_true,
            DeleteSet.mem_delete, true_and]
          cases p <;> simp [Obsolete]

/-- What is there after `Update`. -/
theorem update_spec {state : EntryState (List UInt8)} (h : s.update hash state = some s') :
    (∃ res, s'.entry hash = some res ∧ Merged (s.entry hash) (splitState state).1 res) ∧
    (∀ r, s'.has hash r = true ↔
      s.has hash r = true ∧ ¬ Obsolete (s.entry hash) (splitState state).1 r ∨ Carried state r) ∧
    s'.handle = s.handle := by
  unfold Store.update at h
  cases hu : handleUpdate ⟨s.tables, ∅, s.isProtected⟩ hash state with
  | error e => simp [hu] at h
  | ok txn =>
    simp only [hu] at h
    cases h
    obtain ⟨res, hmerged, htables, hftx⟩ := handleUpdate_spec hu
    refine ⟨⟨res, ?_, hmerged⟩, ?_, rfl⟩
    · simp [Store.entry, Store.commit, htables]
    · intro r
      cases r with
      | inlineData => simp [Store.has, Store.commit, htables, isSome_insertIfSome, Obsolete, Carried]
      | inlineOutboard => simp [Store.has, Store.commit, htables, isSome_insertIfSome, Obsolete, Carried]
      | file p => simp [Store.has, Store.commit, hftx, Carried, Store.entry]

/-- A deletion removes what the entry references. -/
theorem deleteBlobs_spec (s : Store) {force : Bool} (hforce : force = true ∨ hash ∉ s.isProtected) :
    (s.deleteBlobs hash force).entry hash = none ∧
      ∀ r, (s.deleteBlobs hash force).has hash r = true ↔
        s.has hash r = true ∧ ¬ ∃ e, s.entry hash = some e ∧ references e r = true := by
  have hskip : ¬ ((!force && decide (hash ∈ s.isProtected)) = true) := by
    rcases hforce with rfl | h
    · simp
    · simp [h]
  unfold Store.deleteBlobs Meta.delete
  simp only [List.foldl, deleteHash]
  rw [if_neg hskip]
  cases hentry : s.tables.blobs hash with
  | none => simp [Store.entry, Store.commit, Store.has, hentry]
  | some e =>
    refine ⟨by simp [Store.entry, Store.commit], ?_⟩
    intro r
    simp only [Store.entry, hentry, Option.some.injEq, exists_eq_left']
    cases r with
    | inlineData =>
      cases e with
      | partialState size => simp [Store.has, Store.commit, references]
      | complete dl ol => cases dl <;> simp [Store.has, Store.commit, references]
    | inlineOutboard =>
      cases e with
      | partialState size => simp [Store.has, Store.commit, references]
      | complete dl ol => cases ol <;> simp [Store.has, Store.commit, references]
    | file p =>
      have hmem : (hash, p) ∈ DeleteSet.delete ∅ hash (markedParts e) ↔ (hash, p) ∈ (∅ : DeleteSet) ∨
          (hash, p).1 = hash ∧ (hash, p).2 ∈ markedParts e := DeleteSet.mem_delete
      simp [Store.has, Store.commit, references, hmem]

private theorem deletesAll_iff : DeletesAll hash s ↔ Clean hash s := by
  constructor
  · intro h r hr
    have hnone := h true (Or.inl rfl) r
    by_contra hnot
    rw [((deleteBlobs_spec s (Or.inl rfl)).2 r).mpr ⟨hr, hnot⟩] at hnone
    cases hnone
  · intro h force hforce r
    rw [Bool.eq_false_iff]
    intro hr
    obtain ⟨hhas, hnot⟩ := ((deleteBlobs_spec s hforce).2 r).mp hr
    exact hnot (h r hhas)

/-! ### One transition -/

/-- The handle agrees with the entry. -/
def HandleInv (hash : Hash) (s : Store) : Prop :=
  match s.handle with
  | .nonExisting => s.entry hash = none
  | .partialFile _ => ∀ dl ol, s.entry hash ≠ some (.complete dl ol)
  | _ => True

variable {dl : DataLocation (List UInt8)} {ol : OutboardLocation (List UInt8)}

/-- What a complete state references. -/
theorem references_split (r : Resource) : references (splitState (.complete dl ol)).1 r = match r with
    | .inlineData => DataLocation.isInline dl
    | .inlineOutboard => OutboardLocation.isInline ol
    | .file .data => dl.isOwned
    | .file .outboard => ol.isOwned
    | .file _ => false := by
  cases dl <;> cases ol <;> rcases r with _ | _ | (_ | _ | _ | _) <;> rfl

private theorem references_complete (d : DataLocation Unit) (o : OutboardLocation Unit) (r : Resource) :
    references (.complete d o) r = match r with
    | .inlineData => DataLocation.isInline d
    | .inlineOutboard => OutboardLocation.isInline o
    | .file .data => d.isOwned
    | .file .outboard => o.isOwned
    | .file _ => false := by
  cases d <;> cases o <;> rcases r with _ | _ | (_ | _ | _ | _) <;> rfl

/-- The union of two locations is owned if one of them is, and otherwise inline if one of them is. -/
private theorem union_split {d res : DataLocation Unit} (h : d.union dl.splitInlineData.1 = .ok res) :
    (res.isOwned = true ↔ d.isOwned = true ∨ dl.isOwned = true) ∧
      (DataLocation.isInline res = true ↔ (DataLocation.isInline d = true ∨ DataLocation.isInline dl = true) ∧
        d.isOwned = false ∧ dl.isOwned = false) := by
  cases d with
  | external paths aSize =>
    cases dl with
    | external bPaths bSize =>
      simp only [DataLocation.splitInlineData, DataLocation.union] at h
      split at h
      · cases h
      · cases h
        simp [DataLocation.isOwned, DataLocation.isInline]
    | owned size => cases h; simp [DataLocation.isOwned, DataLocation.isInline]
    | inline data => cases h; simp [DataLocation.isOwned, DataLocation.isInline]
  | owned aSize =>
    cases dl <;> cases h <;> simp [DataLocation.isOwned, DataLocation.isInline]
  | inline u =>
    cases dl <;> cases h <;> simp [DataLocation.isOwned, DataLocation.isInline]

/-- The entry is completed, after some of the files of the new state were created.  There was no entry. -/
theorem clean_update_none {parts : List BaoFilePart} (hclean : Clean hash s) (hentry : s.entry hash = none)
    (hparts : ∀ p ∈ parts, references (splitState (.complete dl ol)).1 (.file p) = true)
    (h : (s.createFiles parts).update hash (.complete dl ol) = some s') : Clean hash s' := by
  obtain ⟨⟨res, hres, hmerged⟩, hhas, -⟩ := update_spec h
  rw [entry_createFiles, hentry] at hmerged
  have heq : res = (splitState (.complete dl ol)).1 := hmerged
  intro r hr
  refine ⟨res, hres, ?_⟩
  rw [hhas, has_createFiles] at hr
  rw [heq]
  rcases hr with ⟨hr | ⟨p, hp, rfl⟩, -⟩ | hr
  · obtain ⟨e, he, -⟩ := hclean r hr
    rw [hentry] at he
    cases he
  · exact hparts p hp
  · exact hr.references

/-- A partial entry is completed: its data and its outboard have to stay in their files. -/
private theorem clean_update_partial_iff {parts : List BaoFilePart} {size : Option Nat} (hclean : Clean hash s)
    (hentry : s.entry hash = some (.partialState size))
    (hparts : ∀ p ∈ parts, references (splitState (.complete dl ol)).1 (.file p) = true)
    (h : (s.createFiles parts).update hash (.complete dl ol) = some s') :
    Clean hash s' ↔ (s.files .data = true → dl.isOwned = true) ∧ (s.files .outboard = true → ol.isOwned = true) := by
  obtain ⟨⟨res, hres, hmerged⟩, hhas, -⟩ := update_spec h
  rw [entry_createFiles, hentry] at hmerged hhas
  have heq : res = (splitState (.complete dl ol)).1 := by
    cases hmerged
    rfl
  have hkept : ∀ p, (p = .data ∨ p = .outboard) → s.files p = true → s'.has hash (.file p) = true := by
    intro p hp hfile
    rw [hhas, has_createFiles]
    refine Or.inl ⟨Or.inl hfile, ?_⟩
    rcases hp with rfl | rfl <;> exact id
  constructor
  · intro hclean'
    constructor
    · intro hfile
      obtain ⟨e, he, href⟩ := hclean' (.file .data) (hkept _ (Or.inl rfl) hfile)
      rw [hres, heq, Option.some.injEq] at he
      rwa [← he, references_split] at href
    · intro hfile
      obtain ⟨e, he, href⟩ := hclean' (.file .outboard) (hkept _ (Or.inr rfl) hfile)
      rw [hres, heq, Option.some.injEq] at he
      rwa [← he, references_split] at href
  · rintro ⟨hdata, houtboard⟩ r hr
    refine ⟨res, hres, ?_⟩
    rw [hhas, has_createFiles] at hr
    rw [heq]
    rcases hr with ⟨hr | ⟨p, hp, rfl⟩, hobsolete⟩ | hr
    · obtain ⟨e, he, href⟩ := hclean r hr
      rw [hentry, Option.some.injEq] at he
      subst he
      rw [references_split]
      rcases r with _ | _ | (_ | _ | _ | _)
      · cases href
      · cases href
      · exact houtboard hr
      · exact hdata hr
      · exact absurd trivial hobsolete
      · exact absurd trivial hobsolete
    · exact hparts p hp
    · exact hr.references

private theorem carried_inlineData : Carried (.complete dl ol) .inlineData ↔ DataLocation.isInline dl = true := by
  cases dl <;> simp [Carried, splitState, DataLocation.splitInlineData, DataLocation.isInline]

private theorem carried_inlineOutboard : Carried (.complete dl ol) .inlineOutboard ↔
    OutboardLocation.isInline ol = true := by
  cases ol <;> simp [Carried, splitState, OutboardLocation.splitInlineData, OutboardLocation.isInline]

private theorem not_isOwned_of_isInline {I : Type} {d : DataLocation I} (h : DataLocation.isInline d = true) :
    d.isOwned = false := by
  cases d with
  | inline data => rfl
  | owned size => cases h
  | external paths size => cases h

private theorem merged_complete {d : DataLocation Unit} {o : OutboardLocation Unit} {res : EntryState Unit}
    (h : Merged (some (.complete d o)) (splitState (.complete dl ol)).1 res) :
    ∃ d', d.union dl.splitInlineData.1 = .ok d' ∧ res = .complete d' o := by
  simp only [Merged, splitState, EntryState.union] at h
  cases hd : d.union dl.splitInlineData.1 with
  | error e => simp [hd] at h
  | ok d' =>
    simp only [hd, Except.ok.injEq] at h
    exact ⟨d', rfl, h.symm⟩

/-- A complete entry is merged with another complete state. -/
private theorem clean_update_complete_iff {parts : List BaoFilePart} {d : DataLocation Unit} {o : OutboardLocation Unit}
    (hclean : Clean hash s) (hentry : s.entry hash = some (.complete d o))
    (hparts : ∀ p, p ∈ parts ↔ references (splitState (.complete dl ol)).1 (.file p) = true)
    (h : (s.createFiles parts).update hash (.complete dl ol) = some s') :
    Clean hash s' ↔ TidyUpdate hash s dl ol := by
  obtain ⟨⟨res, hres, hmerged⟩, hhas, -⟩ := update_spec h
  rw [entry_createFiles, hentry] at hmerged hhas
  obtain ⟨d', hunion, rfl⟩ := merged_complete hmerged
  obtain ⟨howned, hinline⟩ := union_split hunion
  have hold : ∀ r, s.has hash r = true → references (.complete d o) r = true := by
    intro r hr
    obtain ⟨e, he, href⟩ := hclean r hr
    rw [hentry, Option.some.injEq] at he
    exact he ▸ href
  -- everything that the new state references is there now
  have hhas' : ∀ r, s'.has hash r = true ↔ s.has hash r = true ∨
      references (splitState (.complete dl ol)).1 r = true := by
    intro r
    rw [hhas, has_createFiles]
    cases r with
    | inlineData => simp [Obsolete, carried_inlineData, references_split]
    | inlineOutboard => simp [Obsolete, carried_inlineOutboard, references_split]
    | file p => simp [Obsolete, Carried, ← hparts]
  have hclean' : Clean hash s' ↔ ∀ r, s'.has hash r = true → references (.complete d' o) r = true := by
    simp [Clean, hres]
  have hrow : s.tables.inlineData hash = none ↔ s.has hash .inlineData = false := by
    simp [Store.has]
  rw [hclean']
  unfold TidyUpdate
  rw [hentry]
  simp only [hhas', references_split, references_complete, hrow] at hold ⊢
  constructor
  · intro hall
    refine ⟨?_, ?_, ?_, ?_⟩
    · intro hnew
      rw [Bool.eq_false_iff]
      intro hhave
      have h1 := (hinline.mp (hall .inlineData (Or.inl hhave))).2.2
      rw [hnew] at h1
      cases h1
    · intro hnew
      exact (hinline.mp (hall .inlineData (Or.inr hnew))).2.1
    · intro hnew
      exact hall .inlineOutboard (Or.inr hnew)
    · intro hnew
      exact hall (.file .outboard) (Or.inr hnew)
  · rintro ⟨htable, hdata, houtboard, hfile⟩ r hr
    rcases r with _ | _ | (_ | _ | _ | _)
    · rcases hr with hr | hr
      · have hi := hold .inlineData hr
        refine hinline.mpr ⟨Or.inl hi, not_isOwned_of_isInline hi, ?_⟩
        rw [Bool.eq_false_iff]
        intro hnew
        rw [htable hnew] at hr
        cases hr
      · exact hinline.mpr ⟨Or.inr hr, hdata hr, not_isOwned_of_isInline hr⟩
    · exact hr.elim (hold .inlineOutboard) houtboard
    · exact hr.elim (hold (.file .outboard)) hfile
    · exact howned.mpr (hr.imp_left (hold (.file .data)))
    · exact hr.elim (hold (.file .sizes)) (by simp)
    · exact hr.elim (hold (.file .bitfield)) (by simp)

private theorem createFiles_nil (s : Store) : s.createFiles [] = s := by
  simp [Store.createFiles]

/-- An entry is completed.  If it was complete before, the import has moved all its files into place. -/
theorem clean_complete_iff {parts : List BaoFilePart} (hclean : Clean hash s)
    (hparts : ∀ p ∈ parts, references (splitState (.complete dl ol)).1 (.file p) = true)
    (hmoved : ∀ d o, s.entry hash = some (.complete d o) →
      ∀ p, references (splitState (.complete dl ol)).1 (.file p) = true → p ∈ parts)
    (h : (s.createFiles parts).update hash (.complete dl ol) = some s') : Clean hash s' ↔ TidyUpdate hash s dl ol := by
  cases hentry : s.entry hash with
  | none =>
    have hclean' := clean_update_none hclean hentry hparts h
    simp [TidyUpdate, hentry, hclean']
  | some old =>
    cases old with
    | partialState size =>
      rw [clean_update_partial_iff hclean hentry hparts h]
      simp [TidyUpdate, hentry]
    | complete d o =>
      exact clean_update_complete_iff hclean hentry (fun p => ⟨hparts p, hmoved d o hentry p⟩) h

private theorem references_partial {size : Option Nat} (p : BaoFilePart) :
    references (.partialState size) (.file p) = true := by
  cases p <;> rfl

private theorem partial_union {a b : Option Nat} {res : EntryState Unit}
    (h : EntryState.union (.partialState a) (.partialState b) = .ok res) : ∃ size, res = .partialState size := by
  cases a with
  | none =>
    cases b <;> cases h <;> exact ⟨_, rfl⟩
  | some a =>
    cases b with
    | none =>
      cases h
      exact ⟨some a, rfl⟩
    | some b =>
      simp only [EntryState.union] at h
      split at h
      · cases h
      · cases h
        exact ⟨some a, rfl⟩

/-- An entry that was not complete becomes or stays partial. -/
private theorem clean_update_partialState {parts : List BaoFilePart} {size : Option Nat} (hclean : Clean hash s)
    (hentry : ∀ d o, s.entry hash ≠ some (.complete d o))
    (h : (s.createFiles parts).update hash (.partialState size) = some s') :
    Clean hash s' ∧ ∃ size', s'.entry hash = some (.partialState size') := by
  obtain ⟨⟨res, hres, hmerged⟩, hhas, -⟩ := update_spec h
  rw [entry_createFiles] at hmerged hhas
  have hpartial : ∃ size', res = .partialState size' := by
    cases hold : s.entry hash with
    | none =>
      rw [hold] at hmerged
      exact ⟨size, hmerged⟩
    | some old =>
      rw [hold] at hmerged
      cases old with
      | complete d o => exact absurd hold (hentry d o)
      | partialState a => exact partial_union hmerged
  obtain ⟨size', rfl⟩ := hpartial
  refine ⟨?_, size', hres⟩
  intro r hr
  refine ⟨_, hres, ?_⟩
  rw [hhas, has_createFiles] at hr
  rcases hr with ⟨hr | ⟨p, -, rfl⟩, -⟩ | hr
  · obtain ⟨e, he, href⟩ := hclean r hr
    cases e with
    | complete d o => exact absurd he (hentry d o)
    | partialState a =>
      cases r with
      | inlineData => cases href
      | inlineOutboard => cases href
      | file p => exact references_partial p
  · exact references_partial p
  · cases r with
    | inlineData => cases hr
    | inlineOutboard => cases hr
    | file p => cases hr

private theorem clean_createFiles {size : Option Nat} (hclean : Clean hash s)
    (hentry : s.entry hash = some (.partialState size))
    (parts : List BaoFilePart) : Clean hash (s.createFiles parts) := by
  intro r hr
  rw [has_createFiles] at hr
  rcases hr with hr | ⟨p, -, rfl⟩
  · exact hclean r hr
  · exact ⟨_, hentry, references_partial p⟩

/-- Only a partial entry references its sizes and its bitfield. -/
theorem not_clean {p : BaoFilePart} (hp : p = .sizes ∨ p = .bitfield) (hfile : s.files p = true)
    (hentry : ∀ size, s.entry hash ≠ some (.partialState size)) : ¬ Clean hash s := by
  intro hclean
  obtain ⟨e, he, href⟩ := hclean (.file p) hfile
  cases e with
  | partialState size => exact hentry size he
  | complete d o =>
    rw [references_complete] at href
    rcases hp with rfl | rfl <;> cases href

/-- A partial entry that is loaded as complete keeps its sizes file. -/
private theorem clean_load_iff {bitfield : Bitfield} {ok : Bool} {data outboard : List UInt8} (hclean : Clean hash s) :
    Clean hash (load options hash s bitfield ok data outboard) ↔
      Tidy options hash s (.load bitfield ok data outboard) := by
  have hhandle : ∀ h, Clean hash { s with handle := h } := fun _ => hclean
  unfold load
  by_cases hempty : hash = .EMPTY
  · rw [if_pos hempty]
    exact iff_of_true (hhandle _) (fun h => absurd hempty h)
  · rw [if_neg hempty]
    cases hentry : s.entry hash with
    | none => exact iff_of_true (hhandle _) (fun _ _ ⟨size, h⟩ => by rw [hentry] at h; cases h)
    | some e =>
      cases e with
      | complete d o => exact iff_of_true (hhandle _) (fun _ _ ⟨size, h⟩ => by rw [hentry] at h; cases h)
      | partialState size =>
        cases ok with
        | false => exact iff_of_true (hhandle _) (fun _ h => by cases h)
        | true =>
          cases hcomplete : bitfield.isComplete with
          | false => exact iff_of_true (clean_createFiles hclean hentry _) (fun _ _ _ => hcomplete)
          | true =>
            obtain ⟨hset, hhas⟩ := set_spec hash (s.createFiles [.data, .outboard, .sizes])
              (intoComplete options bitfield.size data outboard)
            refine iff_of_false ?_ ?_
            · refine not_clean (Or.inl rfl) ((hhas (.file .sizes)).mpr (Or.inl ?_)) ?_
              · exact files_createFiles (by simp)
              · intro size' hsize
                cases hset.symm.trans hsize
            · intro htidy
              rw [htidy hempty rfl ⟨size, hentry⟩] at hcomplete
              cases hcomplete

/-- A batch on the files of an entry that is not complete.  `parts` are created before the batch. -/
private theorem writeFile_cases {parts : List BaoFilePart} {old bitfield : Bitfield} {always : Bool}
    {data outboard : List UInt8} (hclean : Clean hash s) (hentry : ∀ d o, s.entry hash ≠ some (.complete d o))
    (hparts : always = false → parts = [])
    (h : writeFile options hash (s.createFiles parts) old bitfield always data outboard = some s') :
    ((old.update bitfield).1.isComplete = true ∧ ∃ t,
      (s.createFiles parts).update hash (intoComplete options (old.update bitfield).1.size data outboard) = some t ∧
        s' = { t with handle := .complete }) ∨
    (old.update bitfield).1.isComplete = false ∧ Clean hash s' ∧ s'.handle = .partialFile (old.update bitfield).1 ∧
      ∀ d o, s'.entry hash ≠ some (.complete d o) := by
  unfold writeFile at h
  cases hcomplete : (old.update bitfield).1.isComplete with
  | true =>
    simp only [hcomplete, if_true, Option.map_eq_some_iff] at h
    obtain ⟨t, ht, hs⟩ := h
    exact Or.inl ⟨rfl, t, ht, hs.symm⟩
  | false =>
    refine Or.inr ⟨rfl, ?_⟩
    simp only [hcomplete, Bool.false_eq_true, if_false] at h
    split at h
    · rw [Option.map_eq_some_iff] at h
      obtain ⟨t, ht, rfl⟩ := h
      obtain ⟨hclean', size, hsize⟩ := clean_update_partialState hclean hentry ht
      refine ⟨hclean', rfl, ?_⟩
      intro d o hd
      cases hsize.symm.trans hd
    · rename_i hnot
      have hnil : parts = [] := by
        apply hparts
        cases always with
        | false => rfl
        | true => simp at hnot
      subst hnil
      cases h
      have hclean' : Clean hash (s.createFiles []) := by
        rw [createFiles_nil]
        exact hclean
      exact ⟨hclean', rfl, hentry⟩

private theorem memFiles_references {size : Nat} {data outboard : List UInt8} {p : BaoFilePart}
    (hp : p ∈ memFiles options size) :
    references (splitState (intoComplete options size data outboard)).1 (.file p) = true := by
  unfold memFiles at hp
  rw [List.mem_append] at hp
  rw [intoComplete, references_split]
  rcases hp with hp | hp
  · by_cases hi : options.isInlinedData size = true
    · simp [hi] at hp
    · simp only [hi, if_false, List.mem_singleton, Bool.false_eq_true] at hp
      subst hp
      simp [completeData, hi, DataLocation.isOwned]
  · by_cases hi : options.isInlinedOutboard (rawOutboardSize size) = true
    · simp [hi] at hp
    · simp only [hi, if_false, List.mem_singleton, Bool.false_eq_true] at hp
      subst hp
      simp [completeOutboard, hi, OutboardLocation.isOwned]

/-- A batch. -/
private theorem clean_writeBatch_iff {maxOffset : Nat} {bitfield : Bitfield} {data outboard : List UInt8}
    (hclean : Clean hash s)
    (hinv : HandleInv hash s) (h : writeBatch options hash s maxOffset bitfield data outboard = some s') :
    (Clean hash s' ↔ Tidy options hash s (.writeBatch maxOffset bitfield data outboard)) ∧ HandleInv hash s' := by
  unfold writeBatch at h
  unfold Tidy
  unfold HandleInv at hinv
  cases hhandle : s.handle with
  | closed => simp [hhandle] at h
  | nonExisting =>
    simp only [hhandle] at h hinv ⊢
    have hentry : ∀ d o, s.entry hash ≠ some (.complete d o) := by
      intro d o hd
      cases hinv.symm.trans hd
    split at h
    · rename_i hmem
      rw [Option.map_eq_some_iff] at h
      obtain ⟨t, ht, rfl⟩ := h
      have hclean' := clean_update_none hclean hinv (fun p hp => memFiles_references hp) ht
      exact ⟨iff_of_true hclean' (Or.inl hmem.1), trivial⟩
    · rename_i hmem
      rcases writeFile_cases hclean hentry (by simp) h with ⟨hcomplete, t, ht, rfl⟩ | ⟨hcomplete, hclean', hh, he⟩
      · obtain ⟨⟨res, hres, hmerged⟩, hhas, -⟩ := update_spec ht
        rw [entry_createFiles, hinv] at hmerged hhas
        refine ⟨iff_of_false ?_ ?_, trivial⟩
        · refine not_clean (Or.inl rfl) ((hhas (.file .sizes)).mpr (Or.inl ⟨?_, id⟩)) ?_
          · exact files_createFiles (by simp)
          · intro size hsize
            cases hmerged
            cases hres.symm.trans hsize
        · rintro (hle | hnot)
          · exact hmem ⟨hle, hcomplete⟩
          · rw [hcomplete] at hnot
            cases hnot
      · refine ⟨iff_of_true hclean' (Or.inr hcomplete), ?_⟩
        unfold HandleInv
        rw [hh]
        exact he
  | partialFile old =>
    simp only [hhandle] at h hinv ⊢
    rw [← createFiles_nil s] at h
    rcases writeFile_cases hclean hinv (fun _ => rfl) h with ⟨hcomplete, t, ht, rfl⟩ | ⟨hcomplete, hclean', hh, he⟩
    · have hiff := clean_complete_iff hclean (by simp) (fun d o hd => absurd hd (hinv d o)) ht
      refine ⟨?_, trivial⟩
      exact Iff.trans hiff ⟨fun h _ => h, fun h => h hcomplete⟩
    · refine ⟨iff_of_true hclean' ?_, ?_⟩
      · intro hnot
        rw [hcomplete] at hnot
        cases hnot
      · unfold HandleInv
        rw [hh]
        exact he
  | complete =>
    simp only [hhandle] at h
    cases h
    exact ⟨iff_of_true hclean trivial, by unfold HandleInv; rw [hhandle]; trivial⟩
  | poisoned =>
    simp only [hhandle] at h
    cases h
    exact ⟨iff_of_true hclean trivial, by unfold HandleInv; rw [hhandle]; trivial⟩

private theorem mem_importFiles {source : ImportSource} {outboard : MemOrFile} {p : BaoFilePart} :
    p ∈ importFiles source outboard ↔
      references (splitState (.complete source.dataLocation outboard.outboardLocation)).1 (.file p) = true := by
  rw [references_split]
  have howned : outboard.outboardLocation.isOwned = true ↔ ∃ path, outboard = .file path := by
    cases outboard with
    | file path => simp [MemOrFile.outboardLocation, OutboardLocation.isOwned]
    | mem bytes =>
      simp only [MemOrFile.outboardLocation, reduceCtorEq]
      split <;> simp [OutboardLocation.isOwned]
  cases p with
  | data => cases source <;> cases outboard <;> simp [importFiles, ImportSource.dataLocation, DataLocation.isOwned]
  | outboard =>
    rw [howned]
    cases source <;> cases outboard <;> simp [importFiles]
  | sizes => cases source <;> cases outboard <;> simp [importFiles]
  | bitfield => cases source <;> cases outboard <;> simp [importFiles]

private theorem handleInv_toComplete (s : Store) (handle : Handle) :
    HandleInv hash { s with handle := handle.toComplete } := by
  cases handle <;> trivial

private theorem clean_finishImport_iff {source : ImportSource} {outboard : MemOrFile} (hclean : Clean hash s)
    (hinv : HandleInv hash s) (h : finishImport hash s source outboard = some s') :
    (Clean hash s' ↔ Tidy options hash s (.finishImport source outboard)) ∧ HandleInv hash s' := by
  have hopen : (if hash = .EMPTY then some s
      else ((s.createFiles (importFiles source outboard)).update hash
        (.complete source.dataLocation outboard.outboardLocation)).map
          (fun t => { t with handle := s.handle.toComplete })) = some s' := by
    unfold finishImport at h
    split at h
    · cases h
    · exact h
  by_cases hempty : hash = .EMPTY
  · rw [if_pos hempty] at hopen
    cases hopen
    exact ⟨iff_of_true hclean (fun hne => absurd hempty hne), hinv⟩
  · rw [if_neg hempty, Option.map_eq_some_iff] at hopen
    obtain ⟨t, ht, rfl⟩ := hopen
    have hiff :=
      clean_complete_iff hclean (fun p hp => mem_importFiles.mp hp) (fun _ _ _ p hp => mem_importFiles.mpr hp) ht
    exact ⟨Iff.trans hiff ⟨fun h _ => h, fun h => h hempty⟩, handleInv_toComplete t s.handle⟩

/-- The outboard that is loaded is where the entry says. -/
private theorem loadOutboard_split {tables : Tables} {o : OutboardLocation Unit}
    (h : loadOutboard tables hash o = .ok ol) :
    ol.splitInlineData.1 = o := by
  cases o with
  | notNeeded =>
    cases h
    rfl
  | owned =>
    cases h
    rfl
  | inline u =>
    unfold loadOutboard at h
    cases hrow : tables.inlineOutboard hash with
    | none => simp [hrow] at h
    | some row =>
      simp only [hrow, Except.ok.injEq] at h
      subst h
      rfl

/-- The data of a complete entry becomes external.  Only the data file may be left. -/
private theorem clean_setExternal_iff {d : DataLocation Unit} {o : OutboardLocation Unit}
    {paths : List PathBuf} {size : Nat}
    (hclean : Clean hash s) (hentry : s.entry hash = some (.complete d o)) (hd : DataLocation.isInline d = false)
    (hol : ol.splitInlineData.1 = o) {files : BaoFilePart → Bool}
    (hfiles : ∀ p, p ≠ .data → files p = s.files p) :
    Clean hash (Store.set hash { s with files } (.complete (.external paths size) ol)) ↔ files .data = false := by
  obtain ⟨hset, hhas⟩ := set_spec hash { s with files } (.complete (.external paths size) ol)
  have hold : ∀ r, s.has hash r = true → references (.complete d o) r = true := by
    intro r hr
    obtain ⟨e, he, href⟩ := hclean r hr
    rw [hentry, Option.some.injEq] at he
    exact he ▸ href
  constructor
  · intro hclean'
    rw [Bool.eq_false_iff]
    intro hdata
    obtain ⟨e, he, href⟩ := hclean' (.file .data) ((hhas _).mpr (Or.inl hdata))
    rw [hset, Option.some.injEq] at he
    rw [← he, references_split] at href
    cases href
  · intro hdata r hr
    refine ⟨_, hset, ?_⟩
    rcases (hhas r).mp hr with hr | hr
    · have hsplit : (splitState (.complete (.external paths size) ol)).1 = .complete (.external paths size) o := by
        rw [← hol]
        rfl
      rw [hsplit, references_complete]
      simp only [references_complete] at hold
      rcases r with _ | _ | (_ | _ | _ | _)
      · have hi := hold .inlineData hr
        rw [hd] at hi
        cases hi
      · exact hold .inlineOutboard hr
      · exact hold (.file .outboard) ((hfiles .outboard (by simp)).symm.trans hr)
      · have hfile : files .data = true := hr
        rw [hdata] at hfile
        cases hfile
      · exact hold (.file .sizes) ((hfiles .sizes (by simp)).symm.trans hr)
      · exact hold (.file .bitfield) ((hfiles .bitfield (by simp)).symm.trans hr)
    · exact hr.references

/-- What an export with `TryReference` does: nothing, or the data of the entry becomes external. -/
theorem exportTryReference_cases {target : PathBuf} {rename : RenameResult}
    (h : exportTryReference hash s target rename = some s') :
    s' = s ∧ (hash = .EMPTY ∨ ∃ d o, s.entry hash = some (.complete d o) ∧ d.isOwned = false) ∨
    hash ≠ .EMPTY ∧ ∃ d o ol paths size files, s.entry hash = some (.complete d o) ∧ DataLocation.isInline d = false ∧
      ol.splitInlineData.1 = o ∧ (∀ p, p ≠ .data → files p = s.files p) ∧
      s' = Store.set hash { s with files } (.complete (.external paths size) ol) ∧
      (d.isOwned = false ∧ files = s.files ∨
        d.isOwned = true ∧ s.files .data = true ∧ files .data = decide (rename = .cross)) := by
  unfold exportTryReference at h
  split at h
  · cases h
  by_cases hempty : hash = .EMPTY
  · rw [if_pos hempty] at h
    cases h
    exact Or.inl ⟨rfl, Or.inl hempty⟩
  rw [if_neg hempty] at h
  split at h
  · cases h
  · cases h
  · rename_i d o hentry
    cases hload : loadOutboard s.tables hash o with
    | error e => simp [hload] at h
    | ok ol =>
      have hol := loadOutboard_split hload
      simp only [hload] at h
      split at h
      · cases h
        exact Or.inl ⟨rfl, Or.inr ⟨_, o, hentry, rfl⟩⟩
      · cases h
      · cases h
        exact Or.inr ⟨hempty, _, o, ol, _, _, s.files, hentry, rfl, hol, fun _ _ => rfl, rfl, Or.inl ⟨rfl, rfl⟩⟩
      · rename_i size
        split at h
        · rename_i hfile
          cases rename with
          | failed => cases h
          | ok =>
            cases h
            refine Or.inr ⟨hempty, _, o, ol, _, _, _, hentry, rfl, hol, ?_, rfl, Or.inr ⟨rfl, hfile, by simp⟩⟩
            intro p hp
            simp [hp]
          | cross =>
            cases h
            exact Or.inr ⟨hempty, _, o, ol, _, _, s.files, hentry, rfl, hol, fun _ _ => rfl, rfl,
              Or.inr ⟨rfl, hfile, by simp [hfile]⟩⟩
        · cases h

private theorem clean_exportTryReference_iff {target : PathBuf} {rename : RenameResult} (hclean : Clean hash s)
    (h : exportTryReference hash s target rename = some s') :
    Clean hash s' ↔ Tidy options hash s (.exportTryReference target rename) := by
  have hnot : ∀ {d o}, s.entry hash = some (.complete d o) → d.isOwned = false →
      Tidy options hash s (.exportTryReference target rename) := by
    intro d o hentry hd _ _ size ol howned
    rw [hentry] at howned
    cases howned
    cases hd
  rcases exportTryReference_cases h with ⟨rfl, hsame⟩ | ⟨hempty, d, o, ol, paths, size, files, hentry, hd, hol, hfiles,
    rfl, hdata⟩
  · refine iff_of_true hclean ?_
    rcases hsame with hempty | ⟨d, o, hentry, hd⟩
    · exact fun hne => absurd hempty hne
    · exact hnot hentry hd
  · rw [clean_setExternal_iff hclean hentry hd hol hfiles]
    rcases hdata with ⟨howned, rfl⟩ | ⟨howned, hfile, hcross⟩
    · refine iff_of_true ?_ (hnot hentry howned)
      rw [Bool.eq_false_iff]
      intro hfile
      obtain ⟨e, he, href⟩ := hclean (.file .data) hfile
      rw [hentry, Option.some.injEq] at he
      rw [← he, references_complete] at href
      rw [howned] at href
      cases href
    · rw [hcross, decide_eq_false_iff_not]
      constructor
      · intro hne _ heq
        exact absurd heq hne
      · intro htidy heq
        cases d with
        | owned size => exact htidy hempty heq size o hentry
        | inline u => cases howned
        | external paths size => cases howned

/-- The handle of a complete entry needs no more than a complete entry. -/
private theorem HandleInv.of_complete {d : DataLocation Unit} {o : OutboardLocation Unit} (hinv : HandleInv hash s)
    (hentry : s.entry hash = some (.complete d o)) (hhandle : s'.handle = s.handle) : HandleInv hash s' := by
  unfold HandleInv at *
  rw [hhandle]
  cases hh : s.handle with
  | nonExisting =>
    rw [hh] at hinv
    cases hinv.symm.trans hentry
  | partialFile bitfield =>
    rw [hh] at hinv
    exact absurd hentry (hinv d o)
  | closed => trivial
  | complete => trivial
  | poisoned => trivial

private theorem handleInv_load {bitfield : Bitfield} {ok : Bool} {data outboard : List UInt8} :
    HandleInv hash (load options hash s bitfield ok data outboard) := by
  unfold load
  split
  · trivial
  · split
    · rename_i hnone
      exact hnone
    · cases ok <;> trivial
    · rename_i size hentry
      split
      · dsimp only
        split
        · trivial
        · intro d o hd
          cases hentry.symm.trans hd
      · trivial

private theorem handleInv_exportTryReference {target : PathBuf} {rename : RenameResult} (hinv : HandleInv hash s)
    (h : exportTryReference hash s target rename = some s') : HandleInv hash s' := by
  rcases exportTryReference_cases h with ⟨rfl, -⟩ | ⟨-, d, o, ol, paths, size, files, hentry, -, -, -, rfl, -⟩
  · exact hinv
  · exact hinv.of_complete hentry rfl

private theorem clean_persist_iff (hclean : Clean hash s) (hinv : HandleInv hash s) (h : persist s = some s') :
    (Clean hash s' ↔ Tidy options hash s .persist) ∧ HandleInv hash s' := by
  unfold persist at h
  unfold Tidy
  cases hhandle : s.handle with
  | closed => simp [hhandle] at h
  | partialFile bitfield =>
    simp only [hhandle, Option.some.injEq] at h
    subst h
    refine ⟨?_, trivial⟩
    have hinv' : ∀ d o, s.entry hash ≠ some (.complete d o) := by
      unfold HandleInv at hinv
      rwa [hhandle] at hinv
    cases hentry : s.entry hash with
    | none =>
      refine iff_of_false ?_ ?_
      · refine not_clean (Or.inr rfl) (files_createFiles (List.mem_singleton_self _)) ?_
        intro size hsize
        cases hentry.symm.trans hsize
      · intro hne
        exact hne bitfield rfl rfl
    | some e =>
      cases e with
      | complete d o => exact absurd hentry (hinv' d o)
      | partialState size => exact iff_of_true (clean_createFiles hclean hentry _) (fun _ _ => by simp)
  | nonExisting =>
    simp only [hhandle, Option.some.injEq] at h
    subst h
    exact ⟨iff_of_true hclean (fun _ h => by cases h), trivial⟩
  | complete =>
    simp only [hhandle, Option.some.injEq] at h
    subst h
    exact ⟨iff_of_true hclean (fun _ h => by cases h), trivial⟩
  | poisoned =>
    simp only [hhandle, Option.some.injEq] at h
    subst h
    exact ⟨iff_of_true hclean (fun _ h => by cases h), trivial⟩

/-- A deletion that is skipped changes nothing. -/
private theorem deleteBlobs_skipped {force : Bool} (hforce : ¬ (force = true ∨ hash ∉ s.isProtected)) :
    s.deleteBlobs hash force = s := by
  rw [not_or, not_not, Bool.not_eq_true] at hforce
  obtain ⟨rfl, hmem⟩ := hforce
  unfold Store.deleteBlobs Meta.delete
  simp [deleteHash, hmem, Store.commit]

private theorem clean_deleteBlobs (hclean : Clean hash s) (hinv : HandleInv hash s) (force : Bool) :
    Clean hash (s.deleteBlobs hash force) ∧ HandleInv hash (s.deleteBlobs hash force) := by
  by_cases hforce : force = true ∨ hash ∉ s.isProtected
  · obtain ⟨hentry, hhas⟩ := deleteBlobs_spec s hforce
    constructor
    · intro r hr
      obtain ⟨hr, hnot⟩ := (hhas r).mp hr
      exact absurd (hclean r hr) hnot
    · unfold HandleInv
      split
      · exact hentry
      · intro d o hd
        cases hentry.symm.trans hd
      · trivial
  · rw [deleteBlobs_skipped hforce]
    exact ⟨hclean, hinv⟩

structure Inv (hash : Hash) (s : Store) : Prop where
  clean : Clean hash s
  handle : HandleInv hash s

/-- A transition leaves nothing behind if and only if it is tidy. -/
private theorem step_clean_iff {action : Action} (hclean : Clean hash s) (hinv : HandleInv hash s)
    (h : step options hash s action = some s') :
    (Clean hash s' ↔ Tidy options hash s action) ∧ HandleInv hash s' := by
  cases action with
  | load bitfield ok data outboard =>
    simp only [step] at h
    split at h
    · cases h
      exact ⟨clean_load_iff hclean, handleInv_load⟩
    · cases h
  | writeBatch maxOffset bitfield data outboard => exact clean_writeBatch_iff hclean hinv h
  | finishImport source outboard => exact clean_finishImport_iff hclean hinv h
  | exportTryReference target rename =>
    exact ⟨clean_exportTryReference_iff hclean h, handleInv_exportTryReference hinv h⟩
  | persist => exact clean_persist_iff hclean hinv h
  | deleteBlobs force =>
    cases h
    obtain ⟨hclean', hinv'⟩ := clean_deleteBlobs hclean hinv force
    exact ⟨iff_of_true hclean' trivial, hinv'⟩

/-! ### Runs -/

private theorem clean_empty : Clean hash Store.empty := by
  intro r hr
  cases r <;> cases hr

/-- In every state of a run a deletion of the hash leaves no row and no file of it, if and only if all transitions were
tidy. -/
theorem deletion_complete_iff (options : InlineOptions) (hash : Hash) (actions : List Action) (s : Store)
    (hrun : StateMachine.run (step options hash) .empty actions = some s) :
    (∀ before t, before <+: actions → StateMachine.run (step options hash) .empty before = some t → DeletesAll hash t) ↔
      StateMachine.RunMeets (step options hash) (Tidy options hash) .empty actions := by
  have hinit : Inv hash Store.empty := ⟨clean_empty, trivial⟩
  apply StateMachine.forall_prefix_iff (step options hash) ?_ ?_ hinit (deletesAll_iff.mpr clean_empty) hrun
  · intro s a s' hs hstep
    rw [deletesAll_iff]
    exact (step_clean_iff hs.clean hs.handle hstep).1
  · intro s a s' hs hstep hclean
    exact ⟨deletesAll_iff.mp hclean, (step_clean_iff hs.clean hs.handle hstep).2⟩

/-- A file is imported, referenced from outside and deleted. -/
def importAndExport : List Action :=
  [.load .empty true [] [], .finishImport (.tempFile (.ofBytes [47, 97]) 20480) (.mem [0]),
    .exportTryReference (.ofBytes [47, 98]) .ok, .persist, .deleteBlobs true]

theorem deletion_complete_iff_importAndExport :
    StateMachine.RunMeets (step ⟨16384, 16384⟩ (.replicate 1)) (Tidy ⟨16384, 16384⟩ (.replicate 1)) .empty
      importAndExport ∧
    ∃ s, StateMachine.run (step ⟨16384, 16384⟩ (.replicate 1)) .empty importAndExport = some s ∧
      DeletesAll (.replicate 1) s := by
  have htidy : StateMachine.RunMeets (step ⟨16384, 16384⟩ (.replicate 1)) (Tidy ⟨16384, 16384⟩ (.replicate 1)) .empty
      importAndExport := by
    refine ⟨fun _ _ h => (nomatch h.choose_spec), ?_⟩
    rintro s₁ ⟨⟩
    refine ⟨fun _ => trivial, ?_⟩
    rintro s₂ ⟨⟩
    refine ⟨fun _ h => (nomatch h), ?_⟩
    rintro s₃ ⟨⟩
    refine ⟨fun _ h => (nomatch h), ?_⟩
    rintro s₄ ⟨⟩
    exact ⟨trivial, fun _ _ => trivial⟩
  refine ⟨htidy, _, rfl, ?_⟩
  exact (deletion_complete_iff ⟨16384, 16384⟩ (.replicate 1) importAndExport _ rfl).mpr htidy importAndExport _
    List.prefix_rfl rfl

/-- A blob of 20480 bytes arrives in a single batch.  Its outboard is inlined, and the outboard file and the sizes
file of the partial entry stay. -/
theorem not_deletesAll_singleBatch : ¬ ∀ (options : InlineOptions) (hash : Hash) (actions : List Action) (s : Store),
    StateMachine.run (step options hash) .empty actions = some s → DeletesAll hash s := by
  intro h
  have hnothing := h ⟨16384, 16384⟩ (.replicate 1) [.load .empty true [] [],
    .writeBatch 20480 ⟨20480, RangeSet.range 0 20⟩ [] [0]] _ rfl true (Or.inl rfl) (.file .outboard)
  exact absurd hnothing (by decide)

end Leaks

end IrohBlobs
