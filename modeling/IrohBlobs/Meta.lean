import IrohBlobs.HashSeq
import IrohBlobs.PathBuf
import Mathlib.Data.Finset.Basic
import Mathlib.Data.Finset.Image
import Mathlib.Data.Finset.Union

/-!
# The metadata database

The entry states of `entry_state.rs`, the delete set of `delete_set.rs`, and the commands of the metadata actor that
change entries: `handle_update` and `delete` of `meta.rs`.  The commands work on the tables of an open write
transaction; the files they make obsolete are only marked, and removed after the commit.
-/

namespace IrohBlobs

namespace Meta

/-! ### Entry states -/

/-- Where the data of a complete entry is. -/
inductive DataLocation (I : Type)
  | inline (data : I)
  | owned (size : Nat)
  | external (paths : List PathBuf) (size : Nat)
  deriving DecidableEq

/-- Where the outboard of a complete entry is. -/
inductive OutboardLocation (I : Type)
  | inline (data : I)
  | owned
  | notNeeded
  deriving DecidableEq

inductive EntryState (I : Type)
  | complete (data : DataLocation I) (outboard : OutboardLocation I)
  | partialState (size : Option Nat)
  deriving DecidableEq

inductive ActorError
  | inconsistent
  deriving DecidableEq

def DataLocation.union {I : Type} : DataLocation I → DataLocation I → Except ActorError (DataLocation I)
  | .external paths aSize, .external bPaths bSize =>
    if aSize ≠ bSize then .error .inconsistent
    else .ok (.external ((paths ++ bPaths).mergeSort (fun a b => decide (a ≤ b))).eraseReps aSize)
  -- owned needs to win, since it has an associated file
  | _, .owned size => .ok (.owned size)
  | .owned size, _ => .ok (.owned size)
  -- inline needs to win, since it has associated data
  | _, .inline data => .ok (.inline data)
  | .inline data, _ => .ok (.inline data)

def DataLocation.splitInlineData {I : Type} : DataLocation I → DataLocation Unit × Option I
  | .inline data => (.inline (), some data)
  | .owned size => (.owned size, none)
  | .external paths size => (.external paths size, none)

def OutboardLocation.splitInlineData {I : Type} : OutboardLocation I → OutboardLocation Unit × Option I
  | .inline data => (.inline (), some data)
  | .owned => (.owned, none)
  | .notNeeded => (.notNeeded, none)

namespace EntryState

variable {I : Type}

def isComplete : EntryState I → Bool
  | .complete _ _ => true
  | .partialState _ => false

def isPartial : EntryState I → Bool
  | .complete _ _ => false
  | .partialState _ => true

def union : EntryState I → EntryState I → Except ActorError (EntryState I)
  | .complete data outboard, .complete bData _ =>
    match data.union bData with
    | .ok data => .ok (.complete data outboard)
    | .error e => .error e
  | .complete data outboard, .partialState _ => .ok (.complete data outboard)
  | .partialState _, .complete data outboard => .ok (.complete data outboard)
  | .partialState (some aSize), .partialState (some bSize) =>
    if aSize ≠ bSize then .error .inconsistent else .ok (.partialState (some aSize))
  | .partialState (some aSize), .partialState none => .ok (.partialState (some aSize))
  | .partialState none, .partialState size => .ok (.partialState size)

end EntryState

/-! ### Files and the delete set -/

inductive BaoFilePart
  | outboard
  | data
  | sizes
  | bitfield
  deriving DecidableEq

/-- The files that are deleted after the transaction is committed. -/
abbrev DeleteSet := Finset (Hash × BaoFilePart)

namespace DeleteSet

def delete (ds : DeleteSet) (hash : Hash) (parts : List BaoFilePart) : DeleteSet :=
  parts.foldl (fun ds part => insert (hash, part) ds) ds

/-- Cancel previous deletes. -/
def protect (ds : DeleteSet) (hash : Hash) (parts : List BaoFilePart) : DeleteSet :=
  parts.foldl (fun ds part => ds.erase (hash, part)) ds

theorem mem_delete {ds : DeleteSet} {hash : Hash} {parts : List BaoFilePart} {x : Hash × BaoFilePart} :
    x ∈ ds.delete hash parts ↔ x ∈ ds ∨ x.1 = hash ∧ x.2 ∈ parts := by
  induction parts generalizing ds with
  | nil => simp [delete]
  | cons p parts ih =>
    have hstep : ds.delete hash (p :: parts) = (insert (hash, p) ds : DeleteSet).delete hash parts := rfl
    rw [hstep, ih]
    obtain ⟨h, q⟩ := x
    simp only [Finset.mem_insert, Prod.mk.injEq, List.mem_cons]
    tauto

theorem mem_protect {ds : DeleteSet} {hash : Hash} {parts : List BaoFilePart} {x : Hash × BaoFilePart} :
    x ∈ ds.protect hash parts ↔ x ∈ ds ∧ ¬ (x.1 = hash ∧ x.2 ∈ parts) := by
  induction parts generalizing ds with
  | nil => simp [protect]
  | cons p parts ih =>
    have hstep : ds.protect hash (p :: parts) = DeleteSet.protect (ds.erase (hash, p)) hash parts := rfl
    rw [hstep, ih]
    obtain ⟨h, q⟩ := x
    simp only [Finset.mem_erase, ne_eq, Prod.mk.injEq, List.mem_cons]
    tauto

end DeleteSet

/-! ### The tables of a write transaction -/

structure Tables where
  blobs : Hash → Option (EntryState Unit)
  inlineData : Hash → Option (List UInt8)
  inlineOutboard : Hash → Option (List UInt8)

/-- What the commands of a write transaction work on: the tables, the delete set of the file transaction, and the hashes
protected from deletion by garbage collection. -/
structure Txn where
  tables : Tables
  ftx : DeleteSet
  isProtected : Finset Hash

/-- Inline data goes to tables of its own. -/
def splitState : EntryState (List UInt8) → EntryState Unit × Option (List UInt8) × Option (List UInt8)
  | .complete dataLocation outboardLocation =>
    let (dataLocation, data) := dataLocation.splitInlineData
    let (outboardLocation, outboard) := outboardLocation.splitInlineData
    (.complete dataLocation outboardLocation, data, outboard)
  | .partialState size => (.partialState size, none, none)

/-- Insert into a table if there is a value. -/
def insertIfSome (table : Hash → Option (List UInt8)) (hash : Hash) (value : Option (List UInt8)) :
    Hash → Option (List UInt8) :=
  match value with
  | some data => Function.update table hash (some data)
  | none => table

def handleUpdate (txn : Txn) (hash : Hash) (state : EntryState (List UInt8)) : Except ActorError Txn :=
  let isProtected := insert hash txn.isProtected
  let (state, data, outboard) := splitState state
  let merged : Except ActorError (EntryState Unit × DeleteSet) :=
    match txn.tables.blobs hash with
    | some old =>
      let partialToComplete := old.isPartial && state.isComplete
      match old.union state with
      | .error e => .error e
      | .ok res => .ok (res, if partialToComplete then txn.ftx.delete hash [.sizes, .bitfield] else txn.ftx)
    | none => .ok (state, txn.ftx)
  match merged with
  | .error e => .error e
  | .ok (state, ftx) =>
    .ok ⟨⟨Function.update txn.tables.blobs hash (some state), insertIfSome txn.tables.inlineData hash data,
      insertIfSome txn.tables.inlineOutboard hash outboard⟩, ftx, isProtected⟩

/-- The files that the deletion of an entry marks. -/
def markedParts : EntryState Unit → List BaoFilePart
  | .complete dataLocation outboardLocation =>
    (match dataLocation with
      | .owned _ => [.data]
      | _ => []) ++
    (match outboardLocation with
      | .owned => [.outboard]
      | _ => [])
  | .partialState _ => [.outboard, .data, .sizes, .bitfield]

/-- The deletion of one hash: its entry and inline data are removed, and its files are marked. -/
def deleteHash (force : Bool) (txn : Txn) (hash : Hash) : Txn :=
  if !force && decide (hash ∈ txn.isProtected) then txn
  else
    match txn.tables.blobs hash with
    | none => txn
    | some entry =>
      { txn with
        tables := {
          blobs := Function.update txn.tables.blobs hash none
          inlineData := match entry with
            | .complete (.inline _) _ => Function.update txn.tables.inlineData hash none
            | _ => txn.tables.inlineData
          inlineOutboard := match entry with
            | .complete _ (.inline _) => Function.update txn.tables.inlineOutboard hash none
            | _ => txn.tables.inlineOutboard }
        ftx := txn.ftx.delete hash (markedParts entry) }

/-- `Actor::delete`. -/
def delete (txn : Txn) (hashes : List Hash) (force : Bool) : Txn := hashes.foldl (deleteHash force) txn

end Meta

end IrohBlobs
