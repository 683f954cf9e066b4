import IrohBlobs.Content

/-!
# Files with writes that are not synced

A file has a content that is on disk for sure, and writes since it was synced last.  A reader sees all of them; a
crash may drop any of them.  A path may be linked to a file: creating a file there does not truncate an existing one,
and removing it leaves the file to those who have it open.

What a file holds is kept through crashes as long as all writes respect a relation that determines the value of each
cell (`PathFiles.Clean`): what is synced stays (`Durable`), and what a reader sees stays too (`Shows`) and is durable
once the file is synced, if it is the one at the path (`Shows.sync`).
-/

namespace Content

variable {α : Type}

/-- What is read of a file: cells before the end that were never written are zero. -/
def fill (zero : α) (c : Content α) : Content α :=
  ⟨c.len, fun i => if i < c.len then some ((c.cell i).getD zero) else c.cell i⟩

theorem cell_fill {zero : α} {c : Content α} {i : Nat} {x : α} (h : c.cell i = some x) :
    (c.fill zero).cell i = some x := by
  simp only [fill, h]
  split <;> rfl

/-- What is written to the cells that are read is read. -/
theorem cell_fill_write {zero : α} {c : Content α} {offset : Nat} {data : List α} {i : Nat} {x : α}
    (h : ((c.fill zero).write offset data).cell i = some x) : ((c.write offset data).fill zero).cell i = some x := by
  rw [cell_write] at h
  by_cases hi : offset ≤ i ∧ i < offset + data.length
  · rw [if_pos hi] at h
    apply cell_fill
    rw [cell_write, if_pos hi]
    exact h
  · rw [if_neg hi] at h
    have hlen : c.len ≤ (c.write offset data).len := (le_len_writes c [(offset, data)]).1
    simp only [fill, cell_write, if_neg hi] at h ⊢
    by_cases hlt : i < c.len
    · rw [if_pos hlt] at h
      rw [if_pos (by omega)]
      exact h
    · rw [if_neg hlt] at h
      rw [h]
      split <;> rfl

theorem cell_fill_writes {zero : α} {c : Content α} (ws : List (Nat × List α)) {i : Nat} {x : α}
    (h : ((c.fill zero).writes ws).cell i = some x) : ((c.writes ws).fill zero).cell i = some x := by
  induction ws using List.reverseRecOn generalizing x with
  | nil => exact h
  | append_singleton ws w ih =>
    simp only [writes_append, writes_cons, writes_nil] at h ⊢
    apply cell_fill_write
    rw [cell_write] at h ⊢
    split at h
    · rename_i hi
      rw [if_pos hi]
      exact h
    · rename_i hi
      rw [if_neg hi]
      exact ih h

/-- The values are read at their positions. -/
def Reads (zero : α) (Q : Nat → α → Prop) (c : Content α) : Prop := ∀ i x, Q i x → (c.fill zero).cell i = some x

variable {zero : α} {R Q : Nat → α → Prop} {c : Content α} {ws : List (Nat × List α)}

/-- Values that are the only ones allowed stay. -/
theorem Reads.writes (hQ : ∀ i x, Q i x → ∀ y, R i y → y = x) (h : c.Reads zero Q) (hws : Respects R ws) :
    (c.writes ws).Reads zero Q := by
  induction ws generalizing c with
  | nil => exact h
  | cons w ws ih =>
    refine ih ?_ (fun w' hw' => hws w' (List.mem_cons_of_mem _ hw'))
    intro i x hq
    apply cell_fill_write
    exact cell_writes_of_unique (hws.sublist (List.singleton_sublist.mpr List.mem_cons_self)) (hQ i x hq) (h i x hq)

end Content

/-- A file: what is synced, and the writes since then. -/
structure UnsyncedFile (α : Type) where
  synced : Content α
  pending : List (Nat × List α)

namespace UnsyncedFile

variable {α : Type}

def empty : UnsyncedFile α := ⟨.empty, []⟩

/-- What a reader sees. -/
def view (file : UnsyncedFile α) : Content α := file.synced.writes file.pending

def write (file : UnsyncedFile α) (offset : Nat) (data : List α) : UnsyncedFile α :=
  { file with pending := file.pending ++ [(offset, data)] }

def sync (file : UnsyncedFile α) : UnsyncedFile α := ⟨file.view, []⟩

/-- The file after a crash that kept some of the writes. -/
def crash (file : UnsyncedFile α) (kept : List (Nat × List α)) : UnsyncedFile α := ⟨file.synced.writes kept, []⟩

theorem view_write (file : UnsyncedFile α) (offset : Nat) (data : List α) :
    (file.write offset data).view = file.view.write offset data := by
  rw [view, write, Content.writes_append]
  rfl

end UnsyncedFile

/-- The files that were created at a path, and the one that is linked to it. -/
structure PathFiles (α : Type) where
  path : Option Nat
  /-- The number of the next file. -/
  next : Nat
  file : Nat → UnsyncedFile α

namespace PathFiles

variable {α : Type}

def empty : PathFiles α := ⟨none, 0, fun _ => .empty⟩

/-- The file that `create` opens. -/
def opened (files : PathFiles α) : Nat := files.path.getD files.next

def remove (files : PathFiles α) : PathFiles α := { files with path := none }

/-- Writes that the file at the path may lose. -/
def pending (files : PathFiles α) : List (Nat × List α) :=
  match files.path with
  | some id => (files.file id).pending
  | none => []

/-- Only the file at the path is left after a crash. -/
def crash (files : PathFiles α) (kept : List (Nat × List α)) : PathFiles α :=
  match files.path with
  | some id => ⟨some id, id + 1, Function.update (fun _ => .empty) id ((files.file id).crash kept)⟩
  | none => empty

/-- The operations on the path and on open files. -/
inductive Op (α : Type)
  | create
  | write (id offset : Nat) (data : List α)
  | sync (id : Nat)

def apply (files : PathFiles α) : Op α → PathFiles α
  | .create =>
    match files.path with
    | some _ => files
    | none => ⟨some files.next, files.next + 1, Function.update files.file files.next .empty⟩
  | .write id offset data => { files with file := Function.update files.file id ((files.file id).write offset data) }
  | .sync id => { files with file := Function.update files.file id (files.file id).sync }

def run (files : PathFiles α) (ops : List (Op α)) : PathFiles α := ops.foldl apply files

@[simp] theorem run_nil (files : PathFiles α) : files.run [] = files := rfl

@[simp] theorem run_cons (files : PathFiles α) (op : Op α) (ops : List (Op α)) :
    files.run (op :: ops) = (files.apply op).run ops := rfl

theorem run_append (files : PathFiles α) (ops ops' : List (Op α)) :
    files.run (ops ++ ops') = (files.run ops).run ops' :=
  List.foldl_append

/-- The operations for a list of writes. -/
def writeOps (id : Nat) (ws : List (Nat × List α)) : List (Op α) := ws.map fun w => .write id w.1 w.2

theorem writeOps_append (id : Nat) (ws ws' : List (Nat × List α)) :
    writeOps id (ws ++ ws') = writeOps id ws ++ writeOps id ws' := List.map_append

theorem path_create (files : PathFiles α) : (files.apply .create).path = some files.opened := by
  cases h : files.path <;> simp only [apply, opened, h] <;> rfl

theorem opened_create (files : PathFiles α) : (files.apply .create).opened = files.opened := by
  rw [opened, path_create]
  rfl

theorem view_run_writeOps (files : PathFiles α) (id : Nat) (ws : List (Nat × List α)) :
    ((files.run (writeOps id ws)).file id).view = (files.file id).view.writes ws := by
  induction ws generalizing files with
  | nil => rfl
  | cons w ws ih =>
    have hrun : files.run (writeOps id (w :: ws)) = (files.apply (.write id w.1 w.2)).run (writeOps id ws) := rfl
    rw [hrun, ih]
    simp only [apply, Function.update_self, UnsyncedFile.view_write]
    rfl

theorem view_sync_self (files : PathFiles α) (id : Nat) :
    ((files.apply (.sync id)).file id).view = (files.file id).view := by
  simp only [apply, Function.update_self]
  rfl

theorem path_sync (files : PathFiles α) (id : Nat) : (files.apply (.sync id)).path = files.path := rfl

theorem path_run_writeOps (files : PathFiles α) (id : Nat) (ws : List (Nat × List α)) :
    (files.run (writeOps id ws)).path = files.path := by
  induction ws generalizing files with
  | nil => rfl
  | cons w ws ih => exact ih _

/-! ### What is kept -/

variable {zero : α} {R Q : Nat → α → Prop} {files : PathFiles α} {id : Nat} {op : Op α} {ops : List (Op α)}

/-- The unsynced writes of all files respect the relation. -/
def Clean (R : Nat → α → Prop) (files : PathFiles α) : Prop := ∀ id, Content.Respects R (files.file id).pending

/-- The synced part of the file at the path has the values. -/
def Durable (zero : α) (Q : Nat → α → Prop) (files : PathFiles α) : Prop :=
  ∃ id, files.path = some id ∧ (files.file id).synced.Reads zero Q

/-- A reader of a file sees the values. -/
def Shows (zero : α) (Q : Nat → α → Prop) (id : Nat) (files : PathFiles α) : Prop := (files.file id).view.Reads zero Q

/-- What an operation writes respects the relation. -/
def Op.Keeps (R : Nat → α → Prop) : Op α → Prop
  | .write _ offset data => Content.Respects R [(offset, data)]
  | .create | .sync _ => True

theorem respects_nil : Content.Respects R [] := fun w hw => by cases hw

theorem keeps_writeOps {ws : List (Nat × List α)} (h : Content.Respects R ws) : ∀ op ∈ writeOps id ws, op.Keeps R := by
  intro op hop
  obtain ⟨w, hw, rfl⟩ := List.mem_map.mp hop
  exact h.sublist (List.singleton_sublist.mpr hw)

theorem clean_empty : Clean R (empty : PathFiles α) := fun _ => respects_nil

theorem Clean.apply (h : Clean R files) (hop : op.Keeps R) : Clean R (files.apply op) := by
  intro id'
  cases op with
  | create =>
    simp only [PathFiles.apply]
    split
    · exact h id'
    · by_cases hid : id' = files.next
      · subst hid
        simp only [Function.update_self]
        exact respects_nil
      · simp only [Function.update_of_ne hid]
        exact h id'
  | write id offset data =>
    by_cases hid : id' = id
    · subst hid
      simp only [PathFiles.apply, Function.update_self]
      exact (h id').append hop
    · simp only [PathFiles.apply, Function.update_of_ne hid]
      exact h id'
  | sync id =>
    by_cases hid : id' = id
    · subst hid
      simp only [PathFiles.apply, Function.update_self]
      exact respects_nil
    · simp only [PathFiles.apply, Function.update_of_ne hid]
      exact h id'

theorem Durable.apply (hQ : ∀ i x, Q i x → ∀ y, R i y → y = x) (hclean : Clean R files) (h : Durable zero Q files) :
    Durable zero Q (files.apply op) := by
  obtain ⟨id', hpath, hreads⟩ := h
  cases op with
  | create =>
    refine ⟨id', ?_, ?_⟩
    · simp only [PathFiles.apply, hpath]
    · simp only [PathFiles.apply, hpath]
      exact hreads
  | write id offset data =>
    refine ⟨id', hpath, ?_⟩
    by_cases hid : id' = id
    · subst hid
      simp only [PathFiles.apply, Function.update_self]
      exact hreads
    · simp only [PathFiles.apply, Function.update_of_ne hid]
      exact hreads
  | sync id =>
    refine ⟨id', hpath, ?_⟩
    by_cases hid : id' = id
    · subst hid
      simp only [PathFiles.apply, Function.update_self]
      exact hreads.writes hQ (hclean id')
    · simp only [PathFiles.apply, Function.update_of_ne hid]
      exact hreads

/-- What a reader of the file at the path sees is durable after a sync. -/
theorem Shows.sync (h : Shows zero Q id files) (hpath : files.path = some id) :
    Durable zero Q (files.apply (.sync id)) := by
  refine ⟨id, hpath, ?_⟩
  simp only [PathFiles.apply, Function.update_self]
  exact h

/-- What is durable can be read. -/
theorem Durable.shows (hQ : ∀ i x, Q i x → ∀ y, R i y → y = x) (hclean : Clean R files) (h : Durable zero Q files) :
    Shows zero Q files.opened files := by
  obtain ⟨id, hpath, hreads⟩ := h
  rw [opened, hpath]
  exact hreads.writes hQ (hclean id)

theorem clean_crash (files : PathFiles α) (kept : List (Nat × List α)) : Clean R (files.crash kept) := by
  intro id
  unfold crash
  split
  · rename_i id' _
    by_cases hid : id = id'
    · subst hid
      simp only [Function.update_self]
      exact respects_nil
    · simp only [Function.update_of_ne hid]
      exact respects_nil
  · exact respects_nil

/-- A crash keeps what is durable, whichever writes it drops. -/
theorem Durable.crash (hQ : ∀ i x, Q i x → ∀ y, R i y → y = x) (hclean : Clean R files) (h : Durable zero Q files)
    {kept : List (Nat × List α)} (hkept : kept.Sublist files.pending) : Durable zero Q (files.crash kept) := by
  obtain ⟨id, hpath, hreads⟩ := h
  have hrespects : Content.Respects R kept := by
    unfold pending at hkept
    rw [hpath] at hkept
    exact (hclean id).sublist hkept
  refine ⟨id, ?_, ?_⟩
  · simp only [PathFiles.crash, hpath]
  · simp only [PathFiles.crash, hpath, Function.update_self]
    exact hreads.writes hQ hrespects

end PathFiles
