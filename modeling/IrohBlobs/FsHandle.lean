import IrohBlobs.BaoFile
import IrohBlobs.StateMachine

/-!
# The handle of an entry

The model of `HashContext` in `store/fs.rs` and of `BaoFileStorageSubscriber` in `store/fs/bao_file.rs`.  All tasks
for a hash share one handle.  A task first calls `load`: the first one loads the entry from the database, the others
wait for it.  Then imports write batches, `finish_import` completes the handle, and observers read the bitfield at any
time.  When no task is left the handle is persisted, which leaves it poisoned, and then reset.

`write_batch` takes the storage out of the handle and puts it back only if it succeeds, so after a failed load or a
failed write the handle is poisoned until it is reset.  Batches for a poisoned handle are ignored and acknowledged,
and its bitfield cannot be read.
-/

namespace IrohBlobs

namespace FsHandle

variable {H : Type}

/-! ### Operations -/

/-- What `BaoFileStorage::open` can give. -/
inductive Opened (H : Type)
  | nonExisting
  | partialFile (storage : PartialFileStorage H)
  | complete (storage : CompleteStorage H)

def Opened.storage : Opened H → BaoFileStorage H
  | .nonExisting => .nonExisting
  | .partialFile s => .partialFile s
  | .complete s => .complete s

/-- The storage that `load` assigns.  It must assign one even in the error case. -/
def loadedStorage : Option (Opened H) → BaoFileStorage H
  | some opened => opened.storage
  | none => .poisoned

/-- The result of a write: it is acknowledged, the file operations failed, or the update could not be sent to the
database. -/
inductive Written
  | acknowledged
  | failed
  | notSent
  deriving DecidableEq

/-- `HashContext::write_batch`.  The flags say whether the file operations succeed and whether the update can be sent
to the database. -/
def writeBatch (options : InlineOptions) (disk : Files H) (batch : List (BaoContentItem H)) (update : Bitfield)
    (ok sent : Bool) (storage : BaoFileStorage H) : BaoFileStorage H × Written :=
  match storage with
  | .nonExisting | .partialMem _ | .partialFile _ =>
    if ok then
      let (storage, entry) := storage.writeBatch options disk batch update
      (storage, if entry.isNone || sent then .acknowledged else .notSent)
    -- the storage was taken out and is not put back
    else (.poisoned, .failed)
  | storage => (storage, .acknowledged)

/-- `BaoFileHandle::complete`. -/
def completeStorage (complete : CompleteStorage H) : BaoFileStorage H → BaoFileStorage H
  | .nonExisting | .partialMem _ | .partialFile _ => .complete complete
  | storage => storage

/-! ### Tasks -/

inductive Kind
  | importBao
  | finishImport
  | observe
  | read
  deriving DecidableEq

/-- A task is loading the entry, waits until another one has loaded it, or is past `load`. -/
inductive Phase
  | loading
  | waiting
  | ready
  deriving DecidableEq

structure Task where
  kind : Kind
  phase : Phase

structure Handle (H : Type) where
  storage : BaoFileStorage H
  tasks : List (Nat × Task)
  /-- The handle has not been persisted since it was reset. -/
  active : Bool
  /-- A load or the file operations of a write have failed since the reset. -/
  broken : Bool
  /-- A write has returned an error since the reset. -/
  refused : Bool
  /-- An observer has panicked. -/
  panicked : Bool

namespace Handle

def new : Handle H := ⟨.initial, [], true, false, false, false⟩

def task (s : Handle H) (id : Nat) : Option Task := s.tasks.lookup id

def endTask (s : Handle H) (id : Nat) : Handle H := { s with tasks := s.tasks.filter (fun p => p.1 ≠ id) }

def setTask (s : Handle H) (id : Nat) (task : Task) : Handle H := { s with tasks := (id, task) :: (s.endTask id).tasks }

/-- A task of a kind that is past `load`. -/
def readyTask (s : Handle H) (id : Nat) (kind : Kind) : Bool :=
  match s.task id with
  | some task => decide (task.kind = kind) && decide (task.phase = .ready)
  | none => false

end Handle

/-- The steps of the tasks and of the entity manager. -/
inductive Action (H : Type)
  | spawn (id : Nat) (kind : Kind)
  | loaded (id : Nat) (opened : Option (Opened H))
  | woken (id : Nat)
  | write (id : Nat) (disk : Files H) (batch : List (BaoContentItem H)) (update : Bitfield) (ok sent : Bool)
  /-- An import is answered with success. -/
  | answer (id : Nat)
  | complete (id : Nat) (storage : CompleteStorage H)
  /-- `forward` or `forward_delta` read the bitfield. -/
  | read (id : Nat)
  | stop (id : Nat)
  | persist
  | reset

open Handle in
def step (options : InlineOptions) (s : Handle H) : Action H → Option (Handle H)
  | .spawn id kind =>
    if s.active ∧ (s.task id).isNone then
      match s.storage with
      | .initial => some (setTask { s with storage := .loading } id ⟨kind, .loading⟩)
      | .loading => some (s.setTask id ⟨kind, .waiting⟩)
      | _ => some (s.setTask id ⟨kind, .ready⟩)
    else none
  | .loaded id opened =>
    (s.task id).bind fun task =>
      if task.phase = .loading then
        some (setTask { s with storage := loadedStorage opened, broken := s.broken || opened.isNone } id
          { task with phase := .ready })
      else none
  | .woken id =>
    (s.task id).bind fun task =>
      if task.phase = .waiting then
        match s.storage with
        | .loading => none
        | _ => some (s.setTask id { task with phase := .ready })
      else none
  | .write id disk batch update ok sent =>
    if s.readyTask id .importBao then
      match writeBatch options disk batch update ok sent s.storage with
      | (storage, .acknowledged) => some { s with storage }
      -- the import ends with the error
      | (storage, .failed) => some (endTask { s with storage, broken := true, refused := true } id)
      | (storage, .notSent) => some (endTask { s with storage, refused := true } id)
    else none
  | .answer id => if s.readyTask id .importBao then some (s.endTask id) else none
  | .complete id complete =>
    if s.readyTask id .finishImport then some { s with storage := completeStorage complete s.storage } else none
  | .read id =>
    if s.readyTask id .observe then
      match s.storage.bitfield with
      | some _ => some s
      | none => some (endTask { s with panicked := true } id)
    else none
  | .stop id =>
    (s.task id).bind fun task => if task.phase = .ready then some (s.endTask id) else none
  -- the state is taken out, its bitfield is written, and it is not put back
  | .persist => if s.active ∧ s.tasks.isEmpty then some { s with storage := .poisoned, active := false } else none
  | .reset =>
    if s.active then none else some { s with storage := .initial, active := true, broken := false, refused := false }

/-! ### Writes -/

/-- The storage can be read, and its bitfield contains the chunks of an update. -/
def Holds (update : Bitfield) (storage : BaoFileStorage H) : Prop :=
  match storage with
  | .partialMem s => ∀ x ∈ update.ranges, x ∈ s.bitfield.ranges
  | .partialFile s => ∀ x ∈ update.ranges, x ∈ s.bitfield.ranges
  | .complete s => ∀ x ∈ update.ranges, x ∈ s.bitfield.ranges
  | .initial | .loading | .nonExisting | .poisoned => False

private theorem holds_complete (update : Bitfield) (s : CompleteStorage H) : Holds update (.complete s) :=
  fun x _ => RangeSet.mem_all x

private theorem holds_afterFileBatch {options : InlineOptions} {update : Bitfield} {s : PartialFileStorage H}
    (h : ∀ x ∈ update.ranges, x ∈ s.bitfield.ranges) : Holds update (BaoFileStorage.afterFileBatch options s) := by
  unfold BaoFileStorage.afterFileBatch
  split
  · exact holds_complete update _
  · exact h

private theorem holds_afterMemBatch {options : InlineOptions} {disk : Files H} {update : Bitfield}
    {s : PartialMemStorage H}
    (h : ∀ x ∈ update.ranges, x ∈ s.bitfield.ranges) : Holds update (BaoFileStorage.afterMemBatch options disk s) := by
  unfold BaoFileStorage.afterMemBatch
  split
  · exact holds_complete update _
  · exact h

private theorem mem_update {bitfield update : Bitfield} {x : Nat} (hx : x ∈ update.ranges) :
    x ∈ (bitfield.update update).1.ranges :=
  Bitfield.mem_combine (RangeSet.mem_union.mpr (Or.inr hx))

private theorem holds_writeBatchMem (options : InlineOptions) (disk : Files H) (batch : List (BaoContentItem H))
    (update : Bitfield)
    (ms : PartialMemStorage H) : Holds update (BaoFileStorage.writeBatchMem options disk batch update ms).1 := by
  unfold BaoFileStorage.writeBatchMem
  split
  · apply holds_afterMemBatch
    intro x hx
    exact mem_update hx
  · apply holds_afterFileBatch
    intro x hx
    exact mem_update hx

/-- The states in which `write_batch` writes. -/
def Writable : BaoFileStorage H → Prop
  | .nonExisting | .partialMem _ | .partialFile _ => True
  | .initial | .loading | .complete _ | .poisoned => False

/-- What a write does: a batch that is written is in the bitfield, a failed one poisons the storage, and a storage
that is not writable does not change. -/
inductive WriteCases (update : Bitfield) (storage : BaoFileStorage H) : BaoFileStorage H × Written → Prop
  | written {storage' : BaoFileStorage H} {res : Written} (hwritable : Writable storage)
    (hholds : Holds update storage')
      (hres : res ≠ .failed) : WriteCases update storage (storage', res)
  | failed (hwritable : Writable storage) : WriteCases update storage (.poisoned, .failed)
  | ignored (hwritable : ¬ Writable storage) : WriteCases update storage (storage, .acknowledged)

private theorem holds_writeBatch {options : InlineOptions} {disk : Files H} {batch : List (BaoContentItem H)}
    {update : Bitfield}
    {storage : BaoFileStorage H} (h : Writable storage) :
    Holds update (storage.writeBatch options disk batch update).1 := by
  cases storage with
  | nonExisting => exact holds_writeBatchMem options disk batch update _
  | partialMem s => exact holds_writeBatchMem options disk batch update s
  | partialFile s =>
    apply holds_afterFileBatch
    intro x hx
    exact mem_update hx
  | initial => exact h.elim
  | loading => exact h.elim
  | complete s => exact h.elim
  | poisoned => exact h.elim

theorem writeBatch_of_writable {options : InlineOptions} {disk : Files H} {batch : List (BaoContentItem H)}
    {update : Bitfield} {ok sent : Bool} {storage : BaoFileStorage H} (h : Writable storage) :
    writeBatch options disk batch update ok sent storage =
      if ok then
        ((storage.writeBatch options disk batch update).1,
          if (storage.writeBatch options disk batch update).2.isNone || sent then .acknowledged else .notSent)
      else (.poisoned, .failed) := by
  cases storage <;> first | exact h.elim | rfl

theorem writeBatch_cases (options : InlineOptions) (disk : Files H) (batch : List (BaoContentItem H))
    (update : Bitfield)
    (ok sent : Bool) (storage : BaoFileStorage H) :
    WriteCases update storage (writeBatch options disk batch update ok sent storage) := by
  by_cases h : Writable storage
  · rw [writeBatch_of_writable h]
    by_cases hok : ok = true
    · rw [if_pos hok]
      refine .written h (holds_writeBatch h) ?_
      split <;> simp
    · rw [if_neg hok]
      exact .failed h
  · have heq : writeBatch options disk batch update ok sent storage = (storage, .acknowledged) := by
      cases storage <;> first | rfl | exact absurd trivial h
    rw [heq]
    exact .ignored h

/-! ### Steps -/

section

variable {options : InlineOptions} {s s' : Handle H} {id : Nat} {kind : Kind} {task : Task} {a : Action H}

private theorem mem_tasks (h : s.task id = some task) : (id, task) ∈ s.tasks := by
  obtain ⟨before, after, htasks, -⟩ := List.lookup_eq_some_iff.mp h
  rw [htasks]
  exact List.mem_append_right _ List.mem_cons_self

private theorem mem_endTask {p : Nat × Task} : p ∈ (s.endTask id).tasks ↔ p ∈ s.tasks ∧ p.1 ≠ id := by
  simp [Handle.endTask]

private theorem mem_setTask {p : Nat × Task} : p ∈ (s.setTask id task).tasks ↔
    p = (id, task) ∨ p ∈ s.tasks ∧ p.1 ≠ id := by
  simp only [Handle.setTask, List.mem_cons, mem_endTask]

private theorem readyTask_iff : s.readyTask id kind = true ↔ s.task id = some ⟨kind, .ready⟩ := by
  unfold Handle.readyTask
  split
  · rename_i t ht
    obtain ⟨k, p⟩ := t
    simp [ht]
  · rename_i ht
    simp [ht]

open Handle in
/-- All that a step can do. -/
inductive Step (options : InlineOptions) (s : Handle H) : Action H → Handle H → Prop
  | load (id : Nat) (kind : Kind) (hactive : s.active = true) (hstorage : s.storage = .initial) :
      Step options s (.spawn id kind) (setTask { s with storage := .loading } id ⟨kind, .loading⟩)
  | wait (id : Nat) (kind : Kind) (hactive : s.active = true) (hstorage : s.storage = .loading) :
      Step options s (.spawn id kind) (s.setTask id ⟨kind, .waiting⟩)
  | join (id : Nat) (kind : Kind) (hactive : s.active = true) (hinitial : s.storage ≠ .initial)
      (hloading : s.storage ≠ .loading) : Step options s (.spawn id kind) (s.setTask id ⟨kind, .ready⟩)
  | loaded (id : Nat) (kind : Kind) (opened : Option (Opened H)) (htask : s.task id = some ⟨kind, .loading⟩) :
      Step options s (.loaded id opened)
        (setTask { s with storage := loadedStorage opened, broken := s.broken || opened.isNone } id ⟨kind, .ready⟩)
  | woken (id : Nat) (kind : Kind) (htask : s.task id = some ⟨kind, .waiting⟩) (hloading : s.storage ≠ .loading) :
      Step options s (.woken id) (s.setTask id ⟨kind, .ready⟩)
  | write (id : Nat) (disk : Files H) (batch : List (BaoContentItem H)) (update : Bitfield) (ok sent : Bool)
      (storage : BaoFileStorage H) (htask : s.task id = some ⟨.importBao, .ready⟩)
      (hwrite : writeBatch options disk batch update ok sent s.storage = (storage, .acknowledged)) :
      Step options s (.write id disk batch update ok sent) { s with storage }
  | writeFailed (id : Nat) (disk : Files H) (batch : List (BaoContentItem H)) (update : Bitfield) (ok sent : Bool)
      (storage : BaoFileStorage H) (htask : s.task id = some ⟨.importBao, .ready⟩)
      (hwrite : writeBatch options disk batch update ok sent s.storage = (storage, .failed)) :
      Step options s (.write id disk batch update ok sent)
        (endTask { s with storage, broken := true, refused := true } id)
  | writeNotSent (id : Nat) (disk : Files H) (batch : List (BaoContentItem H)) (update : Bitfield) (ok sent : Bool)
      (storage : BaoFileStorage H) (htask : s.task id = some ⟨.importBao, .ready⟩)
      (hwrite : writeBatch options disk batch update ok sent s.storage = (storage, .notSent)) :
      Step options s (.write id disk batch update ok sent) (endTask { s with storage, refused := true } id)
  | answer (id : Nat) (htask : s.task id = some ⟨.importBao, .ready⟩) : Step options s (.answer id) (s.endTask id)
  | complete (id : Nat) (complete : CompleteStorage H) (htask : s.task id = some ⟨.finishImport, .ready⟩) :
      Step options s (.complete id complete) { s with storage := completeStorage complete s.storage }
  | read (id : Nat) (bitfield : Bitfield) (htask : s.task id = some ⟨.observe, .ready⟩)
      (hbitfield : s.storage.bitfield = some bitfield) : Step options s (.read id) s
  | panic (id : Nat) (htask : s.task id = some ⟨.observe, .ready⟩) (hbitfield : s.storage.bitfield = none) :
      Step options s (.read id) (endTask { s with panicked := true } id)
  | stop (id : Nat) (kind : Kind) (htask : s.task id = some ⟨kind, .ready⟩) : Step options s (.stop id) (s.endTask id)
  | persist (hactive : s.active = true) (htasks : s.tasks = []) :
      Step options s .persist { s with storage := .poisoned, active := false }
  | reset (hactive : s.active = false) :
      Step options s .reset { s with storage := .initial, active := true, broken := false, refused := false }

theorem step_cases (h : step options s a = some s') : Step options s a s' := by
  cases a with
  | spawn id kind =>
    simp only [step] at h
    split at h
    · rename_i hactive
      split at h
      · rename_i hstorage
        cases h
        exact .load id kind hactive.1 hstorage
      · rename_i hstorage
        cases h
        exact .wait id kind hactive.1 hstorage
      · rename_i hinitial hloading
        cases h
        exact .join id kind hactive.1 hinitial hloading
    · cases h
  | loaded id opened =>
    obtain ⟨⟨kind, phase⟩, htask, h⟩ := Option.bind_eq_some_iff.mp h
    split at h
    · rename_i hphase
      dsimp only at hphase
      subst hphase
      cases h
      exact .loaded id kind opened htask
    · cases h
  | woken id =>
    obtain ⟨⟨kind, phase⟩, htask, h⟩ := Option.bind_eq_some_iff.mp h
    split at h
    · rename_i hphase
      dsimp only at hphase
      subst hphase
      split at h
      · cases h
      · rename_i hloading
        cases h
        exact .woken id kind htask hloading
    · cases h
  | write id disk batch update ok sent =>
    simp only [step] at h
    split at h
    · rename_i hready
      rw [readyTask_iff] at hready
      split at h
      · rename_i storage hwrite
        cases h
        exact .write id disk batch update ok sent storage hready hwrite
      · rename_i storage hwrite
        cases h
        exact .writeFailed id disk batch update ok sent storage hready hwrite
      · rename_i storage hwrite
        cases h
        exact .writeNotSent id disk batch update ok sent storage hready hwrite
    · cases h
  | answer id =>
    simp only [step, Option.ite_none_right_eq_some, Option.some.injEq, readyTask_iff] at h
    obtain ⟨hready, rfl⟩ := h
    exact .answer id hready
  | complete id complete =>
    simp only [step, Option.ite_none_right_eq_some, Option.some.injEq, readyTask_iff] at h
    obtain ⟨hready, rfl⟩ := h
    exact .complete id complete hready
  | read id =>
    simp only [step] at h
    split at h
    · rename_i hready
      rw [readyTask_iff] at hready
      split at h
      · rename_i bitfield hbitfield
        cases h
        exact .read id bitfield hready hbitfield
      · rename_i hbitfield
        cases h
        exact .panic id hready hbitfield
    · cases h
  | stop id =>
    obtain ⟨⟨kind, phase⟩, htask, h⟩ := Option.bind_eq_some_iff.mp h
    split at h
    · rename_i hphase
      dsimp only at hphase
      subst hphase
      cases h
      exact .stop id kind htask
    · cases h
  | persist =>
    simp only [step, Option.ite_none_right_eq_some, Option.some.injEq, List.isEmpty_iff] at h
    obtain ⟨⟨hactive, htasks⟩, rfl⟩ := h
    exact .persist hactive htasks
  | reset =>
    simp only [step, Option.ite_none_left_eq_some, Option.some.injEq, Bool.not_eq_true] at h
    obtain ⟨hactive, rfl⟩ := h
    exact .reset hactive

/-! ### Invariant -/

/-- What holds of every handle: only one task loads it, the others start after that, and it is poisoned if and only if
something has failed. -/
structure Inv (s : Handle H) : Prop where
  inactive : s.active = false → s.tasks = []
  poisoned : s.active = true → (s.storage = .poisoned ↔ s.broken = true)
  initial : ∀ p ∈ s.tasks, s.storage ≠ .initial
  loading : ∀ p ∈ s.tasks, p.2.phase = .loading → s.storage = .loading
  ready : ∀ p ∈ s.tasks, p.2.phase = .ready → s.storage ≠ .loading
  loader : ∀ p ∈ s.tasks, ∀ q ∈ s.tasks, p.2.phase = .loading → q.2.phase = .loading → p.1 = q.1

/-- A handle without tasks. -/
theorem Inv.of_nil (htasks : s.tasks = []) (hpoisoned : s.active = true → (s.storage = .poisoned ↔ s.broken = true)) :
    Inv s := by
  have hnone : ∀ p, p ∉ s.tasks := by
    intro p hp
    rw [htasks] at hp
    cases hp
  exact ⟨fun _ => htasks, hpoisoned, fun p hp => absurd hp (hnone p), fun p hp => absurd hp (hnone p),
    fun p hp => absurd hp (hnone p), fun p hp => absurd hp (hnone p)⟩

private theorem Inv.new : Inv (Handle.new : Handle H) := by
  apply Inv.of_nil rfl
  intro _
  exact iff_of_false (fun hp => by cases hp) Bool.false_ne_true

private theorem Inv.active (h : Inv s) (htask : s.task id = some task) : s.active = true := by
  by_contra hinactive
  have hnil := h.inactive (Bool.eq_false_iff.mpr hinactive)
  have hmem := mem_tasks htask
  rw [hnil] at hmem
  cases hmem

private theorem Inv.endTask (h : Inv s) (id : Nat) : Inv (s.endTask id) where
  inactive hactive := by
    have hnil := h.inactive hactive
    simp [Handle.endTask, hnil]
  poisoned := h.poisoned
  initial p hp := h.initial p (mem_endTask.mp hp).1
  loading p hp := h.loading p (mem_endTask.mp hp).1
  ready p hp := h.ready p (mem_endTask.mp hp).1
  loader p hp q hq := h.loader p (mem_endTask.mp hp).1 q (mem_endTask.mp hq).1

/-- A task that need not load the entry. -/
private theorem Inv.setTask (h : Inv s) (hactive : s.active = true) (hinitial : s.storage ≠ .initial)
    (hphase : task.phase ≠ .loading)
    (hready : task.phase = .ready → s.storage ≠ .loading) : Inv (s.setTask id task) where
  inactive hinactive := by
    have hcontra : s.active = false := hinactive
    rw [hactive] at hcontra
    cases hcontra
  poisoned := h.poisoned
  initial _ _ := hinitial
  loading p hp hp' := by
    rcases mem_setTask.mp hp with rfl | ⟨hp, -⟩
    · exact absurd hp' hphase
    · exact h.loading p hp hp'
  ready p hp hp' := by
    rcases mem_setTask.mp hp with rfl | ⟨hp, -⟩
    · exact hready hp'
    · exact h.ready p hp hp'
  loader p hp q hq hp' hq' := by
    rcases mem_setTask.mp hp with rfl | ⟨hp, -⟩
    · exact absurd hp' hphase
    rcases mem_setTask.mp hq with rfl | ⟨hq, -⟩
    · exact absurd hq' hphase
    exact h.loader p hp q hq hp' hq'

/-- A task that is past `load` can replace the storage. -/
theorem Inv.setStorage (h : Inv s) (htask : s.task id = some ⟨kind, .ready⟩) {storage : BaoFileStorage H}
    {broken refused : Bool}
    (hinitial : storage ≠ .initial) (hloading : storage ≠ .loading) (hpoisoned : storage = .poisoned ↔ broken = true) :
    Inv { s with storage, broken, refused } where
  inactive := h.inactive
  poisoned _ := hpoisoned
  initial _ _ := hinitial
  loading p hp hp' := by
    have hready := h.ready _ (mem_tasks htask) rfl
    exact absurd (h.loading p hp hp') hready
  ready _ _ _ := hloading
  loader := h.loader

/-- The first task loads the entry.  Nobody else has a task, since the handle is initial. -/
private theorem Inv.load (h : Inv s) (hactive : s.active = true) (hstorage : s.storage = .initial)
    (id : Nat) (kind : Kind) :
    Inv (Handle.setTask { s with storage := (.loading : BaoFileStorage H) } id ⟨kind, .loading⟩) := by
  have hsound : s.broken = false := by
    have hiff := h.poisoned hactive
    rw [hstorage] at hiff
    simpa using hiff
  have honly : ∀ {p : Nat × Task},
      p ∈ (Handle.setTask { s with storage := (.loading : BaoFileStorage H) } id ⟨kind, .loading⟩).tasks →
        p = (id, ⟨kind, .loading⟩) := by
    intro p hp
    rcases mem_setTask.mp hp with rfl | ⟨hp, -⟩
    · rfl
    · exact absurd hstorage (h.initial p hp)
  refine ⟨?_, ?_, ?_, ?_, ?_, ?_⟩
  · intro hinactive
    have hcontra : s.active = false := hinactive
    rw [hactive] at hcontra
    cases hcontra
  · intro _
    refine iff_of_false (fun hp => by cases hp) ?_
    rw [Bool.not_eq_true]
    exact hsound
  · exact fun _ _ hp => by cases hp
  · exact fun _ _ _ => rfl
  · intro p hp hp'
    rw [honly hp] at hp'
    cases hp'
  · intro p hp q hq _ _
    rw [honly hp, honly hq]

/-- Loading ends the only load. -/
private theorem Inv.loaded (h : Inv s) (htask : s.task id = some ⟨kind, .loading⟩) (opened : Option (Opened H)) :
    Inv (Handle.setTask { s with storage := loadedStorage opened, broken := s.broken || opened.isNone } id
      ⟨kind, .ready⟩) := by
  have hactive := h.active htask
  have hloading := h.loading _ (mem_tasks htask) rfl
  have hsound : s.broken = false := by
    have hiff := h.poisoned hactive
    rw [hloading] at hiff
    simpa using hiff
  have hstorage : loadedStorage opened ≠ .initial ∧ loadedStorage opened ≠ .loading ∧
      (loadedStorage opened = .poisoned ↔ opened.isNone = true) := by
    rcases opened with - | opened
    · simp [loadedStorage]
    · cases opened <;> simp [loadedStorage, Opened.storage]
  -- no other task is loading
  have hothers : ∀ p ∈ s.tasks, p.1 ≠ id → p.2.phase ≠ .loading :=
    fun p hp hne hp' => hne (h.loader p hp _ (mem_tasks htask) hp' rfl)
  refine ⟨?_, ?_, ?_, ?_, ?_, ?_⟩
  · intro hinactive
    have hcontra : s.active = false := hinactive
    rw [hactive] at hcontra
    cases hcontra
  · intro _
    rw [hsound, Bool.false_or]
    exact hstorage.2.2
  · exact fun _ _ => hstorage.1
  · intro p hp hp'
    rcases mem_setTask.mp hp with rfl | ⟨hp, hne⟩
    · cases hp'
    · exact absurd hp' (hothers p hp hne)
  · exact fun _ _ _ => hstorage.2.1
  · intro p hp q hq hp' hq'
    rcases mem_setTask.mp hp with rfl | ⟨hp, hne⟩
    · cases hp'
    · exact absurd hp' (hothers p hp hne)

private theorem Holds.sound {update : Bitfield} {storage : BaoFileStorage H} (h : Holds update storage) :
    storage ≠ .initial ∧ storage ≠ .loading ∧ storage ≠ .poisoned := by
  refine ⟨?_, ?_, ?_⟩ <;> (rintro rfl; exact h)

private theorem Writable.ne_poisoned {storage : BaoFileStorage H} (h : Writable storage) : storage ≠ .poisoned := by
  rintro rfl
  exact h

theorem completeStorage_cases (complete : CompleteStorage H) (storage : BaoFileStorage H) :
    completeStorage complete storage = storage ∨
      Writable storage ∧ completeStorage complete storage = .complete complete := by
  cases storage with
  | nonExisting => exact Or.inr ⟨trivial, rfl⟩
  | partialMem _ => exact Or.inr ⟨trivial, rfl⟩
  | partialFile _ => exact Or.inr ⟨trivial, rfl⟩
  | initial => exact Or.inl rfl
  | loading => exact Or.inl rfl
  | complete _ => exact Or.inl rfl
  | poisoned => exact Or.inl rfl

/-- A handle that is written to is not broken. -/
theorem Inv.not_broken (h : Inv s) (htask : s.task id = some task) (hne : s.storage ≠ .poisoned) :
    s.broken = false := by
  have hiff := h.poisoned (h.active htask)
  rw [← Bool.not_eq_true]
  exact fun hbroken => hne (hiff.mpr hbroken)

/-- What a write leaves is a storage, and poisoned only if the handle was broken before. -/
private theorem Inv.written (h : Inv s) (htask : s.task id = some ⟨.importBao, .ready⟩) {disk : Files H}
    {batch : List (BaoContentItem H)} {update : Bitfield} {ok sent : Bool} {storage : BaoFileStorage H} {res : Written}
    {refused : Bool} (hwrite : writeBatch options disk batch update ok sent s.storage = (storage, res))
    (hres : res ≠ .failed) :
    Inv { s with storage, refused } := by
  have hcases := writeBatch_cases options disk batch update ok sent s.storage
  rw [hwrite] at hcases
  cases hcases with
  | written hwritable hholds _ =>
    have hsound := h.not_broken htask hwritable.ne_poisoned
    refine h.setStorage htask hholds.sound.1 hholds.sound.2.1 ?_
    rw [hsound]
    exact iff_of_false hholds.sound.2.2 Bool.false_ne_true
  | failed _ => exact absurd rfl hres
  | ignored _ =>
    exact h.setStorage htask (h.initial _ (mem_tasks htask)) (h.ready _ (mem_tasks htask) rfl)
      (h.poisoned (h.active htask))

private theorem Inv.step (h : Inv s) (hstep : step options s a = some s') : Inv s' := by
  cases step_cases hstep with
  | load id kind hactive hstorage => exact h.load hactive hstorage id kind
  | wait id kind hactive hstorage =>
    apply h.setTask hactive
    · rw [hstorage]
      exact fun hp => by cases hp
    · exact fun hp => by cases hp
    · exact fun hp => by cases hp
  | join id kind hactive hinitial hloading =>
    exact h.setTask hactive hinitial (fun hp => by cases hp) (fun _ => hloading)
  | loaded id kind opened htask => exact h.loaded htask opened
  | woken id kind htask hloading =>
    exact h.setTask (h.active htask) (h.initial _ (mem_tasks htask)) (fun hp => by cases hp) (fun _ => hloading)
  | write id disk batch update ok sent storage htask hwrite =>
    exact h.written htask hwrite (fun hres => by cases hres)
  | writeFailed id disk batch update ok sent storage htask hwrite =>
    have hcases := writeBatch_cases options disk batch update ok sent s.storage
    rw [hwrite] at hcases
    cases hcases with
    | written _ _ hres => exact absurd rfl hres
    | failed _ =>
      apply Inv.endTask
      exact h.setStorage htask (fun hp => by cases hp) (fun hp => by cases hp) (iff_of_true rfl rfl)
  | writeNotSent id disk batch update ok sent storage htask hwrite =>
    apply Inv.endTask
    exact h.written htask hwrite (fun hres => by cases hres)
  | answer id htask => exact h.endTask id
  | complete id complete htask =>
    rcases completeStorage_cases complete s.storage with heq | ⟨hwritable, heq⟩
    · rw [heq]
      exact h
    · have hsound := h.not_broken htask hwritable.ne_poisoned
      rw [heq]
      refine h.setStorage htask (fun hp => by cases hp) (fun hp => by cases hp) ?_
      rw [hsound]
      exact iff_of_false (fun hp => by cases hp) Bool.false_ne_true
  | read id bitfield htask hbitfield => exact h
  | panic id htask hbitfield =>
    apply Inv.endTask
    exact ⟨h.inactive, h.poisoned, h.initial, h.loading, h.ready, h.loader⟩
  | stop id kind htask => exact h.endTask id
  | persist hactive htasks => exact Inv.of_nil htasks (fun hp => by cases hp)
  | reset hactive =>
    refine Inv.of_nil (h.inactive hactive) ?_
    intro _
    exact iff_of_false (fun hp => by cases hp) Bool.false_ne_true

/-! ### Acknowledged batches -/

def Handle.imports (s : Handle H) : List Nat := (s.tasks.filter (fun p => p.2.kind = .importBao)).map Prod.fst

/-- After a failure no import is running or started until the handle is reset. -/
def FailureEndsImports (s : Handle H) : Action H → Prop
  | .spawn _ kind => kind = .importBao → s.broken = false ∧ s.refused = false
  | .loaded _ opened => opened = none → s.imports = []
  | .write id _ _ _ ok sent => Writable s.storage → ok = false ∨ sent = false → ∀ id' ∈ s.imports, id' = id
  | _ => True

instance : DecidablePred (@Writable H)
  | .nonExisting | .partialMem _ | .partialFile _ => .isTrue trivial
  | .initial | .loading | .complete _ | .poisoned => .isFalse False.elim

instance (s : Handle H) : DecidablePred (FailureEndsImports s)
  | .spawn _ kind => inferInstanceAs (Decidable (kind = .importBao → s.broken = false ∧ s.refused = false))
  | .loaded _ opened => inferInstanceAs (Decidable (opened = none → s.imports = []))
  | .write id _ _ _ ok sent =>
    inferInstanceAs (Decidable (Writable s.storage → ok = false ∨ sent = false → ∀ id' ∈ s.imports, id' = id))
  | .woken _ | .answer _ | .complete _ _ | .read _ | .stop _ | .persist | .reset => inferInstanceAs (Decidable True)

/-- An acknowledged batch is stored, and after a write that returned an error no import is answered with success. -/
def Truthful (options : InlineOptions) (s : Handle H) (a : Action H) (s' : Handle H) : Prop :=
  match a with
  | .write _ disk batch update ok sent =>
    (writeBatch options disk batch update ok sent s.storage).2 = .acknowledged → Holds update s'.storage
  | .answer _ => s.refused = false
  | _ => True

/-- While an import is running nothing has failed. -/
def ImportsSound (s : Handle H) : Prop := s.imports ≠ [] → s.broken = false ∧ s.refused = false

private theorem mem_imports : id ∈ s.imports ↔ ∃ p ∈ s.tasks, p.2.kind = .importBao ∧ p.1 = id := by
  simp [Handle.imports]

private theorem imports_endTask : (s.endTask id).imports = [] ↔ ∀ id' ∈ s.imports, id' = id := by
  rw [List.eq_nil_iff_forall_not_mem]
  constructor
  · intro h id' hid'
    by_contra hne
    obtain ⟨p, hp, hkind, rfl⟩ := mem_imports.mp hid'
    exact h p.1 (mem_imports.mpr ⟨p, mem_endTask.mpr ⟨hp, hne⟩, hkind, rfl⟩)
  · intro h id' hid'
    obtain ⟨p, hp, hkind, rfl⟩ := mem_imports.mp hid'
    obtain ⟨hp, hne⟩ := mem_endTask.mp hp
    exact hne (h p.1 (mem_imports.mpr ⟨p, hp, hkind, rfl⟩))

private theorem imports_endTask_subset {id' : Nat} (h : id' ∈ (s.endTask id).imports) : id' ∈ s.imports := by
  obtain ⟨p, hp, hkind, rfl⟩ := mem_imports.mp h
  exact mem_imports.mpr ⟨p, (mem_endTask.mp hp).1, hkind, rfl⟩

/-- Fewer imports, and no new failures. -/
private theorem ImportsSound.mono (h : ImportsSound s) (himports : ∀ id' ∈ s'.imports, id' ∈ s.imports)
    (hbroken : s'.broken = s.broken) (hrefused : s'.refused = s.refused) : ImportsSound s' := by
  intro hne
  rw [hbroken, hrefused]
  apply h
  obtain ⟨id', hid'⟩ := List.exists_mem_of_ne_nil _ hne
  exact List.ne_nil_of_mem (himports id' hid')

/-- A new task, or one in another phase. -/
private theorem ImportsSound.setTask (h : ImportsSound s)
    (hnew : task.kind = .importBao → s.broken = false ∧ s.refused = false) :
    ImportsSound (s.setTask id task) := by
  intro hne
  obtain ⟨id', hid'⟩ := List.exists_mem_of_ne_nil _ hne
  obtain ⟨p, hp, hkind, -⟩ := mem_imports.mp hid'
  rcases mem_setTask.mp hp with rfl | ⟨hp, -⟩
  · exact hnew hkind
  · exact h (List.ne_nil_of_mem (mem_imports.mpr ⟨p, hp, hkind, rfl⟩))

private theorem ImportsSound.of_task (h : ImportsSound s) {phase : Phase} (htask : s.task id = some ⟨kind, phase⟩)
    (hkind : kind = .importBao) : s.broken = false ∧ s.refused = false :=
  h (List.ne_nil_of_mem (mem_imports.mpr ⟨_, mem_tasks htask, hkind, rfl⟩))

/-- A write that is not acknowledged leaves no import behind. -/
private theorem imports_of_not_acknowledged {disk : Files H} {batch : List (BaoContentItem H)}
    {update : Bitfield} {ok sent : Bool}
    {storage : BaoFileStorage H} {res : Written} (hok : FailureEndsImports s (.write id disk batch update ok sent))
    (hwrite : writeBatch options disk batch update ok sent s.storage = (storage, res)) (hres : res ≠ .acknowledged) :
    (s.endTask id).imports = [] := by
  have hwritable : Writable s.storage := by
    have hcases := writeBatch_cases options disk batch update ok sent s.storage
    rw [hwrite] at hcases
    cases hcases with
    | written hwritable _ _ => exact hwritable
    | failed hwritable => exact hwritable
    | ignored _ => exact absurd rfl hres
  rw [imports_endTask]
  apply hok hwritable
  rw [writeBatch_of_writable hwritable] at hwrite
  cases ok with
  | false => exact Or.inl rfl
  | true =>
    refine Or.inr ?_
    cases sent with
    | false => rfl
    | true =>
      rw [if_pos rfl, Bool.or_true, if_pos rfl] at hwrite
      cases hwrite
      exact absurd rfl hres

private theorem ImportsSound.step (h : ImportsSound s) (hok : FailureEndsImports s a)
    (hstep : step options s a = some s') :
    ImportsSound s' := by
  cases step_cases hstep with
  | load id kind hactive hstorage => exact ImportsSound.setTask h hok
  | wait id kind hactive hstorage => exact h.setTask hok
  | join id kind hactive hinitial hloading => exact h.setTask hok
  | loaded id kind opened htask =>
    cases opened with
    | none =>
      -- the load fails, but there are no imports
      have hnil := hok rfl
      intro hne
      obtain ⟨id', hid'⟩ := List.exists_mem_of_ne_nil _ hne
      obtain ⟨p, hp, hkind, -⟩ := mem_imports.mp hid'
      have hmem : p.1 ∈ s.imports := by
        rcases mem_setTask.mp hp with rfl | ⟨hp, -⟩
        · exact mem_imports.mpr ⟨_, mem_tasks htask, hkind, rfl⟩
        · exact mem_imports.mpr ⟨p, hp, hkind, rfl⟩
      rw [hnil] at hmem
      cases hmem
    | some opened =>
      have hsound : ImportsSound { s with storage := loadedStorage (some opened), broken := s.broken || false } := by
        rw [Bool.or_false]
        exact h
      apply hsound.setTask
      intro hkind
      rw [Bool.or_false]
      exact h.of_task htask hkind
  | woken id kind htask hloading => exact h.setTask (fun hkind => h.of_task htask hkind)
  | write id disk batch update ok sent storage htask hwrite => exact h
  | writeFailed id disk batch update ok sent storage htask hwrite =>
    have hnil := imports_of_not_acknowledged hok hwrite (fun hres => by cases hres)
    exact fun hne => absurd hnil hne
  | writeNotSent id disk batch update ok sent storage htask hwrite =>
    have hnil := imports_of_not_acknowledged hok hwrite (fun hres => by cases hres)
    exact fun hne => absurd hnil hne
  | answer id htask => exact h.mono (fun _ hid => imports_endTask_subset hid) rfl rfl
  | complete id complete htask => exact h
  | read id bitfield htask hbitfield => exact h
  | panic id htask hbitfield => exact h.mono (fun _ hid => imports_endTask_subset hid) rfl rfl
  | stop id kind htask => exact h.mono (fun _ hid => imports_endTask_subset hid) rfl rfl
  | persist hactive htasks => exact h
  | reset hactive => exact fun _ => ⟨rfl, rfl⟩

/-- A batch of an import on a handle without failures is stored if it is acknowledged. -/
private theorem Inv.truthful (h : Inv s) (hsound : ImportsSound s) (hstep : FsHandle.step options s a = some s') :
    Truthful options s a s' := by
  cases step_cases hstep with
  | write id disk batch update ok sent storage htask hwrite =>
    intro _
    have hcases := writeBatch_cases options disk batch update ok sent s.storage
    rw [hwrite] at hcases
    cases hcases with
    | written _ hholds _ => exact hholds
    | ignored hwritable =>
      have hpoisoned : s.storage ≠ .poisoned := by
        intro hp
        have hbroken := (h.poisoned (h.active htask)).mp hp
        rw [(hsound.of_task htask rfl).1] at hbroken
        cases hbroken
      have hinitial := h.initial _ (mem_tasks htask)
      have hloading := h.ready _ (mem_tasks htask) rfl
      revert hwritable hpoisoned hinitial hloading
      cases s.storage with
      | complete c => exact fun _ _ _ _ => holds_complete update c
      | initial => exact fun _ _ hne _ => absurd rfl hne
      | loading => exact fun _ _ _ hne => absurd rfl hne
      | poisoned => exact fun _ hne _ _ => absurd rfl hne
      | nonExisting => exact fun hne _ _ _ => absurd trivial hne
      | partialMem _ => exact fun hne _ _ _ => absurd trivial hne
      | partialFile _ => exact fun hne _ _ _ => absurd trivial hne
  | writeFailed id disk batch update ok sent storage htask hwrite =>
    intro hack
    rw [hwrite] at hack
    cases hack
  | writeNotSent id disk batch update ok sent storage htask hwrite =>
    intro hack
    rw [hwrite] at hack
    cases hack
  | answer id htask => exact (hsound.of_task htask rfl).2
  | load | wait | join | loaded | woken | complete | read | panic | stop | persist | reset => trivial

/-- In every run in which failures end the imports, acknowledged batches are stored, and no import is answered with
success after a write that returned an error. -/
theorem acknowledged_is_stored {t t' : Handle H} {before : List (Action H)}
    (hok : StateMachine.RunMeets (step options) FailureEndsImports Handle.new (before ++ [a]))
    (hrun : StateMachine.run (step options) Handle.new before = some t) (ha : step options t a = some t') :
    Truthful options t a t' := by
  have hstep : ∀ {s : Handle H} {a : Action H} {s' : Handle H}, Inv s ∧ ImportsSound s → FailureEndsImports s a →
      step options s a = some s' → (Inv s' ∧ ImportsSound s') ∧ Truthful options s a s' := by
    rintro s a s' ⟨hinv, hsound⟩ hok hstep
    exact ⟨⟨hinv.step hstep, hsound.step hok hstep⟩, hinv.truthful hsound hstep⟩
  have hnew : Inv (Handle.new : Handle H) ∧ ImportsSound (Handle.new : Handle H) :=
    ⟨Inv.new, fun hne => absurd rfl hne⟩
  exact StateMachine.forall_step_of_run (step options) hstep hnew hok hrun ha

end

/-- One chunk of one byte. -/
def oneByteBatch : List (BaoContentItem Unit) := [.leaf ⟨0, [1]⟩]

def oneByteUpdate : Bitfield := ⟨1, RangeSet.range 0 1⟩

/-- The last chunk of a blob of two chunks. -/
def lastChunkBatch : List (BaoContentItem Unit) := [.parent ⟨1, (), ()⟩, .leaf ⟨1024, [1]⟩]

def lastChunkUpdate : Bitfield := ⟨1025, RangeSet.range 1 2⟩

/-- A batch of the first import is stored, and the next one fails, which ends the import.  Once the reader is gone the
handle is persisted and reset.  Then the load of the entry fails for another reader, and after the next reset two
imports run, of which the first has its batch stored. -/
def failuresBefore : List (Action Unit) :=
  [.spawn 0 .importBao, .spawn 1 .read, .loaded 0 (some .nonExisting), .woken 1,
    .write 0 .empty lastChunkBatch lastChunkUpdate true true, .write 0 .empty lastChunkBatch lastChunkUpdate false true,
    .stop 1, .persist, .reset, .spawn 2 .read, .loaded 2 none, .stop 2, .persist, .reset, .spawn 3 .importBao,
    .spawn 4 .importBao, .loaded 3 (some .nonExisting), .woken 4,
      .write 3 .empty lastChunkBatch lastChunkUpdate true true]

/-- The batch of the import that has waited for the load. -/
theorem acknowledged_is_stored_afterFailures :
    ∃ t t', StateMachine.run (step ⟨0, 0⟩) (Handle.new : Handle Unit) failuresBefore = some t ∧
      step ⟨0, 0⟩ t (.write 4 .empty lastChunkBatch lastChunkUpdate true true) = some t' ∧
      Truthful ⟨0, 0⟩ t (.write 4 .empty lastChunkBatch lastChunkUpdate true true) t' := by
  have hcheck : StateMachine.checkRun (step ⟨0, 0⟩) (fun s a => decide (FailureEndsImports s a))
    (Handle.new : Handle Unit)
      (failuresBefore ++ [.write 4 .empty lastChunkBatch lastChunkUpdate true true]) = true := rfl
  have hok := StateMachine.runMeets_of_checkRun _ (fun _ _ => of_decide_eq_true) hcheck
  exact ⟨_, _, rfl, rfl, acknowledged_is_stored hok rfl rfl⟩

/-- The file operations of a write fail.  Another import gets its batch acknowledged, although the handle is
poisoned. -/
theorem not_acknowledged_is_stored_poisoned :
    ¬ ∀ (before : List (Action Unit)) (a : Action Unit) (t t' : Handle Unit),
      StateMachine.run (step ⟨0, 0⟩) Handle.new before = some t → step ⟨0, 0⟩ t a = some t' →
        Truthful ⟨0, 0⟩ t a t' := by
  intro h
  exact h [.spawn 0 .importBao, .loaded 0 (some .nonExisting), .spawn 1 .importBao,
    .write 0 .empty oneByteBatch oneByteUpdate false true]
      (.write 1 .empty oneByteBatch oneByteUpdate true true) _ _ rfl rfl rfl

/-! ### Observers -/

section

variable {options : InlineOptions} {s s' : Handle H} {a : Action H}

/-- An observer reads the bitfield only if nothing has failed since the handle was reset. -/
def ReadsSound (s : Handle H) : Action H → Prop
  | .read _ => s.broken = false
  | _ => True

/-- The bitfield can be read unless the storage is initial, loading or poisoned. -/
private theorem bitfield_eq_none_iff {storage : BaoFileStorage H} :
    storage.bitfield = none ↔ storage = .initial ∨ storage = .loading ∨ storage = .poisoned := by
  cases storage <;> simp [BaoFileStorage.bitfield]

private theorem Inv.bitfield_eq_none_iff (h : Inv s) {id : Nat} {kind : Kind}
    (htask : s.task id = some ⟨kind, .ready⟩) :
    s.storage.bitfield = none ↔ s.broken = true := by
  have hinitial := h.initial _ (mem_tasks htask)
  have hloading := h.ready _ (mem_tasks htask) rfl
  rw [FsHandle.bitfield_eq_none_iff, ← h.poisoned (h.active htask)]
  constructor
  · rintro (hcontra | hcontra | hpoisoned)
    · exact absurd hcontra hinitial
    · exact absurd hcontra hloading
    · exact hpoisoned
  · exact fun hpoisoned => Or.inr (Or.inr hpoisoned)

/-- A step panics if and only if it reads the bitfield of a broken handle. -/
private theorem Inv.panicked_iff (h : Inv s) (hp : s.panicked = false) (hstep : FsHandle.step options s a = some s') :
    s'.panicked = false ↔ ReadsSound s a := by
  cases step_cases hstep with
  | read id bitfield htask hbitfield =>
    refine iff_of_true hp ?_
    have hne : ¬ s.storage.bitfield = none := by
      rw [hbitfield]
      exact Option.some_ne_none _
    rw [h.bitfield_eq_none_iff htask, Bool.not_eq_true] at hne
    exact hne
  | panic id htask hbitfield =>
    rw [h.bitfield_eq_none_iff htask] at hbitfield
    refine iff_of_false (fun hp => by cases hp) ?_
    intro hsound
    have hbroken : s.broken = false := hsound
    rw [hbroken] at hbitfield
    cases hbitfield
  | load | wait | join | loaded | woken | write | writeFailed | writeNotSent | answer | complete | stop | persist
  | reset =>
    exact iff_of_true hp trivial

/-- No observer panics in a run if and only if bitfields are only read from handles on which nothing has failed. -/
theorem observers_do_not_panic_iff {as : List (Action H)}
    (hrun : StateMachine.run (step options) Handle.new as = some s') :
    (∀ before t, before <+: as → StateMachine.run (step options) (Handle.new : Handle H) before = some t →
      t.panicked = false) ↔
      StateMachine.RunMeets (step options) ReadsSound Handle.new as := by
  have hiff : ∀ {s : Handle H} {a : Action H} {s' : Handle H}, Inv s ∧ s.panicked = false → step options s a = some s' →
      (s'.panicked = false ↔ ReadsSound s a) := fun hs hstep => hs.1.panicked_iff hs.2 hstep
  have hstep : ∀ {s : Handle H} {a : Action H} {s' : Handle H}, Inv s ∧ s.panicked = false →
    step options s a = some s' →
      s'.panicked = false → Inv s' ∧ s'.panicked = false := fun hs hstep hp => ⟨hs.1.step hstep, hp⟩
  exact StateMachine.forall_prefix_iff (step options) hiff hstep ⟨Inv.new, rfl⟩ rfl hrun

end

/-- An observer of an entry that another task has loaded. -/
theorem observers_do_not_panic_nonExisting :
    ∃ t, StateMachine.run (step ⟨0, 0⟩) (Handle.new : Handle Unit)
        [.spawn 0 .read, .spawn 1 .observe, .loaded 0 (some .nonExisting), .woken 1, .read 1] = some t ∧
      ((∀ before t, before <+: [.spawn 0 .read, .spawn 1 .observe, .loaded 0 (some .nonExisting), .woken 1, .read 1] →
          StateMachine.run (step ⟨0, 0⟩) (Handle.new : Handle Unit) before = some t → t.panicked = false) ↔
        StateMachine.RunMeets (step ⟨0, 0⟩) ReadsSound (Handle.new : Handle Unit)
          [.spawn 0 .read, .spawn 1 .observe, .loaded 0 (some .nonExisting), .woken 1, .read 1]) :=
  ⟨_, rfl, observers_do_not_panic_iff rfl⟩

/-- The entry cannot be opened, so the first read of an observer panics. -/
theorem not_observers_do_not_panic_loadFailed :
    ¬ ∀ (as : List (Action Unit)) (t : Handle Unit), StateMachine.run (step ⟨0, 0⟩) Handle.new as = some t →
      t.panicked = false := by
  intro h
  have hpanicked := h [.spawn 0 .observe, .loaded 0 none, .read 0] _ rfl
  cases hpanicked

end FsHandle

end IrohBlobs
