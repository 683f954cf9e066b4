import IrohBlobs.BitfieldLattice

/-!
# What an update reports

`Bitfield::update` combines a bitfield with an update, and reports how the state of the bitfield changed: whether it
is complete, and the size once it is validated.  The database learns the size of a partial blob from the update that
validates it, so there has to be exactly one.

The updates that arrive while a blob is imported need not be in canonical form.
-/

namespace IrohBlobs

open Merkle (chunks)

/-- The state of a bitfield, as far as others need to know it. -/
structure BitfieldState where
  complete : Bool
  validatedSize : Option Nat
  deriving DecidableEq

inductive UpdateResult
  | noChange (new : BitfieldState)
  | minorChange (new : BitfieldState)
  | majorChange (old new : BitfieldState)
  deriving DecidableEq

namespace UpdateResult

def newState : UpdateResult → BitfieldState
  | .noChange new => new
  | .minorChange new => new
  | .majorChange _ new => new

/-- This change went from non-validated to validated. -/
def wasValidated : UpdateResult → Bool
  | .noChange _ => false
  | .minorChange _ => false
  | .majorChange old new => new.validatedSize.isSome && old.validatedSize.isNone

def changed : UpdateResult → Bool
  | .noChange _ => false
  | .minorChange _ => true
  | .majorChange _ _ => true

end UpdateResult

namespace Bitfield

def state (b : Bitfield) : BitfieldState := ⟨b.isComplete, b.validatedSize⟩

/-- `update` with the information about the change that it returns. -/
def updateWithResult (b u : Bitfield) : Bitfield × UpdateResult :=
  let s0 := b.state
  let bitfield1 := b.combine u
  if bitfield1 ≠ b then
    let s1 := bitfield1.state
    if s0 ≠ s1 then (bitfield1, .majorChange s0 s1) else (bitfield1, .minorChange s1)
  else (b, .noChange s0)

/-- The bitfield after a sequence of updates, and what was reported. -/
def updateAll : Bitfield → List Bitfield → Bitfield × List UpdateResult
  | b, [] => (b, [])
  | b, u :: us =>
    ((updateAll (b.updateWithResult u).1 us).1, (b.updateWithResult u).2 :: (updateAll (b.updateWithResult u).1 us).2)

/-- The updates that a blob of size `S` can get: also chunks of the blob in a form that is not canonical. -/
def Received (S : Nat) (u : Bitfield) : Prop :=
  Consistent S u ∨ ∃ r : ChunkRanges, (∀ x ∈ r, x < chunks S) ∧ u = ⟨S, r⟩

/-! ### One update -/

private theorem fst_updateWithResult (b u : Bitfield) : (b.updateWithResult u).1 = b.combine u := by
  unfold updateWithResult
  by_cases h : b.combine u ≠ b
  · simp only [if_pos h]
    split <;> rfl
  · simp only [if_neg h]
    exact (not_not.mp h).symm

/-- The report is a report of the change of the state. -/
theorem snd_updateWithResult (b u : Bitfield) :
    (b.updateWithResult u).2 =
      if b.combine u = b then .noChange b.state
      else if b.state = (b.combine u).state then .minorChange (b.combine u).state
      else .majorChange b.state (b.combine u).state := by
  unfold updateWithResult
  by_cases h : b.combine u = b
  · simp [h]
  · by_cases hs : b.state = (b.combine u).state
    · simp [h, hs]
    · simp [h, hs]

theorem updateWithResult_eq_update (b u : Bitfield) :
    (b.updateWithResult u).1 = (b.update u).1 ∧ (b.updateWithResult u).2.changed = (b.update u).2 := by
  refine ⟨fst_updateWithResult b u, ?_⟩
  rw [snd_updateWithResult, update]
  by_cases h : b.combine u = b
  · simp [h, UpdateResult.changed]
  · rw [if_neg h]
    split <;> simp [h, UpdateResult.changed]

variable {S : Nat} {b u : Bitfield}

private theorem Received.combine (hb : Consistent S b) (hu : Received S u) : Consistent S (b.combine u) := by
  rcases hu with hu | ⟨r, hr, rfl⟩
  · exact (hb.normal.combine hu.normal).consistent
  · rcases Nat.eq_zero_or_pos S with rfl | hS
    · -- an empty blob has no chunks
      have hnone : r = ∅ := by
        rw [RangeSet.eq_empty_iff]
        intro x hx
        have hlt := hr x hx
        simp [chunks] at hlt
      subst hnone
      have hempty : Consistent 0 (⟨0, ∅⟩ : Bitfield) := Or.inl rfl
      exact (hb.normal.combine hempty.normal).consistent
    · rw [combine_unchecked hb.normal hS hr (fun _ => rfl)]
      have hnew : Consistent S (new r S) := Or.inr (Or.inr (Or.inl ⟨r, hr, rfl⟩))
      exact (hb.normal.combine hnew.normal).consistent

/-- A bitfield is validated exactly if it has the last chunk. -/
theorem Consistent.isValidated_iff (h : Consistent S b) : b.isValidated = true ↔ chunks S - 1 ∈ b.ranges := by
  have hn := h.normal
  unfold isValidated
  rcases hn.claim with hsize | hclaim
  · rw [hsize]
    split
    · rename_i hzero
      subst hzero
      rw [RangeSet.isAll_iff]
      constructor
      · intro hall
        exact hall _
      · intro hmem x
        exact (hn.tail x (by simp [chunks])).mpr hmem
    · exact RangeSet.mem_iff.symm
  · -- with a wrong size all chunks are before the last one
    refine iff_of_false ?_ ?_
    · intro hval
      split at hval
      · rename_i hzero
        have hlt := (hclaim 0 (RangeSet.isAll_iff.mp hval 0)).2
        simp [hzero, chunks] at hlt
      · rename_i hpos
        have hlt := (hclaim _ (RangeSet.mem_iff.mpr hval)).2
        omega
    · intro hmem
      have hlt := (hclaim _ hmem).1
      omega

private theorem Consistent.size_of_mem (h : Consistent S b) (hmem : chunks S - 1 ∈ b.ranges) : b.size = S := by
  refine h.normal.claim.resolve_right ?_
  intro hclaim
  have hlt := (hclaim _ hmem).1
  omega

private theorem Consistent.validatedSize_eq (h : Consistent S b) :
    b.validatedSize = if chunks S - 1 ∈ b.ranges then some S else none := by
  unfold validatedSize
  by_cases hmem : chunks S - 1 ∈ b.ranges
  · rw [if_pos hmem, if_pos (h.isValidated_iff.mpr hmem), h.size_of_mem hmem]
  · rw [if_neg hmem, if_neg (fun hval => hmem (h.isValidated_iff.mp hval))]

/-- A consistent bitfield is complete exactly if it has everything, in canonical form. -/
private theorem Consistent.isComplete_iff_eq_all (h : Consistent S b) :
    b.isComplete = true ↔ b.ranges = RangeSet.all := by
  have hn := h.normal
  rcases Nat.eq_zero_or_pos S with rfl | hS
  · have hall : b.isComplete = true → chunks 0 - 1 ∈ b.ranges := by
      intro hc
      unfold isComplete at hc
      split at hc
      · exact RangeSet.isAll_iff.mp hc _
      · rename_i hpos
        have hchunks := chunks_pos (Nat.pos_of_ne_zero hpos)
        apply RangeSet.isSubset_iff.mp hc
        rw [RangeSet.mem_range]
        exact ⟨Nat.zero_le _, hchunks⟩
    constructor
    · intro hc
      apply RangeSet.ext_mem
      intro x
      exact iff_of_true ((hn.tail x (by simp [chunks])).mpr (hall hc)) (RangeSet.mem_all x)
    · intro heq
      have hsize : b.size = 0 := h.size_of_mem (heq ▸ RangeSet.mem_all _)
      rw [isComplete, if_pos hsize, heq]
      rfl
  · have hpos := chunks_pos hS
    rw [hn.isComplete_iff_forall hS]
    constructor
    · intro hall
      apply RangeSet.ext_mem
      intro x
      refine iff_of_true ?_ (RangeSet.mem_all x)
      rcases Nat.lt_or_ge x (chunks S) with hlt | hge
      · exact hall x hlt
      · exact (hn.tail x (by omega)).mpr (hall _ (by omega))
    · intro heq x _
      rw [heq]
      exact RangeSet.mem_all x

/-- The report tells whether the bitfield and its state changed. -/
structure ReportRight (b u : Bitfield) : Prop where
  noChange : (∃ s, (b.updateWithResult u).2 = .noChange s) ↔ (b.updateWithResult u).1 = b
  majorChange : (∃ s0 s1, (b.updateWithResult u).2 = .majorChange s0 s1) ↔ (b.updateWithResult u).1.state ≠ b.state
  newState : (b.updateWithResult u).2.newState = (b.updateWithResult u).1.state

private theorem reportRight (b u : Bitfield) : ReportRight b u := by
  have hcombine := fst_updateWithResult b u
  have hreport := snd_updateWithResult b u
  by_cases h : b.combine u = b
  · rw [if_pos h] at hreport
    refine ⟨?_, ?_, ?_⟩ <;> simp [hcombine, hreport, h, UpdateResult.newState]
  · rw [if_neg h] at hreport
    by_cases hs : b.state = (b.combine u).state
    · rw [if_pos hs] at hreport
      refine ⟨?_, ?_, ?_⟩ <;> simp [hcombine, hreport, h, hs, UpdateResult.newState]
    · rw [if_neg hs] at hreport
      refine ⟨?_, ?_, ?_⟩ <;> simp [hcombine, hreport, h, Ne.symm hs, UpdateResult.newState]

/-- An update validates if the bitfield is validated only after it. -/
theorem wasValidated_iff (b u : Bitfield) :
    (b.updateWithResult u).2.wasValidated = true ↔ b.isValidated = false ∧ (b.combine u).isValidated = true := by
  have hsome : ∀ c : Bitfield, c.validatedSize.isSome = c.isValidated := by
    intro c
    unfold validatedSize
    cases c.isValidated <;> rfl
  have hnone : ∀ c : Bitfield, c.validatedSize.isNone = !c.isValidated := by
    intro c
    rw [← Option.not_isSome, hsome]
  rw [snd_updateWithResult]
  by_cases h : b.combine u = b
  · rw [if_pos h, h]
    simp [UpdateResult.wasValidated]
  · rw [if_neg h]
    by_cases hs : b.state = (b.combine u).state
    · have hvalidated : b.isValidated = (b.combine u).isValidated := by
        rw [← hsome b, ← hsome (b.combine u)]
        exact congrArg (fun s => Option.isSome s.validatedSize) hs
      rw [if_pos hs, hvalidated]
      simp [UpdateResult.wasValidated]
    · rw [if_neg hs, UpdateResult.wasValidated, Bool.and_eq_true]
      simp only [state, hsome, hnone, Bool.not_eq_true']
      exact and_comm

/-! ### Runs -/

/-- What holds of every sequence of updates. -/
structure UpdatesRight (S : Nat) (b : Bitfield) (us : List Bitfield) : Prop where
  consistent : Consistent S (b.updateAll us).1
  grows : ∀ x ∈ b.ranges, x ∈ (b.updateAll us).1.ranges
  size : b.isValidated = true → b.size = S ∧ (b.updateAll us).1.isValidated = true ∧ (b.updateAll us).1.size = S
  complete : b.isComplete = true → (b.updateAll us).1.isComplete = true ∧ (b.updateAll us).1.ranges = RangeSet.all
  validated : (b.updateAll us).1.isComplete = true → (b.updateAll us).1.validatedSize = some S
  reports : ∀ before u after, us = before ++ u :: after → ReportRight (b.updateAll before).1 u
  once : b.isValidated = false → (b.updateAll us).1.isValidated = true →
    ((b.updateAll us).2.filter UpdateResult.wasValidated).length = 1

variable {us : List Bitfield}

private theorem fst_updateAll_cons (b u : Bitfield) (us : List Bitfield) :
    (b.updateAll (u :: us)).1 = ((b.combine u).updateAll us).1 := by
  rw [updateAll, fst_updateWithResult]

private theorem snd_updateAll_cons (b u : Bitfield) (us : List Bitfield) :
    (b.updateAll (u :: us)).2 = (b.updateWithResult u).2 :: ((b.combine u).updateAll us).2 := by
  rw [updateAll, fst_updateWithResult]

private theorem consistent_updateAll (hb : Consistent S b) (hus : ∀ u ∈ us, Received S u) :
    Consistent S (b.updateAll us).1 := by
  induction us generalizing b with
  | nil => exact hb
  | cons u us ih =>
    rw [List.forall_mem_cons] at hus
    rw [fst_updateAll_cons]
    exact ih (hus.1.combine hb) hus.2

private theorem mem_updateAll {x : Nat} (hx : x ∈ b.ranges) (us : List Bitfield) : x ∈ (b.updateAll us).1.ranges := by
  induction us generalizing b with
  | nil => exact hx
  | cons u us ih =>
    rw [fst_updateAll_cons]
    exact ih (mem_combine (RangeSet.mem_union.mpr (Or.inl hx)))

/-- Once a bitfield is validated, no update validates it again. -/
private theorem no_wasValidated (hb : Consistent S b) (hus : ∀ u ∈ us, Received S u) (hval : b.isValidated = true) :
    (b.updateAll us).2.filter UpdateResult.wasValidated = [] := by
  induction us generalizing b with
  | nil => rfl
  | cons u us ih =>
    rw [List.forall_mem_cons] at hus
    have hnext := hus.1.combine hb
    have hlast : chunks S - 1 ∈ (b.combine u).ranges :=
      mem_combine (RangeSet.mem_union.mpr (Or.inl (hb.isValidated_iff.mp hval)))
    have hreport : ¬ (b.updateWithResult u).2.wasValidated = true := by
      rw [wasValidated_iff, hval]
      simp
    rw [snd_updateAll_cons, List.filter_cons_of_neg hreport]
    exact ih hnext hus.2 (hnext.isValidated_iff.mpr hlast)

/-- Exactly one update validates a bitfield. -/
private theorem once_wasValidated (hb : Consistent S b) (hus : ∀ u ∈ us, Received S u) (hval : b.isValidated = false)
    (hend : (b.updateAll us).1.isValidated = true) :
    ((b.updateAll us).2.filter UpdateResult.wasValidated).length = 1 := by
  induction us generalizing b with
  | nil =>
    rw [updateAll, hval] at hend
    cases hend
  | cons u us ih =>
    rw [List.forall_mem_cons] at hus
    have hnext := hus.1.combine hb
    rw [fst_updateAll_cons] at hend
    rw [snd_updateAll_cons]
    cases hmid : (b.combine u).isValidated with
    | true =>
      have hreport : (b.updateWithResult u).2.wasValidated = true := (wasValidated_iff b u).mpr ⟨hval, hmid⟩
      rw [List.filter_cons_of_pos hreport, no_wasValidated hnext hus.2 hmid]
      rfl
    | false =>
      have hreport : ¬ (b.updateWithResult u).2.wasValidated = true := by
        rw [wasValidated_iff, hmid]
        simp
      rw [List.filter_cons_of_neg hreport]
      exact ih hnext hus.2 hmid hend

/-- Updates of a bitfield only add to it, and report the changes of its state. -/
theorem updates_right (S : Nat) (b : Bitfield) (us : List Bitfield) (hb : Consistent S b)
    (hus : ∀ u ∈ us, Received S u) :
    UpdatesRight S b us := by
  have hend := consistent_updateAll hb hus
  refine ⟨hend, fun x hx => mem_updateAll hx us, ?_, ?_, ?_, fun before u _ _ => reportRight _ u,
    once_wasValidated hb hus⟩
  · intro hval
    have hlast := hb.isValidated_iff.mp hval
    have hlast' := mem_updateAll hlast us
    exact ⟨hb.size_of_mem hlast, hend.isValidated_iff.mpr hlast', hend.size_of_mem hlast'⟩
  · intro hc
    have hall : (b.updateAll us).1.ranges = RangeSet.all := by
      apply RangeSet.ext_mem
      intro x
      refine iff_of_true (mem_updateAll ?_ us) (RangeSet.mem_all x)
      rw [hb.isComplete_iff_eq_all.mp hc]
      exact RangeSet.mem_all x
    exact ⟨hend.isComplete_iff_eq_all.mpr hall, hall⟩
  · intro hc
    rw [hend.validatedSize_eq, if_pos]
    rw [hend.isComplete_iff_eq_all.mp hc]
    exact RangeSet.mem_all _

/-- The last chunk of a blob of three chunks, in a form that is not canonical, after a wrong claim. -/
theorem updates_right_lastChunk :
    ((empty.updateAll [new (RangeSet.range 0 1) 5000, ⟨3000, RangeSet.range 2 3⟩]).2.filter
      UpdateResult.wasValidated).length = 1 := by
  have hwrong : Received 3000 (new (RangeSet.range 0 1) 5000) := by
    refine Or.inl (Or.inr (Or.inr (Or.inr ⟨RangeSet.range 0 1, 5000, by decide, ?_, rfl⟩)))
    intro x hx
    rw [RangeSet.mem_range] at hx
    simp only [chunks]
    omega
  have hlast : Received 3000 ⟨3000, RangeSet.range 2 3⟩ := by
    refine Or.inr ⟨RangeSet.range 2 3, ?_, rfl⟩
    intro x hx
    rw [RangeSet.mem_range] at hx
    simp only [chunks]
    omega
  have hright := updates_right 3000 empty [new (RangeSet.range 0 1) 5000, ⟨3000, RangeSet.range 2 3⟩] (Or.inl rfl)
    (by simp [hwrong, hlast])
  exact hright.once (by decide) (by decide)

end Bitfield

end IrohBlobs
