import IrohBlobs.Merkle
import IrohBlobs.RangeSpec

/-!
# Bitfields

The model of `api/proto/bitfield.rs`.  A bitfield is the set of chunks of a blob that are present, together with a size
that is known to be right only once the last chunk is present.  Chunks beyond the size carry no information: `new` adds
all of them to a bitfield that has the last chunk (`mem_new`).
-/

namespace IrohBlobs

open Merkle (chunks)

/-- The chunks of a blob that are present. -/
structure Bitfield where
  size : Nat
  ranges : ChunkRanges
  deriving DecidableEq

namespace Bitfield

/-- The neutral element of `combine`. -/
def empty : Bitfield := ⟨0, ∅⟩

/-- A bitfield of the given ranges, in canonical form: everything beyond the size is added to a bitfield that contains
the last chunk.  For size zero the caller is trusted. -/
def new (ranges : ChunkRanges) (size : Nat) : Bitfield :=
  if size = 0 then ⟨size, ranges⟩
  else if (RangeSet.range 0 (chunks size)).isSubset ranges then ⟨size, RangeSet.all⟩
  else if ranges.contains (chunks size - 1) then ⟨size, ranges ∪ RangeSet.rangeFrom (chunks size)⟩
  else ⟨size, ranges⟩

def complete (size : Nat) : Bitfield := ⟨size, RangeSet.all⟩

/-- The chunk at the end of the blob is present. -/
def isValidated (b : Bitfield) : Bool :=
  if b.size = 0 then b.ranges.isAll else b.ranges.contains (chunks b.size - 1)

/-- All chunks up to the size are present. -/
def isComplete (b : Bitfield) : Bool :=
  if b.size = 0 then b.ranges.isAll else (RangeSet.range 0 (chunks b.size)).isSubset b.ranges

def validatedSize (b : Bitfield) : Option Nat := if b.isValidated then some b.size else none

/-- The size of the bitfield that reaches further wins. -/
def chooseSize (a b : Bitfield) : Nat :=
  match a.ranges.upperBound, b.ranges.upperBound with
  | some ac, some bc => if ac < bc then b.size else if bc < ac then a.size else max a.size b.size
  | some _, none => b.size
  | none, some _ => a.size
  | none, none => max a.size b.size

def combine (a b : Bitfield) : Bitfield := new (a.ranges ∪ b.ranges) (chooseSize a b)

/-- `update` replaces a bitfield by its combination with an update, and reports whether it changed. -/
def update (a b : Bitfield) : Bitfield × Bool := (a.combine b, decide (a.combine b ≠ a))

def isEmpty (b : Bitfield) : Bool := b.ranges.isEmpty && b.size == 0

/-- A diff between two bitfields, meant as an inverse of `combine`. -/
def diff (a b : Bitfield) : Bitfield := ⟨chooseSize a b, a.ranges ^^^ b.ranges⟩

@[simp] theorem size_new (ranges : ChunkRanges) (size : Nat) : (new ranges size).size = size := by
  unfold new
  split <;> [rfl; split <;> [rfl; split <;> rfl]]

theorem chunks_pos {size : Nat} (h : 0 < size) : 0 < chunks size := by
  unfold chunks
  omega

/-- The canonical form has the given chunks, and those beyond the size if it has the last chunk. -/
theorem mem_new {ranges : ChunkRanges} {size x : Nat} (h : 0 < size) :
    x ∈ (new ranges size).ranges ↔ x ∈ ranges ∨ (chunks size ≤ x ∧ chunks size - 1 ∈ ranges) := by
  have hpos := chunks_pos h
  unfold new
  rw [if_neg (by omega)]
  by_cases hall : (RangeSet.range 0 (chunks size)).isSubset ranges = true
  · rw [if_pos hall]
    rw [RangeSet.isSubset_iff] at hall
    have hlast := hall (chunks size - 1) (by rw [RangeSet.mem_range]; omega)
    refine iff_of_true (RangeSet.mem_all x) ?_
    by_cases hx : x < chunks size
    · exact Or.inl (hall x (by rw [RangeSet.mem_range]; omega))
    · exact Or.inr ⟨by omega, hlast⟩
  · rw [if_neg hall]
    by_cases hlast : chunks size - 1 ∈ ranges
    · rw [if_pos (RangeSet.mem_iff.mp hlast)]
      simp only [RangeSet.mem_union, RangeSet.mem_rangeFrom]
      exact or_congr_right ⟨fun hx => ⟨hx, hlast⟩, fun hx => hx.1⟩
    · rw [if_neg (fun hc => hlast (RangeSet.mem_iff.mpr hc))]
      exact ⟨Or.inl, fun hx => hx.resolve_right (fun hr => hlast hr.2)⟩

theorem mem_new_of_mem {ranges : ChunkRanges} {size x : Nat} (h : x ∈ ranges) : x ∈ (new ranges size).ranges := by
  rcases Nat.eq_zero_or_pos size with rfl | hpos
  · rwa [new, if_pos rfl]
  · exact (mem_new hpos).mpr (Or.inl h)

/-- Combining bitfields keeps all chunks. -/
theorem mem_combine {a b : Bitfield} {x : Nat} (h : x ∈ a.ranges ∪ b.ranges) : x ∈ (a.combine b).ranges :=
  mem_new_of_mem h

theorem validatedSize_eq_some {b : Bitfield} {n : Nat} (h : b.validatedSize = some n) : n = b.size := by
  unfold validatedSize at h
  split at h
  · cases h; rfl
  · cases h

end Bitfield

end IrohBlobs
