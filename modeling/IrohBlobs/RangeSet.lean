import Mathlib.Data.List.Sort
import Mathlib.Data.List.Dedup
import Mathlib.Tactic

/-!
# Sets of naturals given by their boundaries

A set of naturals that is a finite union of intervals is kept as the strictly increasing list of the points where
membership changes: `[2, 5, 9]` is `{2, 3, 4} ∪ {9, 10, …}`.  A point belongs to the set when the number of
boundaries up to it is odd.  The list of boundaries is determined by the members (`RangeSet.ext_mem`), so two sets
are equal exactly when they have the same members, and every law of the set operations is checked pointwise.

All operations go through `ofChanges`, which reads the boundaries of a predicate off a list of points that contains
every change of the predicate (`contains_ofChanges`).
-/

/-- A finite union of intervals of naturals, as the strictly increasing list of the points where membership
changes. -/
structure RangeSet where
  boundaries : List Nat
  sorted : boundaries.Pairwise (· < ·)
  deriving DecidableEq

namespace RangeSet

/-- Membership test: the number of boundaries up to `x` is odd. -/
def contains (s : RangeSet) (x : Nat) : Bool := s.boundaries.countP (· ≤ x) % 2 == 1

instance : Membership Nat RangeSet := ⟨fun s x => s.contains x = true⟩

instance (x : Nat) (s : RangeSet) : Decidable (x ∈ s) := inferInstanceAs (Decidable (s.contains x = true))

theorem mem_iff {s : RangeSet} {x : Nat} : x ∈ s ↔ s.contains x = true := Iff.rfl

/-- The value of a predicate just below `x`; nothing lies below `0`. -/
def before (P : Nat → Bool) : Nat → Bool
  | 0 => false
  | x + 1 => P x

/-! ### Boundaries and membership -/

private theorem countP_le_succ {l : List Nat} (h : l.Nodup) (x : Nat) :
    l.countP (· ≤ x + 1) = l.countP (· ≤ x) + if x + 1 ∈ l then 1 else 0 := by
  induction l with
  | nil => simp
  | cons a l ih =>
    rw [List.nodup_cons] at h
    rw [List.countP_cons, List.countP_cons, ih h.2]
    by_cases ha : a = x + 1
    · subst ha
      simp [h.1]
    · have e : (decide (a ≤ x + 1)) = decide (a ≤ x) := by
        rw [decide_eq_decide]; omega
      have e' : (x + 1 ∈ a :: l) ↔ x + 1 ∈ l := by
        simp [Ne.symm ha]
      simp only [e, e']
      omega

private theorem countP_le_zero {l : List Nat} (h : l.Nodup) :
    l.countP (· ≤ 0) = if 0 ∈ l then 1 else 0 := by
  induction l with
  | nil => simp
  | cons a l ih =>
    rw [List.nodup_cons] at h
    rw [List.countP_cons, ih h.2]
    by_cases ha : a = 0
    · subst ha
      simp [h.1]
    · simp [ha, Ne.symm ha]

/-- Membership at `x` differs from membership just below `x` exactly at the boundaries. -/
theorem contains_eq (s : RangeSet) (x : Nat) :
    s.contains x = (before s.contains x ^^ decide (x ∈ s.boundaries)) := by
  have hn : s.boundaries.Nodup := s.sorted.imp (fun h => Nat.ne_of_lt h)
  cases x with
  | zero =>
    unfold before contains
    rw [countP_le_zero hn]
    split <;> simp_all
  | succ x =>
    show s.contains (x + 1) = (s.contains x ^^ _)
    unfold contains
    rw [countP_le_succ hn]
    rcases Nat.mod_two_eq_zero_or_one (s.boundaries.countP (· ≤ x)) with h | h <;>
      split <;> rename_i hx <;> simp [h, hx, Nat.add_mod]

theorem mem_boundaries {s : RangeSet} {x : Nat} :
    x ∈ s.boundaries ↔ s.contains x ≠ before s.contains x := by
  rw [contains_eq]
  by_cases h : x ∈ s.boundaries <;> simp [h]

/-- Two sets with the same members have the same boundaries. -/
theorem ext_mem {s t : RangeSet} (h : ∀ x, x ∈ s ↔ x ∈ t) : s = t := by
  have hc : s.contains = t.contains := by
    funext x
    have := h x
    rw [mem_iff, mem_iff] at this
    exact Bool.eq_iff_iff.2 this
  have hb : s.boundaries = t.boundaries := by
    apply s.sorted.eq_of_mem_iff t.sorted
    intro x
    rw [mem_boundaries, mem_boundaries, hc]
  cases s
  cases t
  simp_all

/-! ### Sets from predicates -/

/-- The boundaries of `P` among the points `cands`. -/
def ofChanges (cands : List Nat) (P : Nat → Bool) : RangeSet where
  boundaries := (cands.insertionSort (· ≤ ·)).dedup.filter fun x => P x != before P x
  sorted := by
    apply List.Pairwise.filter
    have hle := (List.pairwise_insertionSort (· ≤ ·) cands).sublist (List.dedup_sublist _)
    have hne := List.nodup_dedup (cands.insertionSort (· ≤ ·))
    exact (hle.and hne).imp (fun h => lt_of_le_of_ne h.1 h.2)

/-- Every change of `P` is one of the points `cands`. -/
def ChangesIn (cands : List Nat) (P : Nat → Bool) : Prop := ∀ x, P x ≠ before P x → x ∈ cands

private theorem mem_boundaries_ofChanges {cands : List Nat} {P : Nat → Bool} (h : ChangesIn cands P) (x : Nat) :
    x ∈ (ofChanges cands P).boundaries ↔ P x ≠ before P x := by
  simp only [ofChanges, List.mem_filter, List.mem_dedup, List.mem_insertionSort, bne_iff_ne]
  exact ⟨fun hx => hx.2, fun hx => ⟨h x hx, hx⟩⟩

theorem contains_ofChanges {cands : List Nat} {P : Nat → Bool} (h : ChangesIn cands P) (x : Nat) :
    (ofChanges cands P).contains x = P x := by
  induction x with
  | zero =>
    rw [contains_eq, decide_eq_decide.2 (mem_boundaries_ofChanges h 0)]
    show (false ^^ decide (P 0 ≠ false)) = P 0
    cases P 0 <;> simp
  | succ x ih =>
    rw [contains_eq, decide_eq_decide.2 (mem_boundaries_ofChanges h (x + 1))]
    show ((ofChanges cands P).contains x ^^ decide (P (x + 1) ≠ P x)) = P (x + 1)
    rw [ih]
    cases P x <;> cases P (x + 1) <;> simp

/-- The set combining the members of `s` and `t` pointwise by `f`. -/
def zip (f : Bool → Bool → Bool) (s t : RangeSet) : RangeSet :=
  ofChanges (s.boundaries ++ t.boundaries) fun x => f (s.contains x) (t.contains x)

private theorem contains_of_not_mem_boundaries {s : RangeSet} {x : Nat} (h : x ∉ s.boundaries) :
    s.contains x = before s.contains x := by
  rw [contains_eq]; simp [h]

theorem contains_zip {f : Bool → Bool → Bool} (hf : f false false = false) (s t : RangeSet) (x : Nat) :
    (zip f s t).contains x = f (s.contains x) (t.contains x) := by
  apply contains_ofChanges (P := fun x => f (s.contains x) (t.contains x))
  intro y hy
  by_contra hmem
  rw [List.mem_append, not_or] at hmem
  apply hy
  show f (s.contains y) (t.contains y) = _
  rw [contains_of_not_mem_boundaries hmem.1, contains_of_not_mem_boundaries hmem.2]
  cases y with
  | zero => exact hf
  | succ y => rfl

/-! ### The set operations -/

/-- The empty set. -/
def empty : RangeSet := ⟨[], List.Pairwise.nil⟩

/-- All naturals. -/
def all : RangeSet := ⟨[0], List.pairwise_singleton _ _⟩

/-- The interval from `a` (inclusive) to `b` (exclusive). -/
def range (a b : Nat) : RangeSet :=
  if h : a < b then ⟨[a, b], by simp [h]⟩ else empty

/-- Everything from `a` on. -/
def rangeFrom (a : Nat) : RangeSet := ⟨[a], List.pairwise_singleton _ _⟩

instance : Inhabited RangeSet := ⟨empty⟩
instance : EmptyCollection RangeSet := ⟨empty⟩
instance : Union RangeSet := ⟨zip (· || ·)⟩
instance : Inter RangeSet := ⟨zip (· && ·)⟩
instance : SDiff RangeSet := ⟨zip (fun a b => a && !b)⟩
instance : XorOp RangeSet := ⟨zip xor⟩

def isEmpty (s : RangeSet) : Bool := s.boundaries.isEmpty

def isAll (s : RangeSet) : Bool := s.boundaries == [0]

def isSubset (s t : RangeSet) : Bool := (s \ t).isEmpty

def isSuperset (s t : RangeSet) : Bool := t.isSubset s

/-- The least upper bound (exclusive) of the set, if it is bounded. -/
def upperBound (s : RangeSet) : Option Nat :=
  if s.boundaries.length % 2 = 0 then some (s.boundaries.getLastD 0) else none

@[simp] theorem not_mem_empty (x : Nat) : ¬ x ∈ (∅ : RangeSet) := by
  show ¬ (empty.contains x = true)
  simp [empty, contains]

@[simp] theorem not_mem_empty' (x : Nat) : ¬ x ∈ empty := not_mem_empty x

@[simp] theorem mem_all (x : Nat) : x ∈ all := by
  simp [mem_iff, all, contains]

@[simp] theorem mem_rangeFrom {a x : Nat} : x ∈ rangeFrom a ↔ a ≤ x := by
  rw [mem_iff]
  by_cases h : a ≤ x <;> simp [rangeFrom, contains, h]

@[simp] theorem mem_range {a b x : Nat} : x ∈ range a b ↔ a ≤ x ∧ x < b := by
  rw [mem_iff]
  unfold range
  split
  · by_cases h1 : a ≤ x <;> by_cases h2 : b ≤ x <;> simp [contains, h1, h2] <;> omega
  · simp [empty, contains]; omega

@[simp] theorem mem_union {s t : RangeSet} {x : Nat} : x ∈ s ∪ t ↔ x ∈ s ∨ x ∈ t := by
  show (zip (· || ·) s t).contains x = true ↔ _
  rw [contains_zip rfl, Bool.or_eq_true]; rfl

/-- The union of many sets. -/
theorem mem_foldl_union {ι : Type} (f : ι → RangeSet) (l : List ι) (init : RangeSet) (x : Nat) :
    x ∈ l.foldl (fun res i => res ∪ f i) init ↔ x ∈ init ∨ ∃ i ∈ l, x ∈ f i := by
  induction l generalizing init with
  | nil => simp
  | cons i l ih =>
    rw [List.foldl_cons, ih, mem_union, List.exists_mem_cons_iff]
    exact or_assoc

@[simp] theorem mem_inter {s t : RangeSet} {x : Nat} : x ∈ s ∩ t ↔ x ∈ s ∧ x ∈ t := by
  show (zip (· && ·) s t).contains x = true ↔ _
  rw [contains_zip rfl, Bool.and_eq_true]; rfl

@[simp] theorem mem_sdiff {s t : RangeSet} {x : Nat} : x ∈ s \ t ↔ x ∈ s ∧ ¬ x ∈ t := by
  show (zip (fun a b => a && !b) s t).contains x = true ↔ _
  rw [contains_zip rfl, mem_iff, mem_iff]
  cases s.contains x <;> cases t.contains x <;> simp

@[simp] theorem mem_xor {s t : RangeSet} {x : Nat} : x ∈ s ^^^ t ↔ ¬ (x ∈ s ↔ x ∈ t) := by
  show (zip xor s t).contains x = true ↔ _
  rw [contains_zip rfl, mem_iff, mem_iff]
  cases s.contains x <;> cases t.contains x <;> simp

theorem isEmpty_iff {s : RangeSet} : s.isEmpty = true ↔ ∀ x, ¬ x ∈ s := by
  unfold isEmpty
  rw [List.isEmpty_iff]
  constructor
  · intro h x hx
    rw [mem_iff, contains, h] at hx
    simp at hx
  · intro h
    have : s = empty := ext_mem (fun x => by simp [h x])
    rw [this]; rfl

theorem isEmpty_eq_false_iff {s : RangeSet} : s.isEmpty = false ↔ ∃ x, x ∈ s := by
  rw [← Bool.not_eq_true, isEmpty_iff]
  simp only [not_forall, not_not]

theorem isAll_iff {s : RangeSet} : s.isAll = true ↔ ∀ x, x ∈ s := by
  unfold isAll
  rw [beq_iff_eq]
  constructor
  · intro h x
    have : s = all := by cases s; simp_all [all]
    rw [this]; exact mem_all x
  · intro h
    have : s = all := ext_mem (fun x => by simp [h x])
    rw [this]; rfl

theorem isSubset_iff {s t : RangeSet} : s.isSubset t = true ↔ ∀ x, x ∈ s → x ∈ t := by
  unfold isSubset
  rw [isEmpty_iff]
  simp only [mem_sdiff, not_and, not_not]

theorem isSuperset_iff {s t : RangeSet} : s.isSuperset t = true ↔ ∀ x, x ∈ t → x ∈ s := isSubset_iff

theorem eq_empty_iff {s : RangeSet} : s = ∅ ↔ ∀ x, ¬ x ∈ s :=
  ⟨fun h x => by rw [h]; exact not_mem_empty x, fun h => ext_mem (fun x => by simp [h x])⟩

/-! ### Upper bounds -/

private theorem countP_le_getLastD {l : List Nat} (h : l.Pairwise (· < ·)) {x : Nat} (hx : l.getLastD 0 ≤ x) :
    l.countP (· ≤ x) = l.length := by
  rw [List.countP_eq_length]
  intro a ha
  cases l with
  | nil => simp at ha
  | cons b l =>
    have hlast : a ≤ (b :: l).getLast (by simp) := by
      rw [← List.dropLast_append_getLast (l := b :: l) (by simp), List.mem_append] at ha
      rcases ha with ha | ha
      · have := List.dropLast_append_getLast (l := b :: l) (by simp)
        rw [← this, List.pairwise_append] at h
        exact Nat.le_of_lt (h.2.2 a ha _ (by simp))
      · simp at ha; omega
    rw [List.getLastD_eq_getLast?, List.getLast?_eq_some_getLast (by simp)] at hx
    simp at hx ⊢
    omega

theorem mem_iff_odd_of_le {s : RangeSet} {x : Nat} (hx : s.boundaries.getLastD 0 ≤ x) :
    x ∈ s ↔ s.boundaries.length % 2 = 1 := by
  rw [mem_iff, contains, countP_le_getLastD s.sorted hx]
  simp

/-- A set with an upper bound has all its members below it. -/
theorem lt_of_upperBound {s : RangeSet} {u x : Nat} (h : s.upperBound = some u) (hx : x ∈ s) : x < u := by
  unfold upperBound at h
  split at h
  · rename_i he
    simp only [Option.some.injEq] at h
    by_contra hle
    rw [mem_iff_odd_of_le (by omega)] at hx
    omega
  · simp at h

/-- A set without an upper bound contains every large number. -/
theorem mem_of_upperBound_none {s : RangeSet} (h : s.upperBound = none) :
    ∃ N, ∀ x, N ≤ x → x ∈ s := by
  unfold upperBound at h
  split at h
  · simp at h
  · refine ⟨s.boundaries.getLastD 0, fun x hx => ?_⟩
    rw [mem_iff_odd_of_le hx]
    omega

/-- The upper bound is attained: a nonempty bounded set contains the number just below it. -/
theorem pred_mem_of_upperBound {s : RangeSet} {u : Nat} (h : s.upperBound = some (u + 1)) : u ∈ s := by
  have hb : s.boundaries.length % 2 = 0 ∧ s.boundaries.getLastD 0 = u + 1 := by
    unfold upperBound at h
    split at h
    · simp_all
    · simp at h
  have hmem : u + 1 ∈ s.boundaries := by
    cases hl : s.boundaries with
    | nil => simp [hl] at hb
    | cons a l =>
      rw [hl, List.getLastD_eq_getLast?, List.getLast?_eq_some_getLast (by simp)] at hb
      simp only [Option.getD_some] at hb
      rw [← hb.2]
      exact List.getLast_mem _
  have hlast : ¬ u + 1 ∈ s := by
    rw [mem_iff_odd_of_le (by omega)]
    omega
  rw [mem_boundaries] at hmem
  rw [mem_iff] at hlast ⊢
  simp only [before] at hmem
  cases hu : s.contains u with
  | true => rfl
  | false => simp_all

end RangeSet
