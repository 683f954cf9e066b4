import IrohBlobs.RangeSet

/-!
# The intervals of a set

`RangeSet.iter` lists the intervals of a set in increasing order; only the last of them can have an open end.
-/

namespace RangeSet

/-- The intervals between the boundaries: a start, and an end unless the interval is open. -/
def iterFrom : List Nat → List (Nat × Option Nat)
  | [] => []
  | [a] => [(a, none)]
  | a :: b :: rest => (a, some b) :: iterFrom rest

def iter (s : RangeSet) : List (Nat × Option Nat) := iterFrom s.boundaries

/-- The point is in the interval. -/
def InInterval (r : Nat × Option Nat) (x : Nat) : Prop := r.1 ≤ x ∧ ∀ e, r.2 = some e → x < e

private theorem countP_eq_zero_of_lt {l : List Nat} {x : Nat} (h : ∀ y ∈ l, x < y) : l.countP (· ≤ x) = 0 := by
  rw [List.countP_eq_zero]
  intro y hy
  have hlt := h y hy
  simp only [decide_eq_true_eq]
  omega

/-- The first two boundaries are those of an interval. -/
theorem countP_cons_cons {a b x : Nat} {rest : List Nat} (h : (a :: b :: rest).Pairwise (· < ·)) :
    (a :: b :: rest).countP (· ≤ x) % 2 = 1 ↔ (a ≤ x ∧ x < b) ∨ rest.countP (· ≤ x) % 2 = 1 := by
  rw [List.pairwise_cons, List.pairwise_cons] at h
  obtain ⟨ha, hb, -⟩ := h
  have hab : a < b := ha b List.mem_cons_self
  rw [List.countP_cons, List.countP_cons]
  simp only [decide_eq_true_eq]
  by_cases hx : b ≤ x
  · rw [if_pos hx, if_pos (by omega)]
    omega
  · have hzero : rest.countP (· ≤ x) = 0 := by
      apply countP_eq_zero_of_lt
      intro y hy
      have hlt := hb y hy
      omega
    rw [if_neg hx, hzero]
    split <;> omega

theorem odd_countP_iff {l : List Nat} (h : l.Pairwise (· < ·)) (x : Nat) :
    l.countP (· ≤ x) % 2 = 1 ↔ ∃ r ∈ iterFrom l, InInterval r x := by
  induction l using iterFrom.induct with
  | case1 => simp [iterFrom]
  | case2 a =>
    simp only [List.countP_cons, List.countP_nil, decide_eq_true_eq, iterFrom, List.mem_singleton,
      exists_eq_left, InInterval, reduceCtorEq, false_implies, implies_true, and_true]
    split <;> omega
  | case3 a b rest ih =>
    have hrest : rest.Pairwise (· < ·) := (List.pairwise_cons.mp (List.pairwise_cons.mp h).2).2
    rw [countP_cons_cons h, ih hrest, iterFrom, List.exists_mem_cons_iff]
    simp [InInterval]

/-- The set is the union of its intervals. -/
theorem mem_iff_iter {s : RangeSet} {x : Nat} : x ∈ s ↔ ∃ r ∈ s.iter, InInterval r x := by
  rw [mem_iff, contains, beq_iff_eq]
  exact odd_countP_iff s.sorted x

/-- The bounds of an interval. -/
theorem lt_of_mem_iter {s : RangeSet} {a e : Nat} (h : (a, some e) ∈ s.iter) : a < e := by
  have hfrom : ∀ {l : List Nat}, l.Pairwise (· < ·) → (a, some e) ∈ iterFrom l → a < e := by
    intro l
    induction l using iterFrom.induct with
    | case1 => simp [iterFrom]
    | case2 a => simp [iterFrom]
    | case3 a' b rest ih =>
      intro hl hmem
      rw [List.pairwise_cons, List.pairwise_cons] at hl
      rw [iterFrom, List.mem_cons] at hmem
      rcases hmem with heq | hmem
      · cases heq
        exact hl.1 e List.mem_cons_self
      · exact ih hl.2.2 hmem
  exact hfrom s.sorted h

private theorem le_of_mem_iterFrom {l : List Nat} {n : Nat} (h : ∀ x ∈ l, n ≤ x) {r : Nat × Option Nat}
    (hr : r ∈ iterFrom l) :
    n ≤ r.1 := by
  induction l using iterFrom.induct with
  | case1 => simp [iterFrom] at hr
  | case2 a =>
    rw [iterFrom, List.mem_singleton] at hr
    rw [hr]
    exact h a List.mem_cons_self
  | case3 a b rest ih =>
    rw [iterFrom, List.mem_cons] at hr
    rcases hr with rfl | hr
    · exact h a List.mem_cons_self
    · exact ih (fun x hx => h x (List.mem_cons_of_mem _ (List.mem_cons_of_mem _ hx))) hr

/-- The intervals are in increasing order. -/
theorem pairwise_iter (s : RangeSet) : s.iter.Pairwise (fun r r' => ∃ e, r.2 = some e ∧ e ≤ r'.1) := by
  have hfrom : ∀ {l : List Nat}, l.Pairwise (· < ·) →
    (iterFrom l).Pairwise (fun r r' => ∃ e, r.2 = some e ∧ e ≤ r'.1) := by
    intro l
    induction l using iterFrom.induct with
    | case1 => exact fun _ => List.Pairwise.nil
    | case2 a => exact fun _ => List.pairwise_singleton _ _
    | case3 a b rest ih =>
      intro hl
      rw [List.pairwise_cons, List.pairwise_cons] at hl
      rw [iterFrom, List.pairwise_cons]
      refine ⟨?_, ih hl.2.2⟩
      intro r hr
      exact ⟨b, rfl, le_of_mem_iterFrom (fun x hx => Nat.le_of_lt (hl.2.1 x hx)) hr⟩
  exact hfrom s.sorted

end RangeSet
