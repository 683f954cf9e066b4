import Mathlib.Tactic

/-!
# Positions in consecutive blocks

Blocks of the given lengths are laid out one after the other.  A number below the sum of the lengths is a position in
exactly one of them: the walk `locate` finds the block and the position in it, and `position` goes back
(`locate_eq_some_iff`).
-/

namespace PrefixSum

/-- The block of a number, and the position in the block. -/
def locate : List Nat → Nat → Option (Nat × Nat)
  | [], _ => none
  | count :: counts, n => if n < count then some (0, n) else (locate counts (n - count)).map fun (i, j) => (i + 1, j)

/-- The number of a position in a block. -/
def position (counts : List Nat) (i j : Nat) : Nat := (counts.take i).sum + j

theorem locate_cons_of_lt {count n : Nat} (h : n < count) (counts : List Nat) :
    locate (count :: counts) n = some (0, n) :=
  if_pos h

theorem locate_cons_of_le {count n : Nat} (h : count ≤ n) (counts : List Nat) :
    locate (count :: counts) n = (locate counts (n - count)).map fun (i, j) => (i + 1, j) :=
  if_neg (Nat.not_lt.mpr h)

theorem position_cons_succ (count : Nat) (counts : List Nat) (i j : Nat) :
    position (count :: counts) (i + 1) j = count + position counts i j := by
  rw [position, position, List.take_succ_cons, List.sum_cons, Nat.add_assoc]

theorem locate_eq_some_iff {counts : List Nat} {n i j : Nat} :
    locate counts n = some (i, j) ↔ ∃ count, counts[i]? = some count ∧ j < count ∧ n = position counts i j := by
  induction counts generalizing n i with
  | nil => simp [locate]
  | cons count counts ih =>
    rcases Nat.lt_or_ge n count with hlt | hge
    · rw [locate_cons_of_lt hlt]
      cases i with
      | zero =>
        simp only [List.getElem?_cons_zero, Option.some.injEq, Prod.mk.injEq, true_and, exists_eq_left', position,
          List.take_zero, List.sum_nil, Nat.zero_add]
        omega
      | succ i =>
        refine iff_of_false (by simp) ?_
        rintro ⟨_, _, _, hn⟩
        rw [position_cons_succ] at hn
        omega
    · rw [locate_cons_of_le hge]
      cases i with
      | zero =>
        refine iff_of_false (by simp) ?_
        rintro ⟨_, hcount, hj, hn⟩
        rw [List.getElem?_cons_zero, Option.some.injEq] at hcount
        simp only [position, List.take_zero, List.sum_nil] at hn
        omega
      | succ i =>
        have hstep : (locate counts (n - count)).map (fun (i, j) => (i + 1, j)) = some (i + 1, j) ↔
            locate counts (n - count) = some (i, j) := by
          simp
        rw [hstep, ih, List.getElem?_cons_succ]
        simp only [position_cons_succ]
        constructor
        · rintro ⟨c, hc, hj, hn⟩
          exact ⟨c, hc, hj, by omega⟩
        · rintro ⟨c, hc, hj, hn⟩
          exact ⟨c, hc, hj, by omega⟩

theorem exists_locate {counts : List Nat} {n : Nat} (h : n < counts.sum) : ∃ i j, locate counts n = some (i, j) := by
  induction counts generalizing n with
  | nil =>
    rw [List.sum_nil] at h
    omega
  | cons count counts ih =>
    rcases Nat.lt_or_ge n count with hlt | hge
    · exact ⟨0, n, locate_cons_of_lt hlt counts⟩
    · rw [List.sum_cons] at h
      obtain ⟨i, j, hij⟩ := ih (n := n - count) (by omega)
      exact ⟨i + 1, j, by rw [locate_cons_of_le hge, hij]; rfl⟩

theorem position_lt {counts : List Nat} {i j count : Nat} (hcount : counts[i]? = some count) (hj : j < count) :
    position counts i j < counts.sum := by
  have htake : (counts.take i).sum + (counts.drop i).sum = counts.sum := by
    rw [← List.sum_append, List.take_append_drop]
  obtain ⟨hi, rfl⟩ := List.getElem?_eq_some_iff.mp hcount
  rw [List.drop_eq_getElem_cons hi, List.sum_cons] at htake
  rw [position]
  omega

end PrefixSum
