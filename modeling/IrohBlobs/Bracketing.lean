import Mathlib.Data.Finset.Sort
import Mathlib.Data.Finset.Lattice.Basic

/-!
# Combining in any order

A bracketing is a binary tree: the states at its leaves are combined by an operation that can fail.  If the operation
takes what two states represent to what they represent together, then every bracketing succeeds and represents its
leaves (`Bracketing.eval_represents`).  A left fold is a bracketing of its own (`Bracketing.eval_foldl`).

The second part is about lists that are sorted and then freed of repetitions: this gives the sorted list of the set of
its elements (`eraseReps_mergeSort`).
-/

namespace IrohBlobs

inductive Bracketing (α : Type)
  | one (a : α)
  | both (left right : Bracketing α)

namespace Bracketing

variable {α ε : Type}

def leaves : Bracketing α → List α
  | one a => [a]
  | both left right => left.leaves ++ right.leaves

/-- Combine the leaves from the bottom to the top. -/
def eval (op : α → α → Except ε α) : Bracketing α → Except ε α
  | one a => .ok a
  | both left right => do
    let a ← left.eval op
    let b ← right.eval op
    op a b

/-- The bracketing of a left fold. -/
def foldl (t : Bracketing α) : List α → Bracketing α
  | [] => t
  | a :: l => foldl (both t (one a)) l

theorem leaves_foldl (t : Bracketing α) (l : List α) : (t.foldl l).leaves = t.leaves ++ l := by
  induction l generalizing t with
  | nil => simp [foldl]
  | cons a l ih => simp [foldl, ih, leaves]

theorem eval_foldl (op : α → α → Except ε α) (t : Bracketing α) (l : List α) :
    (t.foldl l).eval op = t.eval op >>= fun a => l.foldlM op a := by
  induction l generalizing t with
  | nil => simp [foldl]
  | cons a l ih =>
    rw [foldl, ih, eval]
    cases t.eval op <;> rfl

theorem eval_represents {op : α → α → Except ε α} {R : α → List α → Prop} (t : Bracketing α)
    (hone : ∀ a ∈ t.leaves, R a [a])
    (hboth : ∀ {a b : α} {l m : List α}, R a l → R b m → ∃ r, op a b = .ok r ∧ R r (l ++ m)) :
    ∃ r, t.eval op = .ok r ∧ R r t.leaves := by
  induction t with
  | one a => exact ⟨a, rfl, hone a (by simp [leaves])⟩
  | both left right ihl ihr =>
    obtain ⟨a, ha, hal⟩ := ihl fun a h => hone a (by simp [leaves, h])
    obtain ⟨b, hb, hbr⟩ := ihr fun b h => hone b (by simp [leaves, h])
    obtain ⟨r, hr, hrep⟩ := hboth hal hbr
    refine ⟨r, ?_, hrep⟩
    rw [eval, ha, hb]
    exact hr

end Bracketing

/-! ### Sorted lists without repetitions -/

section Sorted

variable {α : Type}

private theorem eraseRepsBy_loop (r : α → α → Bool) (a : α) (l acc : List α) :
    List.eraseRepsBy.loop r a l acc = acc.reverse ++ List.eraseRepsBy.loop r a l [] := by
  induction l generalizing a acc with
  | nil => simp [List.eraseRepsBy.loop]
  | cons b l ih =>
    unfold List.eraseRepsBy.loop
    cases r a b with
    | true => exact ih a acc
    | false =>
      simp only
      rw [ih b (a :: acc), ih b [a]]
      simp

private theorem eraseReps_cons_cons [DecidableEq α] (a b : α) (l : List α) :
    (a :: b :: l).eraseReps = if a = b then (b :: l).eraseReps else a :: (b :: l).eraseReps := by
  by_cases h : a = b
  · subst h
    simp [List.eraseReps, List.eraseRepsBy, List.eraseRepsBy.loop]
  · have hloop := eraseRepsBy_loop (fun x y : α => x == y) b l [a]
    simp only [List.eraseReps, List.eraseRepsBy, List.eraseRepsBy.loop, beq_eq_false_iff_ne.mpr h, if_neg h]
    simpa using hloop

private theorem mem_eraseReps [DecidableEq α] {l : List α} {x : α} : x ∈ l.eraseReps ↔ x ∈ l := by
  induction l with
  | nil => simp [List.eraseReps, List.eraseRepsBy]
  | cons a l ih =>
    cases l with
    | nil => simp [List.eraseReps, List.eraseRepsBy, List.eraseRepsBy.loop]
    | cons b l =>
      rw [eraseReps_cons_cons]
      split
      · next h => simp [ih, h]
      · simp [ih]

private theorem pairwise_eraseReps [LinearOrder α] {l : List α} (h : l.Pairwise (· ≤ ·)) :
    l.eraseReps.Pairwise (· < ·) := by
  induction l with
  | nil => simp [List.eraseReps, List.eraseRepsBy]
  | cons a l ih =>
    cases l with
    | nil => simp [List.eraseReps, List.eraseRepsBy, List.eraseRepsBy.loop]
    | cons b l =>
      rw [List.pairwise_cons] at h
      rw [eraseReps_cons_cons]
      split
      · exact ih h.2
      · next hne =>
        refine List.pairwise_cons.mpr ⟨?_, ih h.2⟩
        intro c hc
        have hab : a < b := lt_of_le_of_ne (h.1 b (by simp)) hne
        rcases List.mem_cons.mp (mem_eraseReps.mp hc) with rfl | hc
        · exact hab
        · exact lt_of_lt_of_le hab ((List.pairwise_cons.mp h.2).1 c hc)

/-- A strictly increasing list is the sorted list of its elements. -/
theorem sort_toFinset_of_pairwise [LinearOrder α] {l : List α} (h : l.Pairwise (· < ·)) : l.toFinset.sort (· ≤ ·) = l :=
  (List.toFinset_sort (· ≤ ·) (h.imp ne_of_lt)).mpr (h.imp le_of_lt)

theorem eraseReps_mergeSort [LinearOrder α] (l : List α) :
    (l.mergeSort (fun a b => decide (a ≤ b))).eraseReps = l.toFinset.sort (· ≤ ·) := by
  have hsorted : (l.mergeSort (fun a b => decide (a ≤ b))).Pairwise (· ≤ ·) := by
    have h := @List.pairwise_mergeSort α (fun a b => decide (a ≤ b))
      (fun a b c hab hbc => by simpa using le_trans (by simpa using hab) (by simpa using hbc))
      (fun a b => by simpa using le_total a b) l
    exact h.imp (by simp)
  rw [← sort_toFinset_of_pairwise (pairwise_eraseReps hsorted)]
  congr 1
  ext x
  simp [mem_eraseReps]

end Sorted

end IrohBlobs
