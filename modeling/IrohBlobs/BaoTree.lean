import IrohBlobs.Merkle

/-!
# The stored nodes of a tree

Only the pairs of nodes with more than one chunk group (16 chunks) are stored, in pre-order.  `preOrderOffset` finds the
position of a node given by its number, as `BaoTree::pre_order_offset` does; `slot` computes it from the path
(`preOrderOffset_node`).  The positions of the stored nodes of a tree are distinct and without gaps (`slot_inj`,
`slot_surj`), and they depend only on the places of the nodes on the path (`slot_congr`).
-/

namespace IrohBlobs

namespace BaoTree

open Merkle

/-- The number of the node at a path.  Nodes are numbered in order: the number of a node is one less than the first
chunk of its right child. -/
def nodeAt (n : Nat) (p : List Bool) : Nat := (sub n p).1 + left (sub n p).2 - 1

/-- The position of the pair of a node in the outboard of a tree with `n` chunks, in pre-order.  Nodes within a chunk
group are not stored. -/
def preOrderOffset (n node : Nat) : Option Nat :=
  if n ≤ 16 then none
  else if node + 1 = left n then some 0
  else if node + 1 < left n then (preOrderOffset (left n) node).map (· + 1)
  else (preOrderOffset (n - left n) (node - left n)).map (· + left n / 16)
termination_by n
decreasing_by
  · exact left_lt (by omega)
  · have := left_pos n
    omega

/-- The position of the pair of the node at a path. -/
def slot : Nat → List Bool → Nat
  | _, [] => 0
  | n, false :: p => slot (left n) p + 1
  | n, true :: p => slot (n - left n) p + left n / 16

/-- The number of pairs in the outboard. -/
def outboardPairs (n : Nat) : Nat := (n + 15) / 16 - 1

private theorem nodeAt_left {n : Nat} {p : List Bool} (hp : IsPath 1 n (false :: p)) (hm : 1 < (sub (left n) p).2) :
    nodeAt n (false :: p) = nodeAt (left n) p ∧ nodeAt (left n) p + 1 < left n := by
  have hbounds := sub_bounds (left_pos n) hp.2
  have h1 := left_lt hm
  have h2 := left_pos (sub (left n) p).2
  refine ⟨rfl, ?_⟩
  unfold nodeAt
  omega

private theorem nodeAt_right {n : Nat} {p : List Bool} :
    nodeAt n (true :: p) = left n + nodeAt (n - left n) p ∧ 0 < nodeAt (n - left n) p + 1 := by
  have h1 := left_pos (sub (n - left n) p).2
  refine ⟨?_, by omega⟩
  unfold nodeAt
  simp only [sub]
  omega

/-- The position of a stored node. -/
theorem preOrderOffset_node {n : Nat} {p : List Bool} (hp : IsPath 1 n p) (hm : 16 < (sub n p).2) :
    preOrderOffset n (nodeAt n p) = some (slot n p) := by
  induction p generalizing n with
  | nil =>
    have h1 := left_pos n
    have h2 : nodeAt n [] + 1 = left n := by
      unfold nodeAt
      simp only [sub]
      omega
    simp only [sub] at hm
    rw [preOrderOffset, if_neg (by omega), if_pos h2, slot]
  | cons b p ih =>
    have hle : (sub n (b :: p)).2 ≤ n := by have := sub_bounds (by have := hp.lt; omega) hp; omega
    cases b with
    | false =>
      have hm' : 16 < (sub (left n) p).2 := hm
      obtain ⟨h1, h2⟩ := nodeAt_left hp (by omega)
      rw [h1, preOrderOffset, if_neg (by omega), if_neg (by omega), if_pos h2, ih hp.2 hm', slot, Option.map_some]
    | true =>
      have hm' : 16 < (sub (n - left n) p).2 := hm
      obtain ⟨h1, h2⟩ := @nodeAt_right n p
      rw [h1, preOrderOffset, if_neg (by omega), if_neg (by omega), if_neg (by omega),
        Nat.add_sub_cancel_left, ih hp.2 hm', slot, Option.map_some]

/-- A node within a chunk group has no position. -/
theorem preOrderOffset_of_le {n : Nat} {p : List Bool} (hp : IsPath 1 n p) (h1 : 1 < (sub n p).2)
    (hm : (sub n p).2 ≤ 16) :
    preOrderOffset n (nodeAt n p) = none := by
  induction p generalizing n with
  | nil =>
    simp only [sub] at hm
    rw [preOrderOffset, if_pos hm]
  | cons b p ih =>
    rw [preOrderOffset]
    by_cases hn : n ≤ 16
    · rw [if_pos hn]
    · rw [if_neg hn]
      cases b with
      | false =>
        obtain ⟨h2, h3⟩ := nodeAt_left hp h1
        rw [h2, if_neg (by omega), if_pos h3, ih hp.2 h1 hm, Option.map_none]
      | true =>
        obtain ⟨h2, h3⟩ := @nodeAt_right n p
        rw [h2, if_neg (by omega), if_neg (by omega), Nat.add_sub_cancel_left, ih hp.2 h1 hm, Option.map_none]

/-- The position depends only on the places of the nodes on the path. -/
theorem slot_congr {n n' : Nat} {p : List Bool} (h : Agrees n n' p) : slot n p = slot n' p := by
  induction p generalizing n n' with
  | nil => rfl
  | cons b p ih =>
    cases b with
    | false =>
      obtain ⟨h1, h2⟩ := h
      rw [slot, slot, ih h2]
    | true =>
      obtain ⟨h1, h2⟩ := h
      rw [slot, slot, ih h2, h1]

/-- The left child of a node that is stored consists of whole chunk groups. -/
theorem sixteen_dvd_left {n : Nat} (h : 16 < n) : 16 ∣ left n := by
  have h1 : 2 ^ 4 ≤ left n := (two_pow_lt_iff (by omega)).mp h
  unfold left at h1 ⊢
  exact Nat.pow_dvd_pow 2 (Nat.pow_le_pow_iff_right (by omega) |>.mp h1)

/-- The stored nodes are numbered below the number of pairs. -/
theorem slot_lt {n : Nat} {p : List Bool} (hp : IsPath 16 n p) (hm : 16 < (sub n p).2) :
    slot n p < outboardPairs n := by
  unfold outboardPairs
  induction p generalizing n with
  | nil =>
    simp only [sub, slot] at *
    omega
  | cons b p ih =>
    have hn := hp.lt
    have hl := left_lt (n := n) (by omega)
    obtain ⟨k, hk⟩ := sixteen_dvd_left hn
    cases b with
    | false =>
      have := ih hp.2 hm
      simp only [slot]
      omega
    | true =>
      have := ih hp.2 hm
      simp only [slot]
      omega

theorem slot_inj {n : Nat} {p q : List Bool} (hp : IsPath 16 n p) (hpm : 16 < (sub n p).2) (hq : IsPath 16 n q)
    (hqm : 16 < (sub n q).2) (h : slot n p = slot n q) : p = q := by
  induction p generalizing n q with
  | nil =>
    cases q with
    | nil => rfl
    | cons b q =>
      have hn := hq.lt
      have h1 : 2 ^ 4 ≤ left n := (two_pow_lt_iff (by omega)).mp hn
      cases b with
      | false => simp only [slot] at h; omega
      | true => simp only [slot] at h; omega
  | cons b p ih =>
    have hn := hp.lt
    have h1 : 2 ^ 4 ≤ left n := (two_pow_lt_iff (by omega)).mp hn
    have hl := left_lt (n := n) (by omega)
    -- the positions below the left child come before those below the right child
    have hleft : ∀ r, IsPath 16 (left n) r → 16 < (sub (left n) r).2 → slot (left n) r + 1 < left n / 16 := by
      intro r hr hrm
      have := slot_lt hr hrm
      obtain ⟨k, hk⟩ := sixteen_dvd_left hn
      unfold outboardPairs at this
      omega
    cases q with
    | nil =>
      cases b with
      | false => simp only [slot] at h; omega
      | true => simp only [slot] at h; omega
    | cons b' q =>
      cases b with
      | false =>
        cases b' with
        | false =>
          simp only [slot, Nat.add_right_cancel_iff] at h
          rw [ih hp.2 hpm hq.2 hqm h]
        | true =>
          have := hleft p hp.2 hpm
          simp only [slot] at h
          omega
      | true =>
        cases b' with
        | false =>
          have := hleft q hq.2 hqm
          simp only [slot] at h
          omega
        | true =>
          simp only [slot, Nat.add_right_cancel_iff] at h
          rw [ih hp.2 hpm hq.2 hqm h]

/-- Every position of the outboard belongs to a node. -/
theorem slot_surj {n j : Nat} (hj : j < outboardPairs n) : ∃ p, IsPath 16 n p ∧ 16 < (sub n p).2 ∧ slot n p = j := by
  induction n using Nat.strong_induction_on generalizing j with
  | _ n ih =>
  have hn : 16 < n := by
    unfold outboardPairs at hj
    omega
  have hl := left_lt (n := n) (by omega)
  have hp := left_pos n
  obtain ⟨k, hk⟩ := sixteen_dvd_left hn
  unfold outboardPairs at *
  by_cases h0 : j = 0
  · exact ⟨[], trivial, hn, h0.symm⟩
  · by_cases hlt : j < left n / 16
    · obtain ⟨p, h1, h2, h3⟩ := ih (left n) hl (j := j - 1) (by omega)
      exact ⟨false :: p, ⟨hn, h1⟩, h2, by simp only [slot]; omega⟩
    · obtain ⟨p, h1, h2, h3⟩ := ih (n - left n) (by omega) (j := j - left n / 16) (by omega)
      exact ⟨true :: p, ⟨hn, h1⟩, h2, by simp only [slot]; omega⟩

/-- The chunk groups start at multiples of 16, and only the last one can have less than 16 chunks. -/
theorem group_aligned {n : Nat} {p : List Bool} (hn : 0 < n) (hp : IsPath 16 n p) (hm : (sub n p).2 ≤ 16) :
    16 ∣ (sub n p).1 ∧ ((sub n p).1 + (sub n p).2 = n ∨ (sub n p).2 = 16) := by
  induction p generalizing n with
  | nil => exact ⟨by simp [sub], by simp [sub]⟩
  | cons b p ih =>
    have hl := left_lt (n := n) (by have := hp.lt; omega)
    obtain ⟨k, hk⟩ := sixteen_dvd_left hp.lt
    cases b with
    | false =>
      obtain ⟨⟨j, hj⟩, h2⟩ := ih (left_pos n) hp.2 hm
      have hpos := (sub_bounds (left_pos n) (hp.2.mono (by omega))).1
      simp only [sub] at hm ⊢
      exact ⟨⟨j, hj⟩, Or.inr (by omega)⟩
    | true =>
      obtain ⟨⟨j, hj⟩, h2⟩ := ih (n := n - left n) (by omega) hp.2 hm
      simp only [sub] at hm ⊢
      exact ⟨⟨k + j, by omega⟩, by omega⟩

/-- Chunks of one group are together in a node. -/
theorem mem_group_iff {n x : Nat} {p : List Bool} (hn : 0 < n) (hp : IsPath 16 n p)
    (hm : (sub n p).2 ≤ 16) (hx : x < n) :
    (sub n p).1 ≤ x ∧ x < (sub n p).1 + (sub n p).2 ↔ x / 16 = (sub n p).1 / 16 := by
  obtain ⟨⟨k, hk⟩, h⟩ := group_aligned hn hp hm
  omega

end BaoTree

end IrohBlobs
