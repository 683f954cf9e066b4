import IrohBlobs.Provable

/-!
# The outboard of a blob

The pairs of the stored nodes in pre-order.  The pair of a node is at the position that `pre_order_offset` gives to the
node (`getElem?_preOrder`), so a file in which the pairs of all stored nodes are in place starts with the outboard
(`cell_eq_of_hasPair`).
-/

namespace IrohBlobs

namespace Outboard

open Merkle BaoTree Provable

variable {H : Type} (f : HashFns UInt8 H) (blob : List UInt8)

/-- The hashes of the stored nodes in the subtree at a path, which has `n` chunks. -/
def preOrder (p : List Bool) (n : Nat) : List H :=
  if 16 < n then
    nodeHash f blob (p ++ [false]) :: nodeHash f blob (p ++ [true]) ::
      (preOrder (p ++ [false]) (left n) ++ preOrder (p ++ [true]) (n - left n))
  else []
termination_by n
decreasing_by
  · exact left_lt (by omega)
  · have := left_pos n
    omega

/-- The outboard: two hashes for each stored node. -/
def outboardOf : List H := preOrder f blob [] (treeChunks blob.length)

variable {f blob}

private theorem preOrder_of_le {p : List Bool} {n : Nat} (h : n ≤ 16) : preOrder f blob p n = [] := by
  rw [preOrder, if_neg (by omega)]

private theorem preOrder_of_lt {p : List Bool} {n : Nat} (h : 16 < n) :
    preOrder f blob p n = nodeHash f blob (p ++ [false]) :: nodeHash f blob (p ++ [true]) ::
      (preOrder f blob (p ++ [false]) (left n) ++ preOrder f blob (p ++ [true]) (n - left n)) := by
  rw [preOrder, if_pos h]

/-- The left child consists of whole chunk groups, so the pairs of the children add up. -/
private theorem outboardPairs_split {n : Nat} (h : 16 < n) :
    outboardPairs (left n) + 1 = left n / 16 ∧ outboardPairs n = outboardPairs (left n) +
      outboardPairs (n - left n) + 1 := by
  have hl := left_lt (n := n) (by omega)
  have hp := left_pos n
  obtain ⟨k, hk⟩ := sixteen_dvd_left h
  unfold outboardPairs
  omega

private theorem length_preOrder (p : List Bool) (n : Nat) : (preOrder f blob p n).length = 2 * outboardPairs n := by
  induction n using Nat.strong_induction_on generalizing p with
  | _ n ih =>
    rcases Nat.lt_or_ge 16 n with h | h
    · have hl := left_lt (n := n) (by omega)
      have hp := left_pos n
      obtain ⟨-, hsplit⟩ := outboardPairs_split h
      rw [preOrder_of_lt h, List.length_cons, List.length_cons, List.length_append, ih _ hl, ih _ (by omega)]
      omega
    · rw [preOrder_of_le h, List.length_nil]
      unfold outboardPairs
      omega

/-- The pair of a node is at its position. -/
private theorem getElem?_preOrder {p q : List Bool} {n : Nat} (hq : IsPath 16 n q) (hm : 16 < (sub n q).2) :
    (preOrder f blob p n)[2 * slot n q]? = some (nodeHash f blob (p ++ q ++ [false])) ∧
      (preOrder f blob p n)[2 * slot n q + 1]? = some (nodeHash f blob (p ++ q ++ [true])) := by
  induction q generalizing p n with
  | nil =>
    have hn : 16 < n := hm
    rw [preOrder_of_lt hn, List.append_nil]
    exact ⟨rfl, rfl⟩
  | cons b q ih =>
    have hn := hq.lt
    obtain ⟨hfirst, hsplit⟩ := outboardPairs_split hn
    rw [preOrder_of_lt hn, List.append_cons p b q]
    cases b with
    | false =>
      obtain ⟨h1, h2⟩ := ih (p := p ++ [false]) hq.2 hm
      have hlt := slot_lt hq.2 hm
      have hslot : slot n (false :: q) = slot (left n) q + 1 := rfl
      have e1 : 2 * slot n (false :: q) = 2 * slot (left n) q + 1 + 1 := by omega
      have e2 : 2 * slot n (false :: q) + 1 = 2 * slot (left n) q + 1 + 1 + 1 := by omega
      rw [e2, e1, List.getElem?_cons_succ, List.getElem?_cons_succ, List.getElem?_cons_succ, List.getElem?_cons_succ,
        List.getElem?_append_left (by rw [length_preOrder]; omega),
        List.getElem?_append_left (by rw [length_preOrder]; omega)]
      exact ⟨h1, h2⟩
    | true =>
      obtain ⟨h1, h2⟩ := ih (p := p ++ [true]) hq.2 hm
      have hslot : slot n (true :: q) = slot (n - left n) q + left n / 16 := rfl
      have e1 : 2 * slot n (true :: q) = 2 * outboardPairs (left n) + 2 * slot (n - left n) q + 1 + 1 := by omega
      have e2 : 2 * slot n (true :: q) + 1 = 2 * outboardPairs (left n) + (2 * slot (n - left n) q + 1) + 1 + 1 := by
        omega
      rw [e2, e1, List.getElem?_cons_succ, List.getElem?_cons_succ, List.getElem?_cons_succ, List.getElem?_cons_succ,
        List.getElem?_append_right (by rw [length_preOrder]; omega),
        List.getElem?_append_right (by rw [length_preOrder]; omega), length_preOrder, Nat.add_sub_cancel_left,
        Nat.add_sub_cancel_left]
      exact ⟨h1, h2⟩

theorem length_outboardOf : (outboardOf f blob).length = 2 * outboardPairs (treeChunks blob.length) :=
  length_preOrder _ _

private theorem getElem?_outboardOf {p : List Bool} (hp : IsStored blob p) :
    (outboardOf f blob)[2 * slot (treeChunks blob.length) p]? = some (nodeHash f blob (p ++ [false])) ∧
      (outboardOf f blob)[2 * slot (treeChunks blob.length) p + 1]? = some (nodeHash f blob (p ++ [true])) :=
  getElem?_preOrder (p := []) hp.1 hp.2

/-- With the pairs of all stored nodes in place, a file starts with the outboard. -/
theorem cell_eq_of_hasPair {outboard : Content H} (h : ∀ p, IsStored blob p → HasPair f blob outboard p) {i : Nat}
    (hi : i < 2 * outboardPairs (treeChunks blob.length)) : outboard.cell i = (outboardOf f blob)[i]? := by
  obtain ⟨p, hp, hm, hslot⟩ := slot_surj (n := treeChunks blob.length) (j := i / 2) (by omega)
  obtain ⟨h1, h2⟩ := getElem?_outboardOf (f := f) ⟨hp, hm⟩
  obtain ⟨h3, h4⟩ := h p ⟨hp, hm⟩
  rcases Nat.mod_two_eq_zero_or_one i with hmod | hmod
  · have e : i = 2 * slot (treeChunks blob.length) p := by omega
    rw [e, h1, h3]
  · have e : i = 2 * slot (treeChunks blob.length) p + 1 := by omega
    rw [e, h2, h4]

/-- A blob of one chunk group has no outboard. -/
theorem outboardOf_nil_iff : outboardOf f blob = [] ↔ outboardPairs (treeChunks blob.length) = 0 := by
  rw [← List.length_eq_zero_iff, length_outboardOf]
  omega

end Outboard

end IrohBlobs
