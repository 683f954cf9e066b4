import Mathlib.Data.Nat.Log
import Mathlib.Tactic

/-!
# Binary hash trees over chunks

The tree over `n` chunks is left balanced: the left child of a node with `n > 1` chunks has as many chunks as the
largest power of two below `n`.  A node is named by its path from the root, a list of turns.  `sub n p` is the first
chunk and the number of chunks of the node at `p`.

Two trees of different sizes can contain the same path at different places.  If the place of a node is the same in both
trees, then the places of all nodes above it are the same too (`agrees_of_sub_eq`): the first chunk of a node determines
where the path turns right.

Chunks have 1024 elements.  The hash of a subtree determines its data and its place if the hash functions are free of
collisions (`hashSubtree_inj`), so the hashes that are verified from the root downwards are those of the data
(`nodeHash_eq_parent`).
-/

namespace Merkle

/-! ### Geometry -/

/-- The number of chunks below the left child of a node with `n` chunks. -/
def left (n : Nat) : Nat := 2 ^ (n - 1).log2

theorem left_pos (n : Nat) : 0 < left n := Nat.two_pow_pos _

theorem left_lt {n : Nat} (h : 1 < n) : left n < n := by
  have := Nat.log2_self_le (n := n - 1) (by omega)
  unfold left
  omega

theorem le_two_mul_left {n : Nat} (h : 1 < n) : n ≤ 2 * left n := by
  have := Nat.lt_log2_self (n := n - 1)
  rw [Nat.pow_succ] at this
  unfold left
  omega

theorem left_eq {n k : Nat} (h1 : 2 ^ k < n) (h2 : n ≤ 2 ^ (k + 1)) : left n = 2 ^ k := by
  have hlog : (n - 1).log2 = k := by
    have := Nat.two_pow_pos k
    rw [Nat.log2_eq_iff (by omega)]
    omega
  rw [left, hlog]

theorem left_two_pow (k : Nat) : left (2 ^ (k + 1)) = 2 ^ k :=
  left_eq (Nat.pow_lt_pow_succ (by omega)) (Nat.le_refl _)

/-- The first chunk and the number of chunks of the node at a path. -/
def sub : Nat → List Bool → Nat × Nat
  | n, [] => (0, n)
  | n, false :: p => sub (left n) p
  | n, true :: p => (left n + (sub (n - left n) p).1, (sub (n - left n) p).2)

/-- All nodes above the end of the path have more than `k` chunks. -/
def IsPath (k : Nat) : Nat → List Bool → Prop
  | _, [] => True
  | n, false :: p => k < n ∧ IsPath k (left n) p
  | n, true :: p => k < n ∧ IsPath k (n - left n) p

theorem IsPath.lt {k n : Nat} {b : Bool} {p : List Bool} (h : IsPath k n (b :: p)) : k < n := by
  cases b <;> exact h.1

theorem IsPath.mono {k k' : Nat} (hk : k ≤ k') {n : Nat} {p : List Bool} (h : IsPath k' n p) : IsPath k n p := by
  induction p generalizing n with
  | nil => trivial
  | cons b p ih =>
    cases b with
    | false => exact ⟨by have := h.1; omega, ih h.2⟩
    | true => exact ⟨by have := h.1; omega, ih h.2⟩

theorem sub_append (n : Nat) (p q : List Bool) :
    sub n (p ++ q) = ((sub n p).1 + (sub (sub n p).2 q).1, (sub (sub n p).2 q).2) := by
  induction p generalizing n with
  | nil => simp [sub]
  | cons b p ih =>
    cases b with
    | false => exact ih (left n)
    | true =>
      simp only [List.cons_append, sub, ih]
      rw [Nat.add_assoc]

theorem isPath_append {k n : Nat} {p q : List Bool} :
    IsPath k n (p ++ q) ↔ IsPath k n p ∧ IsPath k (sub n p).2 q := by
  induction p generalizing n with
  | nil => simp [IsPath, sub]
  | cons b p ih =>
    cases b with
    | false => simp only [List.cons_append, IsPath, sub, ih, and_assoc]
    | true => simp only [List.cons_append, IsPath, sub, ih, and_assoc]

theorem sub_concat_left (n : Nat) (p : List Bool) : sub n (p ++ [false]) = ((sub n p).1, left (sub n p).2) := by
  simp [sub_append, sub]

theorem sub_concat_right (n : Nat) (p : List Bool) :
    sub n (p ++ [true]) = ((sub n p).1 + left (sub n p).2, (sub n p).2 - left (sub n p).2) := by
  simp [sub_append, sub]

theorem isPath_concat {k n : Nat} {p : List Bool} {b : Bool} (hp : IsPath k n p) (h : k < (sub n p).2) :
    IsPath k n (p ++ [b]) := by
  rw [isPath_append]
  cases b <;> exact ⟨hp, h, trivial⟩

/-- A node is not empty, and lies within the tree. -/
theorem sub_bounds {n : Nat} {p : List Bool} (hn : 0 < n) (h : IsPath 1 n p) :
    0 < (sub n p).2 ∧ (sub n p).1 + (sub n p).2 ≤ n := by
  induction p generalizing n with
  | nil => exact ⟨hn, by simp [sub]⟩
  | cons b p ih =>
    have hlt := left_lt h.lt
    cases b with
    | false =>
      have := ih (left_pos n) h.2
      simp only [sub]
      omega
    | true =>
      have := ih (n := n - left n) (by omega) h.2
      simp only [sub]
      omega

/-- A subtree of a perfect tree is perfect. -/
private theorem sub_two_pow {k : Nat} {p : List Bool} (h : IsPath 1 (2 ^ k) p) :
    p.length ≤ k ∧ (sub (2 ^ k) p).2 = 2 ^ (k - p.length) := by
  induction p generalizing k with
  | nil => simp [sub]
  | cons b p ih =>
    have hk : 0 < k := by
      by_contra hk
      have := h.lt
      rw [show k = 0 by omega] at this
      omega
    obtain ⟨k, rfl⟩ : ∃ k', k = k' + 1 := ⟨k - 1, by omega⟩
    have hleft := left_two_pow k
    have hright : 2 ^ (k + 1) - 2 ^ k = 2 ^ k := by rw [Nat.pow_succ]; omega
    have hp : IsPath 1 (2 ^ k) p ∧ (sub (2 ^ (k + 1)) (b :: p)).2 = (sub (2 ^ k) p).2 := by
      cases b with
      | false =>
        have := h.2
        rw [hleft] at this
        simp only [sub, hleft]
        exact ⟨this, trivial⟩
      | true =>
        have := h.2
        rw [hleft, hright] at this
        simp only [sub, hleft, hright]
        exact ⟨this, trivial⟩
    obtain ⟨h1, h2⟩ := ih hp.1
    rw [hp.2, h2, List.length_cons]
    exact ⟨by omega, by congr 1; omega⟩

/-- The nodes above the end of the path have the same place in the trees over `n` and over `n'` chunks. -/
def Agrees : Nat → Nat → List Bool → Prop
  | _, _, [] => True
  | n, n', false :: p => left n = left n' ∧ Agrees (left n) (left n') p
  | n, n', true :: p => left n = left n' ∧ Agrees (n - left n) (n' - left n') p

theorem Agrees.refl (n : Nat) (p : List Bool) : Agrees n n p := by
  induction p generalizing n with
  | nil => trivial
  | cons b p ih => cases b <;> exact ⟨rfl, ih _⟩

/-- If a path turns right, its first chunk tells how many chunks are on the left. -/
private theorem left_eq_of_sub_right {n n' : Nat} {p : List Bool} (h : IsPath 1 n (true :: p))
    (h' : IsPath 1 n' (true :: p))
    (heq : (sub n (true :: p)).1 = (sub n' (true :: p)).1) : left n = left n' := by
  have key : ∀ m, IsPath 1 m (true :: p) → left m ≤ (sub m (true :: p)).1 ∧ (sub m (true :: p)).1 < 2 * left m := by
    intro m hm
    have h1 := left_lt hm.1
    have h2 := le_two_mul_left hm.1
    have h3 := sub_bounds (by omega) hm.2
    simp only [sub]
    omega
  obtain ⟨h1, h2⟩ := key n h
  obtain ⟨h3, h4⟩ := key n' h'
  rw [heq] at h1 h2
  unfold left at *
  have hle : ∀ a b : Nat, 2 ^ a < 2 * 2 ^ b → a ≤ b := by
    intro a b hab
    by_contra hlt
    have := Nat.pow_le_pow_right (n := 2) (by omega) (show b + 1 ≤ a by omega)
    rw [Nat.pow_succ] at this
    omega
  exact congrArg (2 ^ ·) (Nat.le_antisymm (hle _ _ (by omega)) (hle _ _ (by omega)))

/-- A node that has the same place in two trees has its path in common with them. -/
theorem agrees_of_sub_eq {n n' : Nat} {p : List Bool} (h : IsPath 1 n p) (h' : IsPath 1 n' p)
    (heq : sub n p = sub n' p) : Agrees n n' p := by
  induction p generalizing n n' with
  | nil => trivial
  | cons b p ih =>
    cases b with
    | false =>
      -- both left children are perfect trees, and their size follows from that of the node
      have hl : left n = left n' := by
        have h1 := sub_two_pow (k := (n - 1).log2) h.2
        have h2 := sub_two_pow (k := (n' - 1).log2) h'.2
        have h3 : (sub (left n) p).2 = (sub (left n') p).2 := congrArg Prod.snd heq
        unfold left at h3 ⊢
        rw [h1.2, h2.2] at h3
        have := Nat.pow_right_injective (Nat.le_refl 2) h3
        congr 1
        omega
      exact ⟨hl, ih h.2 h'.2 heq⟩
    | true =>
      have hl := left_eq_of_sub_right h h' (congrArg Prod.fst heq)
      refine ⟨hl, ih h.2 h'.2 ?_⟩
      simp only [sub, hl, Prod.mk.injEq, Nat.add_left_cancel_iff] at heq
      rw [hl]
      exact Prod.ext heq.1 heq.2

/-- Only the nodes on the right edge reach the end of the tree. -/
theorem sub_end_iff {n : Nat} {p : List Bool} (hn : 0 < n) (h : IsPath 1 n p) :
    (sub n p).1 + (sub n p).2 = n ↔ ∀ b ∈ p, b = true := by
  induction p generalizing n with
  | nil => simp [sub]
  | cons b p ih =>
    have hlt := left_lt h.lt
    cases b with
    | false =>
      have := sub_bounds (left_pos n) h.2
      simp only [sub, List.mem_cons, forall_eq_or_imp]
      constructor
      · intro heq
        omega
      · rintro ⟨hf, -⟩
        cases hf
    | true =>
      rw [List.forall_mem_cons, ← ih (n := n - left n) (by omega) h.2]
      simp only [sub, true_and]
      omega

/-- The nodes that contain a chunk lie on one path. -/
theorem exists_append_of_mem {n x : Nat} {p q : List Bool} (hn : 0 < n) (hp : IsPath 1 n p) (hq : IsPath 1 n q)
    (hxp : (sub n p).1 ≤ x ∧ x < (sub n p).1 + (sub n p).2) (hxq : (sub n q).1 ≤ x ∧ x < (sub n q).1 + (sub n q).2)
    (hlt : (sub n p).2 < (sub n q).2) : ∃ b r, p = q ++ b :: r := by
  induction q generalizing n p x with
  | nil =>
    cases p with
    | nil => omega
    | cons b r => exact ⟨b, r, rfl⟩
  | cons b q ih =>
    have hl := left_lt hq.lt
    cases p with
    | nil =>
      have := sub_bounds hn hq
      simp only [sub] at hlt hxp
      omega
    | cons b' p =>
      cases b with
      | false =>
        cases b' with
        | false =>
          obtain ⟨b, r, rfl⟩ := ih (left_pos n) hp.2 hq.2 hxp hxq hlt
          exact ⟨b, r, rfl⟩
        | true =>
          have := sub_bounds (left_pos n) hq.2
          simp only [sub] at hxp hxq
          omega
      | true =>
        cases b' with
        | false =>
          have := sub_bounds (left_pos n) hp.2
          simp only [sub] at hxp hxq
          omega
        | true =>
          simp only [sub] at hxp hxq hlt
          obtain ⟨b, r, rfl⟩ := ih (n := n - left n) (x := x - left n) (by omega) hp.2 hq.2 (by omega) (by omega) hlt
          exact ⟨b, r, rfl⟩

theorem Agrees.of_append {n n' : Nat} {p q : List Bool} (h : Agrees n n' (p ++ q)) :
    Agrees n n' p ∧ Agrees (sub n p).2 (sub n' p).2 q := by
  induction p generalizing n n' with
  | nil => exact ⟨trivial, h⟩
  | cons b p ih =>
    cases b with
    | false =>
      obtain ⟨h1, h2⟩ := ih h.2
      exact ⟨⟨h.1, h1⟩, h2⟩
    | true =>
      obtain ⟨h1, h2⟩ := ih h.2
      exact ⟨⟨h.1, h1⟩, h2⟩

/-- Whether a node has more than `2 ^ k` chunks can be seen from its left child. -/
theorem two_pow_lt_iff {n k : Nat} (h : 1 < n) : 2 ^ k < n ↔ 2 ^ k ≤ left n := by
  constructor
  · intro hlt
    refine Nat.pow_le_pow_right (by omega) ?_
    rw [Nat.le_log2 (by omega)]
    omega
  · intro hle
    have := left_lt h
    omega

/-- Every chunk is in a node with at most `k` chunks. -/
theorem exists_sub_le {k n x : Nat} (hk : 0 < k) (hx : x < n) :
    ∃ p, IsPath k n p ∧ (sub n p).2 ≤ k ∧ (sub n p).1 ≤ x ∧ x < (sub n p).1 + (sub n p).2 := by
  induction n using Nat.strong_induction_on generalizing x with
  | _ n ih =>
  by_cases hn : n ≤ k
  · exact ⟨[], trivial, hn, by simp [sub], by simpa [sub] using hx⟩
  · have h1 := left_lt (n := n) (by omega)
    have h2 := left_pos n
    by_cases hlt : x < left n
    · obtain ⟨p, hp, hrest⟩ := ih (left n) h1 hlt
      exact ⟨false :: p, ⟨by omega, hp⟩, hrest⟩
    · obtain ⟨p, hp, h3, h4, h5⟩ := ih (n - left n) (by omega) (x := x - left n) (by omega)
      refine ⟨true :: p, ⟨by omega, hp⟩, h3, ?_, ?_⟩
      · simp only [sub]
        omega
      · simp only [sub]
        omega

/-- Up to the end of a node that has the same place in two trees, the trees have the same nodes with at most `k`
chunks. -/
theorem exists_common_sub {k n n' x : Nat} {p : List Bool} (hk : 0 < k) (hn : 0 < n) (hp : IsPath k n p)
    (hp' : IsPath k n' p) (hagree : Agrees n n' p) (hsub : sub n p = sub n' p) (hx : x < (sub n p).1 + (sub n p).2) :
    ∃ q, IsPath k n q ∧ IsPath k n' q ∧ Agrees n n' q ∧ sub n q = sub n' q ∧ (sub n q).2 ≤ k ∧ (sub n q).1 ≤ x ∧
      x < (sub n q).1 + (sub n q).2 := by
  induction p generalizing n n' x with
  | nil =>
    simp only [sub, Prod.mk.injEq, true_and] at hsub
    subst hsub
    obtain ⟨q, hq, hrest⟩ := exists_sub_le hk (show x < n by simpa [sub] using hx)
    exact ⟨q, hq, hq, Agrees.refl n q, rfl, hrest⟩
  | cons b p ih =>
    have hlt := left_lt (n := n) (by have := hp.lt; omega)
    cases b with
    | false =>
      obtain ⟨q, hq, hq', h1, h2, hrest⟩ := ih (left_pos n) hp.2 hp'.2 hagree.2 hsub hx
      exact ⟨false :: q, ⟨hp.1, hq⟩, ⟨hp'.1, hq'⟩, ⟨hagree.1, h1⟩, h2, hrest⟩
    | true =>
      have hl := hagree.1
      by_cases hxl : x < left n
      · -- the left children are equal
        obtain ⟨q, hq, hrest⟩ := exists_sub_le hk hxl
        refine ⟨false :: q, ⟨hp.1, hq⟩, ⟨hp'.1, by rwa [← hl]⟩, ⟨hl, by rw [← hl]; exact Agrees.refl _ _⟩, ?_, hrest⟩
        simp only [sub, hl]
      · simp only [sub, Prod.mk.injEq, hl, Nat.add_left_cancel_iff] at hsub
        have hsub' : sub (n - left n) p = sub (n' - left n') p := by
          rw [hl]
          exact Prod.ext hsub.1 hsub.2
        simp only [sub] at hx
        obtain ⟨q, hq, hq', h1, h2, h3, h4, h5⟩ := ih (n := n - left n) (x := x - left n) (by omega) hp.2 hp'.2 hagree.2
          hsub' (by omega)
        refine ⟨true :: q, ⟨hp.1, hq⟩, ⟨hp'.1, hq'⟩, ⟨hl, h1⟩, ?_, h3, ?_, ?_⟩
        · simp only [sub, h2]
          rw [hl]
        · simp only [sub]
          omega
        · simp only [sub]
          omega

/-- A path that agrees with one through nodes of more than `2 ^ k` chunks is one. -/
theorem IsPath.congr {k n n' : Nat} {p : List Bool} (h : IsPath (2 ^ k) n p) (h' : IsPath 1 n' p)
    (hagree : Agrees n n' p) :
    IsPath (2 ^ k) n' p := by
  have key : ∀ m m', 1 < m' → 2 ^ k < m → left m = left m' → 2 ^ k < m' := by
    intro m m' h1 h2 h3
    have hpos := Nat.two_pow_pos k
    rw [two_pow_lt_iff h1, ← h3]
    exact (two_pow_lt_iff (by omega)).mp h2
  induction p generalizing n n' with
  | nil => trivial
  | cons b p ih =>
    cases b with
    | false => exact ⟨key n n' h'.1 h.1 hagree.1, ih h.2 h'.2 hagree.2⟩
    | true => exact ⟨key n n' h'.1 h.1 hagree.1, ih h.2 h'.2 hagree.2⟩

/-! ### Hashes -/

variable {α H : Type}

/-- The number of chunks of data of the given length. -/
def chunks (len : Nat) : Nat := (len + 1023) / 1024

/-- The number of chunks of the tree: there is at least one. -/
def treeChunks (len : Nat) : Nat := max 1 (chunks len)

/-- The hash functions for chunks and for pairs of hashes.  A chunk is hashed with its index; the root is special. -/
structure HashFns (α H : Type) where
  chunk : Nat → List α → Bool → H
  parent : H → H → Bool → H

/-- No two inputs have the same hash. -/
structure CollisionFree (f : HashFns α H) : Prop where
  chunk_inj : ∀ {s s' d d' r r'}, f.chunk s d r = f.chunk s' d' r' → s = s' ∧ d = d'
  parent_inj : ∀ {a b a' b' r r'}, f.parent a b r = f.parent a' b' r' → a = a' ∧ b = b'
  chunk_ne_parent : ∀ {s d r a b r'}, f.chunk s d r ≠ f.parent a b r'

/-- The hash of the data of a subtree that starts at a chunk. -/
def hashSubtree (f : HashFns α H) (start : Nat) (data : List α) (isRoot : Bool) : H :=
  if chunks data.length ≤ 1 then f.chunk start data isRoot
  else
    f.parent (hashSubtree f start (data.take (left (chunks data.length) * 1024)) false)
      (hashSubtree f (start + left (chunks data.length)) (data.drop (left (chunks data.length) * 1024)) false) isRoot
termination_by data.length
decreasing_by
  all_goals
    rename_i h
    have hl := left_lt (n := chunks data.length) (by omega)
    have hp := left_pos (chunks data.length)
    unfold chunks at *
    simp only [List.length_take, List.length_drop]
    omega

theorem hashSubtree_of_le {f : HashFns α H} {s : Nat} {d : List α} {r : Bool} (h : chunks d.length ≤ 1) :
    hashSubtree f s d r = f.chunk s d r := by
  rw [hashSubtree, if_pos h]

theorem hashSubtree_of_lt {f : HashFns α H} {s : Nat} {d : List α} {r : Bool} (h : 1 < chunks d.length) :
    hashSubtree f s d r = f.parent (hashSubtree f s (d.take (left (chunks d.length) * 1024)) false)
      (hashSubtree f (s + left (chunks d.length)) (d.drop (left (chunks d.length) * 1024)) false) r := by
  rw [hashSubtree, if_neg (by omega)]

/-- The hash of a subtree determines where it starts and its data. -/
theorem hashSubtree_inj {f : HashFns α H} (hf : CollisionFree f) {s s' : Nat} {d d' : List α} {r r' : Bool}
    (h : hashSubtree f s d r = hashSubtree f s' d' r') : s = s' ∧ d = d' := by
  induction hk : d.length using Nat.strong_induction_on generalizing s s' d d' r r' with
  | _ k ih =>
  subst hk
  by_cases hd : chunks d.length ≤ 1 <;> by_cases hd' : chunks d'.length ≤ 1
  · rw [hashSubtree_of_le hd, hashSubtree_of_le hd'] at h
    exact hf.chunk_inj h
  · rw [hashSubtree_of_le hd, hashSubtree_of_lt (by omega)] at h
    exact absurd h hf.chunk_ne_parent
  · rw [hashSubtree_of_lt (by omega), hashSubtree_of_le hd'] at h
    exact absurd h.symm hf.chunk_ne_parent
  · rw [hashSubtree_of_lt (d := d) (by omega), hashSubtree_of_lt (d := d') (by omega)] at h
    have hl := left_lt (n := chunks d.length) (by omega)
    have hp := left_pos (chunks d.length)
    have hlen : left (chunks d.length) * 1024 < d.length := by unfold chunks at *; omega
    obtain ⟨h1, h2⟩ := hf.parent_inj h
    obtain ⟨rfl, h3⟩ := ih _ (by rw [List.length_take]; omega) h1 rfl
    obtain ⟨h4, h5⟩ := ih _ (by rw [List.length_drop]; omega) h2 rfl
    have h6 : left (chunks d.length) = left (chunks d'.length) := by omega
    refine ⟨rfl, ?_⟩
    rw [← List.take_append_drop (left (chunks d.length) * 1024) d, h3, h5, List.take_append_drop]

/-- The data of the chunks from `s` on. -/
def region (data : List α) (s m : Nat) : List α := (data.drop (s * 1024)).take (m * 1024)

/-- The hash of the node at a path, for the given data. -/
def nodeHash (f : HashFns α H) (data : List α) (p : List Bool) : H :=
  hashSubtree f (sub (treeChunks data.length) p).1
    (region data (sub (treeChunks data.length) p).1 (sub (treeChunks data.length) p).2) p.isEmpty

theorem nodeHash_nil (f : HashFns α H) (data : List α) : nodeHash f data [] = hashSubtree f 0 data true := by
  have : region data 0 (treeChunks data.length) = data := by
    rw [region, Nat.zero_mul, List.drop_zero]
    refine List.take_of_length_le ?_
    unfold treeChunks chunks
    omega
  rw [nodeHash]
  simp only [sub, this, List.isEmpty_nil]

theorem length_region (data : List α) (s m : Nat) :
    (region data s m).length = min (m * 1024) (data.length - s * 1024) := by
  rw [region, List.length_take, List.length_drop]

/-- The chunks of a region that lies within the data. -/
theorem chunks_region {data : List α} {s m : Nat} (hdata : data ≠ []) (hm : 0 < m)
    (h : s + m ≤ treeChunks data.length) :
    chunks (region data s m).length = m := by
  have hpos := List.length_pos_iff.mpr hdata
  rw [length_region]
  unfold treeChunks chunks at *
  omega

private theorem region_take {data : List α} {s m l : Nat} (h : l ≤ m) :
    (region data s m).take (l * 1024) = region data s l := by
  rw [region, region, List.take_take, Nat.min_eq_left (by omega)]

private theorem region_drop {data : List α} {s m l : Nat} :
    (region data s m).drop (l * 1024) = region data (s + l) (m - l) := by
  rw [region, region, List.drop_take, List.drop_drop, ← Nat.sub_mul, ← Nat.add_mul]

/-- The hash of an inner node is that of its pair. -/
theorem nodeHash_eq_parent (f : HashFns α H) {data : List α} {p : List Bool} (hp : IsPath 1 (treeChunks data.length) p)
    (hm : 1 < (sub (treeChunks data.length) p).2) :
    nodeHash f data p = f.parent (nodeHash f data (p ++ [false])) (nodeHash f data (p ++ [true])) p.isEmpty := by
  have hn : 0 < treeChunks data.length := by unfold treeChunks; omega
  obtain ⟨h1, h2⟩ := sub_bounds hn hp
  have hdata : data ≠ [] := by
    rintro rfl
    have : treeChunks ([] : List α).length = 1 := by simp [treeChunks, chunks]
    omega
  have hc := chunks_region hdata h1 h2
  have hl := left_lt hm
  rw [nodeHash, hashSubtree_of_lt (by omega), hc, region_take (by omega), region_drop]
  have hne : ∀ b, (p ++ [b]).isEmpty = false := fun b => by cases p <;> rfl
  simp only [nodeHash, sub_concat_left, sub_concat_right, hne]

theorem nodeHash_of_le (f : HashFns α H) {data : List α} {p : List Bool} (hm : (sub (treeChunks data.length) p).2 ≤ 1) :
    nodeHash f data p = f.chunk (sub (treeChunks data.length) p).1
      (region data (sub (treeChunks data.length) p).1 (sub (treeChunks data.length) p).2) p.isEmpty := by
  refine hashSubtree_of_le ?_
  rw [length_region]
  unfold chunks
  omega

/-! ### Decoding -/

instance decidableIsPath (k : Nat) : (n : Nat) → (p : List Bool) → Decidable (IsPath k n p)
  | _, [] => isTrue trivial
  | n, false :: p =>
    have := decidableIsPath k (left n) p
    inferInstanceAs (Decidable (k < n ∧ IsPath k (left n) p))
  | n, true :: p =>
    have := decidableIsPath k (n - left n) p
    inferInstanceAs (Decidable (k < n ∧ IsPath k (n - left n) p))

/-- A decoder of a stream with a claimed size.  It keeps the pairs that it has verified. -/
structure Decoder (H : Type) where
  size : Nat
  root : H
  pairs : List (List Bool × (H × H))

namespace Decoder

/-- The hash that the node at a path must have. -/
def expected (d : Decoder H) (p : List Bool) : Option H :=
  match p.getLast? with
  | none => some d.root
  | some b => (d.pairs.lookup p.dropLast).map (fun pair => if b then pair.2 else pair.1)

variable [DecidableEq H]

/-- A pair is verified by its hash, at an inner node of the claimed tree. -/
def parent (f : HashFns α H) (d : Decoder H) (p : List Bool) (pair : H × H) : Option (Decoder H) :=
  if IsPath 1 (treeChunks d.size) p ∧ 1 < (sub (treeChunks d.size) p).2 ∧
      d.expected p = some (f.parent pair.1 pair.2 p.isEmpty) then
    some { d with pairs := (p, pair) :: d.pairs }
  else none

/-- A leaf is verified by the hash of its data, at a node of the claimed tree with at most `k` chunks. -/
def leaf (f : HashFns α H) (k : Nat) (d : Decoder H) (p : List Bool) (data : List α) : Bool :=
  decide (IsPath 1 (treeChunks d.size) p ∧ (sub (treeChunks d.size) p).2 ≤ k ∧
    data.length = min ((sub (treeChunks d.size) p).2 * 1024) (d.size - (sub (treeChunks d.size) p).1 * 1024) ∧
    d.expected p = some (hashSubtree f (sub (treeChunks d.size) p).1 data p.isEmpty))

/-- The verified pairs are those of the data, with all pairs above them. -/
structure Sound (f : HashFns α H) (data : List α) (d : Decoder H) : Prop where
  root : d.root = nodeHash f data []
  pairs : ∀ p pair, (p, pair) ∈ d.pairs → IsPath 1 (treeChunks data.length) p ∧ 1 < (sub (treeChunks data.length) p).2 ∧
    pair = (nodeHash f data (p ++ [false]), nodeHash f data (p ++ [true]))
  closed : ∀ p b pair, (p ++ [b], pair) ∈ d.pairs → ∃ pair', (p, pair') ∈ d.pairs

omit [DecidableEq H] in
private theorem mem_of_lookup {d : Decoder H} {p : List Bool} {pair : H × H} (h : d.pairs.lookup p = some pair) :
    (p, pair) ∈ d.pairs := by
  rw [List.lookup_eq_some_iff] at h
  obtain ⟨l₁, l₂, h, -⟩ := h
  rw [h]
  simp

variable {f : HashFns α H} {data : List α} {d d' : Decoder H} {p : List Bool}

omit [DecidableEq H] in
/-- What the decoder expects are the hashes of the data, at nodes whose parents are verified. -/
theorem Sound.expected_eq (h : Sound f data d) {e : H} (he : d.expected p = some e) :
    IsPath 1 (treeChunks data.length) p ∧ e = nodeHash f data p ∧
      ∀ q b, p = q ++ [b] → ∃ pair, (q, pair) ∈ d.pairs := by
  unfold expected at he
  rcases List.eq_nil_or_concat p with rfl | ⟨q, b, rfl⟩
  · simp only [List.getLast?_nil, Option.some.injEq] at he
    rw [← he, h.root]
    exact ⟨trivial, rfl, fun q b hq => by simp at hq⟩
  · simp only [List.concat_eq_append, List.getLast?_concat, List.dropLast_concat, Option.map_eq_some_iff] at he
    obtain ⟨pair, hpair, rfl⟩ := he
    have hmem := mem_of_lookup hpair
    obtain ⟨hpath, hlt, rfl⟩ := h.pairs q pair hmem
    rw [List.concat_eq_append]
    refine ⟨isPath_concat hpath hlt, by cases b <;> rfl, fun q' b' hq => ?_⟩
    obtain ⟨rfl, -⟩ := List.append_inj' hq rfl
    exact ⟨_, hmem⟩

omit [DecidableEq H] in
/-- All pairs above a verified pair are verified. -/
theorem Sound.mem_of_append (h : Sound f data d) {q r : List Bool} {pair : H × H} (hmem : (q ++ r, pair) ∈ d.pairs) :
    ∃ pair', (q, pair') ∈ d.pairs := by
  induction r using List.reverseRecOn generalizing pair with
  | nil => exact ⟨pair, by rwa [List.append_nil] at hmem⟩
  | append_singleton r b ih =>
    rw [← List.append_assoc] at hmem
    obtain ⟨pair', hpair'⟩ := h.closed _ _ _ hmem
    exact ih hpair'

/-- Only true pairs are verified. -/
theorem Sound.parent (h : Sound f data d) (hf : CollisionFree f) {pair : H × H} (hd : d.parent f p pair = some d') :
    Sound f data d' := by
  unfold Decoder.parent at hd
  split at hd
  · rename_i hcond
    cases hd
    obtain ⟨hpath, heq, hprev⟩ := h.expected_eq hcond.2.2
    have hlt : 1 < (sub (treeChunks data.length) p).2 := by
      by_contra hle
      rw [nodeHash_of_le f (by omega)] at heq
      exact hf.chunk_ne_parent heq.symm
    rw [nodeHash_eq_parent f hpath hlt] at heq
    have hpair := hf.parent_inj heq
    refine ⟨h.root, ?_, ?_⟩
    · intro q pair' hmem
      rcases List.mem_cons.mp hmem with heq' | hmem
      · cases heq'
        exact ⟨hpath, hlt, Prod.ext hpair.1 hpair.2⟩
      · exact h.pairs q pair' hmem
    · intro q b pair' hmem
      rcases List.mem_cons.mp hmem with heq' | hmem
      · obtain ⟨rfl, -⟩ := Prod.mk.inj heq'
        obtain ⟨pair'', hpair''⟩ := hprev q b rfl
        exact ⟨pair'', List.mem_cons_of_mem _ hpair''⟩
      · obtain ⟨pair'', hpair''⟩ := h.closed q b pair' hmem
        exact ⟨pair'', List.mem_cons_of_mem _ hpair''⟩
  · cases hd

/-- A verified leaf has the true data at its true place, and the whole path to it is that of the tree of the data.  The
claimed size is right if the leaf is the last one of either tree. -/
theorem Sound.leaf (h : Sound f data d) (hf : CollisionFree f) (hsize : 0 < d.size) {k : Nat} {leafData : List α}
    (hl : d.leaf f k p leafData = true) :
    IsPath 1 (treeChunks data.length) p ∧ IsPath 1 (treeChunks d.size) p ∧
      sub (treeChunks d.size) p = sub (treeChunks data.length) p ∧ (sub (treeChunks data.length) p).2 ≤ k ∧
      leafData = region data (sub (treeChunks data.length) p).1 (sub (treeChunks data.length) p).2 ∧ data ≠ [] ∧
      ((∀ b ∈ p, b = true) → d.size = data.length) ∧ ∀ q b, p = q ++ [b] → ∃ pair, (q, pair) ∈ d.pairs := by
  unfold Decoder.leaf at hl
  rw [decide_eq_true_iff] at hl
  obtain ⟨hpath', hk, hlen, hexp⟩ := hl
  obtain ⟨hpath, heq, hprev⟩ := h.expected_eq hexp
  obtain ⟨hstart, rfl⟩ := hashSubtree_inj hf heq
  have hn : ∀ len, 0 < treeChunks len := fun len => by unfold treeChunks; omega
  have e1 : treeChunks d.size = max 1 ((d.size + 1023) / 1024) := rfl
  have e2 : treeChunks data.length = max 1 ((data.length + 1023) / 1024) := rfl
  obtain ⟨h1, h2⟩ := sub_bounds (hn d.size) hpath'
  obtain ⟨h3, h4⟩ := sub_bounds (hn data.length) hpath
  have hpos : 0 < min ((sub (treeChunks d.size) p).2 * 1024) (d.size - (sub (treeChunks d.size) p).1 * 1024) := by
    omega
  have hdata : data ≠ [] := by
    rintro rfl
    rw [length_region, List.length_nil] at hlen
    omega
  have hchunks := chunks_region hdata h3 h4
  have hm : (sub (treeChunks d.size) p).2 = (sub (treeChunks data.length) p).2 := by
    rw [hlen] at hchunks
    unfold chunks at hchunks
    omega
  refine ⟨hpath, hpath', Prod.ext hstart hm, by omega, rfl, hdata, ?_, hprev⟩
  intro hright
  have h5 := (sub_end_iff (hn d.size) hpath').mpr hright
  have h6 := (sub_end_iff (hn data.length) hpath).mpr hright
  have hpos' := List.length_pos_iff.mpr hdata
  rw [length_region] at hlen
  omega

end Decoder

end Merkle
