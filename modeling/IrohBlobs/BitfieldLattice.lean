import IrohBlobs.Bitfield
import Mathlib

/-!
# Combining bitfields is a join

Updates of a bitfield arrive in any order and more than once.  For updates that are consistent with one true size
`combine` is the join of a semilattice: a bitfield is determined by its chunks and by its rank, the pair of the upper
bound of the chunks and the size, ordered lexicographically (`toRank`), and `combine` takes the union of the chunks and
the larger rank (`ranges_combine`, `rank_combine`).
-/

/-! ### Folding joins -/

/-- A fold of joins is the least upper bound of its start and of the elements. -/
theorem List.foldl_sup_le_iff {α : Type*} [SemilatticeSup α] {l : List α} {a c : α} :
    l.foldl (· ⊔ ·) a ≤ c ↔ a ≤ c ∧ ∀ u ∈ l, u ≤ c := by
  induction l generalizing a with
  | nil => simp
  | cons u l ih =>
    rw [List.foldl_cons, ih, sup_le_iff, List.forall_mem_cons]
    exact and_assoc

/-- A fold of joins depends on the set of the elements only. -/
theorem List.foldl_sup_congr {α : Type*} [SemilatticeSup α] {l l' : List α} (a : α) (h : ∀ u, u ∈ l ↔ u ∈ l') :
    l.foldl (· ⊔ ·) a = l'.foldl (· ⊔ ·) a := by
  apply eq_of_forall_ge_iff
  intro c
  rw [List.foldl_sup_le_iff, List.foldl_sup_le_iff]
  simp only [h]

namespace RangeSet

/-! ### Upper bounds -/

/-- The upper bound of a set, infinite for a set with an open end. -/
def bound (s : RangeSet) : WithTop Nat :=
  match s.upperBound with
  | some u => .some u
  | none => ⊤

theorem bound_of_some {s : RangeSet} {u : Nat} (h : s.upperBound = some u) : s.bound = .some u := by
  unfold bound
  rw [h]

theorem bound_of_none {s : RangeSet} (h : s.upperBound = none) : s.bound = ⊤ := by
  unfold bound
  rw [h]

theorem bound_le_iff {s : RangeSet} {u : Nat} : s.bound ≤ .some u ↔ ∀ x ∈ s, x < u := by
  cases h : s.upperBound with
  | none =>
    obtain ⟨n, hn⟩ := mem_of_upperBound_none h
    rw [bound_of_none h]
    constructor
    · intro hle
      exact absurd hle (WithTop.not_top_le_coe u)
    · intro hlt
      have := hlt (max n u) (hn _ (Nat.le_max_left n u))
      omega
  | some v =>
    rw [bound_of_some h, WithTop.coe_le_coe]
    constructor
    · intro hle x hx
      have := lt_of_upperBound h hx
      omega
    · intro hlt
      cases v with
      | zero => exact Nat.zero_le u
      | succ v => exact hlt v (pred_mem_of_upperBound h)

theorem bound_union (s t : RangeSet) : (s ∪ t).bound = max s.bound t.bound := by
  apply eq_of_forall_ge_iff
  intro c
  cases c with
  | top => simp
  | coe u =>
    rw [max_le_iff, bound_le_iff, bound_le_iff, bound_le_iff]
    simp only [mem_union, or_imp, forall_and]

end RangeSet

namespace IrohBlobs

open Merkle (chunks)

namespace Bitfield

/-! ### Ranks -/

/-- What decides the size of a combination: the upper bound of the chunks, then the size. -/
def rank (b : Bitfield) : WithTop Nat ×ₗ Nat := toLex (b.ranges.bound, b.size)

theorem rank_le_iff {a b : Bitfield} :
    a.rank ≤ b.rank ↔ a.ranges.bound < b.ranges.bound ∨ a.ranges.bound = b.ranges.bound ∧ a.size ≤ b.size :=
  Prod.Lex.toLex_le_toLex

/-- The size of a combination is that of the bitfield of higher rank. -/
theorem chooseSize_eq (a b : Bitfield) : a.chooseSize b = if a.rank ≤ b.rank then b.size else a.size := by
  rw [if_congr rank_le_iff rfl rfl]
  unfold chooseSize
  cases ha : a.ranges.upperBound with
  | none =>
    rw [RangeSet.bound_of_none ha]
    cases hb : b.ranges.upperBound with
    | none =>
      rw [RangeSet.bound_of_none hb]
      simp only [lt_irrefl, true_and, false_or]
      split <;> omega
    | some v => simp [RangeSet.bound_of_some hb]
  | some u =>
    rw [RangeSet.bound_of_some ha]
    cases hb : b.ranges.upperBound with
    | none => simp [RangeSet.bound_of_none hb]
    | some v =>
      simp only [RangeSet.bound_of_some hb, WithTop.coe_lt_coe, WithTop.coe_inj]
      split
      · rw [if_pos (by omega)]
      · split
        · rw [if_neg (by omega)]
        · split <;> omega

/-! ### Consistent bitfields -/

/-- The updates that a blob of size `S` can get: nothing, everything, chunks with the right size, and chunks before the
last one with an unverified claim of another size. -/
def Consistent (S : Nat) (b : Bitfield) : Prop :=
  b = .empty ∨ b = .complete S ∨ (∃ r : ChunkRanges, (∀ x ∈ r, x < chunks S) ∧ b = .new r S) ∨
    ∃ (r : ChunkRanges) (s : Nat), s ≠ S ∧ (∀ x ∈ r, x + 1 < chunks S ∧ x + 1 < chunks s) ∧ b = .new r s

/-- The normal form of consistent bitfields.  From the last chunk on there is everything or nothing. -/
structure Normal (S : Nat) (b : Bitfield) : Prop where
  claim : b.size = S ∨ ∀ x ∈ b.ranges, x + 1 < chunks S ∧ x + 1 < chunks b.size
  tail : ∀ x, chunks S ≤ x + 1 → (x ∈ b.ranges ↔ chunks S - 1 ∈ b.ranges)

variable {S : Nat} {a b c : Bitfield}

private theorem new_eq {r : ChunkRanges} {s : Nat} (hsize : b.size = s)
    (hranges : (new r s).ranges = b.ranges) : new r s = b := by
  have h : (new r s).size = b.size := (size_new r s).trans hsize.symm
  calc new r s = ⟨(new r s).size, (new r s).ranges⟩ := rfl
    _ = ⟨b.size, b.ranges⟩ := by rw [h, hranges]
    _ = b := rfl

/-- A set whose chunks all lie before the last one is in canonical form. -/
theorem new_of_lt {r : ChunkRanges} {s : Nat} (h : ∀ x ∈ r, x + 1 < chunks s) : new r s = ⟨s, r⟩ := by
  have hranges : (new r s).ranges = r := by
    rcases Nat.eq_zero_or_pos s with rfl | hs
    · rw [new, if_pos rfl]
    · have hpos := chunks_pos hs
      apply RangeSet.ext_mem
      intro x
      rw [mem_new hs]
      refine or_iff_left ?_
      rintro ⟨-, hlast⟩
      have := h _ hlast
      omega
  exact new_eq rfl hranges

/-- A set without a last chunk has nothing from there on. -/
private theorem tail_of_lt {r : ChunkRanges} (h : ∀ x ∈ r, x + 1 < chunks S) :
    ∀ x, chunks S ≤ x + 1 → (x ∈ r ↔ chunks S - 1 ∈ r) := by
  intro x hx
  constructor
  · intro hmem
    have := h x hmem
    omega
  · intro hmem
    have := h _ hmem
    omega

theorem Consistent.normal (h : Consistent S b) : Normal S b := by
  have hempty : ∀ x ∈ (∅ : ChunkRanges), x + 1 < chunks S ∧ x + 1 < chunks 0 :=
    fun x hx => absurd hx (RangeSet.not_mem_empty x)
  rcases h with rfl | rfl | ⟨r, hr, rfl⟩ | ⟨r, s, -, hr, rfl⟩
  · exact ⟨Or.inr hempty, tail_of_lt (fun x hx => (hempty x hx).1)⟩
  · exact ⟨Or.inl rfl, fun x _ => iff_of_true (RangeSet.mem_all x) (RangeSet.mem_all _)⟩
  · refine ⟨Or.inl (size_new r S), fun x hx => ?_⟩
    rcases Nat.eq_zero_or_pos S with rfl | hS
    · rw [new, if_pos rfl]
      exact tail_of_lt (fun x hx => absurd (hr x hx) (by simp [chunks])) x hx
    · have hpos := chunks_pos hS
      rw [mem_new hS, mem_new hS]
      by_cases hlast : chunks S - 1 ∈ r
      · refine iff_of_true ?_ (Or.inl hlast)
        rcases Nat.lt_or_ge x (chunks S) with hlt | hge
        · rw [show x = chunks S - 1 by omega]
          exact Or.inl hlast
        · exact Or.inr ⟨hge, hlast⟩
      · refine iff_of_false ?_ (by simp [hlast])
        rintro (hmem | ⟨-, hmem⟩)
        · have := hr x hmem
          exact hlast (by rwa [show chunks S - 1 = x by omega])
        · exact hlast hmem
  · rw [new_of_lt (fun x hx => (hr x hx).2)]
    exact ⟨Or.inr hr, tail_of_lt (fun x hx => (hr x hx).1)⟩

theorem Normal.consistent (h : Normal S b) : Consistent S b := by
  obtain ⟨s, r⟩ := b
  obtain ⟨hclaim, htail⟩ := h
  simp only at hclaim htail
  by_cases hs : s = S
  · subst hs
    rcases Nat.eq_zero_or_pos s with rfl | hpos
    · by_cases h0 : 0 ∈ r
      · have hall : r = RangeSet.all := RangeSet.ext_mem
          (fun x => iff_of_true ((htail x (by simp [chunks])).mpr h0) (RangeSet.mem_all x))
        exact Or.inr (Or.inl (by rw [hall]; rfl))
      · have hnone : r = ∅ := RangeSet.ext_mem
          (fun x => iff_of_false (fun hx => h0 ((htail x (by simp [chunks])).mp hx)) (RangeSet.not_mem_empty x))
        exact Or.inl (by rw [hnone]; rfl)
    · have hc := chunks_pos hpos
      refine Or.inr (Or.inr (Or.inl ⟨r ∩ RangeSet.range 0 (chunks s), fun x hx => ?_, ?_⟩))
      · rw [RangeSet.mem_inter, RangeSet.mem_range] at hx
        exact hx.2.2
      · have hranges : r = (new (r ∩ RangeSet.range 0 (chunks s)) s).ranges := by
          apply RangeSet.ext_mem
          intro x
          rw [mem_new hpos]
          simp only [RangeSet.mem_inter, RangeSet.mem_range]
          rcases Nat.lt_or_ge x (chunks s) with hlt | hge
          · constructor
            · intro hx
              exact Or.inl ⟨hx, Nat.zero_le x, hlt⟩
            · rintro (hx | hx)
              · exact hx.1
              · omega
          · rw [htail x (by omega)]
            constructor
            · intro hx
              exact Or.inr ⟨hge, hx, by omega, by omega⟩
            · rintro (hx | hx)
              · omega
              · exact hx.2.1
        exact (new_eq rfl hranges.symm).symm
  · have hr := hclaim.resolve_left hs
    exact Or.inr (Or.inr (Or.inr ⟨r, s, hs, hr, (new_of_lt (fun x hx => (hr x hx).2)).symm⟩))

/-! ### The join -/

private theorem combine_comm (a b : Bitfield) : a.combine b = b.combine a := by
  have hranges : a.ranges ∪ b.ranges = b.ranges ∪ a.ranges := by
    apply RangeSet.ext_mem
    intro x
    simp only [RangeSet.mem_union]
    exact or_comm
  have hsize : a.chooseSize b = b.chooseSize a := by
    rw [chooseSize_eq, chooseSize_eq]
    rcases lt_trichotomy a.rank b.rank with hlt | heq | hlt
    · rw [if_pos hlt.le, if_neg hlt.not_ge]
    · have hsizes : a.size = b.size := congrArg (fun r => (ofLex r).2) heq
      rw [if_pos heq.le, if_pos heq.ge, hsizes]
    · rw [if_neg hlt.not_ge, if_pos hlt.le]
  unfold combine
  rw [hranges, hsize]

private theorem bound_le_of_rank_le (h : a.rank ≤ b.rank) : a.ranges.bound ≤ b.ranges.bound := by
  rcases rank_le_iff.mp h with hlt | ⟨heq, -⟩
  · exact hlt.le
  · exact heq.le

/-- A wrong size of higher rank lies beyond all chunks. -/
private theorem Normal.lt_of_rank_le (hb : Normal S b) (hle : a.rank ≤ b.rank) (hne : b.size ≠ S) :
    ∀ x ∈ a.ranges ∪ b.ranges, x + 1 < chunks S ∧ x + 1 < chunks b.size := by
  have hclaim := hb.claim.resolve_left hne
  have hbound := bound_le_of_rank_le hle
  intro x hx
  rcases RangeSet.mem_union.mp hx with hx | hx
  · have h1 : b.ranges.bound ≤ .some (chunks S - 1) :=
      RangeSet.bound_le_iff.mpr (fun y hy => by have := hclaim y hy; omega)
    have h2 : b.ranges.bound ≤ .some (chunks b.size - 1) :=
      RangeSet.bound_le_iff.mpr (fun y hy => by have := hclaim y hy; omega)
    have := RangeSet.bound_le_iff.mp (hbound.trans h1) x hx
    have := RangeSet.bound_le_iff.mp (hbound.trans h2) x hx
    omega
  · exact hclaim x hx

/-- The combination has the size of the bitfield of higher rank, and the chunks of both. -/
theorem combine_of_rank_le (ha : Normal S a) (hb : Normal S b) (hle : a.rank ≤ b.rank) :
    a.combine b = ⟨b.size, a.ranges ∪ b.ranges⟩ := by
  unfold combine
  rw [chooseSize_eq, if_pos hle]
  by_cases hne : b.size = S
  · have hranges : (new (a.ranges ∪ b.ranges) b.size).ranges = a.ranges ∪ b.ranges := by
      rw [hne]
      rcases Nat.eq_zero_or_pos S with rfl | hS
      · rw [new, if_pos rfl]
      · apply RangeSet.ext_mem
        intro x
        rw [mem_new hS]
        refine or_iff_left_of_imp ?_
        rintro ⟨hx, hlast⟩
        rw [RangeSet.mem_union] at *
        exact hlast.imp (ha.tail x (by omega)).mpr (hb.tail x (by omega)).mpr
    exact new_eq rfl hranges
  · exact new_of_lt (fun x hx => (hb.lt_of_rank_le hle hne x hx).2)

private theorem Normal.combine_of_rank_le (ha : Normal S a) (hb : Normal S b) (hle : a.rank ≤ b.rank) :
    Normal S (a.combine b) := by
  rw [Bitfield.combine_of_rank_le ha hb hle]
  constructor
  · by_cases hne : b.size = S
    · exact Or.inl hne
    · exact Or.inr (hb.lt_of_rank_le hle hne)
  · intro x hx
    simp only [RangeSet.mem_union]
    rw [ha.tail x hx, hb.tail x hx]

theorem Normal.combine (ha : Normal S a) (hb : Normal S b) : Normal S (a.combine b) := by
  rcases le_total a.rank b.rank with hle | hle
  · exact ha.combine_of_rank_le hb hle
  · rw [combine_comm]
    exact hb.combine_of_rank_le ha hle

theorem ranges_combine (ha : Normal S a) (hb : Normal S b) : (a.combine b).ranges = a.ranges ∪ b.ranges := by
  rcases le_total a.rank b.rank with hle | hle
  · rw [combine_of_rank_le ha hb hle]
  · rw [combine_comm, combine_of_rank_le hb ha hle]
    exact RangeSet.ext_mem (fun x => by simp only [RangeSet.mem_union]; exact or_comm)

theorem rank_combine (ha : Normal S a) (hb : Normal S b) : (a.combine b).rank = max a.rank b.rank := by
  have hle : ∀ {c d : Bitfield}, Normal S c → Normal S d → c.rank ≤ d.rank →
    (c.combine d).rank = max c.rank d.rank := by
    intro c d hc hd hcd
    rw [combine_of_rank_le hc hd hcd, max_eq_right hcd]
    unfold rank
    rw [RangeSet.bound_union, max_eq_right (bound_le_of_rank_le hcd)]
  rcases le_total a.rank b.rank with hab | hab
  · exact hle ha hb hab
  · rw [combine_comm, hle hb ha hab, max_comm]

/-- The rank and the chunks determine the bitfield. -/
private theorem ext_rank (h : a.rank = b.rank) (h' : a.ranges = b.ranges) : a = b := by
  have hsize : a.size = b.size := congrArg (fun r => (ofLex r).2) h
  cases a
  cases b
  simp_all

/-! ### Updates with chunks of the blob -/

/-- A normal bitfield is complete if and only if it has all chunks of the blob. -/
theorem Normal.isComplete_iff_forall (h : Normal S b) (hS : 0 < S) :
    b.isComplete = true ↔ ∀ x, x < chunks S → x ∈ b.ranges := by
  have hpos := chunks_pos hS
  by_cases hsize : b.size = S
  · unfold isComplete
    rw [hsize, if_neg (by omega), RangeSet.isSubset_iff]
    simp only [RangeSet.mem_range, Nat.zero_le, true_and]
  · have hclaim := h.claim.resolve_left hsize
    refine iff_of_false ?_ ?_
    · intro hc
      unfold isComplete at hc
      split at hc
      · rename_i hzero
        have hlt := (hclaim 0 (RangeSet.isAll_iff.mp hc 0)).2
        rw [hzero] at hlt
        simp [chunks] at hlt
      · rename_i hzero
        have hchunks := chunks_pos (Nat.pos_of_ne_zero hzero)
        have hlast : chunks b.size - 1 ∈ b.ranges := by
          apply RangeSet.isSubset_iff.mp hc
          rw [RangeSet.mem_range]
          omega
        have hlt := (hclaim _ hlast).2
        omega
    · intro hall
      have hlt := (hclaim _ (hall (chunks S - 1) (by omega))).1
      omega

/-- The size of a complete normal bitfield is that of the blob. -/
theorem Normal.size_of_isComplete (h : Normal S b) (hS : 0 < S) (hc : b.isComplete = true) : b.size = S := by
  have hpos := chunks_pos hS
  have hlast := (h.isComplete_iff_forall hS).mp hc (chunks S - 1) (by omega)
  refine h.claim.resolve_right ?_
  intro hclaim
  have hlt := (hclaim _ hlast).1
  omega

/-- Updates of one size are combined by their chunks. -/
theorem new_combine_new {r r' : ChunkRanges} {s : Nat} (hs : 0 < s) :
    (new r s).combine (new r' s) = new (r ∪ r') s := by
  have hsize : (new r s).chooseSize (new r' s) = s := by
    rw [chooseSize_eq, size_new, size_new, ite_self]
  unfold combine
  rw [hsize]
  apply new_eq (size_new _ _)
  apply RangeSet.ext_mem
  intro x
  simp only [mem_new hs, RangeSet.mem_union]
  tauto

/-- An update with chunks of the blob need not be in canonical form. -/
theorem combine_unchecked (hb : Normal S b) {r : ChunkRanges} {s : Nat} (hs : 0 < s) (hlt : ∀ x ∈ r, x < chunks s)
    (hlast : chunks s - 1 ∈ r → s = S) : b.combine ⟨s, r⟩ = b.combine (new r s) := by
  have hpos := chunks_pos hs
  by_cases hmem : chunks s - 1 ∈ r
  · obtain rfl := hlast hmem
    -- both updates decide the size
    have hsize : ∀ u : Bitfield, u.size = s → chunks s - 1 ∈ u.ranges → b.chooseSize u = s := by
      intro u hu hmem
      rw [chooseSize_eq, hu]
      rcases hb.claim with hclaim | hclaim
      · rw [hclaim, ite_self]
      · have hrank : b.rank ≤ u.rank := by
          rw [rank_le_iff]
          left
          have h1 : b.ranges.bound ≤ .some (chunks s - 1) := by
            rw [RangeSet.bound_le_iff]
            intro x hx
            have hx := (hclaim x hx).1
            omega
          refine lt_of_le_of_lt h1 ?_
          rw [← not_le, RangeSet.bound_le_iff]
          intro hall
          exact absurd (hall _ hmem) (lt_irrefl _)
        rw [if_pos hrank]
    unfold combine
    rw [hsize ⟨s, r⟩ rfl hmem, hsize (new r s) (size_new r s) (mem_new_of_mem hmem)]
    apply new_eq (size_new _ _)
    apply RangeSet.ext_mem
    intro x
    simp only [mem_new hs, RangeSet.mem_union]
    tauto
  · rw [new_of_lt]
    intro x hx
    have hne : x ≠ chunks s - 1 := by
      rintro rfl
      exact hmem hx
    have hx := hlt x hx
    omega

/-- A claim without chunks does not change a bitfield with chunks. -/
theorem combine_noChunks (hb : Normal S b) {x : Nat} (hx : x ∈ b.ranges) (s : Nat) : b.combine ⟨s, ∅⟩ = b := by
  have hnone : Normal S ⟨s, ∅⟩ := by
    constructor
    · exact Or.inr (fun y hy => absurd hy (RangeSet.not_mem_empty y))
    · exact fun y _ => iff_of_false (RangeSet.not_mem_empty y) (RangeSet.not_mem_empty _)
  have hrank : (⟨s, ∅⟩ : Bitfield).rank ≤ b.rank := by
    rw [rank_le_iff]
    left
    have h0 : (∅ : ChunkRanges).bound ≤ .some 0 :=
      RangeSet.bound_le_iff.mpr (fun y hy => absurd hy (RangeSet.not_mem_empty y))
    refine lt_of_le_of_lt h0 ?_
    rw [← not_le, RangeSet.bound_le_iff]
    intro hall
    exact absurd (hall x hx) (Nat.not_lt_zero x)
  rw [combine_comm, combine_of_rank_le hnone hb hrank]
  have hranges : (∅ : ChunkRanges) ∪ b.ranges = b.ranges := by
    apply RangeSet.ext_mem
    intro y
    rw [RangeSet.mem_union]
    exact or_iff_right (RangeSet.not_mem_empty y)
  rw [hranges]

/-! ### The semilattice -/

/-- A bitfield that is consistent with a size. -/
@[ext]
structure Update (S : Nat) where
  bitfield : Bitfield
  consistent : Consistent S bitfield

namespace Update

/-- The rank and the set of chunks. -/
def key (u : Update S) : (WithTop Nat ×ₗ Nat) × Set Nat := (u.bitfield.rank, { x | x ∈ u.bitfield.ranges })

private theorem key_injective : Function.Injective (key (S := S)) := by
  intro u v h
  obtain ⟨hrank, hranges⟩ := Prod.ext_iff.mp h
  refine Update.ext (ext_rank hrank (RangeSet.ext_mem (fun x => ?_)))
  exact Set.ext_iff.mp hranges x

instance : Max (Update S) :=
  ⟨fun u v => ⟨u.bitfield.combine v.bitfield, (u.consistent.normal.combine v.consistent.normal).consistent⟩⟩

instance : LE (Update S) := ⟨fun u v => u.key ≤ v.key⟩

instance : LT (Update S) := ⟨fun u v => u.key < v.key⟩

private theorem key_sup (u v : Update S) : (u ⊔ v).key = u.key ⊔ v.key := by
  apply Prod.ext
  · exact rank_combine u.consistent.normal v.consistent.normal
  · apply Set.ext
    intro x
    have h : (u ⊔ v).bitfield.ranges = u.bitfield.ranges ∪ v.bitfield.ranges :=
      ranges_combine u.consistent.normal v.consistent.normal
    have hx : x ∈ (u ⊔ v).bitfield.ranges ↔ x ∈ u.bitfield.ranges ∨ x ∈ v.bitfield.ranges := by
      rw [h]
      exact RangeSet.mem_union
    exact hx

/-- Combining is the join of ranks and chunks. -/
instance : SemilatticeSup (Update S) := key_injective.semilatticeSup key Iff.rfl Iff.rfl key_sup

private theorem bitfield_foldl (u : Update S) (us : List (Update S)) :
    (us.foldl (· ⊔ ·) u).bitfield = (us.map bitfield).foldl (fun b v => (b.update v).1) u.bitfield := by
  induction us generalizing u with
  | nil => rfl
  | cons v us ih => exact ih (u ⊔ v)

end Update

theorem combine_assoc (ha : Consistent S a) (hb : Consistent S b) (hc : Consistent S c) :
    (a.combine b).combine c = a.combine (b.combine c) :=
  congrArg Update.bitfield (sup_assoc (⟨a, ha⟩ : Update S) ⟨b, hb⟩ ⟨c, hc⟩)

/-- The empty bitfield has the lowest rank. -/
private theorem rank_empty_le (b : Bitfield) : empty.rank ≤ b.rank := by
  have hbound : empty.ranges.bound ≤ b.ranges.bound := by
    have h0 : empty.ranges.bound = .some 0 := by
      apply RangeSet.bound_of_some
      rfl
    rw [h0]
    exact bot_le
  rcases hbound.lt_or_eq with hlt | heq
  · exact rank_le_iff.mpr (Or.inl hlt)
  · exact rank_le_iff.mpr (Or.inr ⟨heq, Nat.zero_le _⟩)

private theorem empty_combine (hb : Consistent S b) : empty.combine b = b := by
  have hempty : Consistent S empty := Or.inl rfl
  rw [combine_of_rank_le hempty.normal hb.normal (rank_empty_le b)]
  have hranges : empty.ranges ∪ b.ranges = b.ranges := by
    apply RangeSet.ext_mem
    intro x
    rw [RangeSet.mem_union]
    exact or_iff_right (RangeSet.not_mem_empty x)
  rw [hranges]

/-- Folding updates depends on the set of the updates only. -/
private theorem foldl_update_congr (hb : Consistent S b) {us vs : List Bitfield} (hus : ∀ u ∈ us, Consistent S u)
    (h : ∀ u, u ∈ us ↔ u ∈ vs) :
    us.foldl (fun b u => (b.update u).1) b = vs.foldl (fun b u => (b.update u).1) b := by
  have hvs : ∀ u ∈ vs, Consistent S u := fun u hu => hus u ((h u).mpr hu)
  -- both lists are lists of elements of the semilattice
  have hlift : ∀ ws : List Bitfield, (∀ u ∈ ws, Consistent S u) →
    ∃ ws' : List (Update S), ws'.map Update.bitfield = ws :=
    fun ws hws => ⟨ws.pmap Update.mk hws, by simp [List.map_pmap]⟩
  obtain ⟨us, rfl⟩ := hlift us hus
  obtain ⟨vs, rfl⟩ := hlift vs hvs
  have hmem : ∀ u : Update S, u ∈ us ↔ u ∈ vs := by
    intro u
    have hinj : Function.Injective (Update.bitfield (S := S)) := fun _ _ => Update.ext
    have := h u.bitfield
    rwa [List.mem_map_of_injective hinj, List.mem_map_of_injective hinj] at this
  rw [← Update.bitfield_foldl ⟨b, hb⟩ us, ← Update.bitfield_foldl ⟨b, hb⟩ vs]
  exact congrArg Update.bitfield (List.foldl_sup_congr _ hmem)

/-- On the bitfields that are consistent with one size, `combine` is a join with the empty bitfield as its neutral
element, and the result of a list of updates depends neither on their order nor on repetitions. -/
theorem updates_commute (S : Nat) :
    (∀ a b, Consistent S a → Consistent S b → Consistent S (a.combine b)) ∧
    (∀ a b c, Consistent S a → Consistent S b → Consistent S c →
      (a.combine b).combine c = a.combine (b.combine c)) ∧
    (∀ a b, Consistent S a → Consistent S b → a.combine b = b.combine a) ∧
    (∀ a, Consistent S a → a.combine a = a) ∧
    (∀ a, Consistent S a → empty.combine a = a ∧ a.combine empty = a) ∧
    (∀ (a : Bitfield) (us vs : List Bitfield), Consistent S a → (∀ u ∈ us, Consistent S u) → (∀ u, u ∈ us ↔ u ∈ vs) →
      us.foldl (fun b u => (b.update u).1) a = vs.foldl (fun b u => (b.update u).1) a) := by
  refine ⟨?_, ?_, ?_, ?_, ?_, ?_⟩
  · intro a b ha hb
    exact (ha.normal.combine hb.normal).consistent
  · intro a b c ha hb hc
    exact combine_assoc ha hb hc
  · intro a b _ _
    exact combine_comm a b
  · intro a ha
    exact congrArg Update.bitfield (sup_idem (⟨a, ha⟩ : Update S))
  · intro a ha
    exact ⟨empty_combine ha, (combine_comm a empty).trans (empty_combine ha)⟩
  · intro a us vs ha hus h
    exact foldl_update_congr ha hus h

/-- A blob of three chunks, and an unverified claim of five chunks. -/
theorem updates_commute_threeChunks :
    [new (RangeSet.range 2 3) 3000, new (RangeSet.range 0 1) 5000].foldl (fun b u => (b.update u).1) empty =
      [new (RangeSet.range 0 1) 5000, new (RangeSet.range 2 3) 3000, new (RangeSet.range 0 1) 5000].foldl
        (fun b u => (b.update u).1) empty := by
  have hright : Consistent 3000 (new (RangeSet.range 2 3) 3000) :=
    Or.inr (Or.inr (Or.inl ⟨RangeSet.range 2 3, fun x hx => by
      rw [RangeSet.mem_range] at hx
      simp only [chunks]
      omega, rfl⟩))
  have hwrong : Consistent 3000 (new (RangeSet.range 0 1) 5000) :=
    Or.inr (Or.inr (Or.inr ⟨RangeSet.range 0 1, 5000, by decide, fun x hx => by
      rw [RangeSet.mem_range] at hx
      simp only [chunks]
      omega, rfl⟩))
  refine (updates_commute 3000).2.2.2.2.2 empty _ _ (Or.inl rfl) ?_ ?_
  · intro u hu
    simp only [List.mem_cons, List.not_mem_nil, or_false] at hu
    rcases hu with rfl | rfl
    · exact hright
    · exact hwrong
  · intro u
    simp only [List.mem_cons, List.not_mem_nil, or_false]
    tauto

end Bitfield

end IrohBlobs
