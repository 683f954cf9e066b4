import Mathlib.Order.RelClasses
import Mathlib.Data.List.Basic
import Mathlib.Tactic

/-!
# Tables that are sorted by their keys

A table is a list of keys with values, in the strict order of the keys.  Such lists represent finite maps: lookup,
insertion and filtering act on the map that `get` returns.
-/

namespace SortedTable

variable {α β : Type}

section

variable [DecidableEq α]

/-- The value of a key. -/
def get (t : List (α × β)) (a : α) : Option β := (t.find? (fun p => p.1 == a)).map Prod.snd

theorem get_eq_none_iff {t : List (α × β)} {a : α} : get t a = none ↔ ∀ p ∈ t, p.1 ≠ a := by
  simp [get]

theorem mem_of_get {t : List (α × β)} {a : α} {b : β} (h : get t a = some b) : (a, b) ∈ t := by
  unfold get at h
  obtain ⟨p, hp, rfl⟩ := Option.map_eq_some_iff.mp h
  have hkey : p.1 = a := by simpa using List.find?_some hp
  rw [← hkey]
  exact List.mem_of_find?_eq_some hp

/-- Among more candidates than there are keys, one is free. -/
theorem exists_free {t : List (α × β)} {candidates : List α} (hnodup : candidates.Nodup)
    (hlen : t.length < candidates.length) :
    ∃ a ∈ candidates, get t a = none := by
  by_contra hnone
  have hsub : candidates ⊆ t.map Prod.fst := by
    intro a ha
    cases hget : get t a with
    | none => exact absurd ⟨a, ha, hget⟩ hnone
    | some b => exact List.mem_map.mpr ⟨(a, b), mem_of_get hget, rfl⟩
  have hle := (hnodup.subperm hsub).length_le
  rw [List.length_map] at hle
  omega

end

section

variable [LT α]

/-- The keys are in strict order. -/
def Sorted (t : List (α × β)) : Prop := t.Pairwise (fun a b => a.1 < b.1)

theorem sorted_nil : Sorted ([] : List (α × β)) := List.Pairwise.nil

theorem Sorted.filter {t : List (α × β)} (h : Sorted t) (p : α × β → Bool) :
    Sorted (t.filter p) := List.Pairwise.filter p h

/-- Insert a key with a value, which replaces the value that it had. -/
def insert [DecidableLT α] (t : List (α × β)) (a : α) (b : β) : List (α × β) :=
  t.filter (fun p => decide (p.1 < a)) ++ (a, b) :: t.filter (fun p => decide (a < p.1))

variable [IsStrictOrder α (· < ·)]

/-- A sorted table has one value for each of its keys. -/
theorem Sorted.eq_of_mem {t : List (α × β)} (h : Sorted t) {a : α} {b b' : β} (hb : (a, b) ∈ t)
    (hb' : (a, b') ∈ t) : b = b' := by
  induction t with
  | nil => cases hb
  | cons p t ih =>
    rw [Sorted, List.pairwise_cons] at h
    rcases List.mem_cons.mp hb with heq | hmem
    · rcases List.mem_cons.mp hb' with heq' | hmem'
      · rw [← heq'] at heq
        exact (Prod.mk.inj heq).2
      · have hlt := h.1 _ hmem'
        rw [← heq] at hlt
        exact absurd hlt (irrefl a)
    · rcases List.mem_cons.mp hb' with heq' | hmem'
      · have hlt := h.1 _ hmem
        rw [← heq'] at hlt
        exact absurd hlt (irrefl a)
      · exact ih h.2 hmem hmem'

theorem Sorted.insert [DecidableLT α] {t : List (α × β)} (h : Sorted t) (a : α) (b : β) : Sorted (insert t a b) := by
  refine List.pairwise_append.mpr ⟨h.filter _, List.pairwise_cons.mpr ⟨?_, h.filter _⟩, ?_⟩
  · intro p hp
    exact of_decide_eq_true (List.mem_filter.mp hp).2
  · intro p hp q hq
    have hlt : p.1 < a := of_decide_eq_true (List.mem_filter.mp hp).2
    rcases List.mem_cons.mp hq with rfl | hq
    · exact hlt
    · exact IsTrans.trans _ _ _ hlt (of_decide_eq_true (List.mem_filter.mp hq).2)

theorem mem_insert [DecidableLT α] [Std.Trichotomous (α := α) (· < ·)] {t : List (α × β)} {a : α} {b : β} {p : α × β} :
    p ∈ insert t a b ↔ p = (a, b) ∨ p.1 ≠ a ∧ p ∈ t := by
  rw [SortedTable.insert, List.mem_append, List.mem_cons, List.mem_filter, List.mem_filter, decide_eq_true_eq,
    decide_eq_true_eq]
  constructor
  · rintro (⟨hp, hlt⟩ | heq | ⟨hp, hlt⟩)
    · exact Or.inr ⟨ne_of_irrefl hlt, hp⟩
    · exact Or.inl heq
    · exact Or.inr ⟨(ne_of_irrefl hlt).symm, hp⟩
  · rintro (heq | ⟨hne, hp⟩)
    · exact Or.inr (Or.inl heq)
    · rcases trichotomous_of (· < ·) p.1 a with hlt | heq | hlt
      · exact Or.inl ⟨hp, hlt⟩
      · exact absurd heq hne
      · exact Or.inr (Or.inr ⟨hp, hlt⟩)

variable [DecidableEq α]

theorem Sorted.get_eq_some_iff {t : List (α × β)} (h : Sorted t) {a : α} {b : β} : get t a = some b ↔ (a, b) ∈ t := by
  constructor
  · exact mem_of_get
  · intro hmem
    cases hget : get t a with
    | none => exact absurd rfl (get_eq_none_iff.mp hget _ hmem)
    | some b' => rw [h.eq_of_mem hmem (mem_of_get hget)]

theorem Sorted.get_filter {t : List (α × β)} (h : Sorted t) (q : α → Bool) (a : α) :
    get (t.filter (fun p => q p.1)) a = if q a then get t a else none := by
  split
  · rename_i hq
    cases hget : get t a with
    | none =>
      rw [get_eq_none_iff] at hget ⊢
      intro p hp
      exact hget p (List.mem_of_mem_filter hp)
    | some b =>
      rw [(h.filter _).get_eq_some_iff, List.mem_filter]
      exact ⟨mem_of_get hget, hq⟩
  · rename_i hq
    rw [get_eq_none_iff]
    rintro p hp rfl
    exact hq (List.mem_filter.mp hp).2

/-- An insertion is an update of the map. -/
theorem Sorted.get_insert [DecidableLT α] [Std.Trichotomous (α := α) (· < ·)] {t : List (α × β)}
    (h : Sorted t) (a : α) (b : β) :
    get (SortedTable.insert t a b) = Function.update (get t) a (some b) := by
  funext x
  rcases eq_or_ne x a with rfl | hne
  · rw [Function.update_self, (h.insert x b).get_eq_some_iff, mem_insert]
    exact Or.inl rfl
  · rw [Function.update_of_ne hne]
    cases hget : get t x with
    | none =>
      rw [get_eq_none_iff] at hget ⊢
      intro p hp
      rcases mem_insert.mp hp with rfl | ⟨-, hp⟩
      · exact hne.symm
      · exact hget p hp
    | some y =>
      rw [(h.insert a b).get_eq_some_iff, mem_insert]
      exact Or.inr ⟨hne, mem_of_get hget⟩

end

end SortedTable
