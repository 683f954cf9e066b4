import Mathlib.Tactic

/-!
# Contents of files

The content of a file is a sequence of cells, some of which were never written.  A file grows when it is written beyond
its end.  The lemmas about lists of writes are stated for a relation `R` between positions and values: if all writes
respect `R`, a cell whose value is the only one allowed by `R` keeps it (`cell_writes_of_unique`).
-/

/-- The content of a file: its length, and the cells that were written. -/
structure Content (α : Type) where
  len : Nat
  cell : Nat → Option α

namespace Content

variable {α : Type}

def empty : Content α := ⟨0, fun _ => none⟩

/-- Write cells at an offset.  Writing nothing does not extend the file. -/
def write (c : Content α) (offset : Nat) (data : List α) : Content α :=
  if data.isEmpty then c
  else ⟨max c.len (offset + data.length), fun i => if offset ≤ i ∧
    i < offset + data.length then data[i - offset]? else c.cell i⟩

/-- A list of writes, in order. -/
def writes (c : Content α) (ws : List (Nat × List α)) : Content α := ws.foldl (fun c w => c.write w.1 w.2) c

/-- The writes that copy a content cell by cell. -/
def cellWrites (c : Content α) : List (Nat × List α) :=
  (List.range c.len).filterMap fun i => (c.cell i).map fun x => (i, [x])

/-- Copy the cells that were written to a file, without those that are left out. -/
def persist (omits : Nat → Bool) (c target : Content α) : Content α :=
  target.writes (c.cellWrites.filter fun w => !omits w.1)

/-- The first `size` cells. -/
def readToEnd (c : Content α) (size : Nat) : Content α :=
  ⟨min c.len size, fun i => if i < size then c.cell i else none⟩

/-- All cells up to the end were written. -/
def NoGaps (c : Content α) : Prop := ∀ i, i < c.len → (c.cell i).isSome = true

instance (c : Content α) : Decidable c.NoGaps := Nat.decidableBallLT _ _

@[simp] theorem cell_empty (i : Nat) : (empty : Content α).cell i = none := rfl

theorem cell_write (c : Content α) (offset : Nat) (data : List α) (i : Nat) :
    (c.write offset data).cell i =
      if offset ≤ i ∧ i < offset + data.length then data[i - offset]? else c.cell i := by
  unfold write
  split
  · rename_i h
    rw [List.isEmpty_iff] at h
    subst h
    rw [if_neg (by simp)]
  · rfl

@[simp] theorem writes_nil (c : Content α) : c.writes [] = c := rfl

@[simp] theorem writes_cons (c : Content α) (w : Nat × List α) (ws : List (Nat × List α)) :
    c.writes (w :: ws) = (c.write w.1 w.2).writes ws := rfl

theorem writes_append (c : Content α) (ws ws' : List (Nat × List α)) :
    c.writes (ws ++ ws') = (c.writes ws).writes ws' := by
  rw [writes, List.foldl_append]
  rfl

/-! ### Writes that respect a relation -/

/-- The values of all writes are allowed at their positions. -/
def Respects (R : Nat → α → Prop) (ws : List (Nat × List α)) : Prop :=
  ∀ w ∈ ws, ∀ j x, w.2[j]? = some x → R (w.1 + j) x

theorem Respects.append {R : Nat → α → Prop} {ws ws' : List (Nat × List α)} (h : Respects R ws) (h' : Respects R ws') :
    Respects R (ws ++ ws') := by
  intro w hw
  rcases List.mem_append.mp hw with hw | hw
  · exact h w hw
  · exact h' w hw

theorem Respects.sublist {R : Nat → α → Prop} {ws ws' : List (Nat × List α)} (h : Respects R ws) (hs : ws'.Sublist ws) :
    Respects R ws' :=
  fun w hw => h w (hs.subset hw)

variable {R : Nat → α → Prop} {c : Content α} {ws : List (Nat × List α)} {i : Nat} {x : α}

/-- A write leaves a cell, or sets it to an allowed value. -/
theorem cell_write_cases {offset : Nat} {data : List α} (h : ∀ j y, data[j]? = some y → R (offset + j) y) (i : Nat) :
    (c.write offset data).cell i = c.cell i ∨ ∃ y, (c.write offset data).cell i = some y ∧ R i y := by
  rw [cell_write]
  split
  · rename_i hi
    right
    have hlt : i - offset < data.length := by omega
    refine ⟨data[i - offset], List.getElem?_eq_getElem hlt, ?_⟩
    have := h (i - offset) _ (List.getElem?_eq_getElem hlt)
    rwa [show offset + (i - offset) = i by omega] at this
  · exact Or.inl rfl

theorem cell_writes_cases (h : Respects R ws) (i : Nat) :
    (c.writes ws).cell i = c.cell i ∨ ∃ y, (c.writes ws).cell i = some y ∧ R i y := by
  induction ws generalizing c with
  | nil => exact Or.inl rfl
  | cons w ws ih =>
    rw [writes_cons]
    rcases ih (c := c.write w.1 w.2) (fun w' hw' => h w' (List.mem_cons_of_mem _ hw')) with h1 | h1
    · rcases cell_write_cases (h w List.mem_cons_self) (c := c) i with h2 | ⟨y, h2, h3⟩
      · exact Or.inl (h1.trans h2)
      · exact Or.inr ⟨y, h1.trans h2, h3⟩
    · exact Or.inr h1

/-- A cell whose value is the only one allowed keeps it. -/
theorem cell_writes_of_unique (h : Respects R ws) (hu : ∀ y, R i y → y = x) (hc : c.cell i = some x) :
    (c.writes ws).cell i = some x := by
  rcases cell_writes_cases h (c := c) i with h1 | ⟨y, h1, h2⟩
  · rw [h1, hc]
  · rw [h1, hu y h2]

/-- One of the writes sets the cell to the value. -/
def Sets (ws : List (Nat × List α)) (i : Nat) (x : α) : Prop := ∃ w ∈ ws, ∃ j, w.2[j]? = some x ∧ i = w.1 + j

/-- A cell that is written has its only allowed value afterwards. -/
theorem cell_writes_of_sets (h : Respects R ws) (hu : ∀ y, R i y → y = x) (hs : Sets ws i x) :
    (c.writes ws).cell i = some x := by
  obtain ⟨w, hw, j, hj, hi⟩ := hs
  induction ws generalizing c with
  | nil => cases hw
  | cons w' ws ih =>
    have hrest : Respects R ws := fun w'' hw'' => h w'' (List.mem_cons_of_mem _ hw'')
    rw [writes_cons]
    rcases List.mem_cons.mp hw with rfl | hw
    · refine cell_writes_of_unique hrest hu ?_
      obtain ⟨hlt, -⟩ := List.getElem?_eq_some_iff.mp hj
      rw [cell_write, if_pos (by omega), hi, Nat.add_sub_cancel_left, hj]
    · exact ih hrest hw

/-! ### The end of a file -/

/-- Cells beyond the end of a file were not written. -/
def Bounded (c : Content α) : Prop := ∀ i, (c.cell i).isSome = true → i < c.len

theorem bounded_empty : (empty : Content α).Bounded := fun i hi => by simp at hi

theorem Bounded.write (h : c.Bounded) (offset : Nat) (data : List α) : (c.write offset data).Bounded := by
  intro i hi
  unfold Content.write at hi ⊢
  split at hi
  · rw [if_pos ‹_›]
    exact h i hi
  · rw [if_neg ‹_›]
    simp only at hi ⊢
    split at hi
    · omega
    · have := h i hi
      omega

theorem Bounded.writes (h : c.Bounded) (ws : List (Nat × List α)) : (c.writes ws).Bounded := by
  induction ws generalizing c with
  | nil => exact h
  | cons w ws ih => exact ih (h.write w.1 w.2)

/-- A file reaches at least to the end of every write. -/
theorem le_len_writes (c : Content α) (ws : List (Nat × List α)) :
    c.len ≤ (c.writes ws).len ∧ ∀ w ∈ ws, w.2 ≠ [] → w.1 + w.2.length ≤ (c.writes ws).len := by
  induction ws generalizing c with
  | nil => simp
  | cons w ws ih =>
    rw [writes_cons]
    obtain ⟨h1, h2⟩ := ih (c.write w.1 w.2)
    have hlen : c.len ≤ (c.write w.1 w.2).len := by
      unfold write
      split
      · exact Nat.le_refl _
      · exact Nat.le_max_left _ _
    refine ⟨le_trans hlen h1, List.forall_mem_cons.mpr ⟨fun hne => ?_, h2⟩⟩
    have hend : w.1 + w.2.length ≤ (c.write w.1 w.2).len := by
      unfold write
      rw [if_neg (by simpa using hne)]
      exact Nat.le_max_right _ _
    exact le_trans hend h1

/-- A file ends where it ended before, or where a write ends. -/
theorem len_writes_cases (c : Content α) (ws : List (Nat × List α)) :
    (c.writes ws).len = c.len ∨ ∃ w ∈ ws, w.2 ≠ [] ∧ (c.writes ws).len = w.1 + w.2.length := by
  induction ws generalizing c with
  | nil => exact Or.inl rfl
  | cons w ws ih =>
    rw [writes_cons]
    rcases ih (c.write w.1 w.2) with h | ⟨w', hw', hne, h⟩
    · rw [h]
      unfold write
      split
      · exact Or.inl rfl
      · rename_i hne
        rcases Nat.le_total c.len (w.1 + w.2.length) with hle | hle
        · exact Or.inr ⟨w, List.mem_cons_self, by simpa using hne, Nat.max_eq_right hle⟩
        · exact Or.inl (Nat.max_eq_left hle)
    · exact Or.inr ⟨w', List.mem_cons_of_mem _ hw', hne, h⟩

theorem len_write_le {n offset : Nat} {data : List α} (h : c.len ≤ n)
    (hdata : ∀ j x, data[j]? = some x → offset + j < n) :
    (c.write offset data).len ≤ n := by
  unfold write
  split
  · exact h
  · rename_i hne
    rw [Bool.not_eq_true, List.isEmpty_eq_false_iff] at hne
    have hpos := List.length_pos_iff.mpr hne
    have hlast := hdata (data.length - 1) _ (List.getElem?_eq_getElem (by omega))
    simp only
    omega

/-- Writes below a bound do not extend a file beyond it. -/
theorem len_writes_le {n : Nat} (h : c.len ≤ n) (hR : ∀ i x, R i x → i < n) (hws : Respects R ws) :
    (c.writes ws).len ≤ n := by
  induction ws generalizing c with
  | nil => exact h
  | cons w ws ih =>
    refine ih (len_write_le h (fun j x hj => hR _ _ (hws w List.mem_cons_self j x hj))) ?_
    exact fun w' hw' => hws w' (List.mem_cons_of_mem _ hw')

/-- The last cell was written. -/
def Tight (c : Content α) : Prop := 0 < c.len → (c.cell (c.len - 1)).isSome = true

theorem tight_empty : (empty : Content α).Tight := fun h => absurd h (Nat.lt_irrefl 0)

theorem Tight.write (h : c.Tight) (offset : Nat) (data : List α) : (c.write offset data).Tight := by
  unfold Content.write
  split
  · exact h
  · rename_i hne
    rw [Bool.not_eq_true, List.isEmpty_eq_false_iff] at hne
    have hpos := List.length_pos_iff.mpr hne
    intro hlen
    dsimp only at hlen ⊢
    split
    · rw [List.getElem?_eq_getElem (by omega)]
      rfl
    · rw [show max c.len (offset + data.length) - 1 = c.len - 1 by omega]
      exact h (by omega)

theorem Tight.writes (h : c.Tight) (ws : List (Nat × List α)) : (c.writes ws).Tight := by
  induction ws generalizing c with
  | nil => exact h
  | cons w ws ih => exact ih (h.write w.1 w.2)

theorem NoGaps.write (h : c.NoGaps) {offset : Nat} (hle : offset ≤ c.len) (data : List α) :
    (c.write offset data).NoGaps := by
  unfold Content.write
  split
  · exact h
  · intro i hi
    dsimp only at hi ⊢
    split
    · rw [List.getElem?_eq_getElem (by omega)]
      rfl
    · exact h i (by omega)

/-- Each write starts inside of what was written before it, or at the end of that. -/
def Adjoins : Nat → List (Nat × List α) → Prop
  | _, [] => True
  | n, w :: ws => w.1 ≤ n ∧ Adjoins (max n (w.1 + w.2.length)) ws

theorem Adjoins.of_prefix {n : Nat} (h : Adjoins n ws) {ws' : List (Nat × List α)} (hsub : ws' <+: ws) :
    Adjoins n ws' := by
  induction ws generalizing n ws' with
  | nil =>
    rw [List.prefix_nil.mp hsub]
    trivial
  | cons w ws ih =>
    cases ws' with
    | nil => trivial
    | cons w' ws' =>
      obtain ⟨rfl, htail⟩ := List.cons_prefix_cons.mp hsub
      exact ⟨h.1, ih h.2 htail⟩

/-- Writes that adjoin each other leave no gaps. -/
theorem NoGaps.writes (h : c.NoGaps) {n : Nat} (hlen : n ≤ c.len) (hws : Adjoins n ws) : (c.writes ws).NoGaps := by
  induction ws generalizing c n with
  | nil => exact h
  | cons w ws ih =>
    obtain ⟨hle, hws⟩ := hws
    refine ih (h.write (le_trans hle hlen) w.2) ?_ hws
    have hwrite := le_len_writes c [w]
    rw [writes_cons, writes_nil] at hwrite
    refine max_le (le_trans hlen hwrite.1) ?_
    by_cases hne : w.2 = []
    · have hend : w.1 + w.2.length = w.1 := by rw [hne, List.length_nil, Nat.add_zero]
      rw [hend]
      exact le_trans hle (le_trans hlen hwrite.1)
    · exact hwrite.2 w List.mem_cons_self hne

/-! ### Copies -/

theorem mem_cellWrites {w : Nat × List α} :
    w ∈ c.cellWrites ↔ ∃ i x, i < c.len ∧ c.cell i = some x ∧ w = (i, [x]) := by
  simp only [cellWrites, List.mem_filterMap, List.mem_range, Option.map_eq_some_iff]
  constructor
  · rintro ⟨i, hi, x, hx, rfl⟩
    exact ⟨i, x, hi, hx, rfl⟩
  · rintro ⟨i, x, hi, hx, rfl⟩
    exact ⟨i, hi, x, hx, rfl⟩

theorem sets_cellWrites (hb : c.Bounded) {i : Nat} {x : α} (h : c.cell i = some x) : Sets c.cellWrites i x := by
  have hlt : i < c.len := hb i (by rw [h]; rfl)
  exact ⟨(i, [x]), mem_cellWrites.mpr ⟨i, x, hlt, h, rfl⟩, 0, rfl, rfl⟩

theorem respects_cellWrites (h : ∀ i x, c.cell i = some x → R i x) : Respects R c.cellWrites := by
  intro w hw j x hj
  obtain ⟨i, y, -, hy, rfl⟩ := mem_cellWrites.mp hw
  cases j with
  | zero =>
    cases hj
    exact h i _ hy
  | succ j => cases hj

variable {omits : Nat → Bool} {target : Content α}

/-- Cells that no write covers stay. -/
theorem cell_writes_of_uncovered (h : ∀ w ∈ ws, ¬ (w.1 ≤ i ∧ i < w.1 + w.2.length)) :
    (c.writes ws).cell i = c.cell i := by
  induction ws generalizing c with
  | nil => rfl
  | cons w ws ih =>
    rw [writes_cons, ih (fun w' hw' => h w' (List.mem_cons_of_mem _ hw')), cell_write, if_neg (h w List.mem_cons_self)]

/-- A cell of a copy: it was copied, unless it was left out. -/
theorem cell_persist (hb : c.Bounded) (i : Nat) :
    (c.persist omits target).cell i = if omits i then target.cell i else (c.cell i).or (target.cell i) := by
  unfold persist
  by_cases hkept : omits i = false ∧ (c.cell i).isSome = true
  · obtain ⟨homits, hsome⟩ := hkept
    obtain ⟨x, hx⟩ := Option.isSome_iff_exists.mp hsome
    have hlt := hb i hsome
    have hmem : (i, [x]) ∈ c.cellWrites.filter fun w => !omits w.1 :=
      List.mem_filter.mpr ⟨mem_cellWrites.mpr ⟨i, x, hlt, hx, rfl⟩, by simp [homits]⟩
    rw [homits, if_neg Bool.false_ne_true, hx, Option.some_or]
    exact cell_writes_of_sets ((respects_cellWrites (R := fun j y => c.cell j = some y) fun _ _ h => h).sublist
      List.filter_sublist)
      (fun y hy => Option.some.inj (hy.symm.trans hx)) ⟨_, hmem, 0, rfl, rfl⟩
  · rw [cell_writes_of_uncovered]
    · split
      · rfl
      · rename_i homits
        rw [Bool.not_eq_true] at homits
        have hnone : c.cell i = none := by
          rw [← Option.not_isSome_iff_eq_none]
          exact fun hsome => hkept ⟨homits, hsome⟩
        rw [hnone, Option.none_or]
    · intro w hw hcovers
      obtain ⟨hw, homits⟩ := List.mem_filter.mp hw
      obtain ⟨j, x, -, hx, rfl⟩ := mem_cellWrites.mp hw
      obtain rfl : j = i := by
        simp only [List.length_singleton] at hcovers
        omega
      exact hkept ⟨by simpa using homits, by rw [hx]; rfl⟩

/-- A copy to a new file has the same cells, if nothing is left out. -/
theorem cell_persist_new (hb : c.Bounded) (i : Nat) : (c.persist (fun _ => false) empty).cell i = c.cell i := by
  rw [cell_persist hb, if_neg Bool.false_ne_true, cell_empty, Option.or_none]

theorem Bounded.persist (h' : target.Bounded) (omits : Nat → Bool) : (c.persist omits target).Bounded := h'.writes _

/-- The end of a copy: it reaches to the end of the target, and to the last cell that was copied. -/
theorem len_persist (hb : c.Bounded) : target.len ≤ (c.persist omits target).len ∧
    (∀ i, (c.cell i).isSome = true → omits i = false → i < (c.persist omits target).len) ∧
    ((c.persist omits target).len = target.len ∨
      ∃ i, (c.cell i).isSome = true ∧ omits i = false ∧ (c.persist omits target).len = i + 1) := by
  obtain ⟨h1, h2⟩ := le_len_writes target (c.cellWrites.filter fun w => !omits w.1)
  refine ⟨h1, ?_, ?_⟩
  · intro i hsome homits
    obtain ⟨x, hx⟩ := Option.isSome_iff_exists.mp hsome
    exact h2 (i, [x]) (List.mem_filter.mpr ⟨mem_cellWrites.mpr ⟨i, x, hb i hsome, hx, rfl⟩, by simp [homits]⟩) (by simp)
  · refine (len_writes_cases target _).imp_right ?_
    rintro ⟨w, hw, -, hlen⟩
    obtain ⟨hw, homits⟩ := List.mem_filter.mp hw
    obtain ⟨i, x, -, hx, rfl⟩ := mem_cellWrites.mp hw
    exact ⟨i, by rw [hx]; rfl, by simpa using homits, hlen⟩

/-- A copy without omissions reaches to the end of both. -/
theorem len_persist_of_tight (hb : c.Bounded) (ht : c.Tight) (homits : ∀ i, omits i = false) :
    (c.persist omits target).len = max target.len c.len := by
  obtain ⟨h1, h2, h3⟩ := @len_persist _ c omits target hb
  have hle : (c.persist omits target).len ≤ max target.len c.len := by
    rcases h3 with h3 | ⟨i, hsome, -, h3⟩
    · omega
    · have := hb i hsome
      omega
  rcases Nat.eq_zero_or_pos c.len with hzero | hpos
  · omega
  · have := h2 _ (ht hpos) (homits _)
    omega

theorem ext_cell {c c' : Content α} (hlen : c.len = c'.len) (hcell : ∀ i, c.cell i = c'.cell i) : c = c' := by
  cases c
  cases c'
  rw [mk.injEq]
  exact ⟨hlen, funext hcell⟩

/-- A copy without omissions of a content that ends with a cell that was written. -/
theorem persist_new (hb : c.Bounded) (ht : c.Tight) : c.persist (fun _ => false) empty = c := by
  apply ext_cell
  · rw [len_persist_of_tight hb ht (fun _ => rfl)]
    exact Nat.zero_max _
  · exact cell_persist_new hb

/-- Writes of the values of a content are a copy, in which everything is left out that they do not cover. -/
theorem writes_eq_persist (hb : c.Bounded) (h : Respects (fun i x => c.cell i = some x) ws)
    (hcovers : ∀ i, (∃ w ∈ ws, w.1 ≤ i ∧ i < w.1 + w.2.length) ↔ (c.cell i).isSome = true ∧ omits i = false) :
    target.writes ws = c.persist omits target := by
  apply ext_cell
  · obtain ⟨h1, h2⟩ := le_len_writes target ws
    obtain ⟨h3, h4, h5⟩ := @len_persist _ c omits target hb
    apply Nat.le_antisymm
    · rcases len_writes_cases target ws with hlen | ⟨w, hw, hne, hlen⟩
      · omega
      · have hpos := List.length_pos_iff.mpr hne
        obtain ⟨hsome, homits⟩ := (hcovers (w.1 + w.2.length - 1)).mp ⟨w, hw, by omega, by omega⟩
        have := h4 _ hsome homits
        omega
    · rcases h5 with hlen | ⟨i, hsome, homits, hlen⟩
      · omega
      · obtain ⟨w, hw, hle, hlt⟩ := (hcovers i).mpr ⟨hsome, homits⟩
        have := h2 w hw (List.length_pos_iff.mp (by omega))
        omega
  · intro i
    rw [cell_persist hb]
    by_cases hi : ∃ w ∈ ws, w.1 ≤ i ∧ i < w.1 + w.2.length
    · obtain ⟨hsome, homits⟩ := (hcovers i).mp hi
      obtain ⟨w, hw, hle, hlt⟩ := hi
      have hget := List.getElem?_eq_getElem (l := w.2) (i := i - w.1) (by omega)
      have hx := h w hw _ _ hget
      rw [Nat.add_sub_cancel' hle] at hx
      rw [homits, if_neg Bool.false_ne_true, hx, Option.some_or]
      exact cell_writes_of_sets h (fun y hy => Option.some.inj (hy.symm.trans hx)) ⟨w, hw, _, hget, by omega⟩
    · rw [cell_writes_of_uncovered fun w hw hcov => hi ⟨w, hw, hcov⟩]
      split
      · rfl
      · rename_i homits
        have hnone : c.cell i = none := by
          rw [← Option.not_isSome_iff_eq_none]
          exact fun hsome => hi ((hcovers i).mpr ⟨hsome, by simpa using homits⟩)
        rw [hnone, Option.none_or]

end Content
