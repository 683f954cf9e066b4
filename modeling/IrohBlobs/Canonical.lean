import IrohBlobs.Gc
import IrohBlobs.RangeViews
import IrohBlobs.StateMachine

/-!
# Canonical sequences of ranges

A sequence of ranges is canonical if its offsets increase, neighbours differ, and the first entry is not empty.  Then
every entry changes what is selected, so that a canonical sequence is determined by the ranges it selects
(`Canonical.ext`).  The constructors from lists and the builders give canonical sequences.  A builder has no place
after the offset `2 ^ 64 - 1`: there `next_offset_value` overflows.

The predicates on sequences look at the number of entries and at one or two of them.  For canonical sequences this
says what is selected, with the exception of `is_all`, which does not look at the offset of its entry.
-/

namespace IrohBlobs

namespace ChunkRangesSeq

/-! ### The canonical form -/

/-- The offsets increase, neighbours differ, and the first entry is not empty. -/
structure Canonical (seq : ChunkRangesSeq) : Prop where
  offsets : seq.entries.Pairwise (fun a b => a.1 < b.1)
  neighbours : seq.entries.IsChain (fun a b => a.2 ≠ b.2)
  first : ∀ e, seq.entries.head? = some e → e.2 ≠ ∅

/-- Each entry changes the current ranges, at an offset after that of the entry before it. -/
def CanonicalFrom (current : ChunkRanges) (n : Nat) : List (Nat × ChunkRanges) → Prop
  | [] => True
  | (o, r) :: rest => n ≤ o ∧ r ≠ current ∧ CanonicalFrom r (o + 1) rest

private theorem CanonicalFrom.le {current : ChunkRanges} {n : Nat} {entries : List (Nat × ChunkRanges)}
    (h : CanonicalFrom current n entries) : ∀ e ∈ entries, n ≤ e.1 := by
  induction entries generalizing current n with
  | nil => simp
  | cons e rest ih =>
    obtain ⟨o, r⟩ := e
    intro e he
    have hn : n ≤ o := h.1
    rcases List.mem_cons.mp he with rfl | he
    · exact hn
    · have hle := ih h.2.2 e he
      omega

private theorem canonicalFrom_iff {current : ChunkRanges} {n : Nat} {entries : List (Nat × ChunkRanges)} :
    CanonicalFrom current n entries ↔ entries.Pairwise (fun a b => a.1 < b.1) ∧ (∀ e ∈ entries, n ≤ e.1) ∧
      entries.IsChain (fun a b => a.2 ≠ b.2) ∧ ∀ e, entries.head? = some e → e.2 ≠ current := by
  induction entries generalizing current n with
  | nil => simp [CanonicalFrom]
  | cons e rest ih =>
    obtain ⟨o, r⟩ := e
    constructor
    · intro h
      have hle := h.le
      obtain ⟨-, hne, hrest⟩ := h
      have hbound := hrest.le
      obtain ⟨hpair, -, hchain, hfirst⟩ := ih.mp hrest
      refine ⟨List.pairwise_cons.mpr ⟨fun e he => hbound e he, hpair⟩, hle, ?_, ?_⟩
      · rw [List.isChain_cons]
        refine ⟨?_, hchain⟩
        intro e he
        exact (hfirst e he).symm
      · intro e he
        cases he
        exact hne
    · rintro ⟨hpair, hle, hchain, hfirst⟩
      rw [List.pairwise_cons] at hpair
      rw [List.isChain_cons] at hchain
      refine ⟨hle _ List.mem_cons_self, hfirst _ rfl, ih.mpr ⟨hpair.2, fun e he => hpair.1 e he, hchain.2, ?_⟩⟩
      intro e he
      exact (hchain.1 e he).symm

theorem canonical_iff {seq : ChunkRangesSeq} : seq.Canonical ↔ CanonicalFrom ∅ 0 seq.entries := by
  rw [canonicalFrom_iff]
  constructor
  · intro h
    exact ⟨h.offsets, fun e _ => Nat.zero_le e.1, h.neighbours, h.first⟩
  · rintro ⟨hpair, -, hchain, hfirst⟩
    exact ⟨hpair, hchain, hfirst⟩

private theorem canonicalFrom_concat {current : ChunkRanges} {n o : Nat} {r : ChunkRanges}
    {entries : List (Nat × ChunkRanges)}
    (h : CanonicalFrom current n entries) (hn : n ≤ o) (hlt : ∀ e ∈ entries, e.1 < o)
    (hne : r ≠ (entries.getLast?.map Prod.snd).getD current) : CanonicalFrom current n (entries ++ [(o, r)]) := by
  induction entries generalizing current n with
  | nil => exact ⟨hn, hne, trivial⟩
  | cons e rest ih =>
    obtain ⟨o', r'⟩ := e
    have ho : o' < o := hlt _ List.mem_cons_self
    refine ⟨h.1, h.2.1, ih h.2.2 ho (fun e he => hlt e (List.mem_cons_of_mem _ he)) ?_⟩
    rw [List.getLast?_cons] at hne
    cases hlast : rest.getLast? <;> simpa [hlast] using hne

/-- Before the first entry the current ranges are selected. -/
private theorem valueFrom_of_lt {current : ChunkRanges} {n i : Nat} {entries : List (Nat × ChunkRanges)}
    (h : CanonicalFrom current n entries) (hi : i < n) : valueFrom current entries i = current := by
  cases entries with
  | nil => rfl
  | cons e rest =>
    obtain ⟨o, r⟩ := e
    have hn : n ≤ o := h.1
    rw [valueFrom, if_pos (by omega)]

/-- At its offset an entry is selected. -/
private theorem valueFrom_head {current r : ChunkRanges} {n o : Nat} {rest : List (Nat × ChunkRanges)}
    (h : CanonicalFrom current n ((o, r) :: rest)) : valueFrom current ((o, r) :: rest) o = r := by
  rw [valueFrom, if_neg (Nat.lt_irrefl o)]
  exact valueFrom_of_lt h.2.2 (Nat.lt_succ_self o)

/-- The entries can be read off the ranges that they select. -/
private theorem eq_of_valueFrom {current : ChunkRanges} {n : Nat} {es fs : List (Nat × ChunkRanges)}
    (he : CanonicalFrom current n es) (hf : CanonicalFrom current n fs)
    (h : ∀ i, n ≤ i → valueFrom current es i = valueFrom current fs i) : es = fs := by
  induction es generalizing current n fs with
  | nil =>
    cases fs with
    | nil => rfl
    | cons f fs =>
      obtain ⟨o, r⟩ := f
      have hval := h o hf.1
      rw [valueFrom_head hf, valueFrom] at hval
      exact absurd hval.symm hf.2.1
  | cons e es ih =>
    obtain ⟨o, r⟩ := e
    cases fs with
    | nil =>
      have hval := h o he.1
      rw [valueFrom_head he, valueFrom] at hval
      exact absurd hval he.2.1
    | cons f fs =>
      obtain ⟨o', r'⟩ := f
      -- the first change is at the same offset
      have hoffset : o = o' := by
        rcases Nat.lt_trichotomy o o' with hlt | heq | hlt
        · have hval := h o he.1
          rw [valueFrom_head he, valueFrom, if_pos hlt] at hval
          exact absurd hval he.2.1
        · exact heq
        · have hval := h o' hf.1
          rw [valueFrom_head hf, valueFrom, if_pos hlt] at hval
          exact absurd hval.symm hf.2.1
      subst hoffset
      have hranges : r = r' := by
        have hval := h o he.1
        rwa [valueFrom_head he, valueFrom_head hf] at hval
      subst hranges
      have hrest : es = fs := by
        apply ih he.2.2 hf.2.2
        intro i hi
        have hle : n ≤ o := he.1
        have hval := h i (by omega)
        simp only [valueFrom, if_neg (show ¬ i < o by omega)] at hval
        exact hval
      rw [hrest]

/-- Canonical sequences that select the same ranges are equal. -/
theorem Canonical.ext {a b : ChunkRangesSeq} (ha : a.Canonical) (hb : b.Canonical)
    (h : ∀ i, a.get i = b.get i) : a = b := by
  have hentries : a.entries = b.entries :=
    eq_of_valueFrom (canonical_iff.mp ha) (canonical_iff.mp hb) (fun i _ => h i)
  cases a
  cases b
  rw [ChunkRangesSeq.mk.injEq]
  exact hentries

/-! ### Sequences from lists -/

private theorem canonicalFrom_fromRangesInner (l : List ChunkRanges) : CanonicalFrom ∅ 0 (fromRangesInner l).1 := by
  induction l using List.reverseRecOn with
  | nil => trivial
  | append_singleton l r ih =>
    rw [fromRangesInner_concat, pushRange, fromRangesInner_snd]
    dsimp only
    split
    · exact ih
    · rename_i hne
      exact canonicalFrom_concat ih (Nat.zero_le _) (fromRangesInner_lt l) hne

private theorem canonical_fromRangesInfinite (l : List ChunkRanges) : (fromRangesInfinite l).Canonical :=
  canonical_iff.mpr (canonicalFrom_fromRangesInner l)

theorem canonical_fromRanges (l : List ChunkRanges) : (fromRanges l).Canonical := by
  have hinner := canonicalFrom_fromRangesInner l
  rw [canonical_iff]
  simp only [fromRanges, fromRangesInner_snd]
  split
  · exact hinner
  · rename_i hlast
    refine canonicalFrom_concat hinner (Nat.zero_le _) (fromRangesInner_lt l) ?_
    intro heq
    have hempty : (lastRanges (fromRangesInner l).1).isEmpty = true := by
      rw [lastRanges, ← heq]
      rfl
    exact hlast hempty

end ChunkRangesSeq

/-! ### Builders -/

/-- A call of a builder. -/
inductive BuilderOp
  | offset (offset : UInt64) (ranges : ChunkRanges)
  | next (ranges : ChunkRanges)

namespace ChunkRangesSeqBuilder

/-- `next_offset_value` in `u64`; nothing where the addition overflows. -/
def nextOffsetValueU64 (m : RangesMap) : Option Nat :=
  match m.keys.max? with
  | some k => addU64 k 1
  | none => some 0

/-- One call. -/
def call (b : ChunkRangesSeqBuilder) : BuilderOp → Option ChunkRangesSeqBuilder
  | .offset offset ranges => some (b.atOffset offset.toNat ranges)
  | .next ranges => (nextOffsetValueU64 b.ranges).map (fun offset => b.atOffset offset ranges)

/-- The list of `build0`, whose length is computed in `u64`. -/
def build0U64 (b : ChunkRangesSeqBuilder) : Option (List ChunkRanges) :=
  (nextOffsetValueU64 (retainNonEmpty b.ranges)).map (fun _ => b.build0)

def buildU64 (b : ChunkRangesSeqBuilder) : Option ChunkRangesSeq := b.build0U64.map ChunkRangesSeq.fromRanges

def buildOpenU64 (b : ChunkRangesSeqBuilder) : Option ChunkRangesSeq :=
  b.build0U64.map ChunkRangesSeq.fromRangesInfinite

/-- One more than the largest offset. -/
def nextPlace (places : List (Nat × ChunkRanges)) : Nat := places.foldr (fun p n => max (p.1 + 1) n) 0

/-- A call adds its ranges at an offset. -/
def place (places : List (Nat × ChunkRanges)) : BuilderOp → List (Nat × ChunkRanges)
  | .offset offset ranges => places ++ [(offset.toNat, ranges)]
  | .next ranges => places ++ [(nextPlace places, ranges)]

/-- The offsets and ranges that the calls give. -/
def places (ops : List BuilderOp) : List (Nat × ChunkRanges) := ops.foldl place []

/-- The union of the ranges that are given for a blob. -/
def given (places : List (Nat × ChunkRanges)) (i : Nat) : ChunkRanges :=
  places.foldl (fun r p => if p.1 = i then r ∪ p.2 else r) ∅

/-- The builder gives canonical sequences.  `build` selects what is given, and `build_open` repeats the last non-empty
ranges. -/
def BuildsRight (ops : List BuilderOp) : Prop :=
  ∃ b, StateMachine.run call empty ops = some b ∧
    (∃ seq, b.buildU64 = some seq ∧ seq.Canonical ∧ ∀ i, seq.get i = given (places ops) i) ∧
    ∃ seq, b.buildOpenU64 = some seq ∧ seq.Canonical ∧
      ((∀ i, given (places ops) i = ∅) → ∀ i, seq.get i = ∅) ∧
      ∀ m, given (places ops) m ≠ ∅ → (∀ i, m < i → given (places ops) i = ∅) →
        ∀ i, seq.get i = given (places ops) (min i m)

/-- `next` is not called after the largest offset was given. -/
def NextFits (ops : List BuilderOp) : Prop :=
  ∀ before ranges after, ops = before ++ .next ranges :: after → nextPlace (places before) < 2 ^ 64

/-- `next` is not called after the largest offset was given, and nothing is selected there. -/
def NoOverflow (ops : List BuilderOp) : Prop := NextFits ops ∧ given (places ops) (2 ^ 64 - 1) = ∅

private theorem nextOffsetValue_le_iff {m : RangesMap} {n : Nat} : nextOffsetValue m ≤ n ↔ ∀ k, k ∈ m → k < n := by
  unfold nextOffsetValue
  cases hmax : m.keys.max? with
  | none =>
    rw [List.max?_eq_none_iff] at hmax
    refine iff_of_true (Nat.zero_le n) ?_
    intro k hk
    rw [AList.mem_keys, hmax] at hk
    cases hk
  | some k =>
    obtain ⟨hmem, hle⟩ := List.max?_eq_some_iff.mp hmax
    simp only [Option.map_some, Option.getD_some]
    constructor
    · intro hk j hj
      have hjk := hle j (AList.mem_keys.mp hj)
      omega
    · intro h
      exact h k (AList.mem_keys.mpr hmem)

private theorem nextOffsetValueU64_eq (m : RangesMap) :
    nextOffsetValueU64 m = if nextOffsetValue m < 2 ^ 64 then some (nextOffsetValue m) else none := by
  unfold nextOffsetValueU64 nextOffsetValue
  cases m.keys.max? with
  | none => rfl
  | some k => rfl

private theorem nextPlace_le_iff {places : List (Nat × ChunkRanges)} {n : Nat} :
    nextPlace places ≤ n ↔ ∀ p ∈ places, p.1 < n := by
  induction places with
  | nil => exact iff_of_true (Nat.zero_le n) (by simp)
  | cons p places ih =>
    have hmax : nextPlace (p :: places) = max (p.1 + 1) (nextPlace places) := rfl
    rw [hmax, max_le_iff, ih, List.forall_mem_cons]
    rfl

private theorem nextOffsetValue_atOffset (b : ChunkRangesSeqBuilder) (o : Nat) (r : ChunkRanges) :
    nextOffsetValue (b.atOffset o r).ranges = max (nextOffsetValue b.ranges) (o + 1) := by
  apply eq_of_forall_ge_iff
  intro n
  rw [max_le_iff, nextOffsetValue_le_iff, nextOffsetValue_le_iff]
  simp only [atOffset, AList.mem_insert]
  constructor
  · intro h
    exact ⟨fun k hk => h k (Or.inr hk), h o (Or.inl rfl)⟩
  · rintro ⟨h1, h2⟩ k (rfl | hk)
    · exact h2
    · exact h1 k hk

private theorem nextPlace_concat (places : List (Nat × ChunkRanges)) (p : Nat × ChunkRanges) :
    nextPlace (places ++ [p]) = max (nextPlace places) (p.1 + 1) := by
  apply eq_of_forall_ge_iff
  intro n
  rw [max_le_iff, nextPlace_le_iff, nextPlace_le_iff, List.forall_mem_append, List.forall_mem_singleton]
  rfl

private theorem given_concat (places : List (Nat × ChunkRanges)) (p : Nat × ChunkRanges) (i : Nat) :
    given (places ++ [p]) i = if i = p.1 then given places i ∪ p.2 else given places i := by
  rw [given, List.foldl_append]
  simp only [List.foldl_cons, List.foldl_nil, eq_comm (a := i)]
  rfl

/-- The builder holds what is given. -/
structure Holds (b : ChunkRangesSeqBuilder) (places : List (Nat × ChunkRanges)) : Prop where
  selected : ∀ i, b.selected i = given places i
  next : nextOffsetValue b.ranges = nextPlace places
  lt : ∀ p ∈ places, p.1 < 2 ^ 64

private theorem Holds.atOffset {b : ChunkRangesSeqBuilder} {places : List (Nat × ChunkRanges)}
    (h : b.Holds places) {o : Nat}
    (ho : o < 2 ^ 64) (r : ChunkRanges) : (b.atOffset o r).Holds (places ++ [(o, r)]) := by
  refine ⟨?_, ?_, ?_⟩
  · intro i
    rw [selected_atOffset, given_concat, h.selected, h.selected]
    by_cases hi : i = o
    · rw [if_pos hi, if_pos hi, hi]
    · rw [if_neg hi, if_neg hi]
  · rw [nextOffsetValue_atOffset, nextPlace_concat, h.next]
  · rw [List.forall_mem_append, List.forall_mem_singleton]
    exact ⟨h.lt, ho⟩

private theorem places_concat (ops : List BuilderOp) (op : BuilderOp) :
    places (ops ++ [op]) = place (places ops) op := by
  rw [places, List.foldl_append]
  rfl

/-- Where an element of a list with one more element at the end is. -/
private theorem concat_eq_append_cons {α : Type} {l before after : List α} {last x : α}
    (h : l ++ [last] = before ++ x :: after) :
    (before = l ∧ x = last) ∨ ∃ after', l = before ++ x :: after' := by
  rcases List.eq_nil_or_concat after with rfl | ⟨after', y, rfl⟩
  · obtain ⟨hl, hlast⟩ := List.append_inj' h rfl
    exact Or.inl ⟨hl.symm, (List.singleton_inj.mp hlast).symm⟩
  · rw [List.concat_eq_append, ← List.cons_append, ← List.append_assoc] at h
    exact Or.inr ⟨after', (List.append_inj' h rfl).1⟩

private theorem nextFits_concat {ops : List BuilderOp} {op : BuilderOp} :
    NextFits (ops ++ [op]) ↔ NextFits ops ∧ ∀ ranges, op = .next ranges → nextPlace (places ops) < 2 ^ 64 := by
  constructor
  · intro h
    refine ⟨?_, ?_⟩
    · intro before ranges after heq
      apply h before ranges (after ++ [op])
      rw [heq, List.append_assoc, List.cons_append]
    · rintro ranges rfl
      exact h ops ranges [] rfl
  · rintro ⟨hfits, hlast⟩ before ranges after heq
    rcases concat_eq_append_cons heq with ⟨rfl, hop⟩ | ⟨after', hops⟩
    · exact hlast ranges hop.symm
    · exact hfits before ranges after' hops

/-- The calls are possible exactly if no call of `next` overflows, and then the builder holds what is given. -/
private theorem run_call (ops : List BuilderOp) :
    ((StateMachine.run call empty ops).isSome = true ↔ NextFits ops) ∧
      ∀ b, StateMachine.run call empty ops = some b → b.Holds (places ops) := by
  induction ops using List.reverseRecOn with
  | nil =>
    refine ⟨iff_of_true rfl ?_, ?_⟩
    · intro before ranges after h
      exact absurd h (by simp)
    · intro b hb
      cases hb
      exact ⟨fun i => selected_empty i, rfl, by simp [places]⟩
  | append_singleton ops op ih =>
    obtain ⟨ihsome, ihholds⟩ := ih
    rw [StateMachine.run_append, places_concat, nextFits_concat]
    cases hrun : StateMachine.run call empty ops with
    | none =>
      rw [hrun] at ihsome
      refine ⟨iff_of_false (by simp) ?_, ?_⟩
      · rintro ⟨hfits, -⟩
        exact absurd (ihsome.mpr hfits) (by simp)
      · intro b hb
        cases hb
    | some b =>
      have hholds := ihholds b hrun
      have hfits := ihsome.mp (by rw [hrun]; rfl)
      rw [Option.bind_some]
      cases op with
      | offset o ranges =>
        refine ⟨iff_of_true rfl ⟨hfits, by simp⟩, ?_⟩
        intro b' hb'
        cases hb'
        exact hholds.atOffset o.toNat_lt ranges
      | next ranges =>
        simp only [StateMachine.run, call, nextOffsetValueU64_eq, hholds.next]
        by_cases hlt : nextPlace (places ops) < 2 ^ 64
        · rw [if_pos hlt]
          refine ⟨iff_of_true rfl ⟨hfits, fun _ _ => hlt⟩, ?_⟩
          intro b' hb'
          cases hb'
          exact hholds.atOffset hlt ranges
        · rw [if_neg hlt]
          refine ⟨iff_of_false (by simp) ?_, ?_⟩
          · rintro ⟨-, hnext⟩
            exact hlt (hnext ranges rfl)
          · intro b' hb'
            cases hb'

private theorem mem_retainNonEmpty {b : ChunkRangesSeqBuilder} {k : Nat} :
    k ∈ retainNonEmpty b.ranges ↔ b.selected k ≠ ∅ := by
  rw [← AList.lookup_isSome, lookup_retainNonEmpty, selected]
  cases b.ranges.lookup k with
  | none => simp
  | some v =>
    simp only [Option.isSome_filter, Option.getD_some, Option.any_some]
    rw [Bool.not_eq_true', RangeSet.isEmpty_eq_false_iff, Ne, RangeSet.eq_empty_iff]
    push Not
    rfl

private theorem given_eq_empty {places : List (Nat × ChunkRanges)} {i : Nat} (h : ∀ p ∈ places, p.1 ≠ i) :
    given places i = ∅ := by
  induction places using List.reverseRecOn with
  | nil => rfl
  | append_singleton places p ih =>
    have hne : i ≠ p.1 := (h p (by simp)).symm
    rw [given_concat, if_neg hne]
    exact ih (fun q hq => h q (List.mem_append_left _ hq))

/-- The length of the list is computed without overflow exactly if nothing is selected at the largest offset. -/
private theorem Holds.build0U64 {b : ChunkRangesSeqBuilder} {places : List (Nat × ChunkRanges)} (h : b.Holds places) :
    b.build0U64 = if given places (2 ^ 64 - 1) = ∅ then some b.build0 else none := by
  have hlt : ∀ k, given places k ≠ ∅ → k < 2 ^ 64 := by
    intro k hk
    by_contra hge
    apply hk
    apply given_eq_empty
    intro p hp heq
    have := h.lt p hp
    omega
  have hle : nextOffsetValue (retainNonEmpty b.ranges) < 2 ^ 64 ↔ given places (2 ^ 64 - 1) = ∅ := by
    rw [Nat.lt_iff_le_pred (by decide), nextOffsetValue_le_iff]
    simp only [mem_retainNonEmpty, h.selected]
    constructor
    · intro hall
      by_contra hne
      exact absurd (hall _ hne) (lt_irrefl _)
    · intro hempty k hk
      have hk64 := hlt k hk
      have hne : k ≠ 2 ^ 64 - 1 := by
        rintro rfl
        exact hk hempty
      omega
  rw [ChunkRangesSeqBuilder.build0U64, nextOffsetValueU64_eq]
  by_cases hempty : given places (2 ^ 64 - 1) = ∅
  · rw [if_pos hempty, if_pos (hle.mpr hempty), Option.map_some]
  · rw [if_neg hempty, if_neg (fun hc => hempty (hle.mp hc)), Option.map_none]

private theorem get_buildOpen_empty {b : ChunkRangesSeqBuilder} (h : ∀ i, b.selected i = ∅) (i : Nat) :
    b.buildOpen.get i = ∅ := by
  have hnil : b.build0 = [] := by
    have hzero : nextOffsetValue (retainNonEmpty b.ranges) ≤ 0 := by
      rw [nextOffsetValue_le_iff]
      intro k hk
      exact absurd (h k) (mem_retainNonEmpty.mp hk)
    rw [build0, Nat.le_zero.mp hzero]
    rfl
  rw [buildOpen, hnil]
  rfl

/-- A builder works exactly if nothing overflows. -/
theorem buildsRight_iff (ops : List BuilderOp) : BuildsRight ops ↔ NoOverflow ops := by
  obtain ⟨hsome, hholds⟩ := run_call ops
  constructor
  · rintro ⟨b, hrun, ⟨seq, hseq, -⟩, -⟩
    refine ⟨hsome.mp (by rw [hrun]; rfl), ?_⟩
    rw [buildU64, (hholds b hrun).build0U64] at hseq
    by_contra hne
    rw [if_neg hne] at hseq
    cases hseq
  · rintro ⟨hfits, hempty⟩
    obtain ⟨b, hrun⟩ := Option.isSome_iff_exists.mp (hsome.mpr hfits)
    have hb := hholds b hrun
    have hbuild0 := hb.build0U64
    rw [if_pos hempty] at hbuild0
    refine ⟨b, hrun, ⟨b.build, ?_, ChunkRangesSeq.canonical_fromRanges _, ?_⟩,
      b.buildOpen, ?_, ChunkRangesSeq.canonical_fromRangesInfinite _, ?_, ?_⟩
    · rw [buildU64, hbuild0]
      rfl
    · intro i
      rw [get_build, hb.selected]
    · rw [buildOpenU64, hbuild0]
      rfl
    · intro hall
      exact get_buildOpen_empty (fun i => by rw [hb.selected, hall])
    · intro m hm hmax i
      have hne : (b.selected m).isEmpty = false := by
        rw [← Bool.not_eq_true, RangeSet.isEmpty_iff, ← RangeSet.eq_empty_iff, hb.selected]
        exact hm
      have hlast : ∀ i, m < i → (b.selected i).isEmpty = true := by
        intro i hi
        rw [RangeSet.isEmpty_iff, ← RangeSet.eq_empty_iff, hb.selected, hmax i hi]
      rw [get_buildOpen hne hlast, hb.selected]

end ChunkRangesSeqBuilder

namespace ChunkRangesSeq

/-- The sequences from lists select the listed ranges, and builders select what they are given as long as nothing
overflows.  All results are canonical, so that they are equal exactly if they select the same. -/
theorem constructors_canonical_iff (l : List ChunkRanges) (ops : List BuilderOp) :
    ((fromRanges l).Canonical ∧ ∀ i, (fromRanges l).get i = l.getD i ∅) ∧
    ((fromRangesInfinite l).Canonical ∧
      ∀ i, (fromRangesInfinite l).get i = if h : i < l.length then l.get ⟨i, h⟩ else l.getLastD ∅) ∧
    (∀ a b : ChunkRangesSeq, a.Canonical → b.Canonical → (a = b ↔ ∀ i, a.get i = b.get i)) ∧
    (ChunkRangesSeqBuilder.BuildsRight ops ↔ ChunkRangesSeqBuilder.NoOverflow ops) := by
  refine ⟨⟨canonical_fromRanges l, get_fromRanges l⟩, ⟨canonical_fromRangesInfinite l, get_fromRangesInfinite l⟩, ?_,
    ChunkRangesSeqBuilder.buildsRight_iff ops⟩
  intro a b ha hb
  constructor
  · rintro rfl i
    rfl
  · exact ha.ext hb

/-- A range at the largest offset has no offset after it. -/
theorem not_buildsRight_lastOffset : ¬ ∀ ops, ChunkRangesSeqBuilder.BuildsRight ops := by
  intro h
  have hright := h [.offset 0xffffffffffffffff RangeSet.all]
  rw [ChunkRangesSeqBuilder.buildsRight_iff] at hright
  exact absurd hright.2 (by decide)

/-! ### Shapes -/

/-- No blob is selected. -/
def isEmpty (seq : ChunkRangesSeq) : Bool := seq.entries.isEmpty

/-- Everything of every blob is selected.  The offset is not looked at. -/
def isAll (seq : ChunkRangesSeq) : Bool :=
  match seq.entries with
  | [(_, ranges)] => ranges.isAll
  | _ => false

/-- The last entry is repeated forever. -/
def isInfinite (seq : ChunkRangesSeq) : Bool := (seq.entries.getLast?.map (fun e => !e.2.isEmpty)).getD false

end ChunkRangesSeq

/-- `GetRequest::content`. -/
def GetRequest.content (request : GetRequest Hash) : HashAndFormat :=
  ⟨request.hash, if request.ranges.isBlob then .raw else .hashSeq⟩

namespace ChunkRangesSeq

/-- The predicates say what is selected. -/
structure ShapesMatch (seq : ChunkRangesSeq) : Prop where
  isEmpty : seq.isEmpty = true ↔ ∀ i, seq.get i = ∅
  isAll : seq.isAll = true ↔ ∀ i, seq.get i = RangeSet.all
  isInfinite : seq.isInfinite = true ↔ { i | seq.get i ≠ ∅ }.Infinite
  asSingle : ∀ k r, r ≠ ∅ → (seq.asSingleU64 = some (some (k, r)) ↔ seq.get k = r ∧ ∀ i, i ≠ k → seq.get i = ∅)
  isBlob : seq.isBlobU64 = some true ↔ (∀ i, 0 < i → seq.get i = ∅) ∧ seq.get 0 ≠ ∅
  content : ∀ hash, (GetRequest.content ⟨hash, seq⟩).format = .raw ↔ seq.isBlobU64 = some true

/-- Ranges of one blob. -/
def single (k : Nat) (r : ChunkRanges) : ChunkRangesSeq := ⟨[(k, r), (k + 1, ∅)]⟩

private theorem canonical_single {k : Nat} {r : ChunkRanges} (h : r ≠ ∅) : (single k r).Canonical :=
  canonical_iff.mpr ⟨Nat.zero_le k, h, Nat.le_refl _, h.symm, trivial⟩

private theorem get_single (k : Nat) (r : ChunkRanges) (i : Nat) : (single k r).get i = if i = k then r else ∅ := by
  simp only [get, single, valueFrom]
  by_cases hlt : i < k
  · rw [if_pos hlt, if_neg (by omega)]
  · rw [if_neg hlt]
    by_cases heq : i = k
    · rw [if_pos (by omega), if_pos heq]
    · rw [if_neg (by omega), if_neg heq]

variable {seq : ChunkRangesSeq}

private theorem eq_single_iff (h : seq.Canonical) {k : Nat} {r : ChunkRanges} (hr : r ≠ ∅) :
    seq = single k r ↔ seq.get k = r ∧ ∀ i, i ≠ k → seq.get i = ∅ := by
  constructor
  · rintro rfl
    refine ⟨by rw [get_single, if_pos rfl], ?_⟩
    intro i hi
    rw [get_single, if_neg hi]
  · rintro ⟨hk, hother⟩
    apply h.ext (canonical_single hr)
    intro i
    rw [get_single]
    by_cases hi : i = k
    · rw [if_pos hi, hi, hk]
    · rw [if_neg hi, hother i hi]

private theorem asSingleU64_eq_iff (h : seq.Canonical) {k : Nat} {r : ChunkRanges} :
    seq.asSingleU64 = some (some (k, r)) ↔ seq = single k r := by
  constructor
  · intro hs
    obtain ⟨es⟩ := seq
    match es, hs with
    | [(o1, v1), (o2, v2)], hs =>
      simp only [asSingleU64] at hs
      obtain ⟨o, hsub, hs⟩ := Option.map_eq_some_iff.mp hs
      have hlt : o1 < o2 := (List.pairwise_cons.mp h.offsets).1 _ List.mem_cons_self
      rw [subU64, if_pos (by omega)] at hsub
      split at hs
      · rename_i hcond
        have ho : o = o2 - 1 := (Option.some.inj hsub).symm
        have hv2 : v2 = ∅ := RangeSet.eq_empty_iff.mpr (RangeSet.isEmpty_iff.mp hcond.2)
        have ho2 : o2 = o1 + 1 := by omega
        cases hs
        rw [single, hv2, ho2]
      · cases hs
  · rintro rfl
    simp [asSingleU64, single, subU64]
    rfl

private theorem isBlobU64_eq_iff (h : seq.Canonical) : seq.isBlobU64 = some true ↔ ∃ r, seq = single 0 r := by
  constructor
  · intro hb
    obtain ⟨o, hs, ho⟩ := Option.map_eq_some_iff.mp hb
    match o, hs, ho with
    | some (0, r), hs, _ => exact ⟨r, (asSingleU64_eq_iff h).mp hs⟩
  · rintro ⟨r, rfl⟩
    rw [isBlobU64, (asSingleU64_eq_iff h).mpr rfl]
    rfl

private theorem isBlobU64_iff (h : seq.Canonical) :
    seq.isBlobU64 = some true ↔ (∀ i, 0 < i → seq.get i = ∅) ∧ seq.get 0 ≠ ∅ := by
  rw [isBlobU64_eq_iff h]
  constructor
  · rintro ⟨r, rfl⟩
    refine ⟨?_, ?_⟩
    · intro i hi
      rw [get_single, if_neg (by omega)]
    · rw [get_single, if_pos rfl]
      exact h.first _ rfl
  · rintro ⟨hother, hne⟩
    refine ⟨seq.get 0, (eq_single_iff h hne).mpr ⟨rfl, ?_⟩⟩
    intro i hi
    exact hother i (Nat.pos_of_ne_zero hi)

private theorem isEmpty_iff_get (h : seq.Canonical) : seq.isEmpty = true ↔ ∀ i, seq.get i = ∅ := by
  rw [isEmpty, List.isEmpty_iff]
  constructor
  · intro hnil i
    rw [get, hnil, valueFrom]
  · intro hall
    have hempty : seq = empty := h.ext (canonical_iff.mpr trivial) hall
    rw [hempty]
    rfl

/-- From the last offset on, the last entry is selected. -/
private theorem get_of_maxOffset_le {n : Nat} (hn : ∀ e ∈ seq.entries, e.1 ≤ n) : seq.get n = lastRanges seq.entries :=
  valueFrom_of_le hn

private theorem isInfinite_iff_get (seq : ChunkRangesSeq) : seq.isInfinite = true ↔ { i | seq.get i ≠ ∅ }.Infinite := by
  obtain ⟨N, hN⟩ : ∃ N, ∀ e ∈ seq.entries, e.1 ≤ N := by
    refine ⟨(seq.entries.map Prod.fst).sum, ?_⟩
    intro e he
    exact List.single_le_sum (by simp) _ (List.mem_map_of_mem he)
  have hlast : ∀ i, N ≤ i → seq.get i = lastRanges seq.entries := by
    intro i hi
    exact get_of_maxOffset_le (fun e he => le_trans (hN e he) hi)
  have hiff : seq.isInfinite = true ↔ lastRanges seq.entries ≠ ∅ := by
    unfold isInfinite lastRanges
    cases seq.entries.getLast? with
    | none => simp
    | some e =>
      simp only [Option.map_some, Option.getD_some]
      rw [Bool.not_eq_true', ← Bool.not_eq_true, RangeSet.isEmpty_iff, ← RangeSet.eq_empty_iff]
  rw [hiff]
  constructor
  · intro hne
    apply (Set.Ici_infinite N).mono
    intro i hi
    show seq.get i ≠ ∅
    rw [hlast i hi]
    exact hne
  · intro hinf hempty
    apply hinf
    apply (Set.finite_Iio N).subset
    intro i hi
    rw [Set.mem_Iio]
    by_contra hge
    exact hi ((hlast i (Nat.le_of_not_lt hge)).trans hempty)

/-- `is_all` is right unless the only entry does not start at the first blob. -/
private theorem isAll_iff_get (h : seq.Canonical) :
    (seq.isAll = true ↔ ∀ i, seq.get i = RangeSet.all) ↔ ∀ o, 0 < o → seq.entries ≠ [(o, RangeSet.all)] := by
  constructor
  · intro hiff o ho hentries
    have hall : seq.isAll = true := by
      rw [isAll, hentries]
      rfl
    have hzero := hiff.mp hall 0
    rw [get, hentries, valueFrom, if_pos ho] at hzero
    exact absurd hzero (by decide)
  · intro hoffset
    constructor
    · intro hall
      obtain ⟨es⟩ := seq
      rcases es with _ | ⟨⟨o, r⟩, _ | ⟨e, es⟩⟩
      · cases hall
      · have hr : r = RangeSet.all :=
          RangeSet.ext_mem (fun x => iff_of_true (RangeSet.isAll_iff.mp hall x) (RangeSet.mem_all x))
        have ho : o = 0 := by
          by_contra hne
          exact hoffset o (Nat.pos_of_ne_zero hne) (by rw [hr])
        intro i
        rw [ho, hr, get, valueFrom, if_neg (Nat.not_lt_zero i), valueFrom]
      · cases hall
    · intro hall
      have hcanonical : all.Canonical := canonical_iff.mpr ⟨Nat.le_refl 0, by decide, trivial⟩
      have heq : seq = all := h.ext hcanonical hall
      rw [heq]
      rfl

/-- The predicates on canonical sequences are right, unless everything is selected from a later blob on only. -/
theorem shapesMatch_iff (seq : ChunkRangesSeq) (h : seq.Canonical) :
    seq.ShapesMatch ↔ ∀ o, 0 < o → seq.entries ≠ [(o, RangeSet.all)] := by
  rw [← isAll_iff_get h]
  constructor
  · exact fun hmatch => hmatch.isAll
  · intro hall
    refine ⟨isEmpty_iff_get h, hall, isInfinite_iff_get seq, ?_, isBlobU64_iff h, ?_⟩
    · intro k r hr
      rw [asSingleU64_eq_iff h, eq_single_iff h hr]
    · intro hash
      have hsafe : seq.asSingleU64 = some seq.asSingle := by
        rw [asSingleU64_iff]
        intro o hpair
        have hlt : seq.offsets.Pairwise (· < ·) := List.pairwise_map.mpr h.offsets
        rw [hpair, List.pairwise_pair] at hlt
        exact absurd hlt (Nat.not_lt_zero o)
      have hblob : seq.isBlobU64 = some seq.isBlob := by
        rw [isBlobU64, hsafe]
        rfl
      rw [hblob, Option.some.injEq, GetRequest.content]
      cases seq.isBlob <;> simp

theorem shapesMatch_iff_root : root.ShapesMatch := by
  have hcanonical : root.Canonical := canonical_single (by decide)
  rw [shapesMatch_iff root hcanonical]
  intro o _
  simp [root]

/-- Everything from the second blob on. -/
theorem not_shapesMatch_children :
    (fromRangesInfinite [∅, RangeSet.all]).Canonical ∧ (fromRangesInfinite [∅, RangeSet.all]).isAll = true ∧
      (fromRangesInfinite [∅, RangeSet.all]).get 0 = ∅ ∧ ¬ (fromRangesInfinite [∅, RangeSet.all]).ShapesMatch := by
  refine ⟨canonical_fromRangesInfinite _, by decide, by decide, ?_⟩
  intro h
  exact absurd (h.isAll.mp (by decide) 0) (by decide)

end ChunkRangesSeq

end IrohBlobs
