import IrohBlobs.LocalInfo

/-!
# What is missing of a request

The two loops of `LocalInfo::missing` share one iterator.  The first one stops after the last known child (`Stopped`),
the second one at the end of the hash sequence, or when the request repeats its last ranges forever (`Finished`).
Together they build a request for exactly what is missing (`exact_of_finished`), unless the first requested child lies
after the end of the hash sequence.
-/

namespace IrohBlobs

namespace Remote

variable {E : Type}

namespace LocalInfo

/-- What is missing of a child, if the size of the hash sequence is left aside. -/
def missingAt (info : LocalInfo) (child : Nat) : ChunkRanges :=
  match info.known child with
  | some bitfield => info.requested (child + 1) \ bitfield.ranges
  | none => info.requested (child + 1)

/-- The builder holds what is missing of the children before blob `n`. -/
def Holds (info : LocalInfo) (builder : GetRequestBuilder) (n : Nat) : Prop :=
  ∀ child, builder.builder.selected (child + 1) = if child + 1 < n then info.missingAt child else ∅

section Missing

variable {info : LocalInfo} {children : NonRawLocalInfo}

private theorem missingAt_of_isEmpty {child : Nat} (h : (info.requested (child + 1)).isEmpty = true) :
    info.missingAt child = ∅ := by
  have he := RangeSet.eq_empty_iff.mpr (RangeSet.isEmpty_iff.mp h)
  unfold missingAt
  split
  · rw [he]
    exact RangeSet.ext_mem (by simp)
  · exact he

private theorem missingAt_of_unknown {child : Nat} (h : info.known child = none) :
    info.missingAt child = info.requested (child + 1) := by
  rw [missingAt, h]

private theorem missingOfChild_eq (h : info.Coherent) (hc : info.children = some children) (child : Nat) :
    missingOfChild children child (info.request.ranges.get (child + 1)) = some (info.missingAt child) := by
  unfold missingOfChild
  cases hl : children.hashSeq.lookup child with
  | none => rw [missingAt_of_unknown (known_of_lookup_none hc hl), requested]
  | some hash =>
    obtain ⟨bitfield, hbit, hknown⟩ := known_of_lookup h hc hl
    simp only [hbit, Option.map_some, missingAt, hknown, requested]

/-- Children that are not requested need not be added. -/
private theorem Holds.skip {builder : GetRequestBuilder} {n m : Nat} (h : info.Holds builder n) (hnm : n ≤ m)
    (hskip : ∀ child, n ≤ child + 1 → child + 1 < m → (info.requested (child + 1)).isEmpty = true) :
    info.Holds builder m := by
  intro child
  rw [h child]
  by_cases h1 : child + 1 < n
  · rw [if_pos h1, if_pos (by omega)]
  · by_cases h2 : child + 1 < m
    · rw [if_neg h1, if_pos h2, missingAt_of_isEmpty (hskip child (by omega) h2)]
    · rw [if_neg h1, if_neg h2]

private theorem Holds.child {builder : GetRequestBuilder} {child : Nat} (h : info.Holds builder (child + 1)) :
    info.Holds (builder.child child (info.missingAt child)) (child + 2) := by
  intro c
  rw [GetRequestBuilder.child, ChunkRangesSeqBuilder.selected_atOffset]
  by_cases hc : c = child
  · subst hc
    rw [if_pos rfl, if_pos (by omega), h c, if_neg (by omega)]
    exact RangeSet.ext_mem (by simp)
  · rw [if_neg (by omega), h c]
    by_cases hlt : c < child
    · rw [if_pos (by omega), if_pos (by omega)]
    · rw [if_neg (by omega), if_neg (by omega)]

private theorem selected_zero_child (builder : GetRequestBuilder) (child : Nat) (ranges : ChunkRanges) :
    (builder.child child ranges).builder.selected 0 = builder.builder.selected 0 := by
  rw [GetRequestBuilder.child, ChunkRangesSeqBuilder.selected_atOffset, if_neg (by omega)]

/-- What the first loop has done when it stops at blob `m`. -/
private structure Stopped (info : LocalInfo) (children : NonRawLocalInfo)
    (start builder : GetRequestBuilder) (m : Nat) :
    Prop where
  root : builder.builder.selected 0 = start.builder.selected 0
  holds : info.Holds builder m
  unknown : ∀ child, m ≤ child + 1 → info.known child = none
  /-- A child after the last known one is added only if it is the first one requested there. -/
  first : ∀ child, child + 1 < m → (info.requested (child + 1)).isEmpty = false →
    child + 1 < nextKey children.hashSeq ∨
      ∀ c, c < child → (info.requested (c + 1)).isEmpty = false → c + 1 < nextKey children.hashSeq
  reason : (∀ j, m ≤ j → (info.request.ranges.get j).isEmpty = true) ∨
    ∃ child, m = child + 2 ∧ (info.requested (child + 1)).isEmpty = false

/-- The first loop stops after the last known child, or after the first requested child if none is known. -/
private theorem missingKnown_spec (h : info.Coherent) (hc : info.children = some children) (start : GetRequestBuilder)
    (n : Nat) (builder : GetRequestBuilder) (hroot : builder.builder.selected 0 = start.builder.selected 0)
    (hholds : info.Holds builder n) (hbefore : ∀ child, child + 1 < n → (info.requested (child + 1)).isEmpty = false →
      child + 1 < nextKey children.hashSeq) :
    ∃ builder' m, Fuel.Returns (fun fuel => missingKnown children (nextKey children.hashSeq) fuel
        (info.request.ranges.nonEmptyAt n) builder) (builder', info.request.ranges.nonEmptyAt m) ∧
      Stopped info children start builder' m := by
  induction hk : nextKey children.hashSeq + 1 - n using Nat.strong_induction_on generalizing n builder with
  | _ k ih =>
  subst hk
  rcases info.request.ranges.next_cases n with ⟨i, hni, hi, hmin, hnext⟩ | ⟨hall, m, hm, hnext⟩
  · have hati : info.Holds builder i := hholds.skip hni (fun child => hmin (child + 1))
    have hlt : ∀ c, c + 1 < i → (info.requested (c + 1)).isEmpty = false → c + 1 < nextKey children.hashSeq := by
      intro c h1 h2
      by_cases hcn : c + 1 < n
      · exact hbefore c hcn h2
      · rw [requested, hmin (c + 1) (by omega) h1] at h2
        cases h2
    by_cases hzero : i = 0
    · subst hzero
      obtain ⟨builder', m, hret, hstop⟩ := ih _ (by omega) 1 builder hroot
        (hati.skip (by omega) (fun child h1 h2 => by omega)) (fun child h1 => by omega) rfl
      exact ⟨builder', m, hret.step (fun fuel => by rw [missingKnown]; simp only [hnext, ↓reduceIte]), hstop⟩
    · obtain ⟨child, rfl⟩ : ∃ child, i = child + 1 := ⟨i - 1, by omega⟩
      have hmiss := missingOfChild_eq h hc child
      by_cases hmax : nextKey children.hashSeq ≤ child + 1
      · refine ⟨builder.child child (info.missingAt child), child + 2, Fuel.returns_of_succ (fun fuel => ?_), ?_⟩
        · rw [missingKnown]
          simp only [hnext, Nat.add_one_ne_zero, ↓reduceIte, hmiss, Option.bind_some, if_pos hmax, Nat.add_sub_cancel]
        · refine ⟨?_, hati.child, ?_, ?_, Or.inr ⟨child, rfl, hi⟩⟩
          · rw [selected_zero_child, hroot]
          · intro c hle
            exact known_of_lookup_none hc (lookup_of_nextKey_le (by omega))
          · intro c h1 h2
            by_cases hcc : c = child
            · subst hcc
              exact Or.inr (fun c' h3 => hlt c' (by omega))
            · exact Or.inl (hlt c (by omega) h2)
      · obtain ⟨builder', m, hret, hstop⟩ := ih _ (by omega) (child + 2) (builder.child child (info.missingAt child))
          (by rw [selected_zero_child, hroot]) hati.child
          (fun c h1 h2 => by
            by_cases hcc : c = child
            · omega
            · exact hlt c (by omega) h2) rfl
        refine ⟨builder', m, hret.step (fun fuel => ?_), hstop⟩
        rw [missingKnown]
        simp only [hnext, Nat.add_one_ne_zero, ↓reduceIte, hmiss, Option.bind_some, if_neg hmax, Nat.add_sub_cancel]
  · refine ⟨builder, m, Fuel.returns_of_succ (fun fuel => by rw [missingKnown]; simp only [hnext]), ?_⟩
    refine ⟨hroot, hholds.skip hm (fun child h1 _ => hall (child + 1) h1), ?_, ?_,
      Or.inl (fun j hj => hall j (by omega))⟩
    · intro child hle
      cases hl : children.hashSeq.lookup child with
      | none => exact known_of_lookup_none hc hl
      | some hash =>
        have := h.requested children hc child hash hl
        rw [hall (child + 1) (by omega)] at this
        cases this
    · intro child h1 h2
      by_cases hcn : child + 1 < n
      · exact Or.inl (hbefore child hcn h2)
      · rw [requested, hall (child + 1) (by omega)] at h2
        cases h2

/-- The request that the second loop builds when the children from blob `n` on are unknown. -/
private structure Finished (info : LocalInfo) (maxOffset : Option Nat) (builder : GetRequestBuilder) (n : Nat)
    (request : GetRequest Hash) : Prop where
  hash : request.hash = info.request.hash
  root : request.ranges.get 0 = builder.builder.selected 0
  child : ∀ child, request.ranges.get (child + 1) =
    if child + 1 < n ∨ ∀ k, maxOffset = some k → child < k then info.missingAt child else ∅

/-- A builder that holds everything up to the end of the hash sequence. -/
private theorem finished_build {maxOffset : Option Nat} {builder : GetRequestBuilder} {n : Nat}
    (hholds : info.Holds builder n)
    (hrest : ∀ child, n ≤ child + 1 → (∀ k, maxOffset = some k → child < k) → info.missingAt child = ∅) :
    Finished info maxOffset builder n (builder.build info.request.hash) := by
  refine ⟨rfl, ChunkRangesSeqBuilder.get_build _ _, fun child => ?_⟩
  rw [GetRequestBuilder.build, ChunkRangesSeqBuilder.get_build, hholds child]
  by_cases h1 : child + 1 < n
  · rw [if_pos h1, if_pos (Or.inl h1)]
  · rw [if_neg h1]
    split
    · rename_i h2
      exact (hrest child (by omega) (h2.resolve_left h1)).symm
    · rfl

/-- Adding a child below the end of the hash sequence. -/
private theorem Finished.of_child {maxOffset : Option Nat} {builder : GetRequestBuilder} {n child : Nat}
    {request : GetRequest Hash} (h : Finished info maxOffset (builder.child child (info.missingAt child))
      (child + 2) request)
    (hn : n ≤ child + 1) (hlt : ∀ k, maxOffset = some k → child < k) : Finished info maxOffset builder n request := by
  refine ⟨h.hash, by rw [h.root, selected_zero_child], fun c => ?_⟩
  rw [h.child c]
  refine if_congr ⟨?_, ?_⟩ rfl rfl
  · rintro (h1 | h1)
    · exact Or.inr (fun k hk => by have := hlt k hk; omega)
    · exact Or.inr h1
  · rintro (h1 | h1)
    · exact Or.inl (by omega)
    · exact Or.inr h1

/-- A builder whose last ranges are those of all later children. -/
private theorem finished_buildOpen {builder : GetRequestBuilder} {n child : Nat} (hati : info.Holds builder (child + 1))
    (hn : n ≤ child + 1) (hi : (info.request.ranges.get (child + 1)).isEmpty = false)
    (hsame : ∀ j, child + 1 ≤ j → info.request.ranges.get j = info.request.ranges.get (child + 1))
    (hunknown : ∀ c, n ≤ c + 1 → info.known c = none) :
    Finished info none builder n ((builder.child child (info.missingAt child)).buildOpen info.request.hash) := by
  have hholds := hati.child
  have hadd := missingAt_of_unknown (hunknown child hn)
  have hget : ∀ i, ((builder.child child (info.missingAt child)).builder.buildOpen).get i =
      (builder.child child (info.missingAt child)).builder.selected (min i (child + 1)) := by
    refine ChunkRangesSeqBuilder.get_buildOpen ?_ ?_
    · rw [hholds child, if_pos (by omega), hadd]
      exact hi
    · intro i hlt
      obtain ⟨c, rfl⟩ : ∃ c, i = c + 1 := ⟨i - 1, by omega⟩
      rw [hholds c, if_neg (by omega)]
      rfl
  refine ⟨rfl, ?_, fun c => ?_⟩
  · rw [GetRequestBuilder.buildOpen, hget, Nat.zero_min, selected_zero_child]
  · rw [GetRequestBuilder.buildOpen, hget, if_pos (Or.inr (fun k hk => by cases hk))]
    by_cases hc : c ≤ child
    · rw [show min (c + 1) (child + 1) = c + 1 by omega, hholds c, if_pos (by omega)]
    · rw [show min (c + 1) (child + 1) = child + 1 by omega, hholds child, if_pos (by omega), hadd,
        missingAt_of_unknown (hunknown c (by omega))]
      exact (hsame (c + 1) (by omega)).symm

/-- The second loop leaves out the ranges of the root. -/
private theorem missingRest_skipRoot {maxOffset : Option Nat} {builder : GetRequestBuilder}
    (hnext : (info.request.ranges.nonEmptyAt 0).next =
      (some (0, info.request.ranges.get 0), info.request.ranges.nonEmptyAt 1))
    (h : ∃ request, Fuel.Returns (fun fuel => missingRest info.request.hash maxOffset fuel
      (info.request.ranges.nonEmptyAt 1) builder) request ∧ Finished info maxOffset builder 1 request) :
    ∃ request, Fuel.Returns (fun fuel => missingRest info.request.hash maxOffset fuel
      (info.request.ranges.nonEmptyAt 0) builder) request ∧ Finished info maxOffset builder 0 request := by
  obtain ⟨request, hret, hfin⟩ := h
  refine ⟨request, hret.step (fun fuel => by rw [missingRest]; simp only [hnext, ↓reduceIte]), hfin.hash, hfin.root, ?_⟩
  intro child
  rw [hfin.child child]
  exact if_congr (by simp) rfl rfl

/-- The second loop ends where nothing more is requested. -/
private theorem missingRest_atEnd {maxOffset : Option Nat} {builder : GetRequestBuilder} {n m : Nat}
    (hholds : info.Holds builder n) (hall : ∀ j, n ≤ j → (info.request.ranges.get j).isEmpty = true)
    (hnext : (info.request.ranges.nonEmptyAt n).next = (none, info.request.ranges.nonEmptyAt m)) :
    ∃ request, Fuel.Returns (fun fuel => missingRest info.request.hash maxOffset fuel
      (info.request.ranges.nonEmptyAt n) builder) request ∧ Finished info maxOffset builder n request :=
  ⟨builder.build info.request.hash, Fuel.returns_of_succ (fun fuel => by rw [missingRest]; simp only [hnext]),
    finished_build hholds (fun child h1 _ => missingAt_of_isEmpty (hall (child + 1) h1))⟩

/-- The second loop up to the end of the hash sequence. -/
private theorem missingRest_some_spec (maxOffset n : Nat) (builder : GetRequestBuilder) (hholds : info.Holds builder n)
    (hunknown : ∀ child, n ≤ child + 1 → info.known child = none) :
    ∃ request, Fuel.Returns (fun fuel => missingRest info.request.hash (some maxOffset) fuel
        (info.request.ranges.nonEmptyAt n) builder) request ∧ Finished info (some maxOffset) builder n request := by
  induction hk : maxOffset + 1 - n using Nat.strong_induction_on generalizing n builder with
  | _ k ih =>
  subst hk
  rcases info.request.ranges.next_cases n with ⟨i, hni, hi, hmin, hnext⟩ | ⟨hall, m, hm, hnext⟩
  · by_cases hzero : i = 0
    · subst hzero
      obtain rfl : n = 0 := by omega
      exact missingRest_skipRoot hnext (ih _ (by omega) 1 builder
        (hholds.skip (by omega) (fun child h1 h2 => by omega)) (fun child h1 => hunknown child (by omega)) rfl)
    · obtain ⟨child, rfl⟩ : ∃ child, i = child + 1 := ⟨i - 1, by omega⟩
      by_cases hmax : maxOffset ≤ child
      · refine ⟨builder.build info.request.hash, Fuel.returns_of_succ (fun fuel => ?_), finished_build hholds ?_⟩
        · rw [missingRest]
          simp only [hnext, Nat.add_one_ne_zero, ↓reduceIte, Nat.add_sub_cancel, if_pos hmax]
        · intro c h1 h2
          have := h2 maxOffset rfl
          exact missingAt_of_isEmpty (hmin (c + 1) h1 (by omega))
      · have hati : info.Holds builder (child + 1) := hholds.skip hni (fun c => hmin (c + 1))
        obtain ⟨request, hret, hfin⟩ :=
          ih _ (by omega) (child + 2) (builder.child child (info.missingAt child)) hati.child
          (fun c h1 => hunknown c (by omega)) rfl
        refine ⟨request, hret.step (fun fuel => ?_), hfin.of_child hni (fun k hk => by cases hk; omega)⟩
        rw [missingRest]
        simp only [hnext, Nat.add_one_ne_zero, ↓reduceIte, Nat.add_sub_cancel, if_neg hmax,
          missingAt_of_unknown (hunknown child hni), requested]
  · exact missingRest_atEnd hholds hall hnext

/-- The second loop when the size is not validated: the last ranges are repeated forever if the request does so. -/
private theorem missingRest_none_spec (n : Nat) (builder : GetRequestBuilder) (hholds : info.Holds builder n)
    (hunknown : ∀ child, n ≤ child + 1 → info.known child = none) :
    ∃ request, Fuel.Returns (fun fuel => missingRest info.request.hash none fuel
        (info.request.ranges.nonEmptyAt n) builder) request ∧ Finished info none builder n request := by
  induction hk : ChunkRangesSeq.maxOffset info.request.ranges.entries + 1 - n using Nat.strong_induction_on
    generalizing n builder with
  | _ k ih =>
  subst hk
  rcases info.request.ranges.next_cases n with ⟨i, hni, hi, hmin, hnext⟩ | ⟨hall, m, hm, hnext⟩
  · by_cases hzero : i = 0
    · subst hzero
      obtain rfl : n = 0 := by omega
      exact missingRest_skipRoot hnext (ih _ (by omega) 1 builder
        (hholds.skip (by omega) (fun child h1 h2 => by omega)) (fun child h1 => hunknown child (by omega)) rfl)
    · obtain ⟨child, rfl⟩ : ∃ child, i = child + 1 := ⟨i - 1, by omega⟩
      have hati : info.Holds builder (child + 1) := hholds.skip hni (fun c => hmin (c + 1))
      have hadd := missingAt_of_unknown (hunknown child hni)
      by_cases hend : (info.request.ranges.nonEmptyAt (child + 2)).isAtEnd = true
      · -- all later children are requested with the same ranges
        have hsame : ∀ j, child + 1 ≤ j → info.request.ranges.get j = info.request.ranges.get (child + 1) :=
          fun j hj => ChunkRangesSeq.get_of_isAtEnd (n := child + 1) hend hj
        have hmore : (info.request.ranges.nonEmptyAt (child + 2)).next.1.isNone = false := by
          rw [ChunkRangesSeq.next_eq_some (Nat.le_refl _) (by rw [hsame _ (by omega)]; exact hi)
            (fun j h1 h2 => by omega)]
          rfl
        have hlast := hati.child
        refine ⟨(builder.child child (info.missingAt child)).buildOpen info.request.hash,
          Fuel.returns_of_succ (fun fuel => ?_), ?_⟩
        · rw [missingRest]
          simp only [hnext, Nat.add_one_ne_zero, ↓reduceIte, Nat.add_sub_cancel, hend, hmore, hadd, requested]
          rfl
        · exact finished_buildOpen hati hni hi hsame hunknown
      · have hlt : child + 1 < ChunkRangesSeq.maxOffset info.request.ranges.entries := by
          by_contra hle
          exact hend (ChunkRangesSeq.isAtEnd_of_maxOffset_le (n := child + 1) (by omega))
        obtain ⟨request, hret, hfin⟩ :=
          ih _ (by omega) (child + 2) (builder.child child (info.missingAt child)) hati.child
          (fun c h1 => hunknown c (by omega)) rfl
        refine ⟨request, hret.step (fun fuel => ?_), hfin.of_child hni (fun k hk => by cases hk)⟩
        rw [missingRest]
        simp only [hnext, Nat.add_one_ne_zero, ↓reduceIte, Nat.add_sub_cancel, hend, hadd, requested]
        rfl
  · exact missingRest_atEnd hholds hall hnext

end Missing

/-- What a builder with a root selects. -/
private theorem selected_root (ranges : ChunkRanges) :
    (GetRequestBuilder.empty.root ranges).builder.selected 0 = ranges := by
  rw [GetRequestBuilder.root, ChunkRangesSeqBuilder.selected_atOffset, if_pos rfl]
  refine RangeSet.ext_mem (fun x => ?_)
  rw [RangeSet.mem_union, GetRequestBuilder.empty, ChunkRangesSeqBuilder.selected_empty]
  simp

private theorem get_build_root (ranges : ChunkRanges) (hash : Hash) (child : Nat) :
    ((GetRequestBuilder.empty.root ranges).build hash).ranges.get (child + 1) = ∅ := by
  rw [GetRequestBuilder.build, ChunkRangesSeqBuilder.get_build, GetRequestBuilder.root,
    ChunkRangesSeqBuilder.selected_atOffset, if_neg (by omega)]
  exact ChunkRangesSeqBuilder.selected_empty _

/-- The request for what is missing, when the first loop stops at blob `m`. -/
private theorem missing_spec {info : LocalInfo} (h : info.Coherent) {children : NonRawLocalInfo}
    (hc : info.children = some children) {rootRequested : ChunkRanges}
    (hroot : info.requestedRootRanges = some rootRequested) :
    ∃ builder m request, Fuel.Returns info.missing request ∧
      Stopped info children (GetRequestBuilder.empty.root (rootRequested \ info.bitfield.ranges)) builder m ∧
      Finished info (info.bitfield.validatedSize.map (· / 32)) builder m request := by
  obtain ⟨builder, m, hret, hstop⟩ := missingKnown_spec h hc
    (GetRequestBuilder.empty.root (rootRequested \ info.bitfield.ranges)) 0 _ rfl
    (fun child => by
      rw [GetRequestBuilder.root, ChunkRangesSeqBuilder.selected_atOffset, if_neg (by omega), if_neg (by omega)]
      exact ChunkRangesSeqBuilder.selected_empty _)
    (fun child h1 => by omega)
  have hrest : ∃ request, Fuel.Returns (fun fuel => missingRest info.request.hash
      (info.bitfield.validatedSize.map (· / 32)) fuel (info.request.ranges.nonEmptyAt m) builder) request ∧
      Finished info (info.bitfield.validatedSize.map (· / 32)) builder m request := by
    cases info.bitfield.validatedSize with
    | none => exact missingRest_none_spec m builder hstop.holds hstop.unknown
    | some size => exact missingRest_some_spec (size / 32) m builder hstop.holds hstop.unknown
  obtain ⟨request, hret', hfin⟩ := hrest
  refine ⟨builder, m, request, ?_, hstop, hfin⟩
  obtain ⟨rounds, hboth⟩ := hret.bind (g := fun p fuel => missingRest info.request.hash
      (info.bitfield.validatedSize.map (· / 32)) fuel p.2 p.1) hret'
  exact ⟨rounds, fun fuel hfuel => by simpa [missing, hroot, hc] using hboth fuel hfuel⟩

/-- The ranges of `m` are what is missing: of the root, of the known children, and of the unknown ones before the end of
the hash sequence; nothing is missing after the end. -/
structure Exact (info : LocalInfo) (m : ChunkRangesSeq) : Prop where
  root : m.get 0 = info.requested 0 \ info.bitfield.ranges
  known : ∀ child bitfield, info.known child = some bitfield →
    m.get (child + 1) = info.requested (child + 1) \ bitfield.ranges
  unknown : ∀ child, info.known child = none → (∀ size, info.bitfield.validatedSize = some size → child < size / 32) →
    m.get (child + 1) = info.requested (child + 1)
  pastEnd : ∀ child size, info.bitfield.validatedSize = some size → size / 32 ≤ child → m.get (child + 1) = ∅

/-- The first requested child lies after the end of the hash sequence. -/
def StartsPastEnd (info : LocalInfo) : Prop :=
  ∃ child size, info.bitfield.validatedSize = some size ∧ size / 32 ≤ child ∧
    (info.requested (child + 1)).isEmpty = false ∧ ∀ c, c < child → (info.requested (c + 1)).isEmpty = true

/-- The ranges that are read for the root ask for the same missing chunks as the requested ones. -/
def RootExact (info : LocalInfo) : Prop :=
  ∀ x, x ∉ info.bitfield.ranges → (x ∈ info.rootRequested ↔ x ∈ info.requested 0)

private theorem rootExact_iff {info : LocalInfo} :
    info.RootExact ↔ info.rootRequested \ info.bitfield.ranges = info.requested 0 \ info.bitfield.ranges := by
  constructor
  · intro h
    apply RangeSet.ext_mem
    intro x
    rw [RangeSet.mem_sdiff, RangeSet.mem_sdiff]
    exact and_congr_left (h x)
  · intro heq x hx
    have hmem : x ∈ info.rootRequested \ info.bitfield.ranges ↔
      x ∈ info.requested 0 \ info.bitfield.ranges := by rw [heq]
    rw [RangeSet.mem_sdiff, RangeSet.mem_sdiff] at hmem
    simpa [hx] using hmem

/-- The ranges that are read for the root are there exactly if the requested ones are. -/
private theorem RootExact.local_iff {info : LocalInfo} (h : info.RootExact) :
    (∀ x ∈ info.rootRequested, x ∈ info.bitfield.ranges) ↔ ∀ x ∈ info.requested 0, x ∈ info.bitfield.ranges := by
  constructor
  · intro hall x hx
    by_contra hnot
    exact hnot (hall x ((h x hnot).mpr hx))
  · intro hall x hx
    by_contra hnot
    exact hnot (hall x ((h x hnot).mp hx))

/-- Exact ranges select nothing exactly when the request is complete. -/
private theorem Exact.isEmpty_iff {info : LocalInfo} (h : info.Coherent) {m : ChunkRangesSeq} (hm : info.Exact m) :
    (∀ i, (m.get i).isEmpty = true) ↔ (∀ x ∈ info.requested 0, x ∈ info.bitfield.ranges) ∧
      ∀ child, (info.requested (child + 1)).isEmpty = false → info.ChildComplete child := by
  have hdiff : ∀ s t : ChunkRanges, (s \ t).isEmpty = true ↔ ∀ x ∈ s, x ∈ t := fun s t => RangeSet.isSubset_iff
  have hchild : ∀ child, (m.get (child + 1)).isEmpty = true ↔
      ((info.requested (child + 1)).isEmpty = false → info.ChildComplete child) := by
    intro child
    cases hk : info.known child with
    | some bitfield =>
      rw [hm.known child bitfield hk, hdiff]
      constructor
      · intro hsub _
        exact Or.inr ⟨bitfield, hk, hsub⟩
      · intro hcomplete x hx
        rcases hcomplete (RangeSet.isEmpty_eq_false_iff.mpr ⟨x, hx⟩) with ⟨size, hsize, hle⟩ | ⟨b, hb, hsub⟩
        · have := h.within child bitfield size hk hsize
          omega
        · rw [hk, Option.some.injEq] at hb
          subst hb
          exact hsub x hx
    | none =>
      by_cases hend : ∀ size, info.bitfield.validatedSize = some size → child < size / 32
      · rw [hm.unknown child hk hend]
        constructor
        · intro he hne
          rw [he] at hne
          cases hne
        · intro hcomplete
          by_contra hne
          rcases hcomplete (by simpa using hne) with ⟨size, hsize, hle⟩ | ⟨b, hb, -⟩
          · have := hend size hsize
            omega
          · rw [hk] at hb
            cases hb
      · simp only [not_forall, not_lt] at hend
        obtain ⟨size, hsize, hle⟩ := hend
        rw [hm.pastEnd child size hsize hle]
        exact iff_of_true rfl (fun _ => Or.inl ⟨size, hsize, hle⟩)
  constructor
  · intro hall
    have hroot := hall 0
    rw [hm.root, hdiff] at hroot
    exact ⟨hroot, fun child => (hchild child).mp (hall (child + 1))⟩
  · rintro ⟨hroot, hall⟩ i
    cases i with
    | zero => rw [hm.root, hdiff]; exact hroot
    | succ child => exact (hchild child).mpr (hall child)

/-- What is missing when no child is requested. -/
private theorem exact_of_root {info : LocalInfo} (hnone : ∀ child, info.request.ranges.get (child + 1) = ∅)
    {m : ChunkRangesSeq} (hroot : m.get 0 = info.requested 0 \ info.bitfield.ranges)
    (hm : ∀ child, m.get (child + 1) = ∅) :
    info.Exact m := by
  refine ⟨hroot, fun child bitfield _ => ?_, fun child _ _ => ?_, fun child _ _ _ => hm child⟩
  · rw [hm child, requested, hnone child]
    exact RangeSet.ext_mem (by simp)
  · rw [hm child, requested, hnone child]

section Exact

variable {info : LocalInfo} {children : NonRawLocalInfo} {start builder : GetRequestBuilder} {m : Nat}

/-- The first loop adds no child after the end, unless the first requested one lies there. -/
private theorem Stopped.lt_end (h : info.Coherent) (hc : info.children = some children)
    (hstop : Stopped info children start builder m) (hnot : ¬ info.StartsPastEnd) {child size : Nat}
    (hlt : child + 1 < m)
    (hne : (info.requested (child + 1)).isEmpty = false) (hsize : info.bitfield.validatedSize = some size) :
    child < size / 32 := by
  by_contra hle
  cases hlast : nextKey children.hashSeq with
  | zero =>
    -- no child is known: the child is the first one requested
    refine hnot ⟨child, size, hsize, by omega, hne, fun c hcc => ?_⟩
    by_contra hne'
    rcases hstop.first child hlt hne with h1 | h1
    · omega
    · have := h1 c hcc (by simpa using hne')
      omega
  | succ last =>
    obtain ⟨hash, hl⟩ := Option.isSome_iff_exists.mp (lookup_pred_nextKey hlast)
    obtain ⟨bitfield, -, hknown⟩ := known_of_lookup h hc hl
    have hlast_lt := h.within last bitfield size hknown hsize
    have hlast_ne := h.requested children hc last hash hl
    rcases hstop.first child hlt hne with h1 | h1
    · omega
    · have := h1 last (by omega) hlast_ne
      omega

/-- The children that do not lie after the end are asked for. -/
private theorem Finished.get_eq_missingAt {request : GetRequest Hash}
    (hfin : Finished info (info.bitfield.validatedSize.map (· / 32)) builder m request) {child : Nat}
    (hend : ∀ size, info.bitfield.validatedSize = some size → child < size / 32) :
    request.ranges.get (child + 1) = info.missingAt child := by
  rw [hfin.child child, if_pos]
  refine Or.inr (fun k hk => ?_)
  obtain ⟨size, hsize, rfl⟩ := Option.map_eq_some_iff.mp hk
  exact hend size hsize

private theorem exact_of_finished (h : info.Coherent) (hc : info.children = some children)
    (hstop : Stopped info children start builder m)
    (hroot : start.builder.selected 0 = info.requested 0 \ info.bitfield.ranges)
    {request : GetRequest Hash} (hfin : Finished info (info.bitfield.validatedSize.map (· / 32)) builder m request)
    (hnot : ¬ info.StartsPastEnd) : info.Exact request.ranges := by
  refine ⟨by rw [hfin.root, hstop.root, hroot], ?_, ?_, ?_⟩
  · intro child bitfield hk
    rw [hfin.get_eq_missingAt (fun size hsize => h.within child bitfield size hk hsize), missingAt, hk]
  · intro child hk hend
    rw [hfin.get_eq_missingAt hend, missingAt_of_unknown hk]
  · intro child size hsize hle
    rw [hfin.child child]
    split
    · rename_i hadd
      rcases hadd with hlt | hend
      · refine missingAt_of_isEmpty ?_
        by_contra hne
        have := hstop.lt_end h hc hnot hlt (by simpa using hne) hsize
        omega
      · have := hend (size / 32) (by rw [hsize, Option.map_some])
        omega
    · rfl

/-- The first loop adds the first requested child even if it lies after the end, so that what it asks for is not exact
then. -/
private theorem not_startsPastEnd_of_exact (h : info.Coherent) (hstop : Stopped info children start builder m)
    {request : GetRequest Hash} (hfin : Finished info (info.bitfield.validatedSize.map (· / 32)) builder m request)
    (hexact : info.Exact request.ranges) : ¬ info.StartsPastEnd := by
  rintro ⟨child, size, hsize, hle, hne, hfirst⟩
  have hlt : child + 1 < m := by
    by_contra hge
    rcases hstop.reason with hend | ⟨c, rfl, hcne⟩
    · rw [requested, hend (child + 1) (by omega)] at hne
      cases hne
    · rw [hfirst c (by omega)] at hcne
      cases hcne
  have hunknown : info.known child = none := by
    cases hk : info.known child with
    | none => rfl
    | some bitfield =>
      have := h.within child bitfield size hk hsize
      omega
  have hget := hexact.pastEnd child size hsize hle
  rw [hfin.child child, if_pos (Or.inl hlt), missingAt_of_unknown hunknown] at hget
  rw [hget] at hne
  cases hne

end Exact

private theorem missingKnown_succ {children : NonRawLocalInfo} {maxLocal fuel : Nat}
    {iter : ChunkRangesSeq.NonEmptyIter}
    {builder : GetRequestBuilder} {res : GetRequestBuilder × ChunkRangesSeq.NonEmptyIter}
    (h : missingKnown children maxLocal fuel iter builder = some res) :
    missingKnown children maxLocal (fuel + 1) iter builder = some res := by
  induction fuel generalizing iter builder with
  | zero => cases h
  | succ fuel ih =>
    rw [missingKnown] at h ⊢
    rcases hnext : iter.next with ⟨_ | ⟨offset, requested⟩, iter'⟩
    · rw [hnext] at h
      exact h
    · rw [hnext] at h
      dsimp only at h ⊢
      by_cases hoffset : offset = 0
      · rw [if_pos hoffset] at h ⊢
        exact ih h
      · rw [if_neg hoffset] at h ⊢
        obtain ⟨missing, hmissing, h⟩ := Option.bind_eq_some_iff.mp h
        rw [hmissing, Option.bind_some]
        split at h
        · rename_i hle
          rw [if_pos hle]
          exact h
        · rename_i hle
          rw [if_neg hle]
          exact ih h

private theorem missingRest_succ {hash : Hash} {maxOffset : Option Nat} {fuel : Nat}
    {iter : ChunkRangesSeq.NonEmptyIter}
    {builder : GetRequestBuilder} {request : GetRequest Hash}
    (h : missingRest hash maxOffset fuel iter builder = some request) :
    missingRest hash maxOffset (fuel + 1) iter builder = some request := by
  induction fuel generalizing iter builder with
  | zero => cases h
  | succ fuel ih =>
    rw [missingRest] at h ⊢
    rcases hnext : iter.next with ⟨_ | ⟨offset, requested⟩, iter'⟩
    · rw [hnext] at h
      exact h
    · rw [hnext] at h
      dsimp only at h ⊢
      by_cases hoffset : offset = 0
      · rw [if_pos hoffset] at h ⊢
        exact ih h
      · rw [if_neg hoffset] at h ⊢
        cases maxOffset with
        | some maxOffset =>
          dsimp only at h ⊢
          split at h
          · rename_i hle
            rw [if_pos hle]
            exact h
          · rename_i hle
            rw [if_neg hle]
            exact ih h
        | none =>
          dsimp only at h ⊢
          by_cases hend : iter'.isAtEnd = true
          · rw [if_pos hend] at h ⊢
            exact h
          · rw [if_neg hend] at h ⊢
            exact ih h

theorem stable_missing (info : LocalInfo) : Fuel.Stable info.missing := by
  intro fuel request h
  unfold missing at h ⊢
  cases hroot : info.requestedRootRanges with
  | none =>
    rw [hroot] at h
    exact h
  | some rootRequested =>
    rw [hroot] at h
    dsimp only at h ⊢
    cases hc : info.children with
    | none =>
      rw [hc] at h
      exact h
    | some children =>
      rw [hc] at h
      obtain ⟨res, hknown, hrest⟩ := Option.bind_eq_some_iff.mp h
      exact Option.bind_eq_some_iff.mpr ⟨res, missingKnown_succ hknown, missingRest_succ hrest⟩

/-- `missing` asks for what is missing of the ranges that are read for the root, and of every child that does not lie
after the end. -/
theorem missing_covers {info : LocalInfo} (h : info.Coherent) :
    ∃ m, Fuel.Returns info.missing m ∧ m.hash = info.request.hash ∧
      m.ranges.get 0 = info.rootRequested \ info.bitfield.ranges ∧
      ∀ child, (∀ size, info.bitfield.validatedSize = some size → child < size / 32) →
        m.ranges.get (child + 1) = info.missingAt child := by
  cases hroot : info.requestedRootRanges with
  | none =>
    have hempty := get_of_requestedRootRanges_none hroot
    refine ⟨⟨info.request.hash, .empty⟩, Fuel.returns_of_succ (fun fuel => by rw [missing, hroot]), rfl, ?_, ?_⟩
    · rw [rootRequested, hroot]
      exact RangeSet.ext_mem (by simp [ChunkRangesSeq.get, ChunkRangesSeq.empty, ChunkRangesSeq.valueFrom])
    · intro child _
      have he : (info.requested (child + 1)).isEmpty = true := by
        rw [requested, hempty (child + 1)]
        rfl
      rw [missingAt_of_isEmpty he]
      rfl
  | some rootRanges =>
    have hreq : info.rootRequested = rootRanges := by rw [rootRequested, hroot, Option.getD_some]
    have hstart : (GetRequestBuilder.empty.root (rootRanges \ info.bitfield.ranges)).builder.selected 0 =
        info.rootRequested \ info.bitfield.ranges := by
      rw [hreq]
      exact selected_root _
    cases hc : info.children with
    | none =>
      refine ⟨(GetRequestBuilder.empty.root (rootRanges \ info.bitfield.ranges)).build info.request.hash,
        Fuel.returns_of_succ (fun fuel => by simp [missing, hroot, hc]), rfl, ?_, ?_⟩
      · rw [← hstart]
        exact ChunkRangesSeqBuilder.get_build _ _
      · intro child _
        have he : (info.requested (child + 1)).isEmpty = true := by
          rw [requested, h.ofBlob hc child]
          rfl
        rw [missingAt_of_isEmpty he]
        exact get_build_root _ _ _
    | some children =>
      obtain ⟨builder, m, request, hret, hstop, hfin⟩ := missing_spec h hc hroot
      refine ⟨request, hret, hfin.hash, by rw [hfin.root, hstop.root, hstart], ?_⟩
      exact fun child hend => hfin.get_eq_missingAt hend

/-- What is asked for of the root is what is missing of the ranges that are read for it. -/
private theorem rootExact_of_exact {info : LocalInfo} (h : info.Coherent) {m : GetRequest Hash}
    (hret : Fuel.Returns info.missing m) (hexact : info.Exact m.ranges) : info.RootExact := by
  obtain ⟨m', hret', -, hroot, -⟩ := missing_covers h
  obtain rfl := hret.unique hret'
  exact rootExact_iff.mpr (hroot.symm.trans hexact.root)

/-- `missing` returns, its ranges are exact, and they select nothing if and only if the request is complete: this
holds exactly when the ranges that are read for the root ask for the same chunks as the requested ones, and the first
requested child, if there is one, does not lie after the end of the hash sequence. -/
theorem missing_exact_iff {info : LocalInfo} {store : StoreClient E} {request : GetRequest Hash}
    (hbuilt : info.BuiltFor store request) (hwithin : ExportsWithin store request.hash) :
    (∃ m b, Fuel.Returns info.missing m ∧ Fuel.Returns info.isComplete b ∧ m.hash = request.hash ∧ info.Exact m.ranges ∧
      ((∀ i, (m.ranges.get i).isEmpty = true) ↔ b = true)) ↔ info.RootExact ∧ ¬ info.StartsPastEnd := by
  have h := hbuilt.coherent hwithin
  obtain ⟨rfl, -, -⟩ := hbuilt.cases
  obtain ⟨b, hb, hbiff⟩ := isComplete_spec h
  by_cases hright : info.RootExact
  swap
  · refine iff_of_false ?_ (fun hc => hright hc.1)
    rintro ⟨m, b', hret, -, -, hexact, -⟩
    exact hright (rootExact_of_exact h hret hexact)
  rw [and_iff_right hright]
  have hdiff := rootExact_iff.mp hright
  rw [hright.local_iff] at hbiff
  have finish : ∀ m, Fuel.Returns info.missing m → m.hash = info.request.hash → info.Exact m.ranges →
      ∃ m b, Fuel.Returns info.missing m ∧ Fuel.Returns info.isComplete b ∧ m.hash = info.request.hash ∧
        info.Exact m.ranges ∧ ((∀ i, (m.ranges.get i).isEmpty = true) ↔ b = true) :=
    fun m hm hhash hexact => ⟨m, b, hm, hb, hhash, hexact, (hexact.isEmpty_iff h).trans hbiff.symm⟩
  have hno : (∀ child, info.request.ranges.get (child + 1) = ∅) → ¬ info.StartsPastEnd := by
    rintro hnone ⟨child, size, -, -, hne, -⟩
    rw [requested, hnone child] at hne
    cases hne
  cases hroot : info.requestedRootRanges with
  | none =>
    have hempty := get_of_requestedRootRanges_none hroot
    refine iff_of_true (finish ⟨info.request.hash, .empty⟩ ?_ rfl ?_) (hno (fun child => hempty (child + 1)))
    · exact Fuel.returns_of_succ (fun fuel => by rw [missing, hroot])
    · refine exact_of_root (fun child => hempty (child + 1)) ?_ (fun child => rfl)
      rw [← hdiff, rootRequested, hroot]
      exact RangeSet.ext_mem (by simp [ChunkRangesSeq.get, ChunkRangesSeq.empty, ChunkRangesSeq.valueFrom])
  | some rootRanges =>
    have hreq : info.rootRequested = rootRanges := by rw [rootRequested, hroot, Option.getD_some]
    have hstart : (GetRequestBuilder.empty.root (rootRanges \ info.bitfield.ranges)).builder.selected 0 =
        info.requested 0 \ info.bitfield.ranges := by
      rw [← hdiff, hreq]
      exact selected_root _
    cases hc : info.children with
    | none =>
      have hempty := h.ofBlob hc
      refine iff_of_true (finish ((GetRequestBuilder.empty.root (rootRanges \ info.bitfield.ranges)).build
        info.request.hash) ?_ rfl ?_) (hno hempty)
      · exact Fuel.returns_of_succ (fun fuel => by simp [missing, hroot, hc])
      refine exact_of_root hempty ?_ (fun child => ?_)
      · rw [← hstart]
        exact ChunkRangesSeqBuilder.get_build _ _
      · exact get_build_root _ _ _
    | some children =>
      obtain ⟨builder, m, request, hret, hstop, hfin⟩ := missing_spec h hc hroot
      constructor
      · rintro ⟨m', b', hret', -, -, hexact, -⟩
        obtain rfl := hret'.unique hret
        exact not_startsPastEnd_of_exact h hstop hfin hexact
      · intro hnot
        exact finish request hret hfin.hash (exact_of_finished h hc hstop hstart hfin hnot)

/-- The request for the sixth child of two is complete, but the sixth child is said to be missing. -/
theorem not_missing_exact_sixthChild :
    ∃ info : LocalInfo, info.BuiltFor twoChildren sixthChild ∧ Fuel.Returns info.isComplete true ∧
      Fuel.Returns info.missing sixthChild ∧
      ¬ ∃ (m : GetRequest Hash) (b : Bool), Fuel.Returns info.missing m ∧ Fuel.Returns info.isComplete b ∧
        m.hash = sixthChild.hash ∧
        info.Exact m.ranges ∧ ((∀ i, (m.ranges.get i).isEmpty = true) ↔ b = true) := by
  have hinfo : ∃ info, localForRequest twoChildren sixthChild 10 = some (.ok info) ∧
      info.bitfield.validatedSize = some 64 ∧ ∀ fuel, info.isComplete (fuel + 2) = some true ∧
        info.missing (fuel + 2) = some sixthChild := ⟨_, rfl, by decide, fun fuel => ⟨rfl, rfl⟩⟩
  obtain ⟨info, hbuilt, hsize, hret⟩ := hinfo
  have returns : ∀ {α : Type} {f : Nat → Option α} {a : α}, (∀ fuel, f (fuel + 2) = some a) → Fuel.Returns f a :=
    fun h => (Fuel.returns_of_succ (f := fun fuel => _) h).step (fun _ => rfl)
  have hmissing : Fuel.Returns info.missing sixthChild := returns (fun fuel => (hret fuel).2)
  refine ⟨info, ⟨10, hbuilt⟩, returns (fun fuel => (hret fuel).1), hmissing, ?_⟩
  rintro ⟨m, b, hm, -, -, hexact, -⟩
  obtain rfl := hm.unique hmissing
  have hget := hexact.pastEnd 5 64 hsize (by decide)
  exact absurd hget (by decide)

/-- Everything is requested of a complete hash sequence without its children: the children are missing. -/
theorem missing_exact_twoChildren :
    ∃ (info : LocalInfo) (m : GetRequest Hash), info.BuiltFor twoChildren ⟨Hash.replicate 0, .all⟩ ∧
      Fuel.Returns info.missing m ∧ info.Exact m.ranges := by
  have hinfo : ∃ info, localForRequest twoChildren ⟨Hash.replicate 0, .all⟩ 10 = some (.ok info) ∧
      info.bitfield.size = 64 ∧ info.request.ranges = .all := ⟨_, rfl, rfl, rfl⟩
  obtain ⟨info, hbuilt, hsize, hall⟩ := hinfo
  have hnot : ¬ info.StartsPastEnd := by
    rintro ⟨child, size, hs, hle, -, hfirst⟩
    rw [Bitfield.validatedSize_eq_some hs, hsize] at hle
    have := hfirst 0 (by omega)
    rw [requested, hall] at this
    cases this
  have hright : info.RootExact := by
    intro x _
    rw [rootRequested_eq (by rw [hall]; decide)]
  obtain ⟨m, b, hm, -, -, hexact, -⟩ := (missing_exact_iff ⟨10, hbuilt⟩ twoChildren_within).mpr ⟨hright, hnot⟩
  exact ⟨info, m, ⟨10, hbuilt⟩, hm, hexact⟩

end LocalInfo

end Remote

end IrohBlobs
