import IrohBlobs.Protocol

/-!
# The wire format of ranges

The model of `RangeSpec` and of the module `wire` in `protocol/range_spec.rs`.  A set of chunks is sent as the widths of
alternating spans, of which the first is not selected, and a sequence of sets as the differences of the offsets.  Both
are decoded by adding up numbers that a peer has chosen, so additions and subtractions are checked here: they give
nothing where the `u64` of the source would overflow.

The ends of the spans are the boundaries of the set (`ends_new`), so both directions are described by membership.
-/

namespace IrohBlobs

def addU64 (a b : Nat) : Option Nat := if a + b < 2 ^ 64 then some (a + b) else none

def subU64 (a b : Nat) : Option Nat := if b ≤ a then some (a - b) else none

theorem addU64_of_lt {a b : Nat} (h : a + b < 2 ^ 64) : addU64 a b = some (a + b) := if_pos h

theorem addU64_eq_some {a b c : Nat} (h : addU64 a b = some c) : c = a + b := by
  unfold addU64 at h
  split at h
  · exact (Option.some.inj h).symm
  · cases h

namespace RangeSpec

/-- The loop of `new` over the boundaries after the first one. -/
def newLoop (prev : Nat) : List Nat → Option (List UInt64)
  | [] => some []
  | v :: rest => (subU64 v prev).bind fun width => (newLoop v rest).map (fun widths => UInt64.ofNat width :: widths)

def new (ranges : ChunkRanges) : Option RangeSpec :=
  match ranges.boundaries with
  | [] => some ⟨[]⟩
  | start :: rest => (newLoop start rest).map (fun widths => ⟨UInt64.ofNat start :: widths⟩)

def toChunkRangesLoop (ranges : ChunkRanges) (current : Nat) (on : Bool) : List UInt64 → Option ChunkRanges
  | [] => some (if on then ranges ∪ .rangeFrom current else ranges)
  | width :: widths =>
    (addU64 current width.toNat).bind fun next =>
      toChunkRangesLoop (if on then ranges ∪ .range current next else ranges) next (!on) widths

def toChunkRanges (spec : RangeSpec) : Option ChunkRanges := toChunkRangesLoop ∅ 0 false spec.widths

/-! ### Spans -/

/-- The ends of the spans, as naturals. -/
def ends (start : Nat) : List UInt64 → List Nat
  | [] => []
  | width :: widths => (start + width.toNat) :: ends (start + width.toNat) widths

/-- The number of the span that contains a chunk.  Spans are counted from zero, and the last one is unbounded. -/
def spanOf (spec : RangeSpec) (k : Nat) : Nat := (ends 0 spec.widths).countP (fun e => e ≤ k)

/-- The sum of the widths. -/
def total (widths : List UInt64) : Nat := (widths.map UInt64.toNat).sum

private theorem le_of_mem_ends {start e : Nat} {widths : List UInt64} (h : e ∈ ends start widths) : start ≤ e := by
  induction widths generalizing start with
  | nil => cases h
  | cons width widths ih =>
    rcases List.mem_cons.mp h with rfl | h
    · omega
    · have := ih h
      omega

/-- Nothing overflows if and only if the sum of the widths does not. -/
private theorem toChunkRangesLoop_isSome_iff {ranges : ChunkRanges} {current : Nat} {on : Bool} {widths : List UInt64}
    (hcurrent : current < 2 ^ 64) :
    (toChunkRangesLoop ranges current on widths).isSome = true ↔ current + total widths < 2 ^ 64 := by
  induction widths generalizing ranges current on with
  | nil => exact iff_of_true rfl hcurrent
  | cons width widths ih =>
    have htotal : total (width :: widths) = width.toNat + total widths := rfl
    unfold toChunkRangesLoop addU64
    split
    · rename_i hlt
      rw [Option.bind_some, ih hlt, htotal]
      omega
    · rename_i hge
      rw [Option.bind_none, htotal]
      simp only [Option.isSome_none, Bool.false_eq_true, false_iff]
      omega

/-- The decoded chunks: those from before, and those in the selected spans that are still to come. -/
private theorem mem_toChunkRangesLoop {ranges r : ChunkRanges} {current : Nat} {on : Bool} {widths : List UInt64}
    (h : toChunkRangesLoop ranges current on widths = some r) (k : Nat) :
    k ∈ r ↔ k ∈ ranges ∨
      current ≤ k ∧ (on ^^ decide ((ends current widths).countP (fun e => e ≤ k) % 2 = 1)) = true := by
  induction widths generalizing ranges current on with
  | nil =>
    cases h
    cases on <;> simp [ends]
  | cons width widths ih =>
    unfold toChunkRangesLoop at h
    obtain ⟨next, hnext, h⟩ := Option.bind_eq_some_iff.mp h
    have heq : next = current + width.toNat := addU64_eq_some hnext
    subst heq
    rw [ih h, ends, List.countP_cons]
    by_cases hk : current + width.toNat ≤ k
    · have hout : k ∉ RangeSet.range current (current + width.toNat) := by
        rw [RangeSet.mem_range]
        omega
      have hle : current ≤ k := by omega
      -- the span is over: one more end, and the other kind of span
      rcases Nat.mod_two_eq_zero_or_one ((ends (current + width.toNat) widths).countP (fun e => e ≤ k)) with hm | hm <;>
        cases on <;> simp [hk, hle, hout, hm, Nat.add_mod]
    · have hzero : (ends (current + width.toNat) widths).countP (fun e => e ≤ k) = 0 := by
        rw [List.countP_eq_zero]
        intro e he
        have := le_of_mem_ends he
        simp only [decide_eq_true_eq]
        omega
      cases on
      · simp [hk, hzero]
      · have hrange : k ∈ RangeSet.range current (current + width.toNat) ↔ current ≤ k := by
          rw [RangeSet.mem_range]
          omega
        simp [hk, hzero, hrange]

/-- The decoded set has the chunks of the spans with an odd number. -/
theorem mem_toChunkRanges {spec : RangeSpec} {r : ChunkRanges} (h : spec.toChunkRanges = some r) (k : Nat) :
    k ∈ r ↔ spec.spanOf k % 2 = 1 := by
  rw [mem_toChunkRangesLoop h k]
  simp [spanOf]

private theorem toChunkRanges_isSome_iff (spec : RangeSpec) :
    spec.toChunkRanges.isSome = true ↔ total spec.widths < 2 ^ 64 := by
  rw [toChunkRanges, toChunkRangesLoop_isSome_iff (by decide), Nat.zero_add]

/-! ### The round trip of a set -/

private theorem ends_newLoop {prev : Nat} {rest : List Nat} (hsorted : (prev :: rest).Pairwise (· < ·))
    (hlt : ∀ b ∈ rest, b < 2 ^ 64) :
    ∃ widths, newLoop prev rest = some widths ∧ ends prev widths = rest := by
  induction rest generalizing prev with
  | nil => exact ⟨[], rfl, rfl⟩
  | cons v rest ih =>
    rw [List.pairwise_cons] at hsorted
    have hv : prev < v := hsorted.1 v List.mem_cons_self
    have hv' : v < 2 ^ 64 := hlt v List.mem_cons_self
    obtain ⟨widths, hloop, hends⟩ := ih hsorted.2 (fun b hb => hlt b (List.mem_cons_of_mem _ hb))
    refine ⟨UInt64.ofNat (v - prev) :: widths, ?_, ?_⟩
    · simp only [newLoop, subU64, if_pos (Nat.le_of_lt hv), Option.bind_some, hloop, Option.map_some]
    · have hwidth : prev + (UInt64.ofNat (v - prev)).toNat = v := by
        rw [UInt64.toNat_ofNat_of_lt' (by show v - prev < 2 ^ 64; omega)]
        omega
      rw [ends, hwidth, hends]

/-- The ends of the spans are the boundaries of the set. -/
private theorem ends_new {ranges : ChunkRanges} (hlt : ∀ b ∈ ranges.boundaries, b < 2 ^ 64) :
    ∃ spec, new ranges = some spec ∧ ends 0 spec.widths = ranges.boundaries := by
  unfold new
  cases hb : ranges.boundaries with
  | nil => exact ⟨⟨[]⟩, rfl, rfl⟩
  | cons start rest =>
    have hsorted := ranges.sorted
    rw [hb] at hsorted hlt
    obtain ⟨widths, hloop, hends⟩ := ends_newLoop hsorted (fun b hb => hlt b (List.mem_cons_of_mem _ hb))
    refine ⟨⟨UInt64.ofNat start :: widths⟩, by simp only [hloop, Option.map_some], ?_⟩
    have hstart : 0 + (UInt64.ofNat start).toNat = start := by
      rw [UInt64.toNat_ofNat_of_lt' (hlt start List.mem_cons_self)]
      omega
    rw [ends, hstart, hends]

private theorem getLastD_ends (start : Nat) (widths : List UInt64) :
    (ends start widths).getLastD start = start + total widths := by
  induction widths generalizing start with
  | nil => rfl
  | cons width widths ih =>
    have htotal : total (width :: widths) = width.toNat + total widths := rfl
    rw [ends, List.getLastD_cons, ih, htotal]
    omega

/-- Encoding and decoding a set of chunks gives the set. -/
theorem toChunkRanges_new {ranges : ChunkRanges} (hlt : ∀ b ∈ ranges.boundaries, b < 2 ^ 64) :
    ∃ spec, new ranges = some spec ∧ spec.toChunkRanges = some ranges := by
  obtain ⟨spec, hnew, hends⟩ := ends_new hlt
  refine ⟨spec, hnew, ?_⟩
  have htotal : total spec.widths < 2 ^ 64 := by
    have hlast := getLastD_ends 0 spec.widths
    rw [Nat.zero_add, hends] at hlast
    rw [← hlast]
    cases hb : ranges.boundaries with
    | nil => decide
    | cons b bs =>
      rw [List.getLastD_cons, List.getLastD_eq_getLast?]
      cases hl : bs.getLast? with
      | none => exact hlt b (by rw [hb]; exact List.mem_cons_self)
      | some l =>
        refine hlt l ?_
        rw [hb]
        exact List.mem_cons_of_mem _ (List.mem_of_getLast? hl)
  obtain ⟨r, hr⟩ := Option.isSome_iff_exists.mp ((toChunkRanges_isSome_iff spec).mpr htotal)
  rw [hr, Option.some.injEq]
  refine RangeSet.ext_mem (fun k => ?_)
  rw [mem_toChunkRanges hr, spanOf, hends, RangeSet.mem_iff, RangeSet.contains]
  simp

end RangeSpec

/-! ### Sequences -/

/-- A `ChunkRangesSeq` on the wire.  The numbers are the differences of the offsets. -/
structure RangeSpecSeq where
  entries : List (UInt64 × RangeSpec)

namespace RangeSpecSeq

/-- The loop that decodes the entries. -/
def decodeLoop (offset : Nat) : List (UInt64 × RangeSpec) → Option (List (Nat × ChunkRanges))
  | [] => some []
  | (delta, spec) :: rest =>
    (addU64 offset delta.toNat).bind fun offset =>
      spec.toChunkRanges.bind fun ranges => (decodeLoop offset rest).map (fun res => (offset, ranges) :: res)

def toChunkRangesSeq (wire : RangeSpecSeq) : Option ChunkRangesSeq := (decodeLoop 0 wire.entries).map (fun res => ⟨res⟩)

/-- The loop that encodes the entries. -/
def encodeLoop (offset : Nat) : List (Nat × ChunkRanges) → Option (List (UInt64 × RangeSpec))
  | [] => some []
  | (i, r) :: rest =>
    (subU64 i offset).bind fun delta =>
      (RangeSpec.new r).bind fun spec => (encodeLoop i rest).map (fun res => (UInt64.ofNat delta, spec) :: res)

def ofChunkRangesSeq (seq : ChunkRangesSeq) : Option RangeSpecSeq := (encodeLoop 0 seq.entries).map (fun res => ⟨res⟩)

/-- The offsets of the entries, as naturals. -/
def offsetsFrom (offset : Nat) : List (UInt64 × RangeSpec) → List Nat
  | [] => []
  | (delta, _) :: rest => (offset + delta.toNat) :: offsetsFrom (offset + delta.toNat) rest

def offsets (wire : RangeSpecSeq) : List Nat := offsetsFrom 0 wire.entries

/-- A decoded entry has the chunks of the odd spans of its specification. -/
def Decodes (e : Nat × ChunkRanges) (w : UInt64 × RangeSpec) : Prop := ∀ k, k ∈ e.2 ↔ w.2.spanOf k % 2 = 1

private theorem decodeLoop_isSome_iff (offset : Nat) (entries : List (UInt64 × RangeSpec)) :
    (decodeLoop offset entries).isSome = true ↔
      (∀ o ∈ offsetsFrom offset entries, o < 2 ^ 64) ∧ ∀ w ∈ entries, RangeSpec.total w.2.widths < 2 ^ 64 := by
  induction entries generalizing offset with
  | nil => exact iff_of_true rfl ⟨by simp [offsetsFrom], by simp⟩
  | cons w rest ih =>
    obtain ⟨delta, spec⟩ := w
    rw [offsetsFrom, List.forall_mem_cons, List.forall_mem_cons, ← RangeSpec.toChunkRanges_isSome_iff]
    unfold decodeLoop addU64
    split
    · rename_i hlt
      rw [Option.bind_some]
      cases spec.toChunkRanges with
      | none => simp
      | some ranges =>
        have hrest := ih (offset + delta.toNat)
        simp only [Option.bind_some, Option.isSome_map, hrest, Option.isSome_some, true_and, hlt]
    · rename_i hge
      simp only [Option.bind_none, Option.isSome_none, Bool.false_eq_true, false_iff, not_and]
      intro h
      exact absurd h.1 hge

private theorem le_of_mem_offsetsFrom {offset o : Nat} {entries : List (UInt64 × RangeSpec)}
    (h : o ∈ offsetsFrom offset entries) : offset ≤ o := by
  induction entries generalizing offset with
  | nil => cases h
  | cons w rest ih =>
    rcases List.mem_cons.mp h with rfl | h
    · exact Nat.le_add_right _ _
    · have := ih h
      omega

theorem pairwise_offsetsFrom (offset : Nat) (entries : List (UInt64 × RangeSpec)) :
    (offsetsFrom offset entries).Pairwise (· ≤ ·) := by
  induction entries generalizing offset with
  | nil => exact List.Pairwise.nil
  | cons w rest ih => exact List.pairwise_cons.mpr ⟨fun o ho => le_of_mem_offsetsFrom ho, ih _⟩

/-- The decoded entries have the offsets and the chunks that are on the wire. -/
theorem decodeLoop_spec {offset : Nat} {entries : List (UInt64 × RangeSpec)} {res : List (Nat × ChunkRanges)}
    (h : decodeLoop offset entries = some res) :
    res.map Prod.fst = offsetsFrom offset entries ∧ List.Forall₂ Decodes res entries := by
  induction entries generalizing offset res with
  | nil =>
    cases h
    exact ⟨rfl, List.Forall₂.nil⟩
  | cons w rest ih =>
    obtain ⟨delta, spec⟩ := w
    obtain ⟨next, hnext, h⟩ := Option.bind_eq_some_iff.mp h
    obtain ⟨ranges, hranges, h⟩ := Option.bind_eq_some_iff.mp h
    obtain ⟨res', hres', rfl⟩ := Option.map_eq_some_iff.mp h
    have heq : next = offset + delta.toNat := addU64_eq_some hnext
    subst heq
    obtain ⟨h1, h2⟩ := ih hres'
    refine ⟨?_, List.Forall₂.cons (fun k => RangeSpec.mem_toChunkRanges hranges k) h2⟩
    rw [List.map_cons, h1, offsetsFrom]

/-- Encoding and decoding entries with offsets that do not decrease gives the entries. -/
theorem decodeLoop_encodeLoop {offset : Nat} {entries : List (Nat × ChunkRanges)}
    (hsorted : entries.Pairwise (fun a b => a.1 ≤ b.1)) (hoffset : ∀ e ∈ entries, offset ≤ e.1 ∧ e.1 < 2 ^ 64)
    (hlt : ∀ e ∈ entries, ∀ b ∈ e.2.boundaries, b < 2 ^ 64) :
    ∃ wire, encodeLoop offset entries = some wire ∧ decodeLoop offset wire = some entries := by
  induction entries generalizing offset with
  | nil => exact ⟨[], rfl, rfl⟩
  | cons e rest ih =>
    obtain ⟨i, r⟩ := e
    rw [List.pairwise_cons] at hsorted
    obtain ⟨hle, hi⟩ := hoffset (i, r) List.mem_cons_self
    simp only at hle hi
    obtain ⟨spec, hnew, hranges⟩ := RangeSpec.toChunkRanges_new (hlt (i, r) List.mem_cons_self)
    have hrest : ∀ e ∈ rest, i ≤ e.1 ∧ e.1 < 2 ^ 64 := by
      intro e he
      exact ⟨hsorted.1 e he, (hoffset e (List.mem_cons_of_mem _ he)).2⟩
    obtain ⟨wire, henc, hdec⟩ := ih hsorted.2 hrest (fun e he => hlt e (List.mem_cons_of_mem _ he))
    refine ⟨(UInt64.ofNat (i - offset), spec) :: wire, ?_, ?_⟩
    · simp only [encodeLoop, subU64, if_pos hle, Option.bind_some, hnew, henc, Option.map_some]
    · have hdelta : offset + (UInt64.ofNat (i - offset)).toNat = i := by
        rw [UInt64.toNat_ofNat_of_lt' (by show i - offset < 2 ^ 64; omega)]
        omega
      simp only [decodeLoop, addU64, hdelta, if_pos hi, Option.bind_some, hranges, hdec, Option.map_some]

end RangeSpecSeq

/-! ### The arithmetic of the views -/

namespace ChunkRangesSeq

/-- `as_single` with the subtraction of the source, which is evaluated for every sequence of two entries. -/
def asSingleU64 (seq : ChunkRangesSeq) : Option (Option (Nat × ChunkRanges)) :=
  match seq.entries with
  | [(o1, v1), (o2, v2)] => (subU64 o2 1).map fun o => if o1 = o ∧ v2.isEmpty then some (o1, v1) else none
  | _ => some none

def isBlobU64 (seq : ChunkRangesSeq) : Option Bool :=
  seq.asSingleU64.map (fun | some (0, _) => true | _ => false)

/-- What is documented of `binary_search_by` for entries that are sorted by offset: it finds any of the matches, or else
the place where the offset could be inserted. -/
def SearchResult (entries : List (Nat × ChunkRanges)) (index : Nat) : Except Nat Nat → Prop
  | .ok i => ∃ r, entries[i]? = some (index, r)
  | .error i => i ≤ entries.length ∧ ∀ j e, entries[j]? = some e → if j < i then e.1 < index else index < e.1

/-- `seq[index]` for a result of the search; nothing where the source would panic. -/
def indexWith (seq : ChunkRangesSeq) : Except Nat Nat → Option ChunkRanges
  | .ok i => seq.entries[i]?.map Prod.snd
  | .error i => if i = 0 then some ∅ else (subU64 i 1).bind fun i => seq.entries[i]?.map Prod.snd

/-- `next` of the infinite iterator with the addition of the source. -/
def IterInfinite.nextU64 (it : IterInfinite) : Option (ChunkRanges × IterInfinite) :=
  (addU64 it.offset 1).map fun _ => it.next

/-- `next` of the finite iterator with the addition of the source, which is not evaluated at the end. -/
def Iter.nextU64 (it : Iter) : Option (Option (ChunkRanges × Iter)) :=
  if it.remaining.isEmpty then some none else (addU64 it.offset 1).map fun _ => it.next

/-- The loop of `next` of the iterator over non-empty ranges, with the arithmetic of the source.  The counter is
checked, but only after the inner iterator has moved on. -/
def NonEmptyIter.nextLoopU64 : Nat → NonEmptyIter → Option (Option (Nat × ChunkRanges) × NonEmptyIter)
  | 0, it => some (none, it)
  | fuel + 1, it =>
    it.inner.nextU64.bind fun (curr, inner) =>
      match addU64 it.count 1 with
      | none => some (none, ⟨inner, it.count⟩)
      | some count =>
        if !curr.isEmpty then some (some (it.count, curr), ⟨inner, count⟩)
        else if inner.isAtEnd then some (none, ⟨inner, count⟩)
        else nextLoopU64 fuel ⟨inner, count⟩

def NonEmptyIter.nextU64 (it : NonEmptyIter) : Option (Option (Nat × ChunkRanges) × NonEmptyIter) :=
  nextLoopU64 (maxOffset it.inner.remaining + 1) it

private theorem nextU64_iterAt (seq : ChunkRangesSeq) {n : Nat} (hn : n + 1 < 2 ^ 64) :
    (seq.iterAt n).nextU64 = some (seq.get n, seq.iterAt (n + 1)) := by
  rw [IterInfinite.nextU64, offset_iterAt, addU64_of_lt hn, Option.map_some, next_iterAt]

private theorem count_le_nextLoop (fuel : Nat) (it : NonEmptyIter) :
    it.count ≤ (NonEmptyIter.nextLoop fuel it).2.count := by
  induction fuel generalizing it with
  | zero => exact Nat.le_refl _
  | succ fuel ih =>
    rw [NonEmptyIter.nextLoop]
    simp only
    split
    · exact Nat.le_succ _
    · split
      · exact Nat.le_succ _
      · have hstep := ih ⟨it.inner.next.2, it.count + 1⟩
        exact Nat.le_of_succ_le hstep

/-- The loop does not overflow where the counter fits into 64 bits at its end. -/
private theorem nextLoopU64_nonEmptyAt {seq : ChunkRangesSeq} {fuel n : Nat}
    (hcount : (NonEmptyIter.nextLoop fuel (seq.nonEmptyAt n)).2.count < 2 ^ 64) :
    NonEmptyIter.nextLoopU64 fuel (seq.nonEmptyAt n) = some (NonEmptyIter.nextLoop fuel (seq.nonEmptyAt n)) := by
  induction fuel generalizing n with
  | zero => rfl
  | succ fuel ih =>
    have hnext : (seq.nonEmptyAt n).inner.next = (seq.get n, seq.iterAt (n + 1)) := next_iterAt seq n
    rw [NonEmptyIter.nextLoop, hnext] at hcount ⊢
    simp only at hcount ⊢
    have hn : n + 1 < 2 ^ 64 := by
      refine Nat.lt_of_le_of_lt ?_ hcount
      split
      · exact Nat.le_refl _
      · split
        · exact Nat.le_refl _
        · exact count_le_nextLoop fuel ⟨seq.iterAt (n + 1), n + 1⟩
    have hinner : (seq.nonEmptyAt n).inner.nextU64 = some (seq.get n, seq.iterAt (n + 1)) := nextU64_iterAt seq hn
    have hadd : addU64 (seq.nonEmptyAt n).count 1 = some (n + 1) := addU64_of_lt hn
    rw [NonEmptyIter.nextLoopU64, hinner, Option.bind_some, hadd]
    simp only
    split
    · rfl
    · rename_i hempty
      rw [if_neg hempty] at hcount
      split
      · rfl
      · rename_i hend
        rw [if_neg hend] at hcount
        exact ih hcount

/-! ### Runs of the finite iterator -/

/-- The items of the finite iterator. -/
def Iter.run : Nat → Iter → List ChunkRanges
  | 0, _ => []
  | fuel + 1, it =>
    match it.next with
    | none => []
    | some (r, it) => r :: run fuel it

/-- The items of the finite iterator with the arithmetic of the source. -/
def Iter.runU64 : Nat → Iter → Option (List ChunkRanges)
  | 0, _ => some []
  | fuel + 1, it =>
    it.nextU64.bind fun
      | none => some []
      | some (r, it) => (runU64 fuel it).map (fun res => r :: res)

/-- The number of items that have been yielded after the last entry, for an iterator that has yielded `n`.  An entry
takes the place of its offset, or the next place if that is already taken. -/
def itemsFrom (n : Nat) : List Nat → Nat
  | [] => n
  | o :: rest => itemsFrom (max n o + 1) rest

private theorem le_itemsFrom (n : Nat) (offsets : List Nat) : n ≤ itemsFrom n offsets := by
  induction offsets generalizing n with
  | nil => exact Nat.le_refl n
  | cons o rest ih =>
    have h := ih (max n o + 1)
    rw [itemsFrom]
    omega

private theorem lt_itemsFrom {n o : Nat} {offsets : List Nat} (h : o ∈ offsets) : o < itemsFrom n offsets := by
  induction offsets generalizing n with
  | nil => cases h
  | cons o' rest ih =>
    rw [itemsFrom]
    rcases List.mem_cons.mp h with rfl | h
    · have := le_itemsFrom (max n o + 1) rest
      omega
    · exact ih h

def offsets (seq : ChunkRangesSeq) : List Nat := seq.entries.map Prod.fst

/-- The number of all items, for an iterator in the middle of its run. -/
def Iter.items (it : Iter) : Nat := itemsFrom it.offset (it.remaining.map Prod.fst)

/-- A step of the finite iterator yields one item, and the number of all items stays the same. -/
theorem Iter.items_next {it it' : Iter} {r : ChunkRanges} (h : it.next = some (r, it')) :
    it'.offset = it.offset + 1 ∧ it'.items = it.items := by
  obtain ⟨current, offset, remaining⟩ := it
  cases remaining with
  | nil => cases h
  | cons e rest =>
    obtain ⟨o, ranges⟩ := e
    simp only [Iter.next] at h
    split at h
    · rename_i hlt
      cases h
      refine ⟨rfl, ?_⟩
      simp only [Iter.items, List.map_cons, itemsFrom]
      rw [Nat.max_eq_right hlt, Nat.max_eq_right (Nat.le_of_lt hlt)]
    · rename_i hge
      cases h
      refine ⟨rfl, ?_⟩
      simp only [Iter.items, List.map_cons, itemsFrom]
      rw [Nat.max_eq_left (Nat.le_of_not_lt hge)]

private theorem Iter.next_isSome {it : Iter} (h : it.remaining.isEmpty = false) : ∃ r it', it.next = some (r, it') := by
  obtain ⟨current, offset, remaining⟩ := it
  cases remaining with
  | nil => cases h
  | cons e rest =>
    simp only [Iter.next]
    split
    · exact ⟨_, _, rfl⟩
    · exact ⟨_, _, rfl⟩

private theorem Iter.next_eq_none {it : Iter} (h : it.remaining.isEmpty = true) : it.next = none := by
  rw [Iter.next, List.isEmpty_iff.mp h]

private theorem Iter.runU64_eq_run {it : Iter} (h : it.items < 2 ^ 64) (fuel : Nat) :
    Iter.runU64 fuel it = some (Iter.run fuel it) := by
  induction fuel generalizing it with
  | zero => rfl
  | succ fuel ih =>
    rw [Iter.runU64, Iter.run, Iter.nextU64]
    cases hrem : it.remaining.isEmpty with
    | true =>
      rw [Iter.next_eq_none hrem]
      rfl
    | false =>
      obtain ⟨r, it', hnext⟩ := Iter.next_isSome hrem
      obtain ⟨hoffset, hitems⟩ := Iter.items_next hnext
      have hlt : it.offset + 1 < 2 ^ 64 := by
        have hle : it'.offset ≤ it'.items := le_itemsFrom _ _
        omega
      have hrun := ih (by rw [hitems]; exact h)
      simp only [Bool.false_eq_true, if_false, addU64_of_lt hlt, Option.map_some, hnext, Option.bind_some, hrun]

/-- A run that would need more than 64 bits for its items overflows. -/
private theorem Iter.runU64_eq_none {it : Iter} {fuel : Nat} (hfuel : it.offset + fuel = 2 ^ 64) (hpos : 0 < fuel)
    (h : 2 ^ 64 ≤ it.items) : Iter.runU64 fuel it = none := by
  induction fuel generalizing it with
  | zero => omega
  | succ fuel ih =>
    have hrem : it.remaining.isEmpty = false := by
      cases hrem : it.remaining with
      | nil =>
        rw [Iter.items, hrem, List.map_nil, itemsFrom] at h
        omega
      | cons e rest => rfl
    obtain ⟨r, it', hnext⟩ := Iter.next_isSome hrem
    obtain ⟨hoffset, hitems⟩ := Iter.items_next hnext
    rw [Iter.runU64, Iter.nextU64, hrem]
    by_cases hzero : fuel = 0
    · have hno : ¬ it.offset + 1 < 2 ^ 64 := by omega
      simp only [Bool.false_eq_true, if_false, addU64, if_neg hno, Option.map_none, Option.bind_none]
    · have hlt : it.offset + 1 < 2 ^ 64 := by omega
      have hrun := @ih it' (by omega) (by omega) (by omega)
      simp only [Bool.false_eq_true, if_false, addU64_of_lt hlt, Option.map_some, hnext, Option.bind_some, hrun,
        Option.map_none]

/-! ### The views -/

/-- A number of items that the views are asked for: those up to the last stored offset, and in any case as many as `u64`
can count. -/
def Counted (seq : ChunkRangesSeq) (m : Nat) : Prop := m ≤ maxOffset seq.entries + 1 ∨ m < 2 ^ 64

/-- The views of a sequence do not overflow. -/
structure Safe (seq : ChunkRangesSeq) : Prop where
  asSingle : seq.asSingleU64 = some seq.asSingle
  isBlob : seq.isBlobU64 = some seq.isBlob
  index : ∀ i result, SearchResult seq.entries i result → (seq.indexWith result).isSome = true
  iterInfinite : ∀ n, seq.Counted (n + 1) → (seq.iterAt n).nextU64 = some (seq.get n, seq.iterAt (n + 1))
  iter : ∀ fuel, Iter.runU64 fuel seq.iter = some (Iter.run fuel seq.iter)
  nonEmpty : ∀ n, seq.Counted (seq.nonEmptyAt n).next.2.count →
    (seq.nonEmptyAt n).nextU64 = some (seq.nonEmptyAt n).next

private theorem indexWith_isSome {seq : ChunkRangesSeq} {i : Nat} {result : Except Nat Nat}
    (h : SearchResult seq.entries i result) : (seq.indexWith result).isSome = true := by
  cases result with
  | ok j =>
    obtain ⟨r, hr⟩ := h
    simp [indexWith, hr]
  | error j =>
    simp only [indexWith]
    split
    · rfl
    · rename_i hj
      have hlt : j - 1 < seq.entries.length := by
        have := h.1
        omega
      simp only [subU64, if_pos (show 1 ≤ j by omega), Option.bind_some, List.getElem?_eq_getElem hlt, Option.map_some,
        Option.isSome_some]

/-- The subtraction of `as_single` is safe unless the second of two entries has offset zero. -/
theorem asSingleU64_iff (seq : ChunkRangesSeq) :
    seq.asSingleU64 = some seq.asSingle ↔ ∀ o, seq.offsets ≠ [o, 0] := by
  obtain ⟨es⟩ := seq
  match es with
  | [] => exact iff_of_true rfl (by simp [offsets])
  | [_] => exact iff_of_true rfl (by simp [offsets])
  | _ :: _ :: _ :: _ => exact iff_of_true rfl (by simp [offsets])
  | [(o1, v1), (o2, v2)] =>
    cases o2 with
    | zero =>
      refine iff_of_false (by simp [asSingleU64, subU64]) ?_
      intro h
      exact h o1 rfl
    | succ o => exact iff_of_true (by simp [asSingleU64, asSingle, subU64]) (by simp [offsets])

private theorem maxOffset_mem {entries : List (Nat × ChunkRanges)} (hne : entries ≠ []) :
    maxOffset entries ∈ entries.map Prod.fst := by
  induction entries with
  | nil => exact absurd rfl hne
  | cons e rest ih =>
    have hmax : maxOffset (e :: rest) = max e.1 (maxOffset rest) := rfl
    rw [hmax, List.map_cons]
    by_cases hrest : rest = []
    · subst hrest
      simp [maxOffset]
    · rcases max_choice e.1 (maxOffset rest) with h | h
      · rw [h]
        exact List.mem_cons_self
      · rw [h]
        exact List.mem_cons_of_mem _ (ih hrest)

/-- The views are safe if the items of the finite iterator can be counted, and if `as_single` is. -/
private theorem safe_iff (seq : ChunkRangesSeq) :
    seq.Safe ↔ itemsFrom 0 seq.offsets < 2 ^ 64 ∧ ∀ o, seq.offsets ≠ [o, 0] := by
  rw [← asSingleU64_iff]
  constructor
  · intro h
    refine ⟨?_, h.asSingle⟩
    by_contra hge
    have hitems : 2 ^ 64 ≤ seq.iter.items := Nat.le_of_not_lt hge
    have hnone : Iter.runU64 (2 ^ 64) seq.iter = none := Iter.runU64_eq_none (Nat.zero_add _) (by decide) hitems
    rw [h.iter] at hnone
    cases hnone
  · rintro ⟨hitems, hs⟩
    have hcounted : ∀ m, seq.Counted m → m < 2 ^ 64 := by
      rintro m (hm | hm)
      · by_cases hne : seq.entries = []
        · have hzero : maxOffset seq.entries = 0 := by rw [hne]; rfl
          omega
        · have hlt : maxOffset seq.entries < itemsFrom 0 seq.offsets := lt_itemsFrom (maxOffset_mem hne)
          omega
      · exact hm
    have hrun : seq.iter.items < 2 ^ 64 := hitems
    refine ⟨hs, ?_, fun i result hr => indexWith_isSome hr, ?_, fun fuel => Iter.runU64_eq_run hrun fuel, ?_⟩
    · rw [isBlobU64, hs, Option.map_some, Option.some.injEq]
      rfl
    · exact fun n hn => nextU64_iterAt seq (hcounted _ hn)
    · exact fun n hn => nextLoopU64_nonEmptyAt (hcounted _ hn)

end ChunkRangesSeq

/-- Decoding what a peer can send is safe and gives the chunks of the odd spans: for a specification exactly if the
sum of its widths fits into 64 bits, and for a sequence exactly if this holds of all its specifications, if its items
can be counted in 64 bits, and if it does not consist of two entries at offset zero. -/
theorem decode_safe_iff (spec : RangeSpec) (wire : RangeSpecSeq) :
    ((∃ r, spec.toChunkRanges = some r ∧ ∀ k, k ∈ r ↔ spec.spanOf k % 2 = 1) ↔
      RangeSpec.total spec.widths < 2 ^ 64) ∧
    ((∃ seq, wire.toChunkRangesSeq = some seq ∧ seq.Safe ∧ seq.offsets.Pairwise (· ≤ ·) ∧
        List.Forall₂ RangeSpecSeq.Decodes seq.entries wire.entries) ↔
      (∀ w ∈ wire.entries, RangeSpec.total w.2.widths < 2 ^ 64) ∧ ChunkRangesSeq.itemsFrom 0 wire.offsets < 2 ^ 64 ∧
        wire.offsets ≠ [0, 0]) := by
  constructor
  · rw [← RangeSpec.toChunkRanges_isSome_iff]
    constructor
    · rintro ⟨r, hr, -⟩
      rw [hr, Option.isSome_some]
    · intro h
      obtain ⟨r, hr⟩ := Option.isSome_iff_exists.mp h
      exact ⟨r, hr, fun k => RangeSpec.mem_toChunkRanges hr k⟩
  · have hsome := RangeSpecSeq.decodeLoop_isSome_iff 0 wire.entries
    constructor
    · rintro ⟨seq, hseq, hsafe, -, -⟩
      obtain ⟨res, hres, rfl⟩ := Option.map_eq_some_iff.mp hseq
      obtain ⟨hoffsets, -⟩ := RangeSpecSeq.decodeLoop_spec hres
      obtain ⟨hitems, hpair⟩ := (ChunkRangesSeq.safe_iff _).mp hsafe
      have heq : ChunkRangesSeq.offsets ⟨res⟩ = wire.offsets := hoffsets
      rw [heq] at hitems hpair
      rw [hres, Option.isSome_some] at hsome
      exact ⟨(hsome.mp rfl).2, hitems, hpair 0⟩
    · rintro ⟨hwidths, hitems, hpair⟩
      have hdec := hsome.mpr ⟨fun o ho => lt_trans (ChunkRangesSeq.lt_itemsFrom ho) hitems, hwidths⟩
      obtain ⟨res, hres⟩ := Option.isSome_iff_exists.mp hdec
      obtain ⟨hoffsets, hdecodes⟩ := RangeSpecSeq.decodeLoop_spec hres
      have heq : ChunkRangesSeq.offsets ⟨res⟩ = wire.offsets := hoffsets
      have hsorted : wire.offsets.Pairwise (· ≤ ·) := RangeSpecSeq.pairwise_offsetsFrom 0 wire.entries
      refine ⟨⟨res⟩, by rw [RangeSpecSeq.toChunkRangesSeq, hres, Option.map_some], ?_, by rwa [heq], hdecodes⟩
      rw [ChunkRangesSeq.safe_iff, heq]
      refine ⟨hitems, ?_⟩
      intro o ho
      rw [ho, List.pairwise_pair, Nat.le_zero] at hsorted
      rw [hsorted] at ho
      exact hpair ho

/-- The second width takes the position past the last `u64`, a second difference takes the offset past it, and for two
entries at offset zero the subtraction of `as_single` goes below zero. -/
theorem not_decode_safe_hostile :
    RangeSpec.toChunkRanges ⟨[0xffffffffffffffff, 1]⟩ = none ∧
    RangeSpecSeq.toChunkRangesSeq ⟨[(0xffffffffffffffff, ⟨[0]⟩), (1, ⟨[]⟩)]⟩ = none ∧
    (RangeSpecSeq.toChunkRangesSeq ⟨[(0, ⟨[0]⟩), (0, ⟨[]⟩)]⟩).bind ChunkRangesSeq.asSingleU64 = none := by
  refine ⟨by decide, by decide, by decide⟩

end IrohBlobs
