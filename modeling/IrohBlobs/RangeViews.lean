import IrohBlobs.HashSeq
import IrohBlobs.RangeWire
import Mathlib

/-!
# The views of a sequence of ranges

A `ChunkRangesSeq` is read in four ways: `Index` searches for an offset, `iter_infinite` and `iter` walk over the
entries, and `iter_non_empty_infinite` skips the blobs of which nothing is selected.  The infinite iterator gives the
ranges of every blob, and the iterator over non-empty ranges always agrees with it.  The other two do not look at
entries with equal offsets in the same way: the search may find any of them, and the finite iterator gives each of
them an item of its own, which pushes the entries after it to later places.

Sequences with equal offsets come from the wire, and from `GetManyRequest::from_iter` for no hashes.
-/

namespace IrohBlobs

/-- `from_iter`: the hashes are sorted and each is kept once. -/
def GetManyRequest.fromIter (iter : List Hash) : GetManyRequest Hash :=
  let res := (iter.mergeSort (fun a b => decide (a.bytes ≤ b.bytes))).destutter (· ≠ ·)
  ⟨res, ⟨[(0, RangeSet.all), (res.length, ∅)]⟩⟩

namespace ChunkRangesSeq

/-- The sequences that can be decoded or constructed. -/
inductive Obtainable : ChunkRangesSeq → Prop
  | decoded {wire : RangeSpecSeq} {seq : ChunkRangesSeq} (h : wire.toChunkRangesSeq = some seq) : Obtainable seq
  | empty : Obtainable empty
  | root : Obtainable root
  | all : Obtainable all
  | verifiedSize : Obtainable verifiedSize
  | verifiedChildSizes : Obtainable verifiedChildSizes
  | fromRanges (ranges : List ChunkRanges) : Obtainable (fromRanges ranges)
  | fromRangesInfinite (ranges : List ChunkRanges) : Obtainable (fromRangesInfinite ranges)
  | build (b : ChunkRangesSeqBuilder) : Obtainable b.build
  | buildOpen (b : ChunkRangesSeqBuilder) : Obtainable b.buildOpen
  | fromIter (hashes : List Hash) : Obtainable (GetManyRequest.fromIter hashes).ranges

private theorem sorted_of_lt {seq : ChunkRangesSeq} (h : seq.entries.Pairwise (fun a b => a.1 < b.1)) :
    seq.offsets.Pairwise (· ≤ ·) := by
  rw [offsets, List.pairwise_map]
  exact h.imp Nat.le_of_lt

private theorem Obtainable.sorted {seq : ChunkRangesSeq} (h : seq.Obtainable) : seq.offsets.Pairwise (· ≤ ·) := by
  cases h with
  | decoded h =>
    obtain ⟨res, hres, rfl⟩ := Option.map_eq_some_iff.mp h
    have heq : offsets ⟨res⟩ = _ := (RangeSpecSeq.decodeLoop_spec hres).1
    rw [heq]
    exact RangeSpecSeq.pairwise_offsetsFrom 0 _
  | empty | root | all | verifiedSize | verifiedChildSizes => decide
  | fromRanges ranges => exact sorted_of_lt (pairwise_fromRanges ranges)
  | fromRangesInfinite ranges => exact sorted_of_lt (pairwise_fromRangesInfinite ranges)
  | build b => exact sorted_of_lt (pairwise_fromRanges b.build0)
  | buildOpen b => exact sorted_of_lt (pairwise_fromRangesInfinite b.build0)
  | fromIter hashes => exact List.pairwise_pair.mpr (Nat.zero_le _)

/-! ### The search -/

/-- Where the offset is not found, the entry before the place is in force. -/
private theorem valueFrom_error {entries : List (Nat × ChunkRanges)} {i j : Nat} (cur : ChunkRanges)
    (h : SearchResult entries i (.error j)) :
    some (valueFrom cur entries i) = if j = 0 then some cur else entries[j - 1]?.map Prod.snd := by
  induction entries generalizing cur j with
  | nil =>
    have hj : j = 0 := Nat.le_zero.mp h.1
    rw [if_pos hj, valueFrom]
  | cons e rest ih =>
    obtain ⟨o, r⟩ := e
    have hfirst := h.2 0 (o, r) rfl
    cases j with
    | zero =>
      rw [if_neg (Nat.lt_irrefl 0)] at hfirst
      rw [if_pos rfl, valueFrom, if_pos hfirst]
    | succ j =>
      rw [if_pos (Nat.succ_pos j)] at hfirst
      have hrest : SearchResult rest i (.error j) := by
        refine ⟨Nat.le_of_succ_le_succ h.1, ?_⟩
        intro k e hk
        have hnext := h.2 (k + 1) e hk
        simpa using hnext
      rw [valueFrom, if_neg (Nat.not_lt.mpr (Nat.le_of_lt hfirst)), ih r hrest, if_neg (Nat.succ_ne_zero j),
        Nat.add_sub_cancel]
      cases j with
      | zero => rfl
      | succ j => rfl

/-- Every result of the search gives the ranges of the blob, exactly if every entry is in force at its own offset. -/
private theorem indexWith_iff (seq : ChunkRangesSeq) :
    (∀ i result, SearchResult seq.entries i result → seq.indexWith result = some (seq.get i)) ↔
      ∀ e ∈ seq.entries, seq.get e.1 = e.2 := by
  constructor
  · intro h e he
    obtain ⟨j, hj⟩ := List.mem_iff_getElem?.mp he
    have hfound := h e.1 (.ok j) ⟨e.2, hj⟩
    rw [indexWith, hj, Option.map_some, Option.some.injEq] at hfound
    exact hfound.symm
  · intro h i result hr
    cases result with
    | ok j =>
      obtain ⟨r, hj⟩ := hr
      have hget := h (i, r) (List.mem_of_getElem? hj)
      rw [indexWith, hj, Option.map_some, hget]
    | error j =>
      rw [get, valueFrom_error ∅ hr, indexWith]
      split
      · rfl
      · rename_i hj
        have hpos : 1 ≤ j := Nat.pos_of_ne_zero hj
        rw [subU64, if_pos hpos, Option.bind_some]

/-! ### The finite iterator -/

/-- The items that the finite iterator still has to yield. -/
def yieldFrom (current : ChunkRanges) (n : Nat) : List (Nat × ChunkRanges) → List ChunkRanges
  | [] => []
  | (o, r) :: rest => List.replicate (o - n) current ++ r :: yieldFrom r (max n o + 1) rest

private theorem Iter.run_eq_take (fuel : Nat) (it : Iter) :
    Iter.run fuel it = (yieldFrom it.current it.offset it.remaining).take fuel := by
  induction fuel generalizing it with
  | zero => rfl
  | succ fuel ih =>
    obtain ⟨current, n, remaining⟩ := it
    cases remaining with
    | nil => rfl
    | cons e rest =>
      obtain ⟨o, r⟩ := e
      by_cases hlt : n < o
      · have hnext : Iter.next ⟨current, n, (o, r) :: rest⟩ = some (current, ⟨current, n + 1, (o, r) :: rest⟩) := by
          simp only [Iter.next, if_pos hlt]
        have hyield : yieldFrom current n ((o, r) :: rest) = current :: yieldFrom current (n + 1) ((o, r) :: rest) := by
          have hsub : o - n = o - (n + 1) + 1 := by omega
          have hmax : max n o = max (n + 1) o := by omega
          rw [yieldFrom, yieldFrom, hsub, hmax, List.replicate_succ, List.cons_append]
        rw [Iter.run, hnext, hyield, List.take_succ_cons]
        simp only [ih]
      · have hnext : Iter.next ⟨current, n, (o, r) :: rest⟩ = some (r, ⟨r, n + 1, rest⟩) := by
          simp only [Iter.next, if_neg hlt]
        have hyield : yieldFrom current n ((o, r) :: rest) = r :: yieldFrom r (n + 1) rest := by
          have hsub : o - n = 0 := by omega
          have hmax : max n o = n := by omega
          rw [yieldFrom, hsub, hmax, List.replicate_zero, List.nil_append]
        rw [Iter.run, hnext, hyield, List.take_succ_cons]
        simp only [ih]

/-- Every entry is in force at its place: that of its offset, or the next one if that is taken. -/
def PlacedFrom (g : Nat → ChunkRanges) (n : Nat) : List (Nat × ChunkRanges) → Prop
  | [] => True
  | (o, r) :: rest => g (max n o) = r ∧ PlacedFrom g (max n o + 1) rest

private theorem length_yieldFrom (cur : ChunkRanges) (n : Nat) (rest : List (Nat × ChunkRanges)) :
    n + (yieldFrom cur n rest).length = itemsFrom n (rest.map Prod.fst) := by
  induction rest generalizing cur n with
  | nil => rfl
  | cons e rest ih =>
    obtain ⟨o, r⟩ := e
    have hrest := ih r (max n o + 1)
    rw [List.map_cons, itemsFrom, ← hrest, yieldFrom, List.length_append, List.length_replicate, List.length_cons]
    omega

/-- The items are those of a function that is given by the entries, exactly if the entries are in force at their
places. -/
private theorem yieldFrom_eq_iff {g : Nat → ChunkRanges} {cur : ChunkRanges} {n : Nat} {rest : List (Nat × ChunkRanges)}
    (hg : ∀ m, n ≤ m → g m = valueFrom cur rest m) :
    yieldFrom cur n rest = (List.range' n (yieldFrom cur n rest).length).map g ↔ PlacedFrom g n rest := by
  induction rest generalizing cur n with
  | nil => exact iff_of_true rfl trivial
  | cons e rest ih =>
    obtain ⟨o, r⟩ := e
    have hplace : max n o = n + (o - n) := by omega
    have hnext : ∀ m, max n o + 1 ≤ m → g m = valueFrom r rest m := by
      intro m hm
      rw [hg m (by omega), valueFrom, if_neg (by omega)]
    -- before the offset the last entry is still in force
    have hbefore : (List.range' n (o - n)).map g = List.replicate (o - n) cur := by
      refine List.eq_replicate_iff.mpr ⟨by rw [List.length_map, List.length_range'], ?_⟩
      intro b hb
      obtain ⟨m, hm, rfl⟩ := List.mem_map.mp hb
      rw [List.mem_range'_1] at hm
      rw [hg m hm.1, valueFrom, if_pos (by omega)]
    have hlen : (yieldFrom cur n ((o, r) :: rest)).length = (o - n) +
      (1 + (yieldFrom r (max n o + 1) rest).length) := by
      rw [yieldFrom, List.length_append, List.length_replicate, List.length_cons]
      omega
    have hrange : List.range' n ((o - n) + (1 + (yieldFrom r (max n o + 1) rest).length)) =
        List.range' n (o - n) ++ max n o :: List.range' (max n o + 1) (yieldFrom r (max n o + 1) rest).length := by
      rw [hplace, ← List.range'_append_1, Nat.add_comm 1, List.range'_succ]
    rw [hlen, hrange, List.map_append, List.map_cons, hbefore, yieldFrom, List.append_cancel_left_eq, List.cons.injEq,
      ih hnext, PlacedFrom, eq_comm]

/-- The number of items up to and including the last stored offset. -/
def prefixLength (seq : ChunkRangesSeq) : Nat := (seq.offsets.getLast?.map (· + 1)).getD 0

private theorem Iter.run_iff (seq : ChunkRangesSeq) :
    (∀ fuel, Iter.run fuel seq.iter = ((List.range seq.prefixLength).map seq.get).take fuel) ↔
      PlacedFrom seq.get 0 seq.entries ∧ itemsFrom 0 seq.offsets = seq.prefixLength := by
  have hlen : (yieldFrom ∅ 0 seq.entries).length = itemsFrom 0 seq.offsets := by
    rw [offsets, ← length_yieldFrom ∅, Nat.zero_add]
  have hiff := @yieldFrom_eq_iff seq.get ∅ 0 seq.entries (fun m _ => rfl)
  have hall : (∀ fuel, Iter.run fuel seq.iter = ((List.range seq.prefixLength).map seq.get).take fuel) ↔
      yieldFrom ∅ 0 seq.entries = (List.range seq.prefixLength).map seq.get := by
    constructor
    · intro h
      have htake := h (max (itemsFrom 0 seq.offsets) seq.prefixLength)
      have hrun : Iter.run (max (itemsFrom 0 seq.offsets) seq.prefixLength) seq.iter =
          (yieldFrom ∅ 0 seq.entries).take (max (itemsFrom 0 seq.offsets) seq.prefixLength) := Iter.run_eq_take _ _
      rw [hrun] at htake
      rwa [List.take_of_length_le (hlen.trans_le (le_max_left _ _)),
        List.take_of_length_le (by rw [List.length_map, List.length_range]; exact le_max_right _ _)] at htake
    · intro h fuel
      rw [Iter.run_eq_take, ← h]
      rfl
  rw [hall, ← hiff, List.range_eq_range']
  constructor
  · intro h
    have hcount : (yieldFrom ∅ 0 seq.entries).length = seq.prefixLength := by
      rw [h, List.length_map, List.length_range']
    exact ⟨by rw [hcount]; exact h, by rw [← hlen]; exact hcount⟩
  · rintro ⟨h, hcount⟩
    rw [← hcount, ← hlen]
    exact h

/-! ### The iterator over non-empty ranges -/

/-- The items of the iterator over non-empty ranges, for a number of calls. -/
def NonEmptyIter.run : Nat → NonEmptyIter → List (Nat × ChunkRanges)
  | 0, _ => []
  | k + 1, it =>
    match it.next with
    | (none, _) => []
    | (some item, it) => item :: run k it

/-- The blobs from `n` to `m` of which something is selected. -/
def nonEmptyIn (seq : ChunkRangesSeq) (n m : Nat) : List (Nat × ChunkRanges) :=
  ((List.range' n (m - n)).filter (fun i => !(seq.get i).isEmpty)).map (fun i => (i, seq.get i))

private theorem nonEmptyIn_append (seq : ChunkRangesSeq) {n m l : Nat} (hnm : n ≤ m) (hml : m ≤ l) :
    seq.nonEmptyIn n l = seq.nonEmptyIn n m ++ seq.nonEmptyIn m l := by
  have hrange : List.range' n (l - n) = List.range' n (m - n) ++ List.range' m (l - m) := by
    have happend := @List.range'_append_1 n (m - n) (l - m)
    rw [show n + (m - n) = m by omega, show m - n + (l - m) = l - n by omega] at happend
    exact happend.symm
  rw [nonEmptyIn, hrange, List.filter_append, List.map_append]
  rfl

private theorem nonEmptyIn_eq_nil {seq : ChunkRangesSeq} {n m : Nat}
    (h : ∀ j, n ≤ j → j < m → (seq.get j).isEmpty = true) : seq.nonEmptyIn n m = [] := by
  rw [nonEmptyIn, List.map_eq_nil_iff, List.filter_eq_nil_iff]
  intro j hj
  rw [List.mem_range'_1] at hj
  rw [h j hj.1 (by omega)]
  decide

private theorem nonEmptyIn_succ {seq : ChunkRangesSeq} {n : Nat} (h : (seq.get n).isEmpty = false) :
    seq.nonEmptyIn n (n + 1) = [(n, seq.get n)] := by
  have hrange : List.range' n (n + 1 - n) = [n] := by
    rw [Nat.add_sub_cancel_left]
    rfl
  rw [nonEmptyIn, hrange, List.filter_cons_of_pos (by rw [h]; rfl)]
  rfl

/-- The items are the selected blobs up to some point, after which there is none if the iterator has ended. -/
theorem NonEmptyIter.run_nonEmptyAt (seq : ChunkRangesSeq) (k n : Nat) :
    ∃ m, n ≤ m ∧ NonEmptyIter.run k (seq.nonEmptyAt n) = seq.nonEmptyIn n m ∧
      ((NonEmptyIter.run k (seq.nonEmptyAt n)).length < k → ∀ j, m ≤ j → (seq.get j).isEmpty = true) := by
  induction k generalizing n with
  | zero => exact ⟨n, Nat.le_refl n, by rw [nonEmptyIn_eq_nil (by omega)]; rfl, by omega⟩
  | succ k ih =>
    rcases next_cases seq n with ⟨i, hni, hi, hmin, hnext⟩ | ⟨hnone, m, -, hnext⟩
    · obtain ⟨m, him, hrun, hend⟩ := ih (i + 1)
      have hfirst : seq.nonEmptyIn n (i + 1) = [(i, seq.get i)] := by
        rw [nonEmptyIn_append seq hni (Nat.le_succ i), nonEmptyIn_eq_nil hmin, nonEmptyIn_succ hi, List.nil_append]
      have hsplit : seq.nonEmptyIn n m = (i, seq.get i) :: seq.nonEmptyIn (i + 1) m := by
        rw [nonEmptyIn_append seq (by omega) him, hfirst, List.singleton_append]
      have hstep : NonEmptyIter.run (k + 1) (seq.nonEmptyAt n) =
          (i, seq.get i) :: NonEmptyIter.run k (seq.nonEmptyAt (i + 1)) := by
        rw [NonEmptyIter.run, hnext]
      refine ⟨m, by omega, by rw [hstep, hrun, hsplit], ?_⟩
      intro hlen
      rw [hstep, List.length_cons] at hlen
      exact hend (by omega)
    · refine ⟨n, Nat.le_refl n, ?_, fun _ => hnone⟩
      rw [NonEmptyIter.run, hnext, nonEmptyIn_eq_nil (by omega)]

private theorem length_nonEmptyIn_le {seq : ChunkRangesSeq} {m l : Nat}
    (h : ∀ j, m ≤ j → j < l → (seq.get j).isEmpty = true) :
    (seq.nonEmptyIn 0 l).length ≤ (seq.nonEmptyIn 0 m).length := by
  rcases Nat.le_total m l with hml | hlm
  · rw [nonEmptyIn_append seq (Nat.zero_le m) hml, nonEmptyIn_eq_nil h, List.append_nil]
  · rw [nonEmptyIn_append seq (Nat.zero_le l) hlm, List.length_append]
    exact Nat.le_add_right _ _

/-- Of two points with the same number of selected blobs before them, there is none between them. -/
private theorem nonEmptyIn_eq_of_length {seq : ChunkRangesSeq} {m l : Nat}
    (h : (seq.nonEmptyIn 0 m).length = (seq.nonEmptyIn 0 l).length) : seq.nonEmptyIn 0 m = seq.nonEmptyIn 0 l := by
  have hle : ∀ {a b : Nat}, a ≤ b → (seq.nonEmptyIn 0 a).length = (seq.nonEmptyIn 0 b).length →
      seq.nonEmptyIn 0 a = seq.nonEmptyIn 0 b := by
    intro a b hab hlen
    have hsplit := nonEmptyIn_append seq (Nat.zero_le a) hab
    rw [hsplit, List.length_append] at hlen
    have hnil : seq.nonEmptyIn a b = [] := List.eq_nil_of_length_eq_zero (by omega)
    rw [hsplit, hnil, List.append_nil]
  rcases Nat.le_total m l with hml | hlm
  · exact hle hml h
  · exact (hle hlm h.symm).symm

private theorem length_run_le (k : Nat) (it : NonEmptyIter) : (NonEmptyIter.run k it).length ≤ k := by
  induction k generalizing it with
  | zero => exact Nat.le_refl 0
  | succ k ih =>
    rw [NonEmptyIter.run]
    split
    · exact Nat.zero_le _
    · exact Nat.succ_le_succ (ih _)

/-- Every point is reached by enough calls. -/
private theorem NonEmptyIter.run_reaches (seq : ChunkRangesSeq) (m : Nat) :
    ∃ k, NonEmptyIter.run k seq.iterNonEmptyInfinite = seq.nonEmptyIn 0 m := by
  refine ⟨(seq.nonEmptyIn 0 m).length, ?_⟩
  obtain ⟨m', -, hrun, hend⟩ := NonEmptyIter.run_nonEmptyAt seq (seq.nonEmptyIn 0 m).length 0
  have hle := length_run_le (seq.nonEmptyIn 0 m).length (seq.nonEmptyAt 0)
  rw [nonEmptyAt_zero] at hrun hend hle
  rw [hrun] at hend hle ⊢
  rcases Nat.lt_or_eq_of_le hle with hlt | heq
  · have hmore := length_nonEmptyIn_le (fun j hj (_ : j < m) => hend hlt j hj)
    omega
  · exact nonEmptyIn_eq_of_length heq

/-- The iterator ends if and only if something is selected only of finitely many blobs. -/
private theorem NonEmptyIter.ends_iff (seq : ChunkRangesSeq) :
    (∃ k, (NonEmptyIter.run k seq.iterNonEmptyInfinite).length < k) ↔ {i | (seq.get i).isEmpty = false}.Finite := by
  constructor
  · rintro ⟨k, hk⟩
    obtain ⟨m, -, -, hend⟩ := NonEmptyIter.run_nonEmptyAt seq k 0
    refine (Set.finite_Iio m).subset ?_
    intro i hi
    by_contra hge
    have hempty := hend hk i (Nat.le_of_not_lt hge)
    rw [Set.mem_ofPred_eq, hempty] at hi
    cases hi
  · intro hfin
    obtain ⟨b, hb⟩ := hfin.bddAbove
    refine ⟨(seq.nonEmptyIn 0 (b + 1)).length + 1, ?_⟩
    obtain ⟨m, -, hrun, -⟩ := NonEmptyIter.run_nonEmptyAt seq ((seq.nonEmptyIn 0 (b + 1)).length + 1) 0
    rw [nonEmptyAt_zero] at hrun
    rw [hrun]
    refine Nat.lt_succ_of_le (length_nonEmptyIn_le ?_)
    intro j hj _
    by_contra hne
    have hle : j ≤ b := hb (by rw [Set.mem_ofPred_eq]; exact Bool.eq_false_iff.mpr hne)
    omega

/-! ### Agreement -/

/-- All views agree with the infinite iterator. -/
structure ViewsAgree (seq : ChunkRangesSeq) : Prop where
  index : ∀ i result, SearchResult seq.entries i result → seq.indexWith result = some (seq.iterAt i).next.1
  iter : ∀ fuel, Iter.run fuel seq.iter =
    ((List.range seq.prefixLength).map (fun i => (seq.iterAt i).next.1)).take fuel
  nonEmpty : ∀ k, ∃ m, NonEmptyIter.run k seq.iterNonEmptyInfinite =
    ((List.range m).filter (fun i => !(seq.iterAt i).next.1.isEmpty)).map (fun i => (i, (seq.iterAt i).next.1))
  nonEmpty_reaches : ∀ m, ∃ k, NonEmptyIter.run k seq.iterNonEmptyInfinite =
    ((List.range m).filter (fun i => !(seq.iterAt i).next.1.isEmpty)).map (fun i => (i, (seq.iterAt i).next.1))
  nonEmpty_ends : (∃ k, (NonEmptyIter.run k seq.iterNonEmptyInfinite).length < k) ↔
    {i | (seq.iterAt i).next.1.isEmpty = false}.Finite

/-- Entries with equal offsets do not matter. -/
structure Aligned (seq : ChunkRangesSeq) : Prop where
  /-- Entries with the same offset have the same ranges. -/
  offset : ∀ e ∈ seq.entries, seq.get e.1 = e.2
  /-- An entry that is pushed to a later place has the ranges of that place. -/
  place : PlacedFrom seq.get 0 seq.entries
  /-- The last entry is at the place of its offset. -/
  last : itemsFrom 0 seq.offsets = seq.prefixLength

private theorem viewsAgree_iff (seq : ChunkRangesSeq) : seq.ViewsAgree ↔ seq.Aligned := by
  have hitem : ∀ i, (seq.iterAt i).next.1 = seq.get i := fun i => by rw [next_iterAt]
  have hbelow : ∀ m, ((List.range m).filter (fun i => !(seq.get i).isEmpty)).map (fun i => (i, seq.get i)) =
      seq.nonEmptyIn 0 m := by
    intro m
    rw [nonEmptyIn, Nat.sub_zero, List.range_eq_range']
  constructor
  · intro h
    have hindex := h.index
    have hiter := h.iter
    simp only [hitem] at hindex hiter
    obtain ⟨hplace, hlast⟩ := (Iter.run_iff seq).mp hiter
    exact ⟨(indexWith_iff seq).mp hindex, hplace, hlast⟩
  · intro h
    constructor
    · simp only [hitem]
      exact (indexWith_iff seq).mpr h.offset
    · simp only [hitem]
      exact (Iter.run_iff seq).mpr ⟨h.place, h.last⟩
    · intro k
      simp only [hitem, hbelow]
      obtain ⟨m, -, hrun, -⟩ := NonEmptyIter.run_nonEmptyAt seq k 0
      exact ⟨m, hrun⟩
    · intro m
      simp only [hitem, hbelow]
      exact NonEmptyIter.run_reaches seq m
    · simp only [hitem]
      exact NonEmptyIter.ends_iff seq

/-- The views of a sequence that can be decoded or constructed agree exactly if its entries with equal offsets do not
matter; the offsets never decrease, as the search needs it. -/
theorem Obtainable.viewsAgree_iff_aligned {seq : ChunkRangesSeq} (h : seq.Obtainable) :
    seq.offsets.Pairwise (· ≤ ·) ∧ (seq.ViewsAgree ↔ seq.Aligned) :=
  ⟨h.sorted, viewsAgree_iff seq⟩

/-- The places are the offsets if every offset is beyond the ones before it. -/
private theorem placed_of_sorted {g : Nat → ChunkRanges} {n : Nat} {es : List (Nat × ChunkRanges)}
    (hsorted : es.Pairwise (fun a b => a.1 < b.1)) (hes : ∀ e ∈ es, n ≤ e.1 ∧ g e.1 = e.2) :
    PlacedFrom g n es ∧ itemsFrom n (es.map Prod.fst) = ((es.map Prod.fst).getLast?.map (· + 1)).getD n := by
  induction es generalizing n with
  | nil => exact ⟨trivial, rfl⟩
  | cons e rest ih =>
    obtain ⟨o, r⟩ := e
    obtain ⟨hle, hget⟩ := hes (o, r) List.mem_cons_self
    rw [List.pairwise_cons] at hsorted
    have hrest : ∀ e ∈ rest, o + 1 ≤ e.1 ∧ g e.1 = e.2 := by
      intro e he
      exact ⟨hsorted.1 e he, (hes e (List.mem_cons_of_mem _ he)).2⟩
    obtain ⟨hplaced, hitems⟩ := ih hsorted.2 hrest
    simp only at hle hget
    rw [PlacedFrom, List.map_cons, itemsFrom, Nat.max_eq_right hle, hitems, List.getLast?_cons]
    refine ⟨⟨hget, hplaced⟩, ?_⟩
    cases (rest.map Prod.fst).getLast? with
    | none => rfl
    | some l => rfl

/-- With increasing offsets the entries stay at their places. -/
private theorem aligned_of_sorted {seq : ChunkRangesSeq}
    (h : seq.entries.Pairwise (fun a b => a.1 < b.1)) : seq.Aligned := by
  have hoffset : ∀ e ∈ seq.entries, seq.get e.1 = e.2 := fun e he => valueFrom_of_mem h he
  obtain ⟨hplace, hlast⟩ := placed_of_sorted h (fun e he => ⟨Nat.zero_le e.1, hoffset e he⟩)
  exact ⟨hoffset, hplace, hlast⟩

/-- The views agree for the request of one blob. -/
theorem viewsAgree_root : root.ViewsAgree :=
  (Obtainable.viewsAgree_iff_aligned Obtainable.root).2.mpr (aligned_of_sorted (by decide))

theorem ranges_fromIter_nil : (GetManyRequest.fromIter []).ranges = ⟨[(0, RangeSet.all), (0, ∅)]⟩ := by
  simp only [GetManyRequest.fromIter, List.mergeSort_nil]
  rfl

/-- For no hashes there are two entries at offset zero: the search may find the first of them, and the finite iterator
yields both. -/
theorem not_viewsAgree_fromIter :
    Obtainable (GetManyRequest.fromIter []).ranges ∧ ¬ (GetManyRequest.fromIter []).ranges.ViewsAgree ∧
    (GetManyRequest.fromIter []).ranges.indexWith (.ok 0) = some RangeSet.all ∧
    ((GetManyRequest.fromIter []).ranges.iterAt 0).next.1 = ∅ ∧
    Iter.run 3 (GetManyRequest.fromIter []).ranges.iter = [RangeSet.all, ∅] ∧
    (GetManyRequest.fromIter []).ranges.prefixLength = 1 := by
  refine ⟨Obtainable.fromIter [], ?_⟩
  rw [ranges_fromIter_nil]
  refine ⟨?_, by decide, by decide, by decide, by decide⟩
  intro h
  have hindex := h.index 0 (.ok 0) ⟨RangeSet.all, rfl⟩
  revert hindex
  decide

end ChunkRangesSeq

end IrohBlobs
