import IrohBlobs.RangeSet

/-!
# Range specifications for sequences of blobs

The model of `protocol/range_spec.rs`.  A `ChunkRangesSeq` stores the ranges of a sequence of blobs by run length:
an entry `(o, r)` says that from blob `o` on the ranges are `r`, until the next entry.  The list of entries is not
constrained: the wire format and `GetManyRequest::from_iter` produce entries with equal offsets.

The iterators are state machines with the source's fields.  What they have in common is `ChunkRangesSeq.get`, the
ranges selected for blob `i`: the infinite iterator yields `get 0, get 1, …` (`next_iterAt`), and the non-empty
iterator yields the pairs `(i, get i)` with `get i` non-empty in increasing order (`next_eq_some`, `next_eq_none`).

Offsets and counters are naturals.  The source counts in `u64`; the check for the last `u64` value in
`NonEmptyRequestRangeSpecIter::next` could only matter after `2 ^ 64` steps and is not modelled.
-/

namespace IrohBlobs

/-- A set of chunk numbers of one blob. -/
abbrev ChunkRanges := RangeSet

/-- A chunk range specification as a sequence of widths, the wire format of `ChunkRanges`. -/
structure RangeSpec where
  widths : List UInt64
  deriving DecidableEq

/-- The ranges of a sequence of blobs: from blob `o` of an entry `(o, r)` on, the ranges are `r`. -/
structure ChunkRangesSeq where
  entries : List (Nat × ChunkRanges)
  deriving DecidableEq

namespace ChunkRangesSeq

/-- No blob is selected. -/
def empty : ChunkRangesSeq := ⟨[]⟩

/-- Everything of every blob is selected. -/
def all : ChunkRangesSeq := ⟨[(0, RangeSet.all)]⟩

/-- The last chunk of a blob, which proves its size. -/
def lastChunk : ChunkRanges := .rangeFrom (2 ^ 64 - 1)

/-- The first blob is selected. -/
def root : ChunkRangesSeq := ⟨[(0, RangeSet.all), (1, ∅)]⟩

/-- The verified size of the first blob. -/
def verifiedSize : ChunkRangesSeq := ⟨[(0, lastChunk), (1, ∅)]⟩

/-- The first blob and the verified sizes of all others. -/
def verifiedChildSizes : ChunkRangesSeq := ⟨[(0, RangeSet.all), (1, lastChunk)]⟩

/-- If the sequence consists of one blob and nothing after it, the offset and the ranges of this blob.

The source compares `o1` with `o2 - 1` in `u64`; an entry `o2 = 0` fails the comparison, as it does here. -/
def asSingle (seq : ChunkRangesSeq) : Option (Nat × ChunkRanges) :=
  match seq.entries with
  | [(o1, v1), (o2, v2)] => if o1 + 1 = o2 ∧ v2.isEmpty then some (o1, v1) else none
  | _ => none

/-- The sequence describes a single blob at offset `0`. -/
def isBlob (seq : ChunkRangesSeq) : Bool :=
  match seq.asSingle with
  | some (0, _) => true
  | _ => false

/-! ### The ranges of blob `i` -/

/-- The ranges in force at blob `i`, for a sequence of entries that continues after `current`. -/
def valueFrom (current : ChunkRanges) : List (Nat × ChunkRanges) → Nat → ChunkRanges
  | [], _ => current
  | (o, r) :: rest, i => if i < o then current else valueFrom r rest i

/-- The entries that are still ahead after blob `i`. -/
def restFrom : List (Nat × ChunkRanges) → Nat → List (Nat × ChunkRanges)
  | [], _ => []
  | (o, r) :: rest, i => if i < o then (o, r) :: rest else restFrom rest i

/-- The ranges selected for blob `i`. -/
def get (seq : ChunkRangesSeq) (i : Nat) : ChunkRanges := valueFrom ∅ seq.entries i

private theorem valueFrom_restFrom (cur : ChunkRanges) (es : List (Nat × ChunkRanges)) {n m : Nat} (h : n ≤ m) :
    valueFrom (valueFrom cur es n) (restFrom es n) m = valueFrom cur es m := by
  induction es generalizing cur with
  | nil => rfl
  | cons e es ih =>
    obtain ⟨o, r⟩ := e
    by_cases ho : n < o
    · simp only [valueFrom, restFrom, ho, ↓reduceIte]
    · simp only [valueFrom, restFrom, ho, show ¬ m < o by omega, ↓reduceIte, ih]

private theorem restFrom_restFrom (es : List (Nat × ChunkRanges)) {n m : Nat} (h : n ≤ m) :
    restFrom (restFrom es n) m = restFrom es m := by
  induction es with
  | nil => rfl
  | cons e es ih =>
    obtain ⟨o, r⟩ := e
    by_cases ho : n < o
    · simp only [restFrom, ho, ↓reduceIte]
    · simp only [restFrom, ho, show ¬ m < o by omega, ↓reduceIte, ih]

/-- Once no entry is ahead, the ranges stay the same. -/
private theorem valueFrom_of_restFrom_nil (cur : ChunkRanges) (es : List (Nat × ChunkRanges)) {n m : Nat}
    (hn : restFrom es n = []) (h : n ≤ m) : valueFrom cur es m = valueFrom cur es n := by
  rw [← valueFrom_restFrom cur es h, hn]; rfl

/-- The largest offset of the entries. -/
def maxOffset (es : List (Nat × ChunkRanges)) : Nat := es.foldr (fun e m => max e.1 m) 0

private theorem restFrom_of_maxOffset_le {es : List (Nat × ChunkRanges)} {n : Nat} (h : maxOffset es ≤ n) :
    restFrom es n = [] := by
  induction es with
  | nil => rfl
  | cons e es ih =>
    obtain ⟨o, r⟩ := e
    have h' : max o (maxOffset es) ≤ n := h
    simp only [restFrom, show ¬ n < o by omega, ↓reduceIte]
    exact ih (by omega)

/-- The ranges with one more entry at the end, whose offset is the largest. -/
theorem valueFrom_concat {cur : ChunkRanges} {es : List (Nat × ChunkRanges)} {o : Nat} {r : ChunkRanges}
    (h : ∀ e ∈ es, e.1 ≤ o) (i : Nat) :
    valueFrom cur (es ++ [(o, r)]) i = if i < o then valueFrom cur es i else r := by
  induction es generalizing cur with
  | nil => simp [valueFrom]
  | cons e es ih =>
    obtain ⟨o', r'⟩ := e
    have ho : o' ≤ o := h (o', r') (by simp)
    simp only [List.cons_append, valueFrom, ih (fun e he => h e (by simp [he]))]
    by_cases h1 : i < o'
    · simp [h1, show i < o by omega]
    · simp [h1]

/-- With strictly increasing offsets, an entry is what is selected at its offset. -/
theorem valueFrom_of_mem {cur : ChunkRanges} {es : List (Nat × ChunkRanges)}
    (h : es.Pairwise (fun a b => a.1 < b.1)) {o : Nat} {r : ChunkRanges} (hm : (o, r) ∈ es) :
    valueFrom cur es o = r := by
  induction es generalizing cur with
  | nil => simp at hm
  | cons e es ih =>
    obtain ⟨o', r'⟩ := e
    rw [List.pairwise_cons] at h
    simp only [List.mem_cons] at hm
    rcases hm with hm | hm
    · obtain ⟨rfl, rfl⟩ := Prod.mk.inj hm
      simp only [valueFrom, Nat.lt_irrefl, ↓reduceIte]
      cases es with
      | nil => rfl
      | cons e es =>
        obtain ⟨o'', r''⟩ := e
        have : o < o'' := h.1 (o'', r'') (by simp)
        simp [valueFrom, this]
    · have : o' < o := h.1 (o, r) hm
      simp only [valueFrom, show ¬ o < o' by omega, ↓reduceIte]
      exact ih h.2 hm

/-! ### The infinite iterator -/

/-- The state of `ChunkRangesSeqIterInfinite`. -/
structure IterInfinite where
  current : ChunkRanges
  offset : Nat
  remaining : List (Nat × ChunkRanges)

namespace IterInfinite

/-- The loop of `next`: entries are consumed until the next one lies ahead of `offset`. -/
def nextLoop (offset : Nat) : ChunkRanges → List (Nat × ChunkRanges) → ChunkRanges × IterInfinite
  | current, [] => (current, ⟨current, offset + 1, []⟩)
  | current, (o, ranges) :: remaining =>
    -- emit the current value until the next offset is reached
    if offset < o then (current, ⟨current, offset + 1, (o, ranges) :: remaining⟩)
    else nextLoop offset ranges remaining

/-- `next` never ends, so it returns the item itself. -/
def next (it : IterInfinite) : ChunkRanges × IterInfinite := nextLoop it.offset it.current it.remaining

/-- No entry is ahead: the iterator repeats the current value forever. -/
def isAtEnd (it : IterInfinite) : Bool := it.remaining.isEmpty

private theorem nextLoop_eq (offset : Nat) (cur : ChunkRanges) (es : List (Nat × ChunkRanges)) :
    nextLoop offset cur es =
      (valueFrom cur es offset, ⟨valueFrom cur es offset, offset + 1, restFrom es offset⟩) := by
  induction es generalizing cur with
  | nil => rfl
  | cons e es ih =>
    obtain ⟨o, r⟩ := e
    unfold nextLoop valueFrom restFrom
    split
    · rfl
    · exact ih r

end IterInfinite

def iterInfinite (seq : ChunkRangesSeq) : IterInfinite := ⟨∅, 0, seq.entries⟩

/-- The state of the infinite iterator after `n` items. -/
def iterAt (seq : ChunkRangesSeq) : Nat → IterInfinite
  | 0 => seq.iterInfinite
  | n + 1 => (iterAt seq n).next.2

private theorem iterAt_succ (seq : ChunkRangesSeq) (n : Nat) :
    seq.iterAt (n + 1) = ⟨seq.get n, n + 1, restFrom seq.entries n⟩ := by
  induction n with
  | zero => exact congrArg Prod.snd (IterInfinite.nextLoop_eq 0 ∅ seq.entries)
  | succ n ih =>
    have h : seq.iterAt (n + 1 + 1) = (seq.iterAt (n + 1)).next.2 := rfl
    rw [h, ih]
    unfold IterInfinite.next get
    rw [IterInfinite.nextLoop_eq, valueFrom_restFrom _ _ (Nat.le_succ n), restFrom_restFrom _ (Nat.le_succ n)]

theorem offset_iterAt (seq : ChunkRangesSeq) (n : Nat) : (seq.iterAt n).offset = n := by
  cases n with
  | zero => rfl
  | succ n => rw [iterAt_succ]

/-- Item `n` of the infinite iterator is the ranges of blob `n`. -/
theorem next_iterAt (seq : ChunkRangesSeq) (n : Nat) :
    (seq.iterAt n).next = (seq.get n, seq.iterAt (n + 1)) := by
  cases n with
  | zero =>
    refine Prod.ext ?_ rfl
    show (IterInfinite.nextLoop 0 ∅ seq.entries).1 = seq.get 0
    rw [IterInfinite.nextLoop_eq]
    rfl
  | succ n =>
    refine Prod.ext ?_ rfl
    rw [iterAt_succ]
    unfold IterInfinite.next get
    rw [IterInfinite.nextLoop_eq, valueFrom_restFrom _ _ (Nat.le_succ n)]

/-- At the end of the entries the ranges of all later blobs are those of the last item. -/
theorem get_of_isAtEnd {seq : ChunkRangesSeq} {n m : Nat} (h : (seq.iterAt (n + 1)).isAtEnd = true)
    (hm : n ≤ m) : seq.get m = seq.get n := by
  rw [iterAt_succ, IterInfinite.isAtEnd, List.isEmpty_iff] at h
  exact valueFrom_of_restFrom_nil ∅ seq.entries h hm

theorem isAtEnd_of_maxOffset_le {seq : ChunkRangesSeq} {n : Nat} (h : maxOffset seq.entries ≤ n) :
    (seq.iterAt (n + 1)).isAtEnd = true := by
  rw [iterAt_succ, IterInfinite.isAtEnd, List.isEmpty_iff]
  exact restFrom_of_maxOffset_le h

/-! ### The finite iterator -/

/-- The state of `ChunkRangesSeqIter`. -/
structure Iter where
  current : ChunkRanges
  offset : Nat
  remaining : List (Nat × ChunkRanges)

def Iter.next (it : Iter) : Option (ChunkRanges × Iter) :=
  match it.remaining with
  | [] => none
  | (o, ranges) :: remaining =>
    if it.offset < o then some (it.current, ⟨it.current, it.offset + 1, it.remaining⟩)
    else some (ranges, ⟨ranges, it.offset + 1, remaining⟩)

def iter (seq : ChunkRangesSeq) : Iter := ⟨∅, 0, seq.entries⟩

/-- With strictly increasing offsets the first item of the finite iterator is the ranges of blob `0`. -/
theorem next_iter_of_sorted {seq : ChunkRangesSeq} (h : seq.entries.Pairwise (fun a b => a.1 < b.1)) :
    ((seq.iter.next).map Prod.fst).getD ∅ = seq.get 0 := by
  obtain ⟨es⟩ := seq
  cases es with
  | nil => rfl
  | cons e es =>
    obtain ⟨o, r⟩ := e
    by_cases ho : 0 < o
    · simp [iter, Iter.next, get, valueFrom, ho]
    · have ho : o = 0 := by omega
      subst ho
      have := @valueFrom_of_mem ∅ _ h 0 r (by simp)
      simp only [get, this]
      simp [iter, Iter.next]

/-! ### The iterator over non-empty ranges -/

/-- The state of `NonEmptyRequestRangeSpecIter`. -/
structure NonEmptyIter where
  inner : IterInfinite
  count : Nat

namespace NonEmptyIter

/-- The loop of `next`, for a bounded number of rounds. -/
def nextLoop : Nat → NonEmptyIter → Option (Nat × ChunkRanges) × NonEmptyIter
  | 0, it => (none, it)
  | fuel + 1, it =>
    let (curr, inner) := it.inner.next
    let it' : NonEmptyIter := ⟨inner, it.count + 1⟩
    if !curr.isEmpty then (some (it.count, curr), it')
    -- terminate instead of looping forever
    else if inner.isAtEnd then (none, it')
    else nextLoop fuel it'

/-- The next blob with a non-empty selection.  The loop runs at most up to the largest offset still ahead. -/
def next (it : NonEmptyIter) : Option (Nat × ChunkRanges) × NonEmptyIter :=
  nextLoop (maxOffset it.inner.remaining + 1) it

/-- The offset of the item after the last one. -/
def offset (it : NonEmptyIter) : Nat := it.count

def isAtEnd (it : NonEmptyIter) : Bool := it.inner.isAtEnd

end NonEmptyIter

def iterNonEmptyInfinite (seq : ChunkRangesSeq) : NonEmptyIter := ⟨seq.iterInfinite, 0⟩

/-- The state of the non-empty iterator when blobs `0, …, n - 1` have been inspected. -/
def nonEmptyAt (seq : ChunkRangesSeq) (n : Nat) : NonEmptyIter := ⟨seq.iterAt n, n⟩

@[simp] theorem nonEmptyAt_zero (seq : ChunkRangesSeq) : seq.nonEmptyAt 0 = seq.iterNonEmptyInfinite := rfl

private theorem nextLoop_succ (seq : ChunkRangesSeq) (fuel n : Nat) :
    NonEmptyIter.nextLoop (fuel + 1) (seq.nonEmptyAt n) =
      if !(seq.get n).isEmpty then (some (n, seq.get n), seq.nonEmptyAt (n + 1))
      else if (seq.iterAt (n + 1)).isAtEnd then (none, seq.nonEmptyAt (n + 1))
      else NonEmptyIter.nextLoop fuel (seq.nonEmptyAt (n + 1)) := by
  rw [NonEmptyIter.nextLoop]
  simp only [nonEmptyAt, next_iterAt]

/-- The loop finds the first non-empty blob if its rounds reach it or the end of the entries. -/
private theorem nextLoop_eq_some {seq : ChunkRangesSeq} {fuel n i : Nat} (hfuel : maxOffset seq.entries < n + fuel)
    (hpos : 0 < fuel) (hni : n ≤ i) (hi : (seq.get i).isEmpty = false)
    (hmin : ∀ j, n ≤ j → j < i → (seq.get j).isEmpty = true) :
    NonEmptyIter.nextLoop fuel (seq.nonEmptyAt n) = (some (i, seq.get i), seq.nonEmptyAt (i + 1)) := by
  induction fuel generalizing n with
  | zero => omega
  | succ fuel ih =>
    rw [nextLoop_succ]
    by_cases hn : n = i
    · subst hn
      simp [hi]
    · have he := hmin n (Nat.le_refl n) (by omega)
      have hend : (seq.iterAt (n + 1)).isAtEnd = false := by
        by_contra h
        rw [Bool.not_eq_false] at h
        rw [get_of_isAtEnd h hni, he] at hi
        simp at hi
      have hlt : n < maxOffset seq.entries := by
        by_contra h
        rw [isAtEnd_of_maxOffset_le (by omega)] at hend
        simp at hend
      simp only [he, hend, Bool.not_true, Bool.false_eq_true, ↓reduceIte]
      exact ih (by omega) (by omega) (by omega) (fun j hj => hmin j (by omega))

private theorem nextLoop_eq_none {seq : ChunkRangesSeq} {fuel n : Nat} (hpos : 0 < fuel)
    (h : ∀ j, n ≤ j → (seq.get j).isEmpty = true) :
    ∃ m, n ≤ m ∧ NonEmptyIter.nextLoop fuel (seq.nonEmptyAt n) = (none, seq.nonEmptyAt m) := by
  induction fuel generalizing n with
  | zero => omega
  | succ fuel ih =>
    rw [nextLoop_succ, h n (Nat.le_refl n)]
    simp only [Bool.not_true, Bool.false_eq_true, ↓reduceIte]
    split
    · exact ⟨n + 1, by omega, rfl⟩
    · cases fuel with
      | zero => exact ⟨n + 1, by omega, rfl⟩
      | succ fuel =>
        obtain ⟨m, hm, e⟩ := ih (n := n + 1) (by omega) (fun j hj => h j (by omega))
        exact ⟨m, by omega, e⟩

/-- The entries ahead after blob `n` are all of them from their largest offset on, or there are none. -/
private theorem maxOffset_lt_restFrom (es : List (Nat × ChunkRanges)) (n : Nat) :
    maxOffset es < n + 1 + (maxOffset (restFrom es n) + 1) ∨ restFrom es n = [] := by
  induction es with
  | nil => exact Or.inr rfl
  | cons e es ih =>
    obtain ⟨o, r⟩ := e
    have hmax : maxOffset ((o, r) :: es) = max o (maxOffset es) := rfl
    simp only [restFrom]
    split
    · left; omega
    · rcases ih with h | h
      · left; omega
      · exact Or.inr h

/-- The rounds given to `next` reach beyond every entry that is still ahead. -/
private theorem lt_next_fuel (seq : ChunkRangesSeq) (n : Nat) :
    maxOffset seq.entries < n + (maxOffset (seq.iterAt n).remaining + 1) ∨ (seq.iterAt n).isAtEnd = true := by
  cases n with
  | zero =>
    left
    show maxOffset seq.entries < 0 + (maxOffset seq.entries + 1)
    omega
  | succ n =>
    rw [iterAt_succ, IterInfinite.isAtEnd, List.isEmpty_iff]
    exact maxOffset_lt_restFrom seq.entries n

/-- `next` finds the first blob from `n` on whose ranges are not empty. -/
theorem next_eq_some {seq : ChunkRangesSeq} {n i : Nat} (hni : n ≤ i) (hi : (seq.get i).isEmpty = false)
    (hmin : ∀ j, n ≤ j → j < i → (seq.get j).isEmpty = true) :
    (seq.nonEmptyAt n).next = (some (i, seq.get i), seq.nonEmptyAt (i + 1)) := by
  unfold NonEmptyIter.next
  rcases lt_next_fuel seq n with h | h
  · exact nextLoop_eq_some h (by omega) hni hi hmin
  · -- nothing is ahead, so the first round already decides
    have hin : i = n := by
      by_contra hne
      have hn := hmin n (Nat.le_refl n) (by omega)
      cases n with
      | zero =>
        have he : seq.entries = [] := by
          rwa [iterAt, IterInfinite.isAtEnd, iterInfinite, List.isEmpty_iff] at h
        rw [get, he] at hi
        simp [valueFrom, RangeSet.isEmpty_eq_false_iff] at hi
      | succ n =>
        have h1 := get_of_isAtEnd h (m := n + 1) (by omega)
        have h2 := get_of_isAtEnd h (m := i) (by omega)
        rw [h2, ← h1, hn] at hi
        simp at hi
    subst hin
    show NonEmptyIter.nextLoop _ (seq.nonEmptyAt i) = _
    rw [nextLoop_succ, hi]
    rfl

/-- `next` ends when no blob from `n` on is selected; later calls end as well. -/
theorem next_eq_none {seq : ChunkRangesSeq} {n : Nat} (h : ∀ j, n ≤ j → (seq.get j).isEmpty = true) :
    ∃ m, n ≤ m ∧ (seq.nonEmptyAt n).next = (none, seq.nonEmptyAt m) :=
  nextLoop_eq_none (by omega) h

/-- From every state, `next` either finds the first selected blob or there is none. -/
theorem next_cases (seq : ChunkRangesSeq) (n : Nat) :
    (∃ i, n ≤ i ∧ (seq.get i).isEmpty = false ∧ (∀ j, n ≤ j → j < i → (seq.get j).isEmpty = true) ∧
      (seq.nonEmptyAt n).next = (some (i, seq.get i), seq.nonEmptyAt (i + 1))) ∨
    ((∀ j, n ≤ j → (seq.get j).isEmpty = true) ∧
      ∃ m, n ≤ m ∧ (seq.nonEmptyAt n).next = (none, seq.nonEmptyAt m)) := by
  by_cases h : ∃ i, n ≤ i ∧ (seq.get i).isEmpty = false
  · left
    have hi := Nat.find_spec h
    have hmin : ∀ j, n ≤ j → j < Nat.find h → (seq.get j).isEmpty = true := by
      intro j hj hlt
      have := Nat.find_min h hlt
      simpa [hj] using this
    exact ⟨Nat.find h, hi.1, hi.2, hmin, next_eq_some hi.1 hi.2 hmin⟩
  · right
    have h' : ∀ j, n ≤ j → (seq.get j).isEmpty = true := by
      intro j hj
      by_contra hne
      exact h ⟨j, hj, by simpa using hne⟩
    exact ⟨h', next_eq_none h'⟩

end ChunkRangesSeq

end IrohBlobs
