import IrohBlobs.LocalInfo
import IrohBlobs.RangeIter
import IrohBlobs.RangeWire
import Mathlib

/-!
# Counting bytes

`Bitfield::total_bytes` adds up the bytes of the ranges of a bitfield.  It clamps the ends of the ranges to the size,
but not their starts, so that a range which starts beyond the size makes the subtraction underflow.  The ranges of a
bitfield that was observed start within its size; those that `local_bytes` computes by intersecting it with a request
need not.

The position of a chunk is a shift, which drops the bits that do not fit.  Ranges with chunks from `2 ^ 54` on may
therefore add too many bytes, or too few (`countedBytes_add`).
-/

namespace IrohBlobs

/-- The first byte of a chunk.  Bits that do not fit are dropped. -/
def toBytes (chunk : Nat) : Nat := chunk * 1024 % 2 ^ 64

namespace Bitfield

/-- One range of `total_bytes`. -/
def rangeBytes (size : Nat) (range : Nat × Option Nat) : Option Nat :=
  match range.2 with
  | some e => subU64 (min (toBytes e) size) (toBytes range.1)
  | none => subU64 size (toBytes range.1)

/-- The loop of `total_bytes`. -/
def totalBytesLoop (size : Nat) : Nat → List (Nat × Option Nat) → Option Nat
  | total, [] => some total
  | total, range :: rest => do
    let bytes ← rangeBytes size range
    let total ← addU64 total bytes
    totalBytesLoop size total rest

/-- Total valid bytes in the bitfield; nothing where the arithmetic overflows. -/
def totalBytes (b : Bitfield) : Option Nat := totalBytesLoop b.size 0 b.ranges.iter

/-- The number of bytes before the end whose chunk is present. -/
def presentBytes (b : Bitfield) : Nat := Nat.count (fun i => i / 1024 ∈ b.ranges) b.size

/-- The position of the start of a range is within the size, and not after that of its end. -/
def RangeWithin (size : Nat) (range : Nat × Option Nat) : Prop :=
  toBytes range.1 ≤ size ∧ ∀ e, range.2 = some e → toBytes range.1 ≤ toBytes e

def RangesWithin (b : Bitfield) : Prop := ∀ range ∈ b.ranges.iter, RangeWithin b.size range

/-- The bytes between the positions of a range, before the end. -/
def countedBytes (size : Nat) (range : Nat × Option Nat) : Nat :=
  match range.2 with
  | some e => min (toBytes e) size - toBytes range.1
  | none => size - toBytes range.1

/-- What a range adds that starts at a chunk whose position does not fit. -/
def gainedBytes (size : Nat) (range : Nat × Option Nat) : Nat := if 2 ^ 54 ≤ range.1 then countedBytes size range else 0

/-- What is lost of a range whose end has a position that does not fit. -/
def lostBytes (size : Nat) (range : Nat × Option Nat) : Nat :=
  match range.2 with
  | some e => if range.1 < 2 ^ 54 ∧ 2 ^ 54 ≤ e then size - toBytes e else 0
  | none => 0

/-- What the ranges with positions that do not fit add. -/
def gained (b : Bitfield) : Nat := (b.ranges.iter.map (gainedBytes b.size)).sum

/-- What is lost of the ranges with positions that do not fit. -/
def lost (b : Bitfield) : Nat := (b.ranges.iter.map (lostBytes b.size)).sum

/-! ### The bytes of a range -/

/-- The bytes of a range before the end. -/
def clampedBytes (size : Nat) (range : Nat × Option Nat) : Nat :=
  match range.2 with
  | some e => min (e * 1024) size - min (range.1 * 1024) size
  | none => size - min (range.1 * 1024) size

private theorem toBytes_of_lt {chunk : Nat} (h : chunk < 2 ^ 54) :
    toBytes chunk = chunk * 1024 := Nat.mod_eq_of_lt (by omega)

private theorem subU64_eq_some_iff {a b n : Nat} : subU64 a b = some n ↔ b ≤ a ∧ n = a - b := by
  unfold subU64
  split
  · rename_i hle
    rw [Option.some.injEq, and_iff_right hle]
    exact eq_comm
  · rename_i hlt
    simp [hlt]

private theorem rangeBytes_eq_some_iff {size n : Nat} {range : Nat × Option Nat} :
    rangeBytes size range = some n ↔ RangeWithin size range ∧ n = countedBytes size range := by
  obtain ⟨a, e⟩ := range
  cases e with
  | none =>
    rw [rangeBytes, subU64_eq_some_iff]
    simp [RangeWithin, countedBytes]
  | some e =>
    rw [rangeBytes, subU64_eq_some_iff, le_min_iff]
    simp [RangeWithin, countedBytes, and_comm]

/-- What is counted of a range differs from its bytes by what the positions that do not fit add and lose. -/
private theorem countedBytes_add {size : Nat} (hsize : size < 2 ^ 64) {range : Nat × Option Nat}
    (hlt : ∀ e, range.2 = some e → range.1 < e) (h : RangeWithin size range) :
    countedBytes size range + lostBytes size range = clampedBytes size range + gainedBytes size range := by
  obtain ⟨a, e⟩ := range
  obtain ⟨hstart, hend⟩ := h
  cases e with
  | none =>
    simp only [countedBytes, lostBytes, clampedBytes, gainedBytes] at hstart ⊢
    by_cases ha : 2 ^ 54 ≤ a
    · rw [if_pos ha]
      omega
    · have hposition : toBytes a = a * 1024 := toBytes_of_lt (by omega)
      rw [hposition] at hstart ⊢
      rw [if_neg ha]
      omega
  | some e =>
    have hae : a < e := hlt e rfl
    have hend : toBytes a ≤ toBytes e := hend e rfl
    simp only [countedBytes, lostBytes, clampedBytes, gainedBytes] at hstart ⊢
    by_cases ha : 2 ^ 54 ≤ a
    · rw [if_pos ha, if_neg (by omega)]
      omega
    · have hposition : toBytes a = a * 1024 := toBytes_of_lt (by omega)
      rw [hposition] at hstart hend ⊢
      rw [if_neg ha]
      by_cases he : 2 ^ 54 ≤ e
      · rw [if_pos ⟨by omega, he⟩]
        omega
      · have hposition' : toBytes e = e * 1024 := toBytes_of_lt (by omega)
        rw [if_neg (fun h => he h.2), hposition']
        omega

/-- The bytes up to the size that belong to an interval of chunks. -/
private theorem count_interval (a b size : Nat) :
    Nat.count (fun i => a ≤ i / 1024 ∧ i / 1024 < b) size = min (b * 1024) size - min (a * 1024) size := by
  induction size with
  | zero => simp
  | succ size ih =>
    rw [Nat.count_succ, ih]
    split <;> omega

private theorem count_open (a size : Nat) : Nat.count (fun i => a ≤ i / 1024) size = size - min (a * 1024) size := by
  induction size with
  | zero => simp
  | succ size ih =>
    rw [Nat.count_succ, ih]
    split <;> omega

private theorem count_or {p q : Nat → Prop} [DecidablePred p] [DecidablePred q] (h : ∀ i, p i → ¬ q i) (n : Nat) :
    Nat.count (fun i => p i ∨ q i) n = Nat.count p n + Nat.count q n := by
  induction n with
  | zero => simp
  | succ n ih =>
    rw [Nat.count_succ, Nat.count_succ, Nat.count_succ, ih]
    have hn := h n
    by_cases hp : p n
    · simp only [hp, hn hp, or_false, if_true, if_false]
      omega
    · by_cases hq : q n
      · simp only [hp, hq, or_true, if_true, if_false]
        omega
      · simp only [hp, hq, or_false, if_false]
        omega

/-- The bytes of all ranges. -/
def allBytes (size : Nat) (ranges : List (Nat × Option Nat)) : Nat := (ranges.map (clampedBytes size)).sum

private theorem count_boundaries {l : List Nat} (h : l.Pairwise (· < ·)) (size : Nat) :
    Nat.count (fun i => l.countP (· ≤ i / 1024) % 2 = 1) size = allBytes size (RangeSet.iterFrom l) := by
  induction l using RangeSet.iterFrom.induct with
  | case1 => simp [allBytes, RangeSet.iterFrom]
  | case2 a =>
    have hcount : ∀ i : Nat, [a].countP (· ≤ i / 1024) % 2 = 1 ↔ a ≤ i / 1024 := by
      intro i
      simp only [List.countP_cons, List.countP_nil, decide_eq_true_eq]
      split <;> omega
    simp only [hcount]
    rw [count_open]
    simp [allBytes, RangeSet.iterFrom, clampedBytes]
  | case3 a b rest ih =>
    have hrest : rest.Pairwise (· < ·) := (List.pairwise_cons.mp (List.pairwise_cons.mp h).2).2
    simp only [RangeSet.countP_cons_cons h]
    rw [count_or, ih hrest, count_interval]
    · simp [allBytes, RangeSet.iterFrom, clampedBytes]
    · -- the intervals after the first one start after its end
      rintro i ⟨-, hlt⟩ hodd
      have hzero : rest.countP (· ≤ i / 1024) = 0 := by
        rw [List.countP_eq_zero]
        intro y hy
        have hby := (List.pairwise_cons.mp (List.pairwise_cons.mp h).2).1 y hy
        simp only [decide_eq_true_eq]
        omega
      omega

private theorem presentBytes_eq (b : Bitfield) : b.presentBytes = allBytes b.size b.ranges.iter := by
  rw [RangeSet.iter, ← count_boundaries b.ranges.sorted]
  unfold presentBytes
  congr 1
  funext i
  rw [RangeSet.mem_iff, RangeSet.contains, beq_iff_eq]

private theorem presentBytes_le (b : Bitfield) : b.presentBytes ≤ b.size := Nat.count_le _

private theorem counted_add {size : Nat} (hsize : size < 2 ^ 64) {ranges : List (Nat × Option Nat)}
    (hlt : ∀ r ∈ ranges, ∀ e, r.2 = some e → r.1 < e) (h : ∀ r ∈ ranges, RangeWithin size r) :
    (ranges.map (countedBytes size)).sum + (ranges.map (lostBytes size)).sum =
      allBytes size ranges + (ranges.map (gainedBytes size)).sum := by
  induction ranges with
  | nil => rfl
  | cons r rest ih =>
    rw [List.forall_mem_cons] at hlt h
    have hr := countedBytes_add hsize hlt.1 h.1
    have hrest := ih hlt.2 h.2
    simp only [allBytes, List.map_cons, List.sum_cons] at hrest ⊢
    omega

/-- What `total_bytes` counts. -/
def counted (b : Bitfield) : Nat := (b.ranges.iter.map (countedBytes b.size)).sum

private theorem counted_add_lost {b : Bitfield} (hsize : b.size < 2 ^ 64) (h : b.RangesWithin) :
    b.counted + b.lost = b.presentBytes + b.gained := by
  rw [presentBytes_eq]
  refine counted_add hsize ?_ h
  rintro ⟨a, e⟩ hr e' rfl
  exact RangeSet.lt_of_mem_iter hr

private theorem addU64_eq_some_iff {a b n : Nat} : addU64 a b = some n ↔ n = a + b ∧ n < 2 ^ 64 := by
  unfold addU64
  split
  · rw [Option.some.injEq]
    omega
  · simp only [reduceCtorEq, false_iff]
    omega

/-- The loop adds up what is counted of the ranges, if no step overflows. -/
private theorem totalBytesLoop_eq_some_iff {size n : Nat} {ranges : List (Nat × Option Nat)} {total : Nat}
    (htotal : total < 2 ^ 64) :
    totalBytesLoop size total ranges = some n ↔
      (∀ r ∈ ranges, RangeWithin size r) ∧ n = total + (ranges.map (countedBytes size)).sum ∧ n < 2 ^ 64 := by
  induction ranges generalizing total with
  | nil =>
    simp only [totalBytesLoop, Option.some.injEq, List.not_mem_nil, false_implies, implies_true, true_and, List.map_nil,
      List.sum_nil]
    omega
  | cons r rest ih =>
    rw [totalBytesLoop, List.forall_mem_cons, List.map_cons, List.sum_cons]
    constructor
    · intro h
      obtain ⟨bytes, hbytes, h⟩ := Option.bind_eq_some_iff.mp h
      obtain ⟨hwithin, rfl⟩ := rangeBytes_eq_some_iff.mp hbytes
      obtain ⟨total', htotal', h⟩ := Option.bind_eq_some_iff.mp h
      obtain ⟨rfl, hfits⟩ := addU64_eq_some_iff.mp htotal'
      obtain ⟨hall, hn, hlt⟩ := (ih hfits).mp h
      exact ⟨⟨hwithin, hall⟩, by omega, hlt⟩
    · rintro ⟨⟨hwithin, hall⟩, hn, hlt⟩
      have hbytes := rangeBytes_eq_some_iff.mpr ⟨hwithin, rfl⟩
      have hfits : total + countedBytes size r < 2 ^ 64 := by omega
      rw [hbytes, Option.bind_eq_bind, Option.bind_some, addU64_of_lt hfits, Option.bind_some]
      exact (ih hfits).mpr ⟨hall, by omega, hlt⟩

/-- `total_bytes` returns what it counts, if no range is the wrong way around. -/
theorem totalBytes_eq_some_iff {b : Bitfield} {n : Nat} :
    b.totalBytes = some n ↔ b.RangesWithin ∧ n = b.counted ∧ n < 2 ^ 64 := by
  rw [totalBytes, totalBytesLoop_eq_some_iff (by decide), Nat.zero_add]
  rfl

/-- `total_bytes` is right, exactly if the ranges start within the size and positions that do not fit add as much as
they lose. -/
private theorem totalBytes_eq_presentBytes_iff {b : Bitfield} (hsize : b.size < 2 ^ 64) :
    b.totalBytes = some b.presentBytes ↔ b.RangesWithin ∧ b.gained = b.lost := by
  have hle := b.presentBytes_le
  rw [totalBytes_eq_some_iff]
  refine and_congr_right fun hwithin => ?_
  have hadd := counted_add_lost hsize hwithin
  omega

end Bitfield

/-! ### Local bytes -/

namespace Remote

variable {E : Type}

namespace LocalInfo

/-- The part of a bitfield that is requested. -/
def localPart (bitfield : Bitfield) (requested : ChunkRanges) : Bitfield := ⟨bitfield.size, bitfield.ranges ∩ requested⟩

/-- The loop of `local_bytes` over the requested children.  The outer result is nothing when the rounds do not
suffice, and the inner one when the source would panic. -/
def localBytesLoop (children : NonRawLocalInfo) (maxLocalIndex : Nat) :
    Nat → ChunkRangesSeq.NonEmptyIter → Nat → Option (Option Nat)
  | 0, _, _ => none
  | fuel + 1, iter, res =>
    match iter.next with
    | (none, _) => some (some res)
    | (some (offset, ranges), iter) =>
      if offset = 0 then localBytesLoop children maxLocalIndex fuel iter res
      else if maxLocalIndex < offset - 1 then some (some res)
      else
        match children.hashSeq.lookup (offset - 1) with
        | none => localBytesLoop children maxLocalIndex fuel iter res
        | some hash =>
          match (children.bitfields.lookup hash).bind
            (fun bitfield => (localPart bitfield ranges).totalBytes.bind (addU64 res)) with
          | none => some none
          | some res => localBytesLoop children maxLocalIndex fuel iter res

/-- The number of bytes that are there locally. -/
def localBytes (info : LocalInfo) (fuel : Nat) : Option (Option Nat) :=
  match info.requestedRootRanges with
  | none => some (some 0)
  | some rootRequested =>
    match (localPart info.bitfield rootRequested).totalBytes with
    | none => some none
    | some res =>
      match info.children with
      | none => some (some res)
      | some children =>
        match children.hashSeq.keys.max? with
        | none => some (some res)
        | some maxLocalIndex => localBytesLoop children maxLocalIndex fuel info.request.ranges.iterNonEmptyInfinite res

/-- What is there of a known child, and requested. -/
def childPart (info : LocalInfo) (child : Nat) : Option Bitfield :=
  (info.known child).map (fun bitfield => localPart bitfield (info.requested (child + 1)))

/-- One more than the last known child. -/
def childrenEnd (info : LocalInfo) : Nat := (info.children.map (fun children => nextKey children.hashSeq)).getD 0

/-- The parts of the known children, from a child on. -/
def childParts (info : LocalInfo) (child : Nat) : List Bitfield :=
  (List.range' child (info.childrenEnd - child)).filterMap info.childPart

/-- What is there and requested of the root and of the known children. -/
def localParts (info : LocalInfo) : List Bitfield := localPart info.bitfield (info.requested 0) :: info.childParts 0

/-- The same, with the ranges that are read for the root. -/
def readParts (info : LocalInfo) : List Bitfield := localPart info.bitfield info.rootRequested :: info.childParts 0

/-- The exact number of requested bytes that are there. -/
def requestedLocalBytes (info : LocalInfo) : Nat := (info.localParts.map Bitfield.presentBytes).sum

/-- Adds up the bytes of bitfields. -/
def sumBytes : Nat → List Bitfield → Option Nat
  | res, [] => some res
  | res, b :: rest => (b.totalBytes.bind (addU64 res)).bind (fun res => sumBytes res rest)

private theorem sumBytes_eq_some_iff {parts : List Bitfield} {res n : Nat} (hres : res < 2 ^ 64) :
    sumBytes res parts = some n ↔
      (∀ b ∈ parts, b.RangesWithin) ∧ n = res + (parts.map Bitfield.counted).sum ∧ n < 2 ^ 64 := by
  induction parts generalizing res with
  | nil =>
    simp only [sumBytes, Option.some.injEq, List.not_mem_nil, false_implies, implies_true, true_and, List.map_nil,
      List.sum_nil]
    omega
  | cons b rest ih =>
    rw [sumBytes, List.forall_mem_cons, List.map_cons, List.sum_cons]
    constructor
    · intro h
      obtain ⟨res', hadd, h⟩ := Option.bind_eq_some_iff.mp h
      obtain ⟨bytes, hbytes, hadd⟩ := Option.bind_eq_some_iff.mp hadd
      obtain ⟨hwithin, rfl, -⟩ := Bitfield.totalBytes_eq_some_iff.mp hbytes
      obtain ⟨rfl, hfits⟩ := Bitfield.addU64_eq_some_iff.mp hadd
      obtain ⟨hall, hn, hlt⟩ := (ih hfits).mp h
      exact ⟨⟨hwithin, hall⟩, by omega, hlt⟩
    · rintro ⟨⟨hwithin, hall⟩, hn, hlt⟩
      have hbytes := Bitfield.totalBytes_eq_some_iff.mpr ⟨hwithin, rfl, by omega⟩
      have hfits : res + b.counted < 2 ^ 64 := by omega
      rw [hbytes, Option.bind_some, addU64_of_lt hfits, Option.bind_some]
      exact (ih hfits).mpr ⟨hall, by omega, hlt⟩

/-- A child in the hash sequence has a bitfield and is requested. -/
theorem BuiltFor.lookup_hashSeq {info : LocalInfo} {store : StoreClient E} {request : GetRequest Hash}
    (h : info.BuiltFor store request) {children : NonRawLocalInfo} (hc : info.children = some children)
    {child : Nat} {hash : Hash}
    (hl : children.hashSeq.lookup child = some hash) :
    (children.bitfields.lookup hash).isSome = true ∧ (info.request.ranges.get (child + 1)).isEmpty = false := by
  obtain ⟨rfl, -, ⟨-, hnone⟩ | ⟨-, children', N, hsome, hbuilt⟩⟩ := h.cases
  · rw [hnone] at hc
    cases hc
  · rw [hsome, Option.some.injEq] at hc
    subst hc
    refine ⟨(hbuilt N (Nat.le_refl N)).bitfields child hash hl, ?_⟩
    rw [(hbuilt (max N (child + 2)) (by omega)).hashSeq child] at hl
    split at hl
    · rename_i hcond
      exact hcond.2
    · cases hl

section Loop

variable {info : LocalInfo} {store : StoreClient E} {request : GetRequest Hash} {children : NonRawLocalInfo}

/-- A child that is not requested is not known. -/
private theorem childPart_of_not_requested (h : info.BuiltFor store request)
    (hc : info.children = some children) {child : Nat}
    (hempty : (info.request.ranges.get (child + 1)).isEmpty = true) : info.childPart child = none := by
  cases hl : children.hashSeq.lookup child with
  | none => rw [childPart, known_of_lookup_none hc hl, Option.map_none]
  | some hash =>
    rw [(h.lookup_hashSeq hc hl).2] at hempty
    cases hempty

/-- The children before the next requested one are not known. -/
private theorem childParts_skip (h : info.BuiltFor store request) (hc : info.children = some children)
    {c d : Nat} (hcd : c ≤ d)
    (hempty : ∀ child, c ≤ child → child < d → (info.request.ranges.get (child + 1)).isEmpty = true) :
    info.childParts c = info.childParts d := by
  rcases Nat.lt_or_ge d info.childrenEnd with hd | hd
  · have hsplit : List.range' c (info.childrenEnd - c) = List.range' c (d - c) ++
      List.range' d (info.childrenEnd - d) := by
      have hlen : info.childrenEnd - c = (d - c) + (info.childrenEnd - d) := by omega
      have hstart : d = c + (d - c) := by omega
      rw [hlen, ← List.range'_append_1, ← hstart]
    have hnone : (List.range' c (d - c)).filterMap info.childPart = [] := by
      rw [List.filterMap_eq_nil_iff]
      intro child hchild
      rw [List.mem_range'_1] at hchild
      exact childPart_of_not_requested h hc (hempty child hchild.1 (by omega))
    rw [childParts, hsplit, List.filterMap_append, hnone, List.nil_append, childParts]
  · have hnone : ∀ c', c ≤ c' → info.childParts c' = [] := by
      intro c' hc'
      rw [childParts, List.filterMap_eq_nil_iff]
      intro child hchild
      rw [List.mem_range'_1] at hchild
      exact childPart_of_not_requested h hc (hempty child (by omega) (by omega))
    rw [hnone c (Nat.le_refl c), hnone d hcd]

private theorem childParts_of_le {c : Nat} (h : info.childrenEnd ≤ c) : info.childParts c = [] := by
  rw [childParts, Nat.sub_eq_zero_of_le h]
  rfl

private theorem childParts_cons {c : Nat} (h : c < info.childrenEnd) :
    info.childParts c = (info.childPart c).toList ++ info.childParts (c + 1) := by
  have hlen : info.childrenEnd - c = info.childrenEnd - (c + 1) + 1 := by omega
  rw [childParts, hlen, List.range'_succ, List.filterMap_cons, childParts]
  cases info.childPart c <;> rfl

/-- The loop adds up the parts of the known children. -/
private theorem localBytesLoop_spec (h : info.BuiltFor store request) (hc : info.children = some children)
    {maxLocalIndex : Nat}
    (hmax : info.childrenEnd = maxLocalIndex + 1) (n res : Nat) :
    Fuel.Returns (fun fuel => localBytesLoop children maxLocalIndex fuel (info.request.ranges.nonEmptyAt n) res)
      (sumBytes res (info.childParts (n - 1))) := by
  induction hk : info.childrenEnd + 1 - n using Nat.strong_induction_on generalizing n res with
  | _ k ih =>
  subst hk
  rcases info.request.ranges.next_cases n with ⟨i, hni, hi, hmin, hnext⟩ | ⟨hall, m, hm, hnext⟩
  · by_cases hzero : i = 0
    · subst hzero
      obtain rfl : n = 0 := by omega
      have hrest := ih _ (by omega) 1 res rfl
      exact hrest.step (fun fuel => by rw [localBytesLoop]; simp only [hnext, ↓reduceIte])
    · obtain ⟨child, rfl⟩ : ∃ child, i = child + 1 := ⟨i - 1, by omega⟩
      have hskip : info.childParts (n - 1) = info.childParts child := by
        apply childParts_skip h hc (by omega)
        intro c h1 h2
        exact hmin (c + 1) (by omega) (by omega)
      rw [hskip]
      by_cases hend : maxLocalIndex < child
      · rw [childParts_of_le (by omega)]
        refine Fuel.returns_of_succ (fun fuel => ?_)
        rw [localBytesLoop]
        simp only [hnext, Nat.add_one_ne_zero, ↓reduceIte, Nat.add_sub_cancel, if_pos hend]
        rfl
      · rw [childParts_cons (by omega)]
        have hrest := fun res => ih _ (by omega) (child + 2) res rfl
        cases hl : children.hashSeq.lookup child with
        | none =>
          have hl' : children.hashSeq.lookup (child + 1 - 1) = none := hl
          rw [childPart, known_of_lookup_none hc hl, Option.map_none, Option.toList_none, List.nil_append]
          refine (hrest res).step (fun fuel => ?_)
          rw [localBytesLoop]
          simp only [hnext, Nat.add_one_ne_zero, ↓reduceIte, Nat.add_sub_cancel, if_neg hend, hl']
        | some hash =>
          have hl' : children.hashSeq.lookup (child + 1 - 1) = some hash := hl
          obtain ⟨bitfield, hb⟩ := Option.isSome_iff_exists.mp (h.lookup_hashSeq hc hl).1
          have hpart : info.childPart child = some (localPart bitfield (info.request.ranges.get (child + 1))) := by
            rw [childPart, known, hc, Option.bind_some, NonRawLocalInfo.known, hl, Option.bind_some, hb]
            rfl
          rw [hpart, Option.toList_some, List.singleton_append, sumBytes]
          cases hadd : (localPart bitfield (info.request.ranges.get (child + 1))).totalBytes.bind (addU64 res) with
          | none =>
            refine Fuel.returns_of_succ (fun fuel => ?_)
            rw [localBytesLoop]
            simp only [hnext, Nat.add_one_ne_zero, ↓reduceIte, Nat.add_sub_cancel, if_neg hend, hl', hb,
              Option.bind_some, hadd]
            rfl
          | some res' =>
            refine (hrest res').step (fun fuel => ?_)
            rw [localBytesLoop]
            simp only [hnext, Nat.add_one_ne_zero, ↓reduceIte, Nat.add_sub_cancel, if_neg hend, hl', hb,
              Option.bind_some, hadd]
  · have hnone : info.childParts (n - 1) = [] := by
      rw [childParts_skip h hc (Nat.le_max_left (n - 1) info.childrenEnd) (fun c h1 _ => hall (c + 1) (by omega)),
        childParts_of_le (Nat.le_max_right _ _)]
    rw [hnone]
    exact Fuel.returns_of_succ (fun fuel => by rw [localBytesLoop]; simp only [hnext]; rfl)

end Loop

/-- `local_bytes` returns, and adds up what is there and requested of the root and of the known children. -/
private theorem localBytes_spec {info : LocalInfo} {store : StoreClient E} {request : GetRequest Hash}
    (h : info.BuiltFor store request) :
    Fuel.Returns info.localBytes
      ((localPart info.bitfield info.rootRequested).totalBytes.bind (fun res => sumBytes res (info.childParts 0))) := by
  cases hroot : info.requestedRootRanges with
  | none =>
    -- nothing is requested
    have hzero : (localPart info.bitfield info.rootRequested).totalBytes = some 0 := by
      have hranges : info.bitfield.ranges ∩ info.rootRequested = ∅ := by
        apply RangeSet.ext_mem
        intro x
        simp [rootRequested, hroot]
      rw [localPart, hranges]
      rfl
    have hnone : info.childParts 0 = [] := by
      cases hc : info.children with
      | none =>
        apply childParts_of_le
        rw [childrenEnd, hc]
        rfl
      | some children =>
        have hempty : ∀ i, (info.request.ranges.get i).isEmpty = true := by
          intro i
          rw [get_of_requestedRootRanges_none hroot]
          rfl
        rw [childParts_skip h hc (Nat.zero_le info.childrenEnd) (fun c _ _ => hempty (c + 1)),
          childParts_of_le (Nat.le_refl _)]
    rw [hzero, hnone]
    exact Fuel.returns_of_succ (fun fuel => by rw [localBytes, hroot]; rfl)
  | some rootRanges =>
    have hreq : info.rootRequested = rootRanges := by rw [rootRequested, hroot, Option.getD_some]
    rw [hreq]
    cases hbytes : (localPart info.bitfield rootRanges).totalBytes with
    | none => exact Fuel.returns_of_succ (fun fuel => by rw [localBytes, hroot]; simp only [hbytes]; rfl)
    | some res =>
      rw [Option.bind_some]
      cases hc : info.children with
      | none =>
        rw [childParts_of_le (by rw [childrenEnd, hc]; exact Nat.zero_le 0)]
        exact Fuel.returns_of_succ (fun fuel => by rw [localBytes, hroot]; simp only [hbytes, hc]; rfl)
      | some children =>
        cases hmax : children.hashSeq.keys.max? with
        | none =>
          rw [childParts_of_le
            (by rw [childrenEnd, hc, Option.map_some, Option.getD_some, nextKey, hmax]; exact Nat.zero_le 0)]
          exact Fuel.returns_of_succ (fun fuel => by rw [localBytes, hroot]; simp only [hbytes, hc, hmax]; rfl)
        | some maxLocalIndex =>
          have hend : info.childrenEnd = maxLocalIndex + 1 := by
            rw [childrenEnd, hc, Option.map_some, Option.getD_some, nextKey, hmax]
            rfl
          obtain ⟨rounds, hloop⟩ := localBytesLoop_spec h hc hend 0 res
          refine ⟨rounds, fun fuel hfuel => ?_⟩
          rw [localBytes, hroot]
          simp only [hbytes, hc, hmax]
          exact hloop fuel hfuel

/-- The sizes of the parts are those of bitfields that were observed. -/
private theorem size_lt_of_mem {info : LocalInfo} {store : StoreClient E} {request : GetRequest Hash}
    (h : info.BuiltFor store request)
    (hstore : ∀ n hash bitfield, store.observe n hash = .ok bitfield → bitfield.size < 2 ^ 64) :
    ∀ part ∈ info.readParts, part.size < 2 ^ 64 := by
  rw [readParts, List.forall_mem_cons]
  have hroot : info.bitfield.size < 2 ^ 64 := hstore _ _ _ h.cases.2.1
  refine ⟨hroot, ?_⟩
  intro part hpart
  obtain ⟨child, -, hchild⟩ := List.mem_filterMap.mp hpart
  obtain ⟨bitfield, hknown, rfl⟩ := Option.map_eq_some_iff.mp hchild
  obtain ⟨hash, n, -, hobserve⟩ := h.known_observed hknown
  exact hstore n hash bitfield hobserve

private theorem sum_counted_add {parts : List Bitfield} (hsize : ∀ part ∈ parts, part.size < 2 ^ 64)
    (h : ∀ part ∈ parts, part.RangesWithin) :
    (parts.map Bitfield.counted).sum + (parts.map Bitfield.lost).sum =
      (parts.map Bitfield.presentBytes).sum + (parts.map Bitfield.gained).sum := by
  induction parts with
  | nil => rfl
  | cons b rest ih =>
    rw [List.forall_mem_cons] at hsize h
    have hb := Bitfield.counted_add_lost hsize.1 h.1
    have hrest := ih hsize.2 h.2
    simp only [List.map_cons, List.sum_cons]
    omega

/-- The bytes that `local_bytes` counts too many are as many as those that it counts too few.  The first entry for the
root may have too many chunks or too few, and positions that do not fit add bytes and lose bytes. -/
def Balanced (info : LocalInfo) : Prop :=
  (info.readParts.map Bitfield.presentBytes).sum + (info.readParts.map Bitfield.gained).sum =
    info.requestedLocalBytes + (info.readParts.map Bitfield.lost).sum

private theorem localBytes_iff {info : LocalInfo} {store : StoreClient E} {request : GetRequest Hash}
    (h : info.BuiltFor store request)
    (hstore : ∀ n hash bitfield, store.observe n hash = .ok bitfield → bitfield.size < 2 ^ 64) :
    Fuel.Returns info.localBytes (some info.requestedLocalBytes) ↔
      (∀ part ∈ info.readParts, part.RangesWithin) ∧ info.Balanced ∧ info.requestedLocalBytes < 2 ^ 64 := by
  have hsizes := size_lt_of_mem h hstore
  have hspec := localBytes_spec h
  have hreturns : Fuel.Returns info.localBytes (some info.requestedLocalBytes) ↔
      (localPart info.bitfield info.rootRequested).totalBytes.bind (fun res => sumBytes res (info.childParts 0)) =
        some info.requestedLocalBytes := by
    constructor
    · intro hret
      exact hspec.unique hret
    · intro heq
      rwa [heq] at hspec
  have hsum : (localPart info.bitfield info.rootRequested).totalBytes.bind
    (fun res => sumBytes res (info.childParts 0)) =
      some info.requestedLocalBytes ↔ (∀ part ∈ info.readParts, part.RangesWithin) ∧
        info.requestedLocalBytes = (info.readParts.map Bitfield.counted).sum ∧ info.requestedLocalBytes < 2 ^ 64 := by
    rw [readParts, List.forall_mem_cons, List.map_cons, List.sum_cons]
    constructor
    · intro heq
      obtain ⟨res, hbytes, heq⟩ := Option.bind_eq_some_iff.mp heq
      obtain ⟨hwithin, rfl, hlt⟩ := Bitfield.totalBytes_eq_some_iff.mp hbytes
      obtain ⟨hall, hn, hfits⟩ := (sumBytes_eq_some_iff hlt).mp heq
      exact ⟨⟨hwithin, hall⟩, hn, hfits⟩
    · rintro ⟨⟨hwithin, hall⟩, hn, hfits⟩
      have hlt : (localPart info.bitfield info.rootRequested).counted < 2 ^ 64 := by omega
      rw [Bitfield.totalBytes_eq_some_iff.mpr ⟨hwithin, rfl, hlt⟩, Option.bind_some]
      exact (sumBytes_eq_some_iff hlt).mpr ⟨hall, hn, hfits⟩
  rw [hreturns, hsum]
  refine and_congr_right fun hwithin => and_congr_left fun _ => ?_
  have hadd := sum_counted_add hsizes hwithin
  unfold Balanced
  omega

/-- `total_bytes` is right exactly if no range starts beyond the size or after its end, and positions that do not fit
add as much as they lose.  `local_bytes` is right exactly if no range of what is there and requested does, what it
counts too many and too few balances, and the sum fits. -/
theorem totalBytes_right_iff (b : Bitfield) (hb : b.size < 2 ^ 64) {info : LocalInfo} {store : StoreClient E}
    {request : GetRequest Hash} (h : info.BuiltFor store request)
    (hstore : ∀ n hash bitfield, store.observe n hash = .ok bitfield → bitfield.size < 2 ^ 64) :
    (b.totalBytes = some b.presentBytes ↔ b.RangesWithin ∧ b.gained = b.lost) ∧
    (Fuel.Returns info.localBytes (some info.requestedLocalBytes) ↔
      (∀ part ∈ info.readParts, part.RangesWithin) ∧ info.Balanced ∧ info.requestedLocalBytes < 2 ^ 64) :=
  ⟨Bitfield.totalBytes_eq_presentBytes_iff hb, localBytes_iff h hstore⟩

-- the position of the end does not fit, but it is not below the size
example : (⟨3000, RangeSet.range 0 (2 ^ 54 + 3)⟩ : Bitfield).totalBytes = some 3000 := by decide

/-- A store with one complete blob of 100 bytes. -/
def hundredBytes : StoreClient Empty where
  observe _ _ := .ok (Bitfield.complete 100)
  exportBao _ _ := .ok []

/-- A request for some chunks of one blob. -/
def ofChunks (ranges : ChunkRanges) : GetRequest Hash := ⟨Hash.replicate 0, ChunkRangesSeq.fromRanges [ranges]⟩

theorem totalBytes_right_hundredBytes :
    ∃ info : LocalInfo, info.BuiltFor hundredBytes (ofChunks RangeSet.all) ∧
      (Bitfield.complete 100).totalBytes = some (Bitfield.complete 100).presentBytes ∧
      Fuel.Returns info.localBytes (some info.requestedLocalBytes) := by
  have hbuilt : LocalInfo.BuiltFor ⟨ofChunks RangeSet.all, Bitfield.complete 100, none⟩ hundredBytes
    (ofChunks RangeSet.all) :=
    ⟨0, rfl⟩
  have hparts : localParts ⟨ofChunks RangeSet.all, Bitfield.complete 100, none⟩ = [Bitfield.complete 100] := by
    decide +kernel
  have hread : readParts ⟨ofChunks RangeSet.all, Bitfield.complete 100, none⟩ = [Bitfield.complete 100] := by
    decide +kernel
  obtain ⟨htotal, hlocal⟩ := totalBytes_right_iff (Bitfield.complete 100) (by decide) hbuilt (by
    rintro n hash bitfield heq
    cases heq
    decide)
  have hwithin : (Bitfield.complete 100).RangesWithin := by
    intro r hr
    rw [show (Bitfield.complete 100).ranges.iter = [(0, none)] from rfl, List.mem_singleton] at hr
    subst hr
    exact ⟨by decide, by simp⟩
  refine ⟨_, hbuilt, htotal.mpr ⟨hwithin, by decide⟩, hlocal.mpr ⟨?_, ?_, ?_⟩⟩
  · rw [hread]
    simpa using hwithin
  · have hcancel : (Bitfield.complete 100).gained = (Bitfield.complete 100).lost := by decide
    rw [Balanced, requestedLocalBytes, hparts, hread, List.map_singleton, List.map_singleton,
      List.map_singleton, hcancel]
  · rw [requestedLocalBytes, hparts, List.map_singleton, List.sum_singleton]
    exact lt_of_le_of_lt (Bitfield.presentBytes_le _) (by decide)

/-- A chunk beyond the end of the blob is requested. -/
theorem not_totalBytes_right_beyond :
    (⟨100, RangeSet.range 5 6⟩ : Bitfield).totalBytes = none ∧
    ∃ info : LocalInfo, info.BuiltFor hundredBytes (ofChunks (RangeSet.range 5 6)) ∧
      ¬ Fuel.Returns info.localBytes (some info.requestedLocalBytes) := by
  refine ⟨by decide, ⟨ofChunks (RangeSet.range 5 6), Bitfield.complete 100, none⟩, ⟨0, rfl⟩, ?_⟩
  rintro ⟨rounds, h⟩
  have hreturns := h rounds (Nat.le_refl rounds)
  have hpanics : localBytes ⟨ofChunks (RangeSet.range 5 6), Bitfield.complete 100, none⟩ rounds = some none := by
    have hzero : localBytes ⟨ofChunks (RangeSet.range 5 6), Bitfield.complete 100, none⟩ 0 = some none := by
      decide +kernel
    exact hzero
  rw [hpanics] at hreturns
  cases hreturns

end LocalInfo

end Remote

end IrohBlobs
