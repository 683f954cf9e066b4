import IrohBlobs.Bitfield
import IrohBlobs.ExportBao
import IrohBlobs.RangeIter

/-!
# Exporting ranges of bytes

The model of `export_ranges_impl` of the three stores, which have the same body over their own readers, and of
`ExportRangesProgress::concatenate`.  Each range is clamped to the size, checked against the bitfield in whole chunks,
and sent in pieces of at most 1024 bytes.  The client collects the pieces by their offsets, and cuts them to the
ranges once more.

A range that is empty after it was clamped is sent as an empty piece at the end of the blob.  If the claimed size is
near the largest number, the end of that piece overflows and the task panics.  The stream of the client then just
ends, and as nothing was left to send, the client has everything.
-/

namespace IrohBlobs

open Merkle (chunks)

inductive ExportRangesError
  | missing
  | io
  | panicked
  deriving DecidableEq

inductive ExportRangesItem
  | size (size : Nat)
  | data (leaf : Leaf)
  | error
  deriving DecidableEq

/-- A byte that is known to be stored. -/
def byteAt (stored : Nat → Option UInt8) (p : Nat) : UInt8 := (stored p).getD 0

/-- The reader of the data of an entry, a vector or a file.  It reads the bytes that are stored.  The last position in
a vector or a file is below `2 ^ 63`. -/
structure DataReader where
  stored : Nat → Option UInt8
  readBytesAt : Nat → Nat → Option (List UInt8)
  reads : ∀ offset size, (∀ p, offset ≤ p → p < offset + size → (stored p).isSome = true) →
    readBytesAt offset size = some ((List.range' offset size).map (byteAt stored))
  stored_lt : ∀ p, (stored p).isSome = true → p < 2 ^ 63

/-- A vector has the bytes up to its end. -/
def DataReader.ofData (data : List UInt8) (h : data.length < 2 ^ 63) : DataReader where
  stored p := data[p]?
  readBytesAt offset size := some ((data.drop offset).take size)
  reads offset size hstored := by
    congr 1
    apply List.ext_getElem?
    intro i
    rw [List.getElem?_map, List.getElem?_take]
    by_cases hi : i < size
    · have hp := hstored (offset + i) (by omega) (by omega)
      obtain ⟨b, hb⟩ := Option.isSome_iff_exists.mp hp
      rw [if_pos hi, List.getElem?_drop, hb, List.getElem?_range' hi, Option.map_some, byteAt, Nat.one_mul,
        hb, Option.getD_some]
    · rw [if_neg hi, List.getElem?_eq_none (by rw [List.length_range']; omega), Option.map_none]
  stored_lt p hp := by
    have hlt : p < data.length := by simpa using hp
    omega

/-- A vector with gaps, of which some positions were written. -/
def DataReader.sparse (data : List UInt8) (h : data.length < 2 ^ 63) (written : Nat → Bool) : DataReader where
  stored p := if written p then data[p]? else none
  readBytesAt := (DataReader.ofData data h).readBytesAt
  reads offset size hstored := by
    have hwritten : ∀ p, offset ≤ p → p < offset + size → written p = true ∧ (data[p]?).isSome = true := by
      intro p h1 h2
      have hp := hstored p h1 h2
      split at hp
      · rename_i hw
        exact ⟨hw, hp⟩
      · cases hp
    rw [(DataReader.ofData data h).reads offset size (fun p h1 h2 => (hwritten p h1 h2).2)]
    congr 1
    apply List.map_congr_left
    intro p hp
    rw [List.mem_range'_1] at hp
    rw [byteAt, byteAt, if_pos (hwritten p hp.1 hp.2).1]
    rfl
  stored_lt p hp := by
    split at hp
    · exact (DataReader.ofData data h).stored_lt p hp
    · cases hp

/-- An entry of a store: its bitfield, and its data.  The bytes of the chunks of the bitfield are stored. -/
structure RangesEntry where
  bitfield : Bitfield
  data : DataReader
  size_lt : bitfield.size < 2 ^ 64
  present : ∀ p, p < bitfield.size → p / 1024 ∈ bitfield.ranges → (data.stored p).isSome = true

/-- A complete entry. -/
def RangesEntry.ofData (data : List UInt8) (h : data.length < 2 ^ 63) : RangesEntry where
  bitfield := Bitfield.complete data.length
  data := DataReader.ofData data h
  size_lt := Nat.lt_trans h (by decide)
  present p hp _ := by
    have hp : p < data.length := hp
    show (data[p]?).isSome = true
    rw [List.getElem?_eq_getElem hp]
    rfl

/-- The chunks of a range of bytes. -/
def chunksOfRange (range : Nat × Option Nat) : ChunkRanges :=
  match range.2 with
  | some e => RangeSet.range (range.1 / 1024) (chunks e)
  | none => RangeSet.rangeFrom (range.1 / 1024)

/-- Rounds ranges of bytes up to ranges of chunks. -/
def roundUpToChunks (ranges : RangeSet) : ChunkRanges :=
  ranges.iter.foldl (fun res range => res ∪ chunksOfRange range) ∅

/-- `ChunkRanges::bytes` for a half-open range. -/
def chunkRangesBytes (start stop : Nat) : ChunkRanges := roundUpToChunks (RangeSet.range start stop)

/-- A sum does not fit into `u64`. -/
def overflows (n : Nat) : Bool := decide (2 ^ 64 ≤ n)

/-- The inner loop: a range in pieces of at most 1024 bytes, and the error that ends it. -/
def sendPieces (data : DataReader) (stop offset : Nat) : List Leaf × Option ExportRangesError :=
  if overflows (offset + 1024) then ([], some .panicked)
  else
    match data.readBytesAt offset (min (offset + 1024) stop - offset) with
    | none => ([], some .io)
    | some bytes =>
      if stop ≤ min (offset + 1024) stop then ([⟨offset, bytes⟩], none)
      else
        let rest := sendPieces data stop (min (offset + 1024) stop)
        (⟨offset, bytes⟩ :: rest.1, rest.2)
termination_by stop - offset

/-- A range is clamped to the size. -/
def clampStart (size : Nat) (range : Nat × Option Nat) : Nat := min size range.1

def clampEnd (size : Nat) (range : Nat × Option Nat) : Nat :=
  match range.2 with
  | some e => min size e
  | none => size

def sendRange (bitfield : Bitfield) (data : DataReader) (range : Nat × Option Nat) :
    List Leaf × Option ExportRangesError :=
  let requested := chunkRangesBytes (clampStart bitfield.size range) (clampEnd bitfield.size range)
  if bitfield.ranges.isSuperset requested then sendPieces data (clampEnd bitfield.size range)
    (clampStart bitfield.size range)
  else ([], some .missing)

/-- The outer loop. -/
def sendRanges (bitfield : Bitfield) (data : DataReader) :
    List (Nat × Option Nat) → List Leaf × Option ExportRangesError
  | [] => ([], none)
  | range :: rest =>
    match sendRange bitfield data range with
    | (leaves, some e) => (leaves, some e)
    | (leaves, none) =>
      let more := sendRanges bitfield data rest
      (leaves ++ more.1, more.2)

/-- The last item, if the export has failed.  If it has panicked, the stream just ends. -/
def errorItem : Option ExportRangesError → List ExportRangesItem
  | none => []
  | some .panicked => []
  | some _ => [.error]

/-- What the client receives until the stream ends. -/
def sentItems (sent : List Leaf × Option ExportRangesError) :
    List ExportRangesItem := sent.1.map .data ++ errorItem sent.2

/-- `export_ranges` of the file store. -/
def exportRangesFs (entry : RangesEntry) (ranges : RangeSet) : List ExportRangesItem :=
  sentItems (sendRanges entry.bitfield entry.data ranges.iter)

/-- `export_ranges` of the memory store. -/
def exportRangesMem (entry : RangesEntry) (ranges : RangeSet) : List ExportRangesItem :=
  sentItems (sendRanges entry.bitfield entry.data ranges.iter)

/-- `export_ranges` of the read-only memory store, which has complete blobs only. -/
def exportRangesReadonly (size : Nat) (data : DataReader) (ranges : RangeSet) : List ExportRangesItem :=
  sentItems (sendRanges (Bitfield.complete size) data ranges.iter)

/-- Inserts into the map from offsets to data. -/
def insertLeaf (data : List Leaf) (leaf : Leaf) : List Leaf :=
  data.filter (fun l => decide (l.offset < leaf.offset)) ++ leaf ::
    data.filter (fun l => decide (leaf.offset < l.offset))

/-- The part of a piece that is in the range. -/
def clip (range : Nat × Option Nat) (leaf : Leaf) : List UInt8 :=
  let start := range.1
  let stop := range.2.getD (2 ^ 64 - 1)
  let cstart := leaf.offset
  let cend := leaf.offset + leaf.data.length
  if stop ≤ cstart ∨ cend ≤ start then []
  else (leaf.data.take (min stop cend - cstart)).drop (max start cstart - cstart)

/-- The loop that collects the pieces. -/
def collectData : List Leaf → List ExportRangesItem → Option (List Leaf)
  | data, [] => some data
  | data, .size _ :: rest => collectData data rest
  | data, .data leaf :: rest => collectData (insertLeaf data leaf) rest
  | _, .error :: _ => none

/-- Concatenate all the data. -/
def concatenate (ranges : RangeSet) (items : List ExportRangesItem) : Option (List UInt8) :=
  (collectData [] items).map (fun data => ranges.iter.flatMap (fun range => data.flatMap (clip range)))

/-! ### Rounding -/

private theorem mem_chunksOfRange {range : Nat × Option Nat} (h : ∀ e, range.2 = some e → range.1 < e) (c : Nat) :
    c ∈ chunksOfRange range ↔ ∃ p, RangeSet.InInterval range p ∧ p / 1024 = c := by
  obtain ⟨a, e⟩ := range
  cases e with
  | none =>
    simp only [chunksOfRange, RangeSet.mem_rangeFrom, RangeSet.InInterval, reduceCtorEq, false_implies,
      implies_true, and_true]
    constructor
    · intro hc
      exact ⟨max a (c * 1024), by omega, by omega⟩
    · rintro ⟨p, hp, rfl⟩
      omega
  | some e =>
    have hae : a < e := h e rfl
    simp only [chunksOfRange, RangeSet.mem_range, RangeSet.InInterval, Option.some.injEq, forall_eq', chunks]
    constructor
    · intro hc
      exact ⟨max a (c * 1024), by omega, by omega⟩
    · rintro ⟨p, hp, rfl⟩
      omega

/-- A chunk is in the rounded ranges if it has a byte in the ranges. -/
private theorem mem_roundUpToChunks {ranges : RangeSet} (c : Nat) :
    c ∈ roundUpToChunks ranges ↔ ∃ p ∈ ranges, p / 1024 = c := by
  have hlt : ∀ {r}, r ∈ ranges.iter → ∀ e, r.2 = some e → r.1 < e := by
    intro r hr e he
    exact RangeSet.lt_of_mem_iter (by rw [← he]; exact hr)
  rw [roundUpToChunks, RangeSet.mem_foldl_union, or_iff_right (RangeSet.not_mem_empty c)]
  constructor
  · rintro ⟨r, hr, hc⟩
    obtain ⟨p, hp, hpc⟩ := (mem_chunksOfRange (hlt hr) c).mp hc
    exact ⟨p, RangeSet.mem_iff_iter.mpr ⟨r, hr, hp⟩, hpc⟩
  · rintro ⟨p, hmem, hpc⟩
    obtain ⟨r, hr, hp⟩ := RangeSet.mem_iff_iter.mp hmem
    exact ⟨r, hr, (mem_chunksOfRange (hlt hr) c).mpr ⟨p, hp, hpc⟩⟩

/-- The chunks of the range are in the bitfield. -/
def Covered (bitfield : Bitfield) (range : Nat × Option Nat) : Prop :=
  ∀ p, clampStart bitfield.size range ≤ p → p < clampEnd bitfield.size range → p / 1024 ∈ bitfield.ranges

private theorem isSuperset_iff_covered {bitfield : Bitfield} {range : Nat × Option Nat} :
    bitfield.ranges.isSuperset (chunkRangesBytes (clampStart bitfield.size range) (clampEnd bitfield.size range)) =
      true ↔
      Covered bitfield range := by
  rw [RangeSet.isSuperset_iff]
  simp only [chunkRangesBytes, mem_roundUpToChunks, RangeSet.mem_range]
  constructor
  · intro h p h1 h2
    exact h _ ⟨p, ⟨h1, h2⟩, rfl⟩
  · rintro h c ⟨p, ⟨h1, h2⟩, rfl⟩
    exact h p h1 h2

/-! ### Pieces -/

/-- The position is in the piece. -/
def Leaf.Has (leaf : Leaf) (p : Nat) : Prop := leaf.offset ≤ p ∧ p < leaf.offset + leaf.data.length

/-- The pieces of `start..stop` in order, with the stored bytes. -/
structure Pieces (stored : Nat → Option UInt8) (start stop : Nat) (leaves : List Leaf) : Prop where
  ordered : leaves.Pairwise (fun a b => a.offset + a.data.length ≤ b.offset)
  within : ∀ l ∈ leaves, start ≤ l.offset ∧ l.offset + l.data.length ≤ stop
  bytes : ∀ l ∈ leaves, l.data = (List.range' l.offset l.data.length).map (byteAt stored)

private theorem pieces_nil (stored : Nat → Option UInt8) (start stop : Nat) : Pieces stored start stop [] :=
  ⟨List.Pairwise.nil, by simp, by simp⟩

/-- A range whose bytes are stored is sent.  The task can only panic if the range is empty, and lies at the end of the
numbers. -/
private theorem sendPieces_spec {data : DataReader} {stop offset : Nat} (hle : offset ≤ stop)
    (hstored : ∀ p, offset ≤ p → p < stop → (data.stored p).isSome = true) :
    ((sendPieces data stop offset).2 = none ∨ (sendPieces data stop offset).2 = some .panicked ∧ offset = stop) ∧
      Pieces data.stored offset stop (sendPieces data stop offset).1 ∧
      ∀ p, offset ≤ p → p < stop → ∃ l ∈ (sendPieces data stop offset).1, l.Has p := by
  induction hk : stop - offset using Nat.strong_induction_on generalizing offset with
  | _ k ih =>
  subst hk
  unfold sendPieces
  by_cases hover : overflows (offset + 1024) = true
  · rw [if_pos hover]
    rw [overflows, decide_eq_true_eq] at hover
    have heq : offset = stop := by
      by_contra hne
      have hlt := data.stored_lt offset (hstored offset (Nat.le_refl offset) (by omega))
      omega
    refine ⟨Or.inr ⟨rfl, heq⟩, pieces_nil _ _ _, fun p h1 h2 => ?_⟩
    omega
  · rw [if_neg hover]
    have hpiece : ∀ p, offset ≤ p → p < offset + (min (offset + 1024) stop - offset) →
      (data.stored p).isSome = true := by
      intro p h1 h2
      exact hstored p h1 (by omega)
    have hread := data.reads _ _ hpiece
    generalize hbytes : (List.range' offset (min (offset + 1024) stop - offset)).map
      (byteAt data.stored) = bytes at hread
    have hlen : bytes.length = min (offset + 1024) stop - offset := by
      rw [← hbytes, List.length_map, List.length_range']
    rw [hread]
    dsimp only
    by_cases hend : stop ≤ min (offset + 1024) stop
    · -- the last piece
      rw [if_pos hend]
      refine ⟨Or.inl rfl, ⟨List.pairwise_singleton _ _, ?_, ?_⟩, ?_⟩
      · intro l hl
        rw [List.mem_singleton.mp hl]
        dsimp only
        omega
      · intro l hl
        rw [List.mem_singleton.mp hl, hlen]
        exact hbytes.symm
      · intro p h1 h2
        refine ⟨_, List.mem_singleton_self _, h1, ?_⟩
        dsimp only
        omega
    · rw [if_neg hend]
      have hnext : min (offset + 1024) stop = offset + 1024 := by omega
      rw [hnext] at hlen hbytes ⊢
      obtain ⟨hres, hpieces, hcover⟩ :=
        ih (stop - (offset + 1024)) (by omega) (by omega) (fun p h1 h2 => hstored p (by omega) h2) rfl
      refine ⟨?_, ⟨?_, ?_, ?_⟩, ?_⟩
      · rcases hres with hres | ⟨-, heq⟩
        · exact Or.inl hres
        · omega
      · rw [List.pairwise_cons]
        refine ⟨?_, hpieces.ordered⟩
        intro l hl
        have hl := hpieces.within l hl
        dsimp only
        omega
      · rw [List.forall_mem_cons]
        refine ⟨by dsimp only; omega, ?_⟩
        intro l hl
        have hl := hpieces.within l hl
        omega
      · rw [List.forall_mem_cons]
        refine ⟨?_, hpieces.bytes⟩
        dsimp only
        rw [hlen]
        exact hbytes.symm
      · intro p h1 h2
        rcases Nat.lt_or_ge p (offset + 1024) with hlt | hge
        · refine ⟨_, List.mem_cons_self, h1, ?_⟩
          dsimp only
          omega
        · obtain ⟨l, hl, hhas⟩ := hcover p hge h2
          exact ⟨l, List.mem_cons_of_mem _ hl, hhas⟩

/-! ### All ranges -/

/-- One interval is before the other. -/
def Before (r r' : Nat × Option Nat) : Prop := ∃ e, r.2 = some e ∧ e ≤ r'.1

section

variable {entry : RangesEntry} {range : Nat × Option Nat} {ranges : List (Nat × Option Nat)}

private theorem clampStart_le_clampEnd (size : Nat) (h : ∀ e, range.2 = some e → range.1 < e) :
    clampStart size range ≤ clampEnd size range := by
  unfold clampStart clampEnd
  split
  · rename_i e he
    have hlt := h e he
    omega
  · omega

private theorem clampEnd_le (size : Nat) (range : Nat × Option Nat) : clampEnd size range ≤ size := by
  unfold clampEnd
  split <;> omega

private theorem clampEnd_le_clampStart {size : Nat} {r r' : Nat × Option Nat} (h : Before r r') :
    clampEnd size r ≤ clampStart size r' := by
  obtain ⟨e, he, hle⟩ := h
  unfold clampStart clampEnd
  rw [he]
  dsimp only
  omega

private theorem inInterval_iff_clamp {size p : Nat} (hp : p < size) :
    RangeSet.InInterval range p ↔ clampStart size range ≤ p ∧ p < clampEnd size range := by
  unfold RangeSet.InInterval clampStart clampEnd
  cases range.2 with
  | none => simp only [reduceCtorEq, false_implies, implies_true, and_true]; omega
  | some e => simp only [Option.some.injEq, forall_eq']; omega

theorem sendRange_of_not_covered (h : ¬ Covered entry.bitfield range) :
    sendRange entry.bitfield entry.data range = ([], some .missing) := by
  rw [sendRange]
  exact if_neg (fun hsup => h (isSuperset_iff_covered.mp hsup))

theorem sendRange_of_covered (h : Covered entry.bitfield range) : sendRange entry.bitfield entry.data range =
    sendPieces entry.data (clampEnd entry.bitfield.size range) (clampStart entry.bitfield.size range) := by
  rw [sendRange]
  exact if_pos (isSuperset_iff_covered.mpr h)

private theorem sendRange_spec (hlt : ∀ e, range.2 = some e → range.1 < e) (h : Covered entry.bitfield range) :
    ((sendRange entry.bitfield entry.data range).2 = none ∨
      (sendRange entry.bitfield entry.data range).2 = some .panicked ∧
      clampStart entry.bitfield.size range = clampEnd entry.bitfield.size range) ∧
      Pieces entry.data.stored (clampStart entry.bitfield.size range) (clampEnd entry.bitfield.size range)
        (sendRange entry.bitfield entry.data range).1 ∧
      ∀ p, p < entry.bitfield.size → RangeSet.InInterval range p →
        ∃ l ∈ (sendRange entry.bitfield entry.data range).1, l.Has p := by
  have hle := clampStart_le_clampEnd entry.bitfield.size hlt
  have hend := clampEnd_le entry.bitfield.size range
  rw [sendRange_of_covered h]
  obtain ⟨hres, hpieces, hcover⟩ := sendPieces_spec hle (fun p h1 h2 => entry.present p (by omega) (h p h1 h2))
  refine ⟨hres, hpieces, fun p hp hin => ?_⟩
  rw [inInterval_iff_clamp hp] at hin
  exact hcover p hin.1 hin.2

private theorem Pieces.append {stored : Nat → Option UInt8} {a b c : Nat} {ls ms : List Leaf}
    (hl : Pieces stored a b ls)
    (hm : Pieces stored b c ms) (hab : a ≤ b) (hbc : b ≤ c) : Pieces stored a c (ls ++ ms) := by
  refine ⟨?_, ?_, ?_⟩
  · refine List.pairwise_append.mpr ⟨hl.ordered, hm.ordered, ?_⟩
    intro l hl' m hm'
    have h1 := hl.within l hl'
    have h2 := hm.within m hm'
    omega
  · rw [List.forall_mem_append]
    refine ⟨fun l hl' => ?_, fun m hm' => ?_⟩
    · have h1 := hl.within l hl'
      omega
    · have h2 := hm.within m hm'
      omega
  · rw [List.forall_mem_append]
    exact ⟨hl.bytes, hm.bytes⟩

private theorem Pieces.mono {stored : Nat → Option UInt8} {a a' b : Nat} {ls : List Leaf}
    (h : Pieces stored a b ls) (hle : a' ≤ a) :
    Pieces stored a' b ls := by
  refine ⟨h.ordered, ?_, h.bytes⟩
  intro l hl
  have hwithin := h.within l hl
  omega

/-- The ranges after an empty one have nothing before the end. -/
private theorem not_inInterval_of_before {size p : Nat} {r r' : Nat × Option Nat} (hp : p < size)
    (hempty : clampStart size r = clampEnd size r) (hlt : ∀ e, r.2 = some e → r.1 < e) (h : Before r r') :
    ¬ RangeSet.InInterval r' p := by
  obtain ⟨e, he, hle⟩ := h
  have hlt := hlt e he
  unfold clampStart clampEnd at hempty
  rw [he] at hempty
  dsimp only at hempty
  intro hin
  have hstart := hin.1
  omega

/-- The export fails since something is missing, or the pieces of all ranges are sent in order.  If it has panicked,
nothing was left to send. -/
private theorem sendRanges_spec (hlt : ∀ r ∈ ranges, ∀ e, r.2 = some e → r.1 < e)
    (hsep : ranges.Pairwise Before) {lo : Nat}
    (hlo : ∀ r ∈ ranges, lo ≤ clampStart entry.bitfield.size r) (hle : lo ≤ entry.bitfield.size) :
    ((sendRanges entry.bitfield entry.data ranges).2 = some .missing ∧ ¬ ∀ r ∈ ranges, Covered entry.bitfield r) ∨
    ((sendRanges entry.bitfield entry.data ranges).2 = none ∨
      (sendRanges entry.bitfield entry.data ranges).2 = some .panicked) ∧
      (∀ r ∈ ranges, Covered entry.bitfield r) ∧
      Pieces entry.data.stored lo entry.bitfield.size (sendRanges entry.bitfield entry.data ranges).1 ∧
      ∀ p, p < entry.bitfield.size → (∃ r ∈ ranges, RangeSet.InInterval r p) →
        ∃ l ∈ (sendRanges entry.bitfield entry.data ranges).1, l.Has p := by
  induction ranges generalizing lo with
  | nil =>
    refine Or.inr ⟨Or.inl rfl, by simp, pieces_nil _ _ _, ?_⟩
    rintro p - ⟨r, hr, -⟩
    cases hr
  | cons r rest ih =>
    rw [List.forall_mem_cons] at hlt hlo
    rw [List.pairwise_cons] at hsep
    rw [List.forall_mem_cons]
    by_cases hcov : Covered entry.bitfield r
    · obtain ⟨hres, hpieces, hcover⟩ := sendRange_spec hlt.1 hcov
      have hstart := clampStart_le_clampEnd entry.bitfield.size hlt.1
      have hend := clampEnd_le entry.bitfield.size r
      rw [sendRanges]
      rcases hsend : sendRange entry.bitfield entry.data r with ⟨leaves, e⟩
      rw [hsend] at hres hpieces hcover
      dsimp only at hres hpieces hcover
      rcases hres with rfl | ⟨rfl, hempty⟩
      · dsimp only
        rcases ih hlt.2 hsep.2 (fun r' hr' => clampEnd_le_clampStart (hsep.1 r' hr')) hend with
          ⟨hmissing, hnot⟩ | ⟨hres', hall, hpieces', hcover'⟩
        · exact Or.inl ⟨hmissing, fun h => hnot h.2⟩
        · refine Or.inr ⟨hres', ⟨hcov, hall⟩, (hpieces.append hpieces' hstart hend).mono hlo.1, ?_⟩
          intro p hp hin
          rw [List.exists_mem_cons_iff] at hin
          rcases hin with hin | hin
          · obtain ⟨l, hl, hhas⟩ := hcover p hp hin
            exact ⟨l, List.mem_append_left _ hl, hhas⟩
          · obtain ⟨l, hl, hhas⟩ := hcover' p hp hin
            exact ⟨l, List.mem_append_right _ hl, hhas⟩
      · -- the later ranges have nothing before the end
        have hlater : ∀ r' ∈ rest, ∀ p, p < entry.bitfield.size → ¬ RangeSet.InInterval r' p :=
          fun r' hr' p hp => not_inInterval_of_before hp hempty hlt.1 (hsep.1 r' hr')
        refine Or.inr ⟨Or.inr rfl, ⟨hcov, ?_⟩, ?_, ?_⟩
        · intro r' hr' p h1 h2
          have hp : p < entry.bitfield.size := lt_of_lt_of_le h2 (clampEnd_le _ r')
          exact absurd ((inInterval_iff_clamp hp).mpr ⟨h1, h2⟩) (hlater r' hr' p hp)
        · have hwhole := (hpieces.append (pieces_nil entry.data.stored _ entry.bitfield.size) hstart hend).mono hlo.1
          rwa [List.append_nil] at hwhole
        · intro p hp hin
          rw [List.exists_mem_cons_iff] at hin
          rcases hin with hin | ⟨r', hr', hin⟩
          · exact hcover p hp hin
          · exact absurd hin (hlater r' hr' p hp)
    · rw [sendRanges, sendRange_of_not_covered hcov]
      exact Or.inl ⟨rfl, fun h => hcov h.1⟩

end

/-! ### Concatenation -/

/-- The positions of a piece that are in the range. -/
def clipPositions (range : Nat × Option Nat) (leaf : Leaf) : List Nat :=
  List.range' (max range.1 leaf.offset)
    (min (range.2.getD (2 ^ 64 - 1)) (leaf.offset + leaf.data.length) - max range.1 leaf.offset)

private theorem clip_eq {stored : Nat → Option UInt8} {leaf : Leaf}
    (h : leaf.data = (List.range' leaf.offset leaf.data.length).map (byteAt stored)) (range : Nat × Option Nat) :
    clip range leaf = (clipPositions range leaf).map (byteAt stored) := by
  unfold clip clipPositions
  generalize range.2.getD (2 ^ 64 - 1) = stop
  dsimp only
  split
  · rename_i hout
    have hzero : min stop (leaf.offset + leaf.data.length) - max range.1 leaf.offset = 0 := by omega
    rw [hzero]
    rfl
  · rename_i hin
    rw [h, ← List.map_take, ← List.map_drop, List.take_range'_of_length_ge, List.drop_range', List.length_map,
      List.length_range']
    · congr 2
      · omega
      · omega
    · simp only [List.length_map, List.length_range']
      omega

/-- Pieces in order are inserted in order; only empty ones are replaced. -/
theorem foldl_insertLeaf {leaves : List Leaf} (h : leaves.Pairwise (fun a b => a.offset + a.data.length ≤ b.offset)) :
    (leaves.foldl insertLeaf []).Sublist leaves ∧ ∀ l ∈ leaves, l ∈ leaves.foldl insertLeaf [] ∨ l.data = [] := by
  induction leaves using List.reverseRecOn with
  | nil => exact ⟨List.Sublist.slnil, by simp⟩
  | append_singleton leaves x ih =>
    rw [List.pairwise_append] at h
    obtain ⟨hsub, hkept⟩ := ih h.1
    have hle : ∀ l ∈ leaves, l.offset + l.data.length ≤ x.offset := fun l hl => h.2.2 l hl x List.mem_cons_self
    have hafter : (leaves.foldl insertLeaf []).filter (fun l => decide (x.offset < l.offset)) = [] := by
      rw [List.filter_eq_nil_iff]
      intro l hl
      have hl := hle l (hsub.subset hl)
      simp only [decide_eq_true_eq]
      omega
    rw [List.foldl_append, List.foldl_cons, List.foldl_nil, insertLeaf, hafter]
    refine ⟨(List.filter_sublist.trans hsub).append (List.Sublist.refl [x]), ?_⟩
    rw [List.forall_mem_append, List.forall_mem_singleton]
    refine ⟨?_, Or.inl (by simp)⟩
    intro l hl
    have hlx := hle l hl
    rcases Nat.lt_or_ge l.offset x.offset with hlt | hge
    · refine (hkept l hl).imp_left ?_
      intro hmem
      exact List.mem_append_left _ (List.mem_filter.mpr ⟨hmem, decide_eq_true hlt⟩)
    · exact Or.inr (List.length_eq_zero_iff.mp (by omega))

private theorem mem_clipPositions {range : Nat × Option Nat} {leaf : Leaf} {p : Nat} :
    p ∈ clipPositions range leaf ↔ range.1 ≤ p ∧ p < range.2.getD (2 ^ 64 - 1) ∧ leaf.Has p := by
  rw [clipPositions, List.mem_range'_1, Leaf.Has]
  omega

/-- The concatenation has the positions of the ranges before the end, in order. -/
private theorem flatMap_clipPositions {stored : Nat → Option UInt8} {size lo : Nat} {leaves : List Leaf}
    (hp : Pieces stored lo size leaves)
    (hsize : size < 2 ^ 64) {ranges : RangeSet}
    (hcover : ∀ p, p < size → (∃ r ∈ ranges.iter, RangeSet.InInterval r p) → ∃ l ∈ leaves, l.Has p) :
    ranges.iter.flatMap (fun range => (leaves.foldl insertLeaf []).flatMap (clipPositions range)) =
      (List.range size).filter (fun p => decide (p ∈ ranges)) := by
  obtain ⟨hsub, hkept⟩ := foldl_insertLeaf hp.ordered
  have hordered := hp.ordered.sublist hsub
  refine List.Pairwise.eq_of_mem_iff (r := (· < ·)) ?_ (List.pairwise_lt_range.filter _) ?_
  · refine List.pairwise_flatMap.mpr ⟨?_, ?_⟩
    · intro r _
      refine List.pairwise_flatMap.mpr ⟨fun l _ => List.pairwise_lt_range', hordered.imp ?_⟩
      intro l l' hle p hp q hq
      have hp := (mem_clipPositions.mp hp).2.2.2
      have hq := (mem_clipPositions.mp hq).2.2.1
      omega
    · refine ranges.pairwise_iter.imp ?_
      rintro r r' ⟨e, he, hle⟩ p hp q hq
      obtain ⟨l, -, hp⟩ := List.mem_flatMap.mp hp
      obtain ⟨l', -, hq⟩ := List.mem_flatMap.mp hq
      have hp := (mem_clipPositions.mp hp).2.1
      have hq := (mem_clipPositions.mp hq).1
      rw [he, Option.getD_some] at hp
      omega
  · intro p
    rw [List.mem_filter, List.mem_range, decide_eq_true_eq, RangeSet.mem_iff_iter]
    simp only [List.mem_flatMap, mem_clipPositions]
    constructor
    · rintro ⟨r, hr, l, hl, hstart, hstop, hhas⟩
      have hwithin := hp.within l (hsub.subset hl)
      refine ⟨lt_of_lt_of_le hhas.2 hwithin.2, r, hr, hstart, ?_⟩
      intro e he
      rwa [he, Option.getD_some] at hstop
    · rintro ⟨hlt, r, hr, hin⟩
      obtain ⟨l, hl, hhas⟩ := hcover p hlt ⟨r, hr, hin⟩
      have hmem : l ∈ leaves.foldl insertLeaf [] := by
        refine (hkept l hl).resolve_right ?_
        intro hempty
        have h2 := hhas.2
        rw [hempty, List.length_nil] at h2
        exact absurd hhas.1 (by omega)
      refine ⟨r, hr, l, hmem, hin.1, ?_, hhas⟩
      cases he : r.2 with
      | none =>
        rw [Option.getD_none]
        omega
      | some e => exact hin.2 e he

private theorem collectData_append (data leaves : List Leaf) (items : List ExportRangesItem) :
    collectData data (leaves.map .data ++ items) = collectData (leaves.foldl insertLeaf data) items := by
  induction leaves generalizing data with
  | nil => rfl
  | cons leaf leaves ih => exact ih (insertLeaf data leaf)

private theorem concatenate_eq {stored : Nat → Option UInt8} {size lo : Nat} {leaves : List Leaf}
    (hp : Pieces stored lo size leaves)
    (hsize : size < 2 ^ 64) {ranges : RangeSet}
    (hcover : ∀ p, p < size → (∃ r ∈ ranges.iter, RangeSet.InInterval r p) → ∃ l ∈ leaves, l.Has p)
    (hstored : ∀ p ∈ ranges, p < size → (stored p).isSome = true) :
    ranges.iter.flatMap (fun range => (leaves.foldl insertLeaf []).flatMap (clip range)) =
      (List.range size).filterMap (fun p => if p ∈ ranges then stored p else none) := by
  have hsub := (foldl_insertLeaf hp.ordered).1
  have hclip : ∀ range, (leaves.foldl insertLeaf []).flatMap (clip range) =
      ((leaves.foldl insertLeaf []).flatMap (clipPositions range)).map (byteAt stored) := by
    intro range
    rw [List.map_flatMap]
    apply List.flatMap_congr
    intro l hl
    exact clip_eq (hp.bytes l (hsub.subset hl)) range
  have hmap : ranges.iter.flatMap (fun range => (leaves.foldl insertLeaf []).flatMap (clip range)) =
      ((List.range size).filter (fun p => decide (p ∈ ranges))).map (byteAt stored) := by
    rw [← flatMap_clipPositions hp hsize hcover, List.map_flatMap]
    simp only [hclip]
  rw [hmap, ← List.filterMap_eq_map, List.filterMap_filter]
  apply List.filterMap_congr
  intro p hmem
  rw [List.mem_range] at hmem
  simp only [decide_eq_true_eq, Function.comp_apply]
  split
  · rename_i hin
    obtain ⟨b, hb⟩ := Option.isSome_iff_exists.mp (hstored p hin hmem)
    rw [byteAt, hb, Option.getD_some]
  · rfl

/-! ### Exact export -/

private theorem forall_covered_iff {bitfield : Bitfield} {ranges : RangeSet} :
    (∀ r ∈ ranges.iter, Covered bitfield r) ↔ ∀ p ∈ ranges, p < bitfield.size → p / 1024 ∈ bitfield.ranges := by
  constructor
  · intro h p hp hlt
    obtain ⟨r, hr, hin⟩ := RangeSet.mem_iff_iter.mp hp
    rw [inInterval_iff_clamp hlt] at hin
    exact h r hr p hin.1 hin.2
  · intro h r hr p h1 h2
    have hlt : p < bitfield.size := lt_of_lt_of_le h2 (clampEnd_le _ r)
    exact h p (RangeSet.mem_iff_iter.mpr ⟨r, hr, (inInterval_iff_clamp hlt).mpr ⟨h1, h2⟩⟩) hlt

/-- The export and its concatenation succeed exactly if the requested chunks are there, and give the requested bytes
in order. -/
structure ExactExport (entry : RangesEntry) (ranges : RangeSet) (items : List ExportRangesItem) : Prop where
  succeeds : (∃ bytes, concatenate ranges items = some bytes) ↔
    ∀ p ∈ ranges, p < entry.bitfield.size → p / 1024 ∈ entry.bitfield.ranges
  bytes : ∀ bytes, concatenate ranges items = some bytes →
    bytes = (List.range entry.bitfield.size).filterMap (fun p => if p ∈ ranges then entry.data.stored p else none)

/-- Two exact exports have the same result. -/
private theorem ExactExport.unique {entry : RangesEntry} {ranges : RangeSet} {items items' : List ExportRangesItem}
    (h : ExactExport entry ranges items) (h' : ExactExport entry ranges items') :
    concatenate ranges items = concatenate ranges items' := by
  cases hitems : concatenate ranges items with
  | none =>
    cases hitems' : concatenate ranges items' with
    | none => rfl
    | some bytes' =>
      obtain ⟨bytes, hsome⟩ := h.succeeds.mpr (h'.succeeds.mp ⟨bytes', hitems'⟩)
      rw [hitems] at hsome
      cases hsome
  | some bytes =>
    obtain ⟨bytes', hitems'⟩ := h'.succeeds.mpr (h.succeeds.mp ⟨bytes, hitems⟩)
    rw [hitems', h.bytes bytes hitems, h'.bytes bytes' hitems']

private theorem exactExport_sendRanges (entry : RangesEntry) (ranges : RangeSet) :
    ExactExport entry ranges (sentItems (sendRanges entry.bitfield entry.data ranges.iter)) := by
  have hlt : ∀ r ∈ ranges.iter, ∀ e, r.2 = some e → r.1 < e := by
    intro r hr e he
    exact RangeSet.lt_of_mem_iter (by rw [← he]; exact hr)
  have hspec := sendRanges_spec hlt ranges.pairwise_iter (fun r _ => Nat.zero_le _) (Nat.zero_le entry.bitfield.size)
  rcases hsend : sendRanges entry.bitfield entry.data ranges.iter with ⟨leaves, e⟩
  rw [hsend] at hspec
  dsimp only at hspec
  rcases hspec with ⟨rfl, hmissing⟩ | ⟨hend, hall, hpieces, hcover⟩
  · rw [forall_covered_iff] at hmissing
    have hnone : concatenate ranges (sentItems (leaves, some .missing)) = none := by
      rw [concatenate, sentItems, collectData_append]
      rfl
    refine ⟨iff_of_false ?_ hmissing, ?_⟩
    · rintro ⟨bytes, h⟩
      rw [hnone] at h
      cases h
    · intro bytes h
      rw [hnone] at h
      cases h
  · have hsome : concatenate ranges (sentItems (leaves, e)) = some ((List.range entry.bitfield.size).filterMap
        (fun p => if p ∈ ranges then entry.data.stored p else none)) := by
      rw [forall_covered_iff] at hall
      have hno : errorItem e = [] := by
        rcases hend with rfl | rfl <;> rfl
      have heq := concatenate_eq hpieces entry.size_lt hcover (fun p hp hlt => entry.present p hlt (hall p hp hlt))
      rw [concatenate, sentItems, hno, collectData_append, collectData, Option.map_some, heq]
    refine ⟨iff_of_true ⟨_, hsome⟩ (forall_covered_iff.mp hall), ?_⟩
    intro bytes h
    rw [hsome] at h
    exact (Option.some.inj h).symm

/-- Two entries with the same bitfield and the same bytes in its chunks, in whatever they are stored. -/
structure SameData (entry entry' : RangesEntry) : Prop where
  bitfield : entry'.bitfield = entry.bitfield
  stored : ∀ p, p < entry.bitfield.size → p / 1024 ∈ entry.bitfield.ranges → entry'.data.stored p = entry.data.stored p

private theorem ExactExport.congr {entry entry' : RangesEntry} {ranges : RangeSet} {items : List ExportRangesItem}
    (hsame : SameData entry entry')
    (h : ExactExport entry' ranges items) : ExactExport entry ranges items := by
  obtain ⟨hsucceeds, hbytes⟩ := h
  rw [hsame.bitfield] at hsucceeds hbytes
  refine ⟨hsucceeds, fun bytes hb => (hbytes bytes hb).trans ?_⟩
  have hall := hsucceeds.mp ⟨bytes, hb⟩
  apply List.filterMap_congr
  intro p hp
  split
  · rename_i hin
    exact hsame.stored p (List.mem_range.mp hp) (hall p hin (List.mem_range.mp hp))
  · rfl

/-- The export of ranges is exact in all stores, and the stores give the same result for the same data. -/
theorem export_ranges_exact (entry : RangesEntry) (ranges : RangeSet) :
    ExactExport entry ranges (exportRangesFs entry ranges) ∧
    (∀ entry', SameData entry entry' → ExactExport entry ranges (exportRangesMem entry' ranges) ∧
      concatenate ranges (exportRangesMem entry' ranges) = concatenate ranges (exportRangesFs entry ranges)) ∧
    ∀ entry' size, SameData entry entry' → entry'.bitfield = Bitfield.complete size →
      ExactExport entry ranges (exportRangesReadonly size entry'.data ranges) ∧
        concatenate ranges (exportRangesReadonly size entry'.data ranges) =
          concatenate ranges (exportRangesFs entry ranges) := by
  have hfs : ExactExport entry ranges (exportRangesFs entry ranges) := exactExport_sendRanges entry ranges
  refine ⟨hfs, ?_, ?_⟩
  · intro entry' hsame
    have hmem : ExactExport entry ranges (exportRangesMem entry' ranges) :=
      (exactExport_sendRanges entry' ranges).congr hsame
    exact ⟨hmem, hmem.unique hfs⟩
  · intro entry' size hsame hcomplete
    have hitems : exportRangesReadonly size entry'.data ranges =
      sentItems (sendRanges entry'.bitfield entry'.data ranges.iter) := by
      rw [exportRangesReadonly, hcomplete]
    have hreadonly : ExactExport entry ranges (exportRangesReadonly size entry'.data ranges) := by
      rw [hitems]
      exact (exactExport_sendRanges entry' ranges).congr hsame
    exact ⟨hreadonly, hreadonly.unique hfs⟩

/-- The second chunk of a blob of two chunks, in a vector with a gap. -/
def secondChunk : RangesEntry where
  bitfield := ⟨2048, RangeSet.range 1 2⟩
  data := .sparse (List.replicate 2048 7) (by rw [List.length_replicate]; decide) (fun p => decide (1024 ≤ p))
  size_lt := by decide
  present p hp hmem := by
    have hle : 1024 ≤ p := by
      have hmem := (RangeSet.mem_range.mp hmem).1
      omega
    have hp : p < 2048 := hp
    show (if decide (1024 ≤ p) then (List.replicate 2048 7)[p]? else none).isSome = true
    rw [if_pos (decide_eq_true hle), List.getElem?_replicate, if_pos hp]
    rfl

/-- Bytes of the second chunk are exported, also from another vector that has all bytes, and bytes of the first chunk
are not. -/
theorem export_ranges_exact_secondChunk :
    (∃ bytes, concatenate (RangeSet.range 1500 1600)
      (exportRangesFs secondChunk (RangeSet.range 1500 1600)) = some bytes) ∧
    concatenate (RangeSet.range 1500 1600) (exportRangesMem secondChunk (RangeSet.range 1500 1600)) =
      concatenate (RangeSet.range 1500 1600) (exportRangesFs secondChunk (RangeSet.range 1500 1600)) ∧
    ¬ (∃ bytes, concatenate (RangeSet.range 1000 1600)
      (exportRangesFs secondChunk (RangeSet.range 1000 1600)) = some bytes) ∧
    concatenate RangeSet.all (exportRangesReadonly 1 (RangesEntry.ofData [7] (by decide)).data RangeSet.all) =
      concatenate RangeSet.all (exportRangesFs (RangesEntry.ofData [7] (by decide)) RangeSet.all) := by
  obtain ⟨hfs, hmem, -⟩ := export_ranges_exact secondChunk (RangeSet.range 1500 1600)
  obtain ⟨hfs', -, -⟩ := export_ranges_exact secondChunk (RangeSet.range 1000 1600)
  obtain ⟨-, -, hreadonly⟩ := export_ranges_exact (RangesEntry.ofData [7] (by decide)) RangeSet.all
  refine ⟨hfs.succeeds.mpr ?_, (hmem secondChunk ⟨rfl, fun _ _ _ => rfl⟩).2, fun h => ?_,
    (hreadonly (RangesEntry.ofData [7] (by decide)) 1 ⟨rfl, fun _ _ _ => rfl⟩ rfl).2⟩
  · intro p hp _
    rw [RangeSet.mem_range] at hp
    exact RangeSet.mem_range.mpr ⟨by omega, by omega⟩
  · have hchunk := hfs'.succeeds.mp h 1000 (RangeSet.mem_range.mpr ⟨by decide, by decide⟩) (by decide)
    exact absurd (RangeSet.mem_range.mp hchunk).1 (by decide)

end IrohBlobs
