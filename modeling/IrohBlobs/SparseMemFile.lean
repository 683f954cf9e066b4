import IrohBlobs.Content
import IrohBlobs.RangeIter
import IrohBlobs.RangeWire

/-!
# Sparse files in memory

The model of `store/util/sparse_mem_file.rs`.  A sparse file keeps its bytes, with zeros in the gaps, and the ranges
that were written.  Persisting it copies the ranges to a target, with one call of `write_at` for each of them.  A
target may write fewer bytes than it is given; the number that it returns is ignored, so what it leaves out is lost.

The content of a sparse file is that of the files of `Content`, and persisting it to a file is `Content.persist`,
whatever the file leaves out (`persist_content`).
-/

namespace IrohBlobs

structure SparseMemFile where
  /-- The data, with zeros in the gaps. -/
  data : List UInt8
  ranges : RangeSet

inductive IoError
  | invalidInput

/-- `write_at` of a vector: it is extended with zeros, and the whole buffer is written. -/
def vecWriteAt (data : List UInt8) (pos : Nat) (buf : List UInt8) : List UInt8 :=
  let data := data ++ List.replicate (pos + buf.length - data.length) 0
  data.take pos ++ buf ++ data.drop (pos + buf.length)

namespace SparseMemFile

def new : SparseMemFile := ⟨[], ∅⟩

def writeAt (file : SparseMemFile) (offset : Nat) (buf : List UInt8) : Except IoError (SparseMemFile × Nat) :=
  match addU64 offset buf.length with
  | none => .error .invalidInput
  | some stop => .ok (⟨vecWriteAt file.data offset buf, file.ranges ∪ RangeSet.range offset stop⟩, buf.length)

/-- The bytes of a range; nothing where the source panics. -/
def slice (data : List UInt8) (start stop : Nat) : Option (List UInt8) :=
  if start ≤ stop ∧ stop ≤ data.length then some ((data.take stop).drop start) else none

end SparseMemFile

/-- A target of writes: its `write_at` returns an error or a number of bytes, and has then written so many bytes of the
buffer.  `byte` is what it holds; nothing where it was never written. -/
structure WriteTarget (σ ε : Type) where
  writeAt : σ → Nat → List UInt8 → Except ε Nat × σ
  byte : σ → Nat → Option UInt8
  le_length : ∀ {s pos buf n s'}, writeAt s pos buf = (.ok n, s') → n ≤ buf.length
  byte_writeAt : ∀ {s pos buf n s'}, writeAt s pos buf = (.ok n, s') →
    ∀ i, byte s' i = if pos ≤ i ∧ i < pos + n then buf[i - pos]? else byte s i

namespace SparseMemFile

section Persist

variable {σ ε : Type} (target : WriteTarget σ ε)

/-- The loop of `persist` over the ranges; nothing where the source panics. -/
def persistLoop (data : List UInt8) : List (Nat × Option Nat) → σ → Option (Except ε Unit × σ)
  | [], s => some (.ok (), s)
  | range :: ranges, s =>
    match slice data range.1 (range.2.getD data.length) with
    | none => none
    | some buf =>
      match target.writeAt s range.1 buf with
      | (.error e, s) => some (.error e, s)
      | (.ok _, s) => persistLoop data ranges s

def persist (file : SparseMemFile) (s : σ) : Option (Except ε Unit × σ) :=
  persistLoop target file.data file.ranges.iter s

end Persist

/-! ### What was written -/

/-- The file after a call; a call that fails does not change it. -/
def afterCall (file : SparseMemFile) (call : Nat × List UInt8) : SparseMemFile :=
  match file.writeAt call.1 call.2 with
  | .ok (file, _) => file
  | .error _ => file

def afterCalls (calls : List (Nat × List UInt8)) : SparseMemFile := calls.foldl afterCall new

/-- The calls that do not fail: their end fits. -/
def accepted (calls : List (Nat × List UInt8)) : List (Nat × List UInt8) :=
  calls.filter fun call => decide (call.1 + call.2.length < 2 ^ 64)

/-- The byte that a write puts at a position. -/
def byteAt (i : Nat) (write : Nat × List UInt8) : Option UInt8 := if write.1 ≤ i then write.2[i - write.1]? else none

/-- The byte of the last write that covers a position. -/
def lastByte (writes : List (Nat × List UInt8)) (i : Nat) : Option UInt8 := writes.reverse.findSome? (byteAt i)

/-- The file keeps the writes: their ranges, their bytes, and zeros where nothing was written. -/
structure Keeps (file : SparseMemFile) (writes : List (Nat × List UInt8)) : Prop where
  mem_ranges : ∀ i, i ∈ file.ranges ↔ ∃ w ∈ writes, w.1 ≤ i ∧ i < w.1 + w.2.length
  within : ∀ i ∈ file.ranges, i < file.data.length
  length : file.data.length = (writes.map fun w => w.1 + w.2.length).foldl max 0
  byte : ∀ i, i < file.data.length → file.data[i]? = some ((lastByte writes i).getD 0)

/-- The target holds the bytes of the ranges, and is the same elsewhere. -/
structure Copied {σ ε : Type} (target : WriteTarget σ ε) (file : SparseMemFile) (s s' : σ) : Prop where
  copied : ∀ i ∈ file.ranges, target.byte s' i = file.data[i]?
  untouched : ∀ i, ¬ i ∈ file.ranges → target.byte s' i = target.byte s i

end SparseMemFile

open SparseMemFile

namespace WriteTarget

variable {σ ε : Type}

/-- After all writes the file keeps them, and persisting it fails or copies them. -/
def PersistsWrites (target : WriteTarget σ ε) : Prop :=
  ∀ calls : List (Nat × List UInt8), (∀ w ∈ calls, w.2 ≠ []) →
    Keeps (afterCalls calls) (accepted calls) ∧
    ∀ s, ∃ r s', persist target (afterCalls calls) s = some (r, s') ∧
      ((∃ e, r = .error e) ∨ Copied target (afterCalls calls) s s')

/-- Bytes that a write leaves out are there already. -/
def OmitsOnlyPresent (target : WriteTarget σ ε) : Prop :=
  ∀ s pos buf n s', buf ≠ [] → pos + buf.length < 2 ^ 64 → target.writeAt s pos buf = (.ok n, s') →
    ∀ j, n ≤ j → j < buf.length → target.byte s (pos + j) = buf[j]?

end WriteTarget

/-! ### Writing -/

private theorem length_vecWriteAt (data : List UInt8) (pos : Nat) (buf : List UInt8) :
    (vecWriteAt data pos buf).length = max data.length (pos + buf.length) := by
  simp only [vecWriteAt, List.length_append, List.length_take, List.length_drop, List.length_replicate]
  omega

private theorem getElem?_vecWriteAt_of_mem {data : List UInt8} {pos i : Nat} {buf : List UInt8} (h : pos ≤ i)
    (h' : i < pos + buf.length) : (vecWriteAt data pos buf)[i]? = buf[i - pos]? := by
  have hlen : (List.take pos (data ++ List.replicate (pos + buf.length - data.length) 0)).length = pos := by
    simp only [List.length_take, List.length_append, List.length_replicate]
    omega
  rw [vecWriteAt, List.append_assoc, List.getElem?_append_right (by omega), hlen, List.getElem?_append_left (by omega)]

private theorem getElem?_vecWriteAt_of_not_mem {data : List UInt8} {pos i : Nat} {buf : List UInt8}
    (h : ¬ (pos ≤ i ∧ i < pos + buf.length)) (hi : i < max data.length (pos + buf.length)) :
    (vecWriteAt data pos buf)[i]? = some (data[i]?.getD 0) := by
  have hlen : (List.take pos (data ++ List.replicate (pos + buf.length - data.length) 0)).length = pos := by
    simp only [List.length_take, List.length_append, List.length_replicate]
    omega
  -- outside of the buffer it is the extended data
  have hext : (data ++ List.replicate (pos + buf.length - data.length) 0)[i]? = some (data[i]?.getD 0) := by
    rcases Nat.lt_or_ge i data.length with hlt | hge
    · rw [List.getElem?_append_left hlt, List.getElem?_eq_getElem hlt]
      rfl
    · rw [List.getElem?_append_right hge, List.getElem?_replicate, if_pos (by omega), List.getElem?_eq_none hge]
      rfl
  rw [vecWriteAt, List.append_assoc]
  rcases Nat.lt_or_ge i pos with hlt | hge
  · rw [List.getElem?_append_left (by omega), List.getElem?_take, if_pos hlt, hext]
  · rw [List.getElem?_append_right (by omega), hlen, List.getElem?_append_right (by omega), List.getElem?_drop, ← hext]
    congr 1
    omega

namespace SparseMemFile

private theorem writeAt_of_lt {file : SparseMemFile} {offset : Nat} {buf : List UInt8}
    (h : offset + buf.length < 2 ^ 64) :
    file.writeAt offset buf =
      .ok (⟨vecWriteAt file.data offset buf, file.ranges ∪ RangeSet.range offset (offset + buf.length)⟩,
        buf.length) := by
  rw [writeAt, addU64_of_lt h]

private theorem afterCall_of_lt {file : SparseMemFile} {w : Nat × List UInt8} (h : w.1 + w.2.length < 2 ^ 64) :
    file.afterCall w = ⟨vecWriteAt file.data w.1 w.2, file.ranges ∪ RangeSet.range w.1 (w.1 + w.2.length)⟩ := by
  rw [afterCall, writeAt_of_lt h]

private theorem afterCall_of_ge {file : SparseMemFile} {w : Nat × List UInt8} (h : 2 ^ 64 ≤ w.1 + w.2.length) :
    file.afterCall w = file := by
  rw [afterCall, writeAt, addU64, if_neg (by omega)]

private theorem lastByte_concat (writes : List (Nat × List UInt8)) (w : Nat × List UInt8) (i : Nat) :
    lastByte (writes ++ [w]) i = (byteAt i w).or (lastByte writes i) := by
  rw [lastByte, List.reverse_append, List.reverse_singleton, List.singleton_append, List.findSome?_cons]
  cases byteAt i w <;> rfl

private theorem byteAt_of_mem {w : Nat × List UInt8} {i : Nat} (h : w.1 ≤ i) : byteAt i w = w.2[i - w.1]? := if_pos h

private theorem byteAt_of_not_mem {w : Nat × List UInt8} {i : Nat} (h : ¬ (w.1 ≤ i ∧ i < w.1 + w.2.length)) :
    byteAt i w = none := by
  unfold byteAt
  split
  · exact List.getElem?_eq_none (by omega)
  · rfl

private theorem keeps_new : Keeps new [] := ⟨by simp [new], by simp [new], rfl, by simp [new]⟩

/-- One more write is kept. -/
private theorem Keeps.write {file : SparseMemFile} {writes : List (Nat × List UInt8)} (h : Keeps file writes)
    {w : Nat × List UInt8}
    (hne : w.2 ≠ []) :
    Keeps ⟨vecWriteAt file.data w.1 w.2, file.ranges ∪ RangeSet.range w.1 (w.1 + w.2.length)⟩ (writes ++ [w]) := by
  have hpos := List.length_pos_iff.mpr hne
  refine ⟨?_, ?_, ?_, ?_⟩
  · intro i
    rw [RangeSet.mem_union, RangeSet.mem_range, h.mem_ranges]
    simp [or_and_right, exists_or]
  · intro i hi
    rw [RangeSet.mem_union, RangeSet.mem_range] at hi
    rw [length_vecWriteAt]
    rcases hi with hi | hi
    · have := h.within i hi
      omega
    · omega
  · rw [length_vecWriteAt, h.length, List.map_append, List.foldl_append]
    rfl
  · intro i hi
    rw [length_vecWriteAt] at hi
    rw [lastByte_concat]
    by_cases hmem : w.1 ≤ i ∧ i < w.1 + w.2.length
    · have hlt : i - w.1 < w.2.length := by omega
      rw [getElem?_vecWriteAt_of_mem hmem.1 hmem.2, byteAt_of_mem hmem.1, List.getElem?_eq_getElem hlt]
      rfl
    · rw [getElem?_vecWriteAt_of_not_mem hmem hi, byteAt_of_not_mem hmem, Option.none_or]
      rcases Nat.lt_or_ge i file.data.length with hlt | hge
      · rw [h.byte i hlt]
        rfl
      · -- nothing was written beyond the end
        have hnone : lastByte writes i = none := by
          rw [lastByte, List.findSome?_eq_none_iff]
          intro v hv
          refine byteAt_of_not_mem ?_
          rintro ⟨h1, h2⟩
          have := h.within i ((h.mem_ranges i).mpr ⟨v, List.mem_reverse.mp hv, h1, h2⟩)
          omega
        rw [List.getElem?_eq_none hge, hnone]

private theorem keeps_foldl {file : SparseMemFile} {writes calls : List (Nat × List UInt8)} (h : Keeps file writes)
    (hne : ∀ w ∈ calls, w.2 ≠ []) : Keeps (calls.foldl afterCall file) (writes ++ accepted calls) := by
  induction calls generalizing file writes with
  | nil =>
    rw [accepted, List.filter_nil, List.append_nil]
    exact h
  | cons w calls ih =>
    have hrest : ∀ w' ∈ calls, w'.2 ≠ [] := fun w' hw' => hne w' (List.mem_cons_of_mem _ hw')
    rw [List.foldl_cons, accepted]
    rcases Nat.lt_or_ge (w.1 + w.2.length) (2 ^ 64) with hlt | hge
    · have hstep := ih (h.write (hne w List.mem_cons_self)) hrest
      rw [List.append_assoc, List.singleton_append] at hstep
      rw [List.filter_cons_of_pos (by simpa using hlt), afterCall_of_lt hlt]
      exact hstep
    · rw [List.filter_cons_of_neg (by simpa using hge), afterCall_of_ge hge]
      exact ih h hrest

/-- After any calls the file keeps those that did not fail. -/
theorem keeps_afterCalls {calls : List (Nat × List UInt8)} (hne : ∀ w ∈ calls, w.2 ≠ []) :
    Keeps (afterCalls calls) (accepted calls) :=
  keeps_foldl keeps_new hne

/-! ### Persisting -/

/-- The range lies within the data. -/
def RangeWithin (data : List UInt8) (range : Nat × Option Nat) : Prop :=
  ∃ stop, range.2 = some stop ∧ range.1 < stop ∧ stop ≤ data.length

/-- The ranges of a file within its data. -/
theorem rangeWithin_of_mem_iter {file : SparseMemFile} (hwithin : ∀ i ∈ file.ranges, i < file.data.length)
    {range : Nat × Option Nat} (h : range ∈ file.ranges.iter) : RangeWithin file.data range := by
  obtain ⟨start, stop⟩ := range
  cases stop with
  | none =>
    -- an open range is not bounded
    have hmem : max start file.data.length ∈ file.ranges :=
      RangeSet.mem_iff_iter.mpr ⟨_, h, Nat.le_max_left _ _, fun e he => by cases he⟩
    have := hwithin _ hmem
    omega
  | some stop =>
    have hlt := RangeSet.lt_of_mem_iter h
    have hmem : stop - 1 ∈ file.ranges := by
      refine RangeSet.mem_iff_iter.mpr ⟨_, h, ?_, ?_⟩
      · show start ≤ stop - 1
        omega
      · intro e he
        cases he
        omega
    have := hwithin _ hmem
    exact ⟨stop, rfl, hlt, by omega⟩

private theorem slice_of_within (data : List UInt8) {start stop : Nat} (hlt : start < stop) (hle : stop ≤ data.length) :
    ∃ buf, slice data start stop = some buf ∧ buf.length = stop - start ∧ ∀ j, j < stop - start →
      buf[j]? = data[start + j]? := by
  refine ⟨_, if_pos ⟨by omega, hle⟩, ?_, ?_⟩
  · simp only [List.length_drop, List.length_take]
    omega
  · intro j hj
    rw [List.getElem?_drop, List.getElem?_take, if_pos (by omega)]

section Loop

variable {σ ε : Type} (target : WriteTarget σ ε) {data : List UInt8}

/-- One round of the loop: it fails, or the range is written as far as the target does. -/
theorem persistLoop_cons {start stop : Nat} (hlt : start < stop) (hle : stop ≤ data.length)
    (ranges : List (Nat × Option Nat))
    (s : σ) : ∃ buf, buf.length = stop - start ∧ (∀ j, j < stop - start → buf[j]? = data[start + j]?) ∧
      ((∃ e s', persistLoop target data ((start, some stop) :: ranges) s = some (.error e, s')) ∨
        ∃ n s', target.writeAt s start buf = (.ok n, s') ∧
          persistLoop target data ((start, some stop) :: ranges) s = persistLoop target data ranges s') := by
  obtain ⟨buf, hbuf, hlen, hget⟩ := slice_of_within data hlt hle
  refine ⟨buf, hlen, hget, ?_⟩
  simp only [persistLoop, Option.getD_some, hbuf]
  rcases hwrite : target.writeAt s start buf with ⟨e | n, s'⟩
  · exact Or.inl ⟨e, s', rfl⟩
  · exact Or.inr ⟨n, s', rfl, rfl⟩

/-- The loop ends, and does not touch what is not in the ranges. -/
theorem persistLoop_untouched {ranges : List (Nat × Option Nat)} (hwithin : ∀ r ∈ ranges, RangeWithin data r) (s : σ) :
    ∃ r s', persistLoop target data ranges s = some (r, s') ∧ ((∃ e, r = .error e) ∨
      r = .ok () ∧ ∀ i, (¬ ∃ range ∈ ranges, RangeSet.InInterval range i) → target.byte s' i = target.byte s i) := by
  induction ranges generalizing s with
  | nil => exact ⟨.ok (), s, rfl, Or.inr ⟨rfl, fun _ _ => rfl⟩⟩
  | cons range ranges ih =>
    obtain ⟨start, stop⟩ := range
    obtain ⟨stop, rfl, hlt, hle⟩ := hwithin _ List.mem_cons_self
    obtain ⟨buf, hlen, -, herror | ⟨n, s₁, hwrite, hloop⟩⟩ := persistLoop_cons target hlt hle ranges s
    · obtain ⟨e, s', herror⟩ := herror
      exact ⟨_, _, herror, Or.inl ⟨e, rfl⟩⟩
    · obtain ⟨r, s', hrest, hcases⟩ := ih (fun r hr => hwithin r (List.mem_cons_of_mem _ hr)) s₁
      refine ⟨r, s', hloop.trans hrest, ?_⟩
      rcases hcases with herror | ⟨hok, huntouched⟩
      · exact Or.inl herror
      · refine Or.inr ⟨hok, ?_⟩
        intro i hi
        rw [huntouched i fun ⟨range, hrange, hmem⟩ => hi ⟨range, List.mem_cons_of_mem _ hrange, hmem⟩,
          target.byte_writeAt hwrite, if_neg]
        rintro ⟨h1, h2⟩
        have hn := target.le_length hwrite
        refine hi ⟨_, List.mem_cons_self, h1, ?_⟩
        intro e he
        cases he
        omega

/-- What a successful loop copies, if the target leaves out only bytes that it has. -/
private theorem persistLoop_copied (homits : target.OmitsOnlyPresent) (hdata : data.length < 2 ^ 64)
    {ranges : List (Nat × Option Nat)} (hwithin : ∀ r ∈ ranges, RangeWithin data r)
    (hsorted : ranges.Pairwise fun r r' => ∃ e, r.2 = some e ∧ e ≤ r'.1) {s s' : σ}
    (h : persistLoop target data ranges s = some (.ok (), s')) :
    ∀ range ∈ ranges, ∀ i, RangeSet.InInterval range i → target.byte s' i = data[i]? := by
  induction ranges generalizing s with
  | nil => simp
  | cons range ranges ih =>
    have hrest : ∀ r ∈ ranges, RangeWithin data r := fun r hr => hwithin r (List.mem_cons_of_mem _ hr)
    rw [List.pairwise_cons] at hsorted
    obtain ⟨start, stop⟩ := range
    obtain ⟨stop, rfl, hlt, hle⟩ := hwithin _ List.mem_cons_self
    obtain ⟨buf, hlen, hget, ⟨e, s₁, herror⟩ | ⟨n, s₁, hwrite, hloop⟩⟩ := persistLoop_cons target hlt hle ranges s
    · rw [herror] at h
      cases h
    · rw [hloop] at h
      intro range hrange i hi
      rcases List.mem_cons.mp hrange with rfl | hrange
      · have h1 : start ≤ i := hi.1
        have h2 : i < stop := hi.2 stop rfl
        -- later ranges start after this one
        have hlater : ¬ ∃ r ∈ ranges, RangeSet.InInterval r i := by
          rintro ⟨r, hr, hmem⟩
          obtain ⟨e, he, hle'⟩ := hsorted.1 r hr
          cases he
          have := hmem.1
          omega
        obtain ⟨r, s₂, hrun, hcases⟩ := persistLoop_untouched target hrest s₁
        rw [h, Option.some.injEq, Prod.mk.injEq] at hrun
        obtain ⟨rfl, rfl⟩ := hrun
        have hsame : target.byte s' i = target.byte s₁ i := by
          rcases hcases with ⟨e, he⟩ | ⟨-, huntouched⟩
          · cases he
          · exact huntouched i hlater
        have hbuf : buf[i - start]? = data[i]? := by
          rw [hget (i - start) (by omega), Nat.add_sub_cancel' h1]
        rw [hsame, target.byte_writeAt hwrite]
        split
        · exact hbuf
        · have hne : buf ≠ [] := List.length_pos_iff.mp (by omega)
          have hpresent := homits s start buf n s₁ hne (by omega) hwrite (i - start) (by omega) (by omega)
          rw [Nat.add_sub_cancel' h1] at hpresent
          rw [hpresent, hbuf]
      · exact ih hrest hsorted.2 h range hrange i hi

end Loop

private theorem foldl_max_lt {l : List Nat} {a n : Nat} (ha : a < n) (hl : ∀ x ∈ l, x < n) : l.foldl max a < n := by
  induction l generalizing a with
  | nil => exact ha
  | cons x l ih =>
    have hx := hl x List.mem_cons_self
    exact ih (by omega) fun y hy => hl y (List.mem_cons_of_mem _ hy)

private theorem Keeps.length_lt {file : SparseMemFile} {calls : List (Nat × List UInt8)}
    (h : Keeps file (accepted calls)) :
    file.data.length < 2 ^ 64 := by
  rw [h.length]
  refine foldl_max_lt (by decide) ?_
  intro x hx
  obtain ⟨w, hw, rfl⟩ := List.mem_map.mp hx
  simpa using (List.mem_filter.mp hw).2

/-- The file with a single write. -/
theorem afterCalls_singleton {pos : Nat} {buf : List UInt8} (h : pos + buf.length < 2 ^ 64) :
    afterCalls [(pos, buf)] = ⟨vecWriteAt [] pos buf, RangeSet.range pos (pos + buf.length)⟩ := by
  rw [afterCalls, List.foldl_cons, List.foldl_nil, afterCall_of_lt h]
  congr 1
  apply RangeSet.ext_mem
  intro i
  simp [new]

end SparseMemFile

namespace WriteTarget

variable {σ ε : Type} {target : WriteTarget σ ε}

/-- Persisting a file with a single write is a single write. -/
theorem persist_singleton {pos : Nat} {buf : List UInt8} (hne : buf ≠ []) (h : pos + buf.length < 2 ^ 64)
    {s s' : σ} {n : Nat}
    (hwrite : target.writeAt s pos buf = (.ok n, s')) :
    persist target (afterCalls [(pos, buf)]) s = some (.ok (), s') := by
  have hpos := List.length_pos_iff.mpr hne
  have hiter : (RangeSet.range pos (pos + buf.length)).iter = [(pos, some (pos + buf.length))] := by
    rw [RangeSet.iter, RangeSet.range, dif_pos (by omega)]
    rfl
  have hslice : slice (vecWriteAt [] pos buf) pos (pos + buf.length) = some buf := by
    have hlt : pos < pos + buf.length := by omega
    obtain ⟨buf', hslice, hlen, hget⟩ := slice_of_within (vecWriteAt [] pos buf) hlt (by rw [length_vecWriteAt]; omega)
    rw [hslice, Option.some.injEq]
    apply List.ext_getElem?
    intro j
    rcases Nat.lt_or_ge j buf.length with hj | hj
    · rw [hget j (by omega), getElem?_vecWriteAt_of_mem (by omega) (by omega), Nat.add_sub_cancel_left]
    · rw [List.getElem?_eq_none (by omega), List.getElem?_eq_none hj]
  rw [persist, afterCalls_singleton h, hiter]
  simp only [persistLoop, Option.getD_some, hslice, hwrite]

/-- Persisting never loses a write if and only if the target leaves out only bytes that it has already. -/
theorem persistsWrites_iff (target : WriteTarget σ ε) : target.PersistsWrites ↔ target.OmitsOnlyPresent := by
  constructor
  · intro h s pos buf n s' hne hlt hwrite j hn hj
    obtain ⟨-, hpersist⟩ := h [(pos, buf)] (by simpa using hne)
    obtain ⟨r, s'', hrun, hcases⟩ := hpersist s
    rw [persist_singleton hne hlt hwrite, Option.some.injEq, Prod.mk.injEq] at hrun
    obtain ⟨rfl, rfl⟩ := hrun
    rcases hcases with ⟨e, he⟩ | hcopied
    · cases he
    · have hmem : pos + j ∈ (afterCalls [(pos, buf)]).ranges := by
        rw [afterCalls_singleton hlt, RangeSet.mem_range]
        omega
      have hbyte := hcopied.copied (pos + j) hmem
      rw [target.byte_writeAt hwrite, if_neg (by omega), afterCalls_singleton hlt] at hbyte
      rw [hbyte, getElem?_vecWriteAt_of_mem (by omega) (by omega), Nat.add_sub_cancel_left]
  · intro homits calls hne
    have hkeeps := keeps_afterCalls hne
    refine ⟨hkeeps, ?_⟩
    intro s
    have hwithin : ∀ r ∈ (afterCalls calls).ranges.iter, RangeWithin (afterCalls calls).data r :=
      fun r hr => rangeWithin_of_mem_iter hkeeps.within hr
    obtain ⟨r, s', hrun, hcases⟩ := persistLoop_untouched target hwithin s
    refine ⟨r, s', hrun, ?_⟩
    rcases hcases with herror | ⟨rfl, huntouched⟩
    · exact Or.inl herror
    · refine Or.inr ⟨?_, ?_⟩
      · intro i hi
        obtain ⟨range, hrange, hmem⟩ := RangeSet.mem_iff_iter.mp hi
        exact persistLoop_copied target homits hkeeps.length_lt hwithin
          (RangeSet.pairwise_iter _) hrun range hrange i hmem
      · intro i hi
        exact huntouched i fun h => hi (RangeSet.mem_iff_iter.mpr h)

/-- A target that writes one byte at a time. -/
def oneByte : WriteTarget (Nat → Option UInt8) Empty where
  writeAt s pos buf :=
    (.ok (min 1 buf.length), fun i => if pos ≤ i ∧ i < pos + min 1 buf.length then buf[i - pos]? else s i)
  byte s := s
  le_length := by
    intro s pos buf n s' h
    cases h
    exact Nat.min_le_right _ _
  byte_writeAt := by
    intro s pos buf n s' h i
    cases h
    rfl

/-- Of two bytes the second one is lost, although persisting succeeds. -/
theorem not_persistsWrites_oneByte :
    (∃ s', persist oneByte (afterCalls [(0, [1, 2])]) (fun _ => none) = some (.ok (), s') ∧
      1 ∈ (afterCalls [(0, [1, 2])]).ranges ∧ s' 1 = none) ∧ ¬ oneByte.PersistsWrites := by
  obtain ⟨s₁, hrun, hbyte⟩ : ∃ s', persist oneByte (afterCalls [(0, [1, 2])]) (fun _ => none) = some (.ok (), s') ∧
      s' 1 = none := ⟨_, persist_singleton (by decide) (by decide) rfl, rfl⟩
  have hfile : afterCalls [(0, [1, 2])] = ⟨vecWriteAt [] 0 [1, 2], RangeSet.range 0 2⟩ :=
    afterCalls_singleton (by decide)
  have hmem : 1 ∈ (afterCalls [(0, [1, 2])]).ranges := by
    rw [hfile, RangeSet.mem_range]
    decide
  refine ⟨⟨s₁, hrun, hmem, hbyte⟩, ?_⟩
  intro h
  obtain ⟨r, s₂, hrun', hcases⟩ := (h [(0, [1, 2])] (by decide)).2 fun _ => none
  rw [hrun, Option.some.injEq, Prod.mk.injEq] at hrun'
  obtain ⟨rfl, rfl⟩ := hrun'
  rcases hcases with ⟨e, -⟩ | hcopied
  · cases e
  · have hcopy : s₁ 1 = (afterCalls [(0, [1, 2])]).data[1]? := hcopied.copied 1 hmem
    rw [hbyte, hfile] at hcopy
    cases hcopy

end WriteTarget

/-! ### Sparse files as contents -/

namespace SparseMemFile

/-- What was written. -/
def content (file : SparseMemFile) : Content UInt8 :=
  ⟨file.data.length, fun i => if i ∈ file.ranges then file.data[i]? else none⟩

/-- A file that writes so many bytes of a buffer. -/
def fileTarget (ε : Type) (count : Content UInt8 → Nat → List UInt8 → Nat) : WriteTarget (Content UInt8) ε where
  writeAt s pos buf := (.ok (min (count s pos buf) buf.length), s.write pos (buf.take (count s pos buf)))
  byte s := s.cell
  le_length := by
    intro s pos buf n s' h
    cases h
    exact Nat.min_le_right _ _
  byte_writeAt := by
    intro s pos buf n s' h i
    cases h
    rw [Content.cell_write, List.length_take]
    split
    · rw [List.getElem?_take, if_pos (by omega)]
    · rfl

/-- A call writes to the content. -/
private theorem content_afterCall {file : SparseMemFile} (hwithin : ∀ i ∈ file.ranges, i < file.data.length)
    {w : Nat × List UInt8} (hne : w.2 ≠ []) (hlt : w.1 + w.2.length < 2 ^ 64) :
    (file.afterCall w).content = file.content.write w.1 w.2 := by
  rw [afterCall_of_lt hlt]
  apply Content.ext_cell
  · rw [Content.write, if_neg (by simpa using hne)]
    exact length_vecWriteAt file.data w.1 w.2
  · intro i
    rw [Content.cell_write]
    simp only [content, RangeSet.mem_union, RangeSet.mem_range]
    by_cases hmem : w.1 ≤ i ∧ i < w.1 + w.2.length
    · rw [if_pos (Or.inr hmem), if_pos hmem, getElem?_vecWriteAt_of_mem hmem.1 hmem.2]
    · rw [if_neg hmem]
      by_cases hi : i ∈ file.ranges
      · have hlen := hwithin i hi
        rw [if_pos (Or.inl hi), if_pos hi, getElem?_vecWriteAt_of_not_mem hmem (by omega),
          List.getElem?_eq_getElem hlen]
        rfl
      · rw [if_neg (not_or.mpr ⟨hi, hmem⟩), if_neg hi]

/-- After any calls the content is that of the writes that did not fail, in order. -/
theorem content_afterCalls {calls : List (Nat × List UInt8)} (hne : ∀ w ∈ calls, w.2 ≠ []) :
    (afterCalls calls).content = Content.empty.writes (accepted calls) := by
  induction calls using List.reverseRecOn with
  | nil =>
    apply Content.ext_cell
    · rfl
    · intro i
      simp [afterCalls, accepted, content, new]
  | append_singleton calls w ih =>
    have hcalls : ∀ w' ∈ calls, w'.2 ≠ [] := fun w' hw' => hne w' (List.mem_append_left _ hw')
    rw [afterCalls, List.foldl_append, List.foldl_cons, List.foldl_nil, ← afterCalls, accepted,
      List.filter_append, ← accepted]
    rcases Nat.lt_or_ge (w.1 + w.2.length) (2 ^ 64) with hlt | hge
    · rw [content_afterCall (keeps_afterCalls hcalls).within (hne w (by simp)) hlt, ih hcalls,
        List.filter_cons_of_pos (by simpa using hlt), List.filter_nil, Content.writes_append]
      rfl
    · rw [afterCall_of_ge hge, ih hcalls, List.filter_cons_of_neg (by simpa using hge),
        List.filter_nil, List.append_nil]

section

variable {ε : Type} (count : Content UInt8 → Nat → List UInt8 → Nat) {data : List UInt8}

/-- The loop writes the beginnings of the ranges, and all of them if the file writes everything. -/
private theorem persistLoop_writes {ranges : List (Nat × Option Nat)} (hwithin : ∀ r ∈ ranges, RangeWithin data r)
    (s : Content UInt8) :
    ∃ ws, persistLoop (fileTarget ε count) data ranges s = some (.ok (), s.writes ws) ∧
      Content.Respects (fun i x => data[i]? = some x) ws ∧
      (∀ w ∈ ws, ∀ i, w.1 ≤ i → i < w.1 + w.2.length → ∃ r ∈ ranges, RangeSet.InInterval r i) ∧
      ((∀ s pos buf, buf.length ≤ count s pos buf) → ∀ r ∈ ranges, ∀ i, RangeSet.InInterval r i →
        ∃ w ∈ ws, w.1 ≤ i ∧ i < w.1 + w.2.length) := by
  induction ranges generalizing s with
  | nil => exact ⟨[], rfl, by simp [Content.Respects], by simp, by simp⟩
  | cons range ranges ih =>
    obtain ⟨start, stop⟩ := range
    obtain ⟨stop, rfl, hlt, hle⟩ := hwithin _ List.mem_cons_self
    have hstart : start < stop := hlt
    obtain ⟨buf, hslice, hlen, hget⟩ := slice_of_within data hlt hle
    obtain ⟨ws, hrun, hrespects, hranges, hall⟩ := ih (fun r hr => hwithin r (List.mem_cons_of_mem _ hr))
      (s.write start (buf.take (count s start buf)))
    refine ⟨(start, buf.take (count s start buf)) :: ws, ?_, ?_, ?_, ?_⟩
    · simp only [persistLoop, Option.getD_some, hslice]
      exact hrun
    · refine List.forall_mem_cons.mpr ⟨?_, hrespects⟩
      intro j x hj
      have hj' : buf[j]? = some x := List.getElem?_eq_some_iff.mpr (by
        obtain ⟨hlt, heq⟩ := List.getElem?_eq_some_iff.mp hj
        rw [List.getElem_take] at heq
        exact ⟨_, heq⟩)
      have hjlt := (List.getElem?_eq_some_iff.mp hj').1
      rw [← hget j (by omega)]
      exact hj'
    · refine List.forall_mem_cons.mpr ⟨?_, ?_⟩
      · intro i h1 h2
        rw [List.length_take] at h2
        refine ⟨_, List.mem_cons_self, h1, ?_⟩
        rintro e ⟨⟩
        dsimp only at h1 h2
        omega
      · intro w hw i h1 h2
        obtain ⟨r, hr, hmem⟩ := hranges w hw i h1 h2
        exact ⟨r, List.mem_cons_of_mem _ hr, hmem⟩
    · intro hfull
      refine List.forall_mem_cons.mpr ⟨?_, ?_⟩
      · intro i hi
        have h1 : start ≤ i := hi.1
        have h2 : i < stop := hi.2 stop rfl
        refine ⟨_, List.mem_cons_self, h1, ?_⟩
        rw [List.take_of_length_le (hfull _ _ _)]
        dsimp only
        omega
      · intro r hr i hi
        obtain ⟨w, hw, hcov⟩ := hall hfull r hr i hi
        exact ⟨w, List.mem_cons_of_mem _ hw, hcov⟩

/-- Persisting to a file copies the content, without the bytes that the file leaves out. -/
theorem persist_content {calls : List (Nat × List UInt8)} (hne : ∀ w ∈ calls, w.2 ≠ []) (s : Content UInt8) :
    ∃ omits : RangeSet, persist (fileTarget ε count) (afterCalls calls) s =
        some (.ok (), (afterCalls calls).content.persist omits.contains s) ∧
      ((∀ s pos buf, buf.length ≤ count s pos buf) → omits = ∅) := by
  have hkeeps := keeps_afterCalls hne
  generalize afterCalls calls = file at hkeeps ⊢
  have hwithin : ∀ r ∈ file.ranges.iter, RangeWithin file.data r := fun r hr => rangeWithin_of_mem_iter hkeeps.within hr
  obtain ⟨ws, hrun, hrespects, hranges, hall⟩ := persistLoop_writes (ε := ε) count hwithin s
  have hsome : ∀ i, (file.content.cell i).isSome = true ↔ i ∈ file.ranges := by
    intro i
    simp only [content]
    split
    · rename_i hi
      rw [List.getElem?_eq_getElem (hkeeps.within i hi)]
      exact iff_of_true rfl hi
    · rename_i hi
      exact iff_of_false Bool.false_ne_true hi
  have hbounded : file.content.Bounded := fun i hi => hkeeps.within i ((hsome i).mp hi)
  have hcells : Content.Respects (fun i x => file.content.cell i = some x) ws := by
    intro w hw j x hj
    have hlt := (List.getElem?_eq_some_iff.mp hj).1
    simp only [content]
    rw [if_pos (RangeSet.mem_iff_iter.mpr (hranges w hw _ (Nat.le_add_right _ _) (by omega)))]
    exact hrespects w hw j x hj
  -- what is present but not written
  have homits : ∀ i, i ∈ file.ranges \ ws.foldl (fun r w => r ∪ RangeSet.range w.1 (w.1 + w.2.length)) ∅ ↔
      i ∈ file.ranges ∧ ¬ ∃ w ∈ ws, w.1 ≤ i ∧ i < w.1 + w.2.length := by
    intro i
    rw [RangeSet.mem_sdiff, RangeSet.mem_foldl_union]
    simp only [RangeSet.not_mem_empty, RangeSet.mem_range, false_or]
  refine ⟨file.ranges \ ws.foldl (fun r w => r ∪ RangeSet.range w.1 (w.1 + w.2.length)) ∅, ?_, ?_⟩
  · rw [persist, hrun, Content.writes_eq_persist hbounded hcells]
    intro i
    rw [hsome, ← Bool.not_eq_true, ← RangeSet.mem_iff, homits]
    constructor
    · rintro ⟨w, hw, hcov⟩
      exact ⟨RangeSet.mem_iff_iter.mpr (hranges w hw i hcov.1 hcov.2), fun hnot => hnot.2 ⟨w, hw, hcov⟩⟩
    · rintro ⟨hi, hnot⟩
      by_contra hcov
      exact hnot ⟨hi, hcov⟩
  · intro hfull
    rw [RangeSet.eq_empty_iff]
    intro i hi
    obtain ⟨hmem, hnot⟩ := (homits i).mp hi
    obtain ⟨r, hr, hin⟩ := RangeSet.mem_iff_iter.mp hmem
    obtain ⟨w, hw, hcov⟩ := hall hfull r hr i hin
    exact hnot ⟨w, hw, hcov⟩

end

end SparseMemFile

end IrohBlobs
