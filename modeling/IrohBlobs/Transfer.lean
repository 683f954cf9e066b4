import IrohBlobs.CurrentSize
import IrohBlobs.HashSeq

/-!
# The import of a blob that is being downloaded

The model of `get_blob_ranges_impl` in `api/remote.rs`, together with the import task of the file store that it feeds.
The getter sends the items that it has read and verified through a bounded channel to the import, and the import
answers when it is done.  The two sides, and other tasks of the store, take turns in any order.

The getter waits for the answer, but it does not look at it.  A batch that can not be written makes the import answer
with an error and drop its side of the channel, and the getter notices that only if it has something to send
afterwards.
-/

namespace IrohBlobs

namespace Remote

open Merkle (chunks)
open Provable (Fits)
open ImportBao (ImportStream chunkRange)
open CurrentSize (Batch batchRanges)

/-! ### Chunks of an entry -/

section

variable {H : Type}

/-- The chunk is in the bitfield of the entry. -/
def Has (entry : BaoFileStorage H) (x : Nat) : Prop := ∃ b, entry.bitfield = some b ∧ x ∈ b.ranges

/-- The chunk belongs to a leaf of the items, or lies after the end of the blob if they have the last chunk. -/
def Claims (S : Nat) (items : List (BaoContentItem H)) (x : Nat) : Prop :=
  x ∈ batchRanges items ∨ chunks S ≤ x ∧ chunks S - 1 ∈ batchRanges items

/-- An entry of a blob of the given size, or one that can not be read. -/
def Sized (S : Nat) (entry : BaoFileStorage H) : Prop := entry.bitfield = none ∨ CurrentSize.EntryInv S entry

variable {S : Nat} {items items' : List (BaoContentItem H)}

private theorem mem_batchRanges_append {x : Nat} :
    x ∈ batchRanges (items ++ items') ↔ x ∈ batchRanges items ∨ x ∈ batchRanges items' := by
  simp only [CurrentSize.mem_batchRanges, List.mem_append, or_and_right, exists_or]

private theorem claims_append {x : Nat} (h : Claims S (items ++ items') x) : Claims S items x ∨ Claims S items' x := by
  rcases h with hx | ⟨hle, hlast⟩
  · exact (mem_batchRanges_append.mp hx).imp Or.inl Or.inl
  · exact (mem_batchRanges_append.mp hlast).imp (fun h => Or.inr ⟨hle, h⟩) (fun h => Or.inr ⟨hle, h⟩)

theorem not_claims_nil {x : Nat} : ¬ Claims S ([] : List (BaoContentItem H)) x := by
  rintro (hx | ⟨-, hx⟩)
  · exact RangeSet.not_mem_empty _ hx
  · exact RangeSet.not_mem_empty _ hx

/-- The items of an import with the right size. -/
def batchOf (S : Nat) (hS : 0 < S) (items : List (BaoContentItem H))
    (hleaves : ∀ leaf, .leaf leaf ∈ items → CurrentSize.LeafOf S leaf) :
    Batch H S := ⟨S, items, hS, hleaves, Or.inl rfl⟩

/-- A combined bitfield has the chunks of both, and those after the end if the update has the last one. -/
private theorem mem_combine_of_claims {b : Bitfield} (hb : Fits S (fun _ _ => True) b) (hS : 0 < S) {x : Nat}
    (h : Claims S items x) :
    x ∈ (b.combine ⟨S, batchRanges items⟩).ranges := by
  rcases h with hx | ⟨hle, hlast⟩
  · exact Bitfield.mem_combine (RangeSet.mem_union.mpr (Or.inr hx))
  · have hunion : chunks S - 1 ∈ b.ranges ∪ batchRanges items := RangeSet.mem_union.mpr (Or.inr hlast)
    have hmem := Bitfield.mem_combine (a := b) (b := ⟨S, batchRanges items⟩) hunion
    have hpos := Bitfield.chunks_pos hS
    rcases (Provable.fits_combine hb (Or.inl rfl : Fits S (fun _ _ => True)
      ⟨S, batchRanges items⟩)).1 with hsame | hbelow
    · unfold Bitfield.combine at hsame ⊢
      rw [Bitfield.size_new] at hsame
      rw [hsame, Bitfield.mem_new hS]
      exact Or.inr ⟨hle, hunion⟩
    · have hlt := (hbelow _ hmem).2.1
      omega

private theorem has_afterFileBatch {options : InlineOptions} {fs : PartialFileStorage H} {x : Nat}
    (h : x ∈ fs.bitfield.ranges) :
    Has (BaoFileStorage.afterFileBatch options fs) x := by
  unfold BaoFileStorage.afterFileBatch
  split
  · exact ⟨_, rfl, RangeSet.mem_all x⟩
  · exact ⟨_, rfl, h⟩

private theorem has_afterMemBatch {options : InlineOptions} {disk : Files H} {ms : PartialMemStorage H} {x : Nat}
    (h : x ∈ ms.bitfield.ranges) : Has (BaoFileStorage.afterMemBatch options disk ms) x := by
  unfold BaoFileStorage.afterMemBatch
  split
  · exact ⟨_, rfl, RangeSet.mem_all x⟩
  · exact ⟨_, rfl, h⟩

/-- The bitfield is updated. -/
private theorem has_writeBatch (options : InlineOptions) {entry : BaoFileStorage H} {b update : Bitfield}
    (hb : entry.bitfield = some b)
    {x : Nat} (hx : x ∈ (b.combine update).ranges) : Has (entry.writeBatch options .empty items update).1 x := by
  have hmem : ∀ ms : PartialMemStorage H, ms.bitfield = b →
      Has (BaoFileStorage.writeBatchMem options .empty items update ms).1 x := by
    intro ms hms
    unfold BaoFileStorage.writeBatchMem
    split
    · apply has_afterMemBatch
      rw [(Provable.writeBatch_eq_mem update.size items ms).2.2, hms]
      exact hx
    · apply has_afterFileBatch
      rw [Provable.writeBatch_eq_file]
      show x ∈ (ms.bitfield.combine update).ranges
      rw [hms]
      exact hx
  cases entry with
  | nonExisting => exact hmem .default (Option.some.inj hb)
  | partialMem ms => exact hmem ms (Option.some.inj hb)
  | partialFile fs =>
    apply has_afterFileBatch
    rw [Provable.writeBatch_eq_file]
    show x ∈ (fs.bitfield.combine update).ranges
    rw [Option.some.inj hb]
    exact hx
  | complete s => exact ⟨_, rfl, RangeSet.mem_all x⟩
  | initial => cases hb
  | loading => cases hb
  | poisoned => cases hb

theorem fits_of_entryInv {entry : BaoFileStorage H} {b : Bitfield} (h : CurrentSize.EntryInv S entry)
    (hb : entry.bitfield = some b) :
    Fits S (fun _ _ => True) b := by
  cases entry with
  | nonExisting =>
    cases hb
    exact ImportBao.fits_empty
  | partialFile fs =>
    cases hb
    exact h.fits
  | complete s =>
    cases hb
    exact Or.inl h
  | _ => exact False.elim h

private theorem exists_bitfield {entry : BaoFileStorage H} (h : CurrentSize.EntryInv S entry) :
    ∃ b, entry.bitfield = some b := by
  cases entry with
  | nonExisting => exact ⟨_, rfl⟩
  | partialFile fs => exact ⟨_, rfl⟩
  | complete s => exact ⟨_, rfl⟩
  | _ => exact False.elim h

/-- What a write that succeeds does to an entry. -/
structure Written (S : Nat) (items : List (BaoContentItem H)) (entry entry' : BaoFileStorage H) : Prop where
  inv : CurrentSize.EntryInv S entry'
  keeps : ∀ x, Has entry x → Has entry' x
  adds : ∀ x, Claims S items x → Has entry' x

/-- Writing a batch to an entry of the right size. -/
private theorem written_writeBatch (options : InlineOptions) {entry : BaoFileStorage H}
    (h : CurrentSize.EntryInv S entry) (hS : 0 < S)
    (hleaves : ∀ leaf, .leaf leaf ∈ items → CurrentSize.LeafOf S leaf) :
    Written S items entry (entry.writeBatch options .empty items ⟨S, batchRanges items⟩).1 := by
  have hkept : CurrentSize.SizeKept options entry (batchOf S hS items hleaves) := CurrentSize.sizeKept_of_size_eq rfl
  obtain ⟨b, hb⟩ := exists_bitfield h
  refine ⟨CurrentSize.write_inv options h hkept rfl, ?_, ?_⟩
  · rintro x ⟨b', hb', hx⟩
    rw [hb, Option.some.injEq] at hb'
    subst hb'
    exact has_writeBatch options hb (Bitfield.mem_combine (RangeSet.mem_union.mpr (Or.inl hx)))
  · intro x hx
    exact has_writeBatch options hb (mem_combine_of_claims (fits_of_entryInv h hb) hS hx)

/-- File operations that succeed leave nothing out. -/
def WritesAll (io : Option Omits) : Prop := ∀ omits, io = some omits → omits.WritesAll

/-- A write of the import succeeds, or it fails and leaves the entry poisoned. -/
theorem importWrite_cases (options : InlineOptions) {entry : BaoFileStorage H}
    (h : CurrentSize.EntryInv S entry) (hS : 0 < S)
    (hleaves : ∀ leaf, .leaf leaf ∈ items → CurrentSize.LeafOf S leaf) {io : Option Omits} (hall : WritesAll io) :
    (∃ entry', ImportBao.writeBatch options entry items ⟨S, batchRanges items⟩ io = (entry', true) ∧
        Written S items entry entry') ∨
      io = none ∧ ImportBao.writeBatch options entry items ⟨S, batchRanges items⟩ io = (.poisoned, false) := by
  have hwritten := written_writeBatch options h hS hleaves
  cases entry with
  | complete s => exact Or.inl ⟨_, rfl, hwritten⟩
  | nonExisting =>
    cases io with
    | some omits =>
      rw [(hall omits rfl).eq_none]
      exact Or.inl ⟨_, rfl, hwritten⟩
    | none => exact Or.inr ⟨rfl, rfl⟩
  | partialFile fs =>
    cases io with
    | some omits => exact Or.inl ⟨_, rfl, hwritten⟩
    | none => exact Or.inr ⟨rfl, rfl⟩
  | _ => exact False.elim h

end

/-! ### Transfers -/

/-- Where the getter is with a blob. -/
inductive Writer
  | sending
  | done
  | failed
  deriving DecidableEq

/-- A blob on its way into the store.  After the incoming items the stream ends, as it should or with an error. -/
structure Transfer where
  hash : Hash
  incoming : List (BaoContentItem Hash)
  ends : Bool
  writer : Writer
  channel : List (BaoContentItem Hash)
  stream : ImportStream Hash
  answer : Option Bool
  entries : Hash → BaoFileStorage Hash

/-- Whose turn it is.  The file operations of the import fail, or they succeed and leave out some cells.  Other tasks
can change entries at any time. -/
inductive Turn
  | writer
  | store (io : Option Omits)
  | other (hash : Hash) (entry : BaoFileStorage Hash)

def getBufferSize (size : Nat) : Nat := min (size / 16384 + 2) 64

namespace Transfer

/-- The state in which the items are about to be imported. -/
def start (hash : Hash) (size : Nat) (items : List (BaoContentItem Hash)) (ends : Bool)
    (entries : Hash → BaoFileStorage Hash) :
    Transfer := ⟨hash, items, ends, .sending, [], ⟨⟨size, hash, []⟩, [], ∅⟩, none, entries⟩

/-- No transfer, only other tasks of the store. -/
def idle (entries : Hash → BaoFileStorage Hash) : Transfer :=
  ⟨.EMPTY, [], false, .failed, [], ⟨⟨0, .EMPTY, []⟩, [], ∅⟩, some false, entries⟩

/-- The getter sends the next item, or comes to the end of the stream. -/
def write (s : Transfer) : Option Transfer :=
  match s.writer, s.incoming with
  | .sending, item :: incoming =>
    -- the import has dropped the receiver
    if s.answer.isSome then some { s with writer := .failed }
    else if s.channel.length < getBufferSize s.stream.decoder.size then
      some { s with incoming, channel := s.channel ++ [item] }
    else none
  | .sending, [] => some { s with writer := if s.ends then .done else .failed }
  | _, _ => none

/-- The import receives an item, or comes to the end of the channel and writes the last batch. -/
def receive (options : InlineOptions) (s : Transfer) (io : Option Omits) : Option Transfer :=
  match s.answer, s.channel with
  | some _, _ => none
  | none, item :: channel =>
    let fs := ImportBao.recv options ⟨s.entries s.hash, fun _ => some s.stream⟩ 0 s.stream item io
    let entries := Function.update s.entries s.hash fs.entry
    match fs.streams 0 with
    | some stream => some { s with channel, entries, stream }
    | none => some { s with channel, entries, answer := some false }
  | none, [] =>
    if s.writer = .sending then none
    else if s.stream.batch.isEmpty then some { s with answer := some true }
    else
      let res :=
        ImportBao.writeBatch options (s.entries s.hash) s.stream.batch ⟨s.stream.decoder.size, s.stream.ranges⟩ io
      some { s with entries := Function.update s.entries s.hash res.1, answer := some res.2 }

/-- A turn does nothing if its task has to wait. -/
def poll (options : InlineOptions) (s : Transfer) : Turn → Transfer
  | .writer => s.write.getD s
  | .store io => (s.receive options io).getD s
  | .other hash entry => { s with entries := Function.update s.entries hash entry }

/-- All turns, each with the state before it. -/
def history (options : InlineOptions) (s : Transfer) : List Turn → List (Transfer × Turn)
  | [] => []
  | turn :: turns => (s, turn) :: history options (s.poll options turn) turns

/-- The getter is going to fail: it has something to send, or the stream ends with an error. -/
def WillFail (s : Transfer) : Prop := s.writer = .failed ∨ s.writer = .sending ∧ (s.incoming ≠ [] ∨ s.ends = false)

end Transfer

/-- The condition on a turn.  The import finds an entry that can be read, its writes leave nothing out, and a write
fails only if the getter is going to fail anyway; the other tasks remove nothing, and their entries have the right
sizes. -/
def Turn.Meets (size : Hash → Nat) (s : Transfer) : Turn → Prop
  | .writer => True
  | .store io =>
    (s.answer = none → (s.entries s.hash).bitfield ≠ none) ∧ (io = none → s.WillFail) ∧ WritesAll io
  | .other hash entry => (∀ x, Has (s.entries hash) x → Has entry x) ∧ Sized (size hash) entry

/-! ### The import -/

/-- The import has written what it has received, up to the current batch. -/
structure Importing (S : Nat) (entry : BaoFileStorage Hash) (st : ImportStream Hash)
    (received : List (BaoContentItem Hash)) :
    Prop where
  size : st.decoder.size = S
  ranges : st.ranges = batchRanges st.batch
  written : ∃ written, received = written ++ st.batch ∧ ∀ x, Claims S written x → Has entry x

section

variable {S : Nat} {entry entry' : BaoFileStorage Hash} {st : ImportStream Hash} {received : List (BaoContentItem Hash)}

theorem Importing.mono (h : Importing S entry st received) (hgrows : ∀ x, Has entry x → Has entry' x) :
    Importing S entry' st received := by
  obtain ⟨written, hreceived, hhas⟩ := h.written
  exact ⟨h.size, h.ranges, written, hreceived, fun x hx => hgrows x (hhas x hx)⟩

/-- After the batch is written, everything is. -/
theorem Importing.flushed (h : Importing S entry st received) (hwritten : Written S st.batch entry entry') :
    ∀ x, Claims S received x → Has entry' x := by
  obtain ⟨written, rfl, hhas⟩ := h.written
  intro x hx
  rcases claims_append hx with hx | hx
  · exact hwritten.keeps x (hhas x hx)
  · exact hwritten.adds x hx

/-- The stream after an item was added to the batch. -/
def addToBatch (st : ImportStream Hash) : BaoContentItem Hash → ImportStream Hash
  | .leaf leaf => { st with ranges := st.ranges ∪ chunkRange leaf, batch := st.batch ++ [.leaf leaf] }
  | .parent parent => { st with batch := st.batch ++ [.parent parent] }

private theorem batchRanges_concat (items : List (BaoContentItem Hash)) (item : BaoContentItem Hash) :
    batchRanges (items ++ [item]) = match item with
      | .leaf leaf => batchRanges items ∪ chunkRange leaf
      | .parent _ => batchRanges items := by
  rw [batchRanges, List.foldl_append]
  cases item with
  | leaf leaf => rfl
  | parent parent => rfl

private theorem Importing.addToBatch (h : Importing S entry st received) (item : BaoContentItem Hash) :
    Importing S entry (addToBatch st item) (received ++ [item]) := by
  obtain ⟨written, rfl, hhas⟩ := h.written
  cases item with
  | leaf leaf =>
    refine ⟨h.size, ?_, written, by rw [List.append_assoc]; rfl, hhas⟩
    rw [Remote.addToBatch, batchRanges_concat, h.ranges]
  | parent parent =>
    refine ⟨h.size, ?_, written, by rw [List.append_assoc]; rfl, hhas⟩
    rw [Remote.addToBatch, batchRanges_concat, h.ranges]

private theorem leaf_invalidSize {leaf : Leaf} (h : CurrentSize.LeafOf S leaf) :
    ImportBao.invalidSize S leaf = false := by
  unfold ImportBao.invalidSize
  by_cases hlast : chunks S - 1 ∈ chunkRange leaf
  · rw [(h.of_last hlast).1]
    simp
  · rw [RangeSet.mem_iff, Bool.not_eq_true] at hlast
    rw [hlast, Bool.false_and]

/-- Adding an item of the blob to a batch does not fail. -/
private theorem push_eq {fs : ImportBao.FsStore Hash} {item : BaoContentItem Hash} (hsize : st.decoder.size = S)
    (hleaf : ∀ leaf, item = .leaf leaf → CurrentSize.LeafOf S leaf) :
    ImportBao.push fs 0 st item = { fs with streams := Function.update fs.streams 0 (some (addToBatch st item)) } := by
  cases item with
  | leaf leaf =>
    rw [ImportBao.push, hsize, leaf_invalidSize (hleaf leaf rfl), if_neg Bool.false_ne_true]
    rfl
  | parent parent => rfl

/-- What the import does with an item: it adds it to the batch, after it has written the batch if necessary, or
writing the batch fails. -/
structure Received (S : Nat) (entry entry' : BaoFileStorage Hash) (st' : ImportStream Hash)
    (received : List (BaoContentItem Hash)) : Prop where
  inv : CurrentSize.EntryInv S entry'
  keeps : ∀ x, Has entry x → Has entry' x
  importing : Importing S entry' st' received

theorem recv_cases (options : InlineOptions) (he : CurrentSize.EntryInv S entry) (hS : 0 < S)
    (h : Importing S entry st received)
    (hbatch : ∀ leaf, .leaf leaf ∈ received → CurrentSize.LeafOf S leaf) {item : BaoContentItem Hash}
    (hleaf : ∀ leaf, item = .leaf leaf → CurrentSize.LeafOf S leaf) {io : Option Omits} (hall : WritesAll io) :
    (∃ entry' st', (ImportBao.recv options ⟨entry, fun _ => some st⟩ 0 st item io).entry = entry' ∧
      (ImportBao.recv options ⟨entry, fun _ => some st⟩ 0 st item io).streams 0 = some st' ∧
      Received S entry entry' st' (received ++ [item])) ∨
    io = none ∧ (ImportBao.recv options ⟨entry, fun _ => some st⟩ 0 st item io).entry = .poisoned ∧
      (ImportBao.recv options ⟨entry, fun _ => some st⟩ 0 st item io).streams 0 = none := by
  have hleaves : ∀ leaf, .leaf leaf ∈ st.batch → CurrentSize.LeafOf S leaf := by
    obtain ⟨written, rfl, -⟩ := h.written
    intro leaf hmem
    exact hbatch leaf (List.mem_append_right _ hmem)
  unfold ImportBao.recv
  split
  · rw [ImportBao.flush, h.size, h.ranges]
    dsimp only
    rcases importWrite_cases options he hS hleaves hall with ⟨entry', hwrite, hwritten⟩ | ⟨rfl, hwrite⟩
    · have hflushed : Importing S entry' { st with batch := [], ranges := ∅ } received :=
        ⟨h.size, rfl, received, (List.append_nil _).symm, h.flushed hwritten⟩
      rw [hwrite]
      dsimp only
      rw [if_pos rfl, push_eq hflushed.size hleaf]
      exact Or.inl ⟨_, _, rfl, by simp, hwritten.inv, hwritten.keeps, hflushed.addToBatch item⟩
    · rw [hwrite]
      exact Or.inr ⟨rfl, rfl, by simp⟩
  · rw [push_eq h.size hleaf]
    exact Or.inl ⟨_, _, rfl, by simp, he, fun x hx => hx, h.addToBatch item⟩

end

/-! ### The invariant of a transfer -/

/-- The transfer is on its way, or has succeeded. -/
structure Proceeds (S : Nat) (items : List (BaoContentItem Hash)) (before : Hash → BaoFileStorage Hash)
    (s : Transfer) : Prop where
  keeps : ∀ hash x, Has (before hash) x → Has (s.entries hash) x
  writer : s.writer = .sending ∨ s.writer = .done ∧ s.incoming = [] ∧ s.ends = true
  answered : ∀ ok, s.answer = some ok → ok = true ∧ s.writer = .done ∧ ∀ x, Claims S items x → Has (s.entries s.hash) x

/-- The entries have the right sizes, and the import has received the items up to those in the channel.  The getter
has failed, or is going to fail because the import has failed, or the transfer proceeds. -/
structure TransferInv (size : Hash → Nat) (items : List (BaoContentItem Hash)) (before : Hash → BaoFileStorage Hash)
    (s : Transfer) : Prop where
  sized : ∀ hash, Sized (size hash) (s.entries hash)
  importing : s.answer = none → ∃ received rest, items = received ++ (s.channel ++ rest) ∧
    (s.writer ≠ .failed → rest = s.incoming) ∧ Importing (size s.hash) (s.entries s.hash) s.stream received
  cases : s.writer = .failed ∨ s.answer = some false ∧ s.WillFail ∨ Proceeds (size s.hash) items before s

section

variable {size : Hash → Nat} {items : List (BaoContentItem Hash)} {before : Hash → BaoFileStorage Hash} {s : Transfer}

theorem sized_update {entries : Hash → BaoFileStorage Hash} (h : ∀ hash, Sized (size hash) (entries hash)) {hash : Hash}
    {entry : BaoFileStorage Hash} (hentry : Sized (size hash) entry) :
    ∀ hash', Sized (size hash') (Function.update entries hash entry hash') := by
  intro hash'
  by_cases heq : hash' = hash
  · subst heq
    rw [Function.update_self]
    exact hentry
  · rw [Function.update_of_ne heq]
    exact h hash'

theorem keeps_update {entries : Hash → BaoFileStorage Hash} {hash : Hash} {entry : BaoFileStorage Hash}
    (h : ∀ x, Has (entries hash) x → Has entry x) (hash' : Hash) (x : Nat) (hx : Has (entries hash') x) :
    Has (Function.update entries hash entry hash') x := by
  by_cases heq : hash' = hash
  · subst heq
    rw [Function.update_self]
    exact h x hx
  · rw [Function.update_of_ne heq]
    exact hx

theorem transferInv_start {hash : Hash} {ends : Bool} {entries : Hash → BaoFileStorage Hash}
    (h : ∀ hash, Sized (size hash) (entries hash)) :
    TransferInv size items entries (Transfer.start hash (size hash) items ends entries) := by
  refine ⟨h, ?_, Or.inr (Or.inr ⟨fun _ _ hx => hx, Or.inl rfl, ?_⟩)⟩
  · intro _
    exact ⟨[], items, rfl, fun _ => rfl, rfl, rfl, [], rfl, fun x hx => absurd hx not_claims_nil⟩
  · intro ok hok
    cases hok

theorem transferInv_idle {entries : Hash → BaoFileStorage Hash} (h : ∀ hash, Sized (size hash) (entries hash)) :
    TransferInv size items before (Transfer.idle entries) := by
  refine ⟨h, ?_, Or.inl rfl⟩
  intro hanswer
  cases hanswer

/-- Other tasks take a turn. -/
private theorem TransferInv.other (h : TransferInv size items before s) {hash : Hash} {entry : BaoFileStorage Hash}
    (hmeets : Turn.Meets size s (.other hash entry)) (options : InlineOptions) :
    TransferInv size items before (s.poll options (.other hash entry)) := by
  have hkeeps := keeps_update hmeets.1
  refine ⟨sized_update h.sized hmeets.2, ?_, h.cases.imp_right (fun hcases => hcases.imp_right ?_)⟩
  · intro hanswer
    obtain ⟨received, rest, hitems, hrest, himporting⟩ := h.importing hanswer
    exact ⟨received, rest, hitems, hrest, himporting.mono (hkeeps s.hash)⟩
  · intro hp
    refine ⟨fun hash' x hx => hkeeps hash' x (hp.keeps hash' x hx), hp.writer, ?_⟩
    intro ok hok
    obtain ⟨hok, hdone, hhas⟩ := hp.answered ok hok
    exact ⟨hok, hdone, fun x hx => hkeeps s.hash x (hhas x hx)⟩

/-- What the getter can do. -/
theorem write_cases (s : Transfer) (options : InlineOptions) :
    s.poll options .writer = s ∨ s.poll options .writer = { s with writer := .failed } ∨
      (s.incoming = [] ∧ s.ends = true ∧ s.writer = .sending ∧ s.poll options .writer = { s with writer := .done }) ∨
      ∃ item incoming, s.incoming = item :: incoming ∧ s.answer = none ∧ s.writer = .sending ∧
        s.poll options .writer = { s with incoming, channel := s.channel ++ [item] } := by
  obtain ⟨hash, incoming, ends, writer, channel, stream, answer, entries⟩ := s
  cases writer with
  | failed => exact Or.inl rfl
  | done => exact Or.inl rfl
  | sending =>
    cases incoming with
    | nil =>
      cases ends with
      | false => exact Or.inr (Or.inl rfl)
      | true => exact Or.inr (Or.inr (Or.inl ⟨rfl, rfl, rfl, rfl⟩))
    | cons item incoming =>
      rw [Transfer.poll, Transfer.write]
      dsimp only
      split
      · exact Or.inr (Or.inl rfl)
      · rename_i hnone
        rw [Bool.not_eq_true, Option.isSome_eq_false_iff, Option.isNone_iff_eq_none] at hnone
        split
        · exact Or.inr (Or.inr (Or.inr ⟨item, incoming, rfl, hnone, rfl, rfl⟩))
        · exact Or.inl rfl

/-- The getter takes a turn. -/
private theorem TransferInv.write (h : TransferInv size items before s) (options : InlineOptions) :
    TransferInv size items before (s.poll options .writer) := by
  rcases write_cases s options with heq | heq | ⟨hincoming, hends, hwriter, heq⟩ | ⟨item, incoming, hincoming,
    hnone, hwriter, heq⟩
  · rw [heq]
    exact h
  · rw [heq]
    refine ⟨h.sized, ?_, Or.inl rfl⟩
    intro hanswer
    obtain ⟨received, rest, hitems, -, himporting⟩ := h.importing hanswer
    exact ⟨received, rest, hitems, fun hne => absurd rfl hne, himporting⟩
  · have hne : s.writer ≠ .failed := by rw [hwriter]; simp
    have hp : Proceeds (size s.hash) items before s := by
      rcases h.cases with hfailed | ⟨-, hfailed | ⟨-, hmore | hfalse⟩⟩ | hp
      · exact absurd hfailed hne
      · exact absurd hfailed hne
      · exact absurd hincoming hmore
      · rw [hends] at hfalse
        cases hfalse
      · exact hp
    rw [heq]
    refine ⟨h.sized, ?_, Or.inr (Or.inr ⟨hp.keeps, Or.inr ⟨rfl, hincoming, hends⟩, ?_⟩)⟩
    · intro hanswer
      obtain ⟨received, rest, hitems, hrest, himporting⟩ := h.importing hanswer
      exact ⟨received, rest, hitems, fun _ => hrest hne, himporting⟩
    · intro ok hok
      obtain ⟨hok, -, hhas⟩ := hp.answered ok hok
      exact ⟨hok, rfl, hhas⟩
  · have hne : s.writer ≠ .failed := by rw [hwriter]; simp
    rw [heq]
    refine ⟨h.sized, ?_, ?_⟩
    · intro hanswer
      obtain ⟨received, rest, hitems, hrest, himporting⟩ := h.importing hanswer
      rw [hrest hne, hincoming] at hitems
      exact ⟨received, incoming, by rw [hitems]; simp, fun _ => rfl, himporting⟩
    · rcases h.cases with hfailed | ⟨hsome, -⟩ | hp
      · exact Or.inl hfailed
      · rw [hnone] at hsome
        cases hsome
      · refine Or.inr (Or.inr ⟨hp.keeps, Or.inl hwriter, ?_⟩)
        intro ok hok
        cases hnone.symm.trans hok

/-- The import has failed, and the getter is going to fail as well. -/
private theorem TransferInv.poisoned (h : TransferInv size items before s) (hfail : s.WillFail)
    (channel : List (BaoContentItem Hash)) :
    TransferInv size items before
      { s with channel, entries := Function.update s.entries s.hash .poisoned, answer := some false } := by
  refine ⟨sized_update h.sized (Or.inl rfl), ?_, Or.inr (Or.inl ⟨rfl, hfail⟩)⟩
  intro hanswer
  cases hanswer

/-- The import has received an item. -/
private theorem TransferInv.received (h : TransferInv size items before s) (hanswer : s.answer = none)
    {item : BaoContentItem Hash}
    {channel rest received : List (BaoContentItem Hash)} (hitems : items = received ++ ((item :: channel) ++ rest))
    (hrest : s.writer ≠ .failed → rest = s.incoming) {entry' : BaoFileStorage Hash} {st' : ImportStream Hash}
    (hreceived : Received (size s.hash) (s.entries s.hash) entry' st' (received ++ [item])) :
    TransferInv size items before
      { s with channel, entries := Function.update s.entries s.hash entry', stream := st' } := by
  refine ⟨sized_update h.sized (Or.inr hreceived.inv), ?_, ?_⟩
  · intro _
    refine ⟨received ++ [item], rest, by rw [hitems]; simp, hrest, ?_⟩
    dsimp only
    rw [Function.update_self]
    exact hreceived.importing
  · rcases h.cases with hfailed | ⟨hsome, -⟩ | hp
    · exact Or.inl hfailed
    · cases hanswer.symm.trans hsome
    · refine Or.inr (Or.inr ⟨fun hash x hx => keeps_update hreceived.keeps hash x (hp.keeps hash x hx), hp.writer, ?_⟩)
      intro ok hok
      cases hanswer.symm.trans hok

/-- The import has come to its end. -/
private theorem TransferInv.finished (h : TransferInv size items before s) (hanswer : s.answer = none)
    (hchannel : s.channel = [])
    (hwriter : s.writer ≠ .sending) {entry' : BaoFileStorage Hash}
    (hwritten : Written (size s.hash) s.stream.batch (s.entries s.hash) entry') :
    TransferInv size items before
      { s with entries := Function.update s.entries s.hash entry', answer := some true } := by
  refine ⟨sized_update h.sized (Or.inr hwritten.inv), ?_, ?_⟩
  · intro hnone
    cases hnone
  · rcases h.cases with hfailed | ⟨hsome, -⟩ | hp
    · exact Or.inl hfailed
    · cases hanswer.symm.trans hsome
    · obtain ⟨hdone, hincoming, hends⟩ := hp.writer.resolve_left hwriter
      refine Or.inr (Or.inr ⟨fun hash x hx => keeps_update hwritten.keeps hash x (hp.keeps hash x hx),
        Or.inr ⟨hdone, hincoming, hends⟩, ?_⟩)
      rintro ok ⟨⟩
      obtain ⟨received, rest, hitems, hrest, himporting⟩ := h.importing hanswer
      rw [hchannel, hrest (by rw [hdone]; simp), hincoming, List.append_nil, List.append_nil] at hitems
      refine ⟨rfl, hdone, ?_⟩
      dsimp only
      rw [Function.update_self, hitems]
      exact himporting.flushed hwritten

/-- The import takes a turn. -/
private theorem TransferInv.receive (h : TransferInv size items before s) (hpos : s.answer = none → 0 < size s.hash)
    (hleaves : ∀ leaf, .leaf leaf ∈ items → CurrentSize.LeafOf (size s.hash) leaf) {io : Option Omits}
    (hmeets : Turn.Meets size s (.store io)) (options : InlineOptions) :
    TransferInv size items before (s.poll options (.store io)) := by
  rw [Transfer.poll]
  cases hanswer : s.answer with
  | some answer =>
    rw [Transfer.receive, hanswer]
    exact h
  | none =>
    have he : CurrentSize.EntryInv (size s.hash) (s.entries s.hash) := (h.sized s.hash).resolve_left (hmeets.1 hanswer)
    obtain ⟨received, rest, hitems, hrest, himporting⟩ := h.importing hanswer
    have hbatch : ∀ leaf, .leaf leaf ∈ received → CurrentSize.LeafOf (size s.hash) leaf := by
      intro leaf hleaf
      apply hleaves leaf
      rw [hitems]
      exact List.mem_append_left _ hleaf
    cases hchannel : s.channel with
    | cons item channel =>
      rw [hchannel] at hitems
      have hleaf : ∀ leaf, item = .leaf leaf → CurrentSize.LeafOf (size s.hash) leaf := by
        rintro leaf rfl
        apply hleaves leaf
        rw [hitems]
        simp
      rw [Transfer.receive, hanswer, hchannel]
      dsimp only
      rcases recv_cases options he (hpos hanswer) himporting hbatch hleaf hmeets.2.2 with
        ⟨entry', st', hentry, hstream, hreceived⟩ | ⟨hio, hentry, hstream⟩
      · rw [hentry, hstream]
        have hnext := h.received hanswer hitems hrest hreceived
        rw [hanswer] at hnext
        exact hnext
      · rw [hentry, hstream]
        exact h.poisoned (hmeets.2.1 hio) channel
    | nil =>
      rw [Transfer.receive, hanswer, hchannel]
      dsimp only
      split
      · exact h
      · rename_i hwriter
        have hleaves' : ∀ leaf, .leaf leaf ∈ s.stream.batch → CurrentSize.LeafOf (size s.hash) leaf := by
          obtain ⟨written, rfl, -⟩ := himporting.written
          exact fun leaf hleaf => hbatch leaf (List.mem_append_right _ hleaf)
        split
        · rename_i hempty
          have hwritten : Written (size s.hash) s.stream.batch (s.entries s.hash) (s.entries s.hash) := by
            refine ⟨he, fun _ hx => hx, ?_⟩
            rw [List.isEmpty_iff.mp hempty]
            exact fun x hx => absurd hx not_claims_nil
          have hnext := h.finished hanswer hchannel hwriter hwritten
          rw [Function.update_eq_self, hchannel] at hnext
          exact hnext
        · rw [himporting.size, himporting.ranges]
          rcases importWrite_cases options he (hpos hanswer) hleaves' hmeets.2.2 with
            ⟨entry', hwrite, hwritten⟩ | ⟨hio, hwrite⟩
          · rw [hwrite]
            have hnext := h.finished hanswer hchannel hwriter hwritten
            rw [hchannel] at hnext
            exact hnext
          · rw [hwrite]
            exact h.poisoned (hmeets.2.1 hio) []

/-- The hash and the end of the stream do not change. -/
theorem fixed_poll (s : Transfer) (options : InlineOptions) (turn : Turn) :
    (s.poll options turn).hash = s.hash ∧ (s.poll options turn).ends = s.ends := by
  cases turn with
  | writer =>
    rcases write_cases s options with heq | heq | ⟨-, -, -, heq⟩ | ⟨_, _, -, -, -, heq⟩ <;>
      rw [heq] <;> exact ⟨rfl, rfl⟩
  | store io =>
    rw [Transfer.poll, Transfer.receive]
    split
    · exact ⟨rfl, rfl⟩
    · dsimp only
      split <;> exact ⟨rfl, rfl⟩
    · split
      · exact ⟨rfl, rfl⟩
      · split <;> exact ⟨rfl, rfl⟩
  | other hash entry => exact ⟨rfl, rfl⟩

theorem fixed_run (s : Transfer) (options : InlineOptions) (turns : List Turn) :
    (turns.foldl (Transfer.poll options) s).hash = s.hash ∧ (turns.foldl (Transfer.poll options) s).ends = s.ends := by
  induction turns generalizing s with
  | nil => exact ⟨rfl, rfl⟩
  | cons turn turns ih =>
    rw [List.foldl_cons, (ih _).1, (ih _).2]
    exact fixed_poll s options turn

/-- An answer stays. -/
theorem answer_poll {options : InlineOptions} {turn : Turn} (h : (s.poll options turn).answer = none) :
    s.answer = none := by
  cases hanswer : s.answer with
  | none => rfl
  | some ok =>
    cases turn with
    | writer =>
      rcases write_cases s options with heq | heq | ⟨-, -, -, heq⟩ | ⟨_, _, -, -, -, heq⟩ <;> rw [heq] at h <;>
        exact absurd (hanswer.symm.trans h) (by simp)
    | store io =>
      rw [Transfer.poll, Transfer.receive, hanswer] at h
      exact absurd (hanswer.symm.trans h) (by simp)
    | other hash entry => exact absurd (hanswer.symm.trans h) (by simp)

/-- The invariant holds after any number of turns that meet the condition. -/
theorem TransferInv.run {options : InlineOptions} {turns : List Turn} (h : TransferInv size items before s)
    (hpos : s.answer = none → 0 < size s.hash)
    (hleaves : ∀ leaf, .leaf leaf ∈ items → CurrentSize.LeafOf (size s.hash) leaf)
    (hmeets : ∀ p ∈ s.history options turns, p.2.Meets size p.1) :
    TransferInv size items before (turns.foldl (Transfer.poll options) s) := by
  induction turns generalizing s with
  | nil => exact h
  | cons turn turns ih =>
    rw [Transfer.history, List.forall_mem_cons] at hmeets
    rw [List.foldl_cons]
    have hnext : TransferInv size items before (s.poll options turn) := by
      cases turn with
      | writer => exact h.write options
      | store io => exact h.receive hpos hleaves hmeets.1 options
      | other hash entry => exact h.other hmeets.1 options
    apply ih hnext
    · intro hanswer
      rw [(fixed_poll s options turn).1]
      exact hpos (answer_poll hanswer)
    · rw [(fixed_poll s options turn).1]
      exact hleaves
    · exact hmeets.2

/-- A transfer that has succeeded has brought all its chunks into the store, and the import has answered that it was
done. -/
theorem TransferInv.done (h : TransferInv size items before s) (hdone : s.writer = .done) {ok : Bool}
    (hanswer : s.answer = some ok) :
    ok = true ∧ s.ends = true ∧ (∀ hash x, Has (before hash) x → Has (s.entries hash) x) ∧
      ∀ x, Claims (size s.hash) items x → Has (s.entries s.hash) x := by
  rcases h.cases with hfailed | ⟨-, hfailed | ⟨hsending, -⟩⟩ | hp
  · cases hdone.symm.trans hfailed
  · cases hdone.symm.trans hfailed
  · cases hdone.symm.trans hsending
  · obtain ⟨hok, -, hhas⟩ := hp.answered ok hanswer
    rcases hp.writer with hsending | ⟨-, -, hends⟩
    · cases hdone.symm.trans hsending
    · exact ⟨hok, hends, hp.keeps, hhas⟩

end

end Remote

end IrohBlobs
