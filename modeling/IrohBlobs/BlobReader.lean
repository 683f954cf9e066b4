import IrohBlobs.ExportRanges
import IrohBlobs.RangeWire
import IrohBlobs.StateMachine

/-!
# The reader of a blob

The model of `BlobReader` in `api/blobs/reader.rs`.  A read exports as many bytes as the buffer has room for, and
copies the pieces into the buffer as they arrive.  If no piece is ready yet, the read stays pending, and the next call
goes on with it, with whatever buffer it is given then.

Every call takes the state out of the reader and leaves `Poisoned` behind, so that each exit has to put a state back.
-/

namespace IrohBlobs

/-- The items of an export, also of a blob that is not in the store. -/
def exportItems (entry : Option RangesEntry) (ranges : RangeSet) : List ExportRangesItem :=
  match entry with
  | none => [.error]
  | some entry => exportRangesFs entry ranges

/-- How an export ends: after some items reading can fail, or the connection to the store can be lost. -/
inductive ExportEnd
  | regular
  | failed (sent : Nat)
  | lost (sent : Nat)

/-- The stream of an export. -/
def exportStream (entry : Option RangesEntry) (ending : ExportEnd) (ranges : RangeSet) : List ExportRangesItem :=
  match ending with
  | .regular => exportItems entry ranges
  | .failed sent => (exportItems entry ranges).take sent ++ [.error]
  | .lost sent => (exportItems entry ranges).take sent

namespace BlobReader

open StateMachine

inductive ReaderError
  | positionOverflowReading
  | offsetMismatch
  | positionOverflow
  | readingData
  | readWhileSeeking
  | positionOverflowSeeking
  | seekFromEnd
  | seekWhileReading
  | alreadySeeking
  | poisoned
  deriving DecidableEq

/-- A pending read keeps the items that its stream has not yielded yet. -/
inductive ReaderState
  | idle (position : Nat)
  | seeking (position : Nat)
  | reading (position : Nat) (op : List ExportRangesItem)
  | poisoned
  deriving DecidableEq

inductive SeekFrom
  | start (pos : Nat)
  | current (offset : Int)
  | fromEnd (offset : Int)

inductive Poll (α : Type)
  | ready (value : α)
  | pending
  deriving DecidableEq

/-- What a call of `poll_read` does: the state that it leaves, the bytes that it puts into the buffer, and the
result. -/
structure ReadOutcome where
  state : ReaderState
  appended : List UInt8
  result : Poll (Except ReaderError Unit)

/-- The loop of `poll_read` in the state `Reading`, with the number of polls of the stream that are ready.  There is
no outcome if the data does not fit into the buffer, where `put_slice` panics. -/
def readLoop (position : Nat) : Nat → Nat → List ExportRangesItem → Nat → List UInt8 → Option ReadOutcome
  | 0, position1, op, _, appended =>
    if position ≠ position1 then some ⟨.idle position1, appended, .ready (.ok ())⟩
    else some ⟨.reading position1 op, appended, .pending⟩
  | _ + 1, position1, [], _, appended => some ⟨.idle position1, appended, .ready (.ok ())⟩
  | ready + 1, position1, .size _ :: op, remaining, appended => readLoop position ready position1 op remaining appended
  | ready + 1, position1, .data leaf :: op, remaining, appended =>
    if leaf.offset ≠ position1 then some ⟨.poisoned, appended, .ready (.error .offsetMismatch)⟩
    else if remaining < leaf.data.length then none
    else
      match addU64 position1 leaf.data.length with
      | none => some ⟨.poisoned, appended ++ leaf.data, .ready (.error .positionOverflow)⟩
      | some position1 => readLoop position ready position1 op (remaining - leaf.data.length) (appended ++ leaf.data)
  | _ + 1, _, .error :: _, _, appended => some ⟨.idle position, appended, .ready (.error .readingData)⟩

/-- `poll_read` with the remaining capacity of the buffer. -/
def pollRead (entry : Option RangesEntry) (ending : ExportEnd) (state : ReaderState) (remaining ready : Nat) :
    Option ReadOutcome :=
  match state with
  | .idle position =>
    match addU64 position remaining with
    | none => some ⟨.poisoned, [], .ready (.error .positionOverflowReading)⟩
    | some stop =>
      readLoop position ready position (exportStream entry ending (RangeSet.range position stop)) remaining []
  | .reading position op => readLoop position ready position op remaining []
  | .seeking position => some ⟨.seeking position, [], .ready (.error .readWhileSeeking)⟩
  | .poisoned => some ⟨.poisoned, [], .ready (.error .poisoned)⟩

/-- `checked_add_signed` -/
def addSigned (position : Nat) (offset : Int) : Option Nat :=
  if 0 ≤ position + offset ∧ position + offset < 2 ^ 64 then some (position + offset).toNat else none

def startSeek (state : ReaderState) (seekFrom : SeekFrom) : ReaderState × Except ReaderError Unit :=
  match state with
  | .idle position =>
    match seekFrom with
    | .start pos => (.seeking pos, .ok ())
    | .current offset =>
      match addSigned position offset with
      | none => (.poisoned, .error .positionOverflowSeeking)
      | some pos => (.seeking pos, .ok ())
    | .fromEnd _ => (.poisoned, .error .seekFromEnd)
  | .reading _ _ => (.poisoned, .error .seekWhileReading)
  | .seeking _ => (.poisoned, .error .alreadySeeking)
  | .poisoned => (.poisoned, .error .poisoned)

def pollComplete (state : ReaderState) : ReaderState × Except ReaderError Nat :=
  match state with
  | .seeking position => (.idle position, .ok position)
  | .idle position => (.idle position, .ok position)
  | .reading position op => (.reading position op, .error .seekWhileReading)
  | .poisoned => (.poisoned, .error .poisoned)

inductive Call
  | read (entry : Option RangesEntry) (ending : ExportEnd) (remaining ready : Nat)
  | startSeek (seekFrom : SeekFrom)
  | pollComplete

/-- A reader, with the position of the last seek that was completed, and the bytes that were delivered since then. -/
structure Reader where
  state : ReaderState
  base : Nat
  delivered : List UInt8

def new : Reader := ⟨.idle 0, 0, []⟩

/-- A successful read delivers the bytes that it has put into the buffer. -/
def deliver (r : Reader) (out : ReadOutcome) : Reader :=
  match out.result with
  | .ready (.ok ()) => ⟨out.state, r.base, r.delivered ++ out.appended⟩
  | _ => ⟨out.state, r.base, r.delivered⟩

/-- One call; nothing if it panics. -/
def step (r : Reader) : Call → Option Reader
  | .read entry ending remaining ready => (pollRead entry ending r.state remaining ready).map (deliver r)
  | .startSeek seekFrom => some ⟨(startSeek r.state seekFrom).1, r.base, r.delivered⟩
  | .pollComplete =>
    match r.state with
    | .seeking position => some ⟨(pollComplete r.state).1, position, []⟩
    | _ => some ⟨(pollComplete r.state).1, r.base, r.delivered⟩

/-! ### Bytes in order -/

/-- The bytes are those of the blob from a position on. -/
def BytesAt (blob : List UInt8) (position : Nat) (bytes : List UInt8) : Prop :=
  ∀ i b, bytes[i]? = some b → blob[position + i]? = some b

/-- The pieces that are at the position have the bytes of the blob. -/
def Follows (blob : List UInt8) : Nat → List ExportRangesItem → Prop
  | _, [] => True
  | position, .size _ :: op => Follows blob position op
  | _, .error :: _ => True
  | position, .data leaf :: op => leaf.offset = position → BytesAt blob position leaf.data ∧
    Follows blob (position + leaf.data.length) op

/-- There is room for each piece that arrives, as long as the pieces follow each other. -/
def HasRoom : Nat → Nat → List ExportRangesItem → Nat → Prop
  | 0, _, _, _ => True
  | _ + 1, _, [], _ => True
  | ready + 1, position, .size _ :: op, remaining => HasRoom ready position op remaining
  | _ + 1, _, .error :: _, _ => True
  | ready + 1, position, .data leaf :: op, remaining => leaf.offset = position → leaf.data.length ≤ remaining ∧
    (position + leaf.data.length < 2 ^ 64 → HasRoom ready (position + leaf.data.length) op
      (remaining - leaf.data.length))

private theorem lt_of_addU64 {a b c : Nat} (h : addU64 a b = some c) : a + b < 2 ^ 64 := by
  unfold addU64 at h
  split at h
  · assumption
  · cases h

private theorem BytesAt.append {blob : List UInt8} {position : Nat} {as bs : List UInt8} (ha : BytesAt blob position as)
    (hb : BytesAt blob (position + as.length) bs) : BytesAt blob position (as ++ bs) := by
  intro i b hi
  rcases Nat.lt_or_ge i as.length with hlt | hge
  · rw [List.getElem?_append_left hlt] at hi
    exact ha i b hi
  · rw [List.getElem?_append_right hge] at hi
    have hbyte := hb (i - as.length) b hi
    rwa [Nat.add_assoc, Nat.add_sub_cancel' hge] at hbyte

private theorem bytesAt_nil (blob : List UInt8) (position : Nat) : BytesAt blob position [] := by
  intro i b hi
  cases hi

/-- What a call does to the reader: the bytes that it appends, and the state that it leaves. -/
structure ReadRight (blob : List UInt8) (position position1 remaining : Nat) (more : List UInt8) (state : ReaderState)
    (result : Poll (Except ReaderError Unit)) : Prop where
  capacity : more.length ≤ remaining
  bytes : BytesAt blob position1 more
  ok : result = .ready (.ok ()) → state = .idle (position1 + more.length)
  pending : result = .pending → position = position1 + more.length ∧ ∃ op, state = .reading position op ∧
    Follows blob position op
  error : ∀ e, result = .ready (.error e) → state = .idle position ∨ state = .poisoned

/-- Without room for a piece, the loop panics. -/
private theorem hasRoom_of_readLoop {position ready position1 : Nat} {op : List ExportRangesItem} {remaining : Nat}
    {appended : List UInt8} {out : ReadOutcome}
    (h : readLoop position ready position1 op remaining appended = some out) :
    HasRoom ready position1 op remaining := by
  fun_induction readLoop position ready position1 op remaining appended with
  | case1 => trivial
  | case2 => trivial
  | case3 => trivial
  | case4 ready position1 n op remaining appended ih => exact ih h
  | case5 ready position1 leaf op remaining appended hoffset => exact fun heq => absurd heq hoffset
  | case6 => cases h
  | case7 ready position1 leaf op remaining appended hoffset hlt hadd =>
    intro _
    refine ⟨Nat.not_lt.mp hlt, ?_⟩
    intro hsum
    rw [addU64_of_lt hsum] at hadd
    cases hadd
  | case8 ready position1 leaf op remaining appended hoffset hlt next hadd ih =>
    obtain rfl := addU64_eq_some hadd
    exact fun _ => ⟨Nat.not_lt.mp hlt, fun _ => ih h⟩
  | case9 => trivial

/-- The loop copies the pieces that follow each other, if there is room for them. -/
private theorem readLoop_spec {blob : List UInt8} {position ready position1 : Nat}
    {op : List ExportRangesItem} {remaining : Nat}
    {appended : List UInt8} (hroom : HasRoom ready position1 op remaining) (hfollows : Follows blob position1 op) :
    ∃ more state result, readLoop position ready position1 op remaining appended =
      some ⟨state, appended ++ more, result⟩ ∧
      ReadRight blob position position1 remaining more state result := by
  induction ready generalizing position1 op remaining appended with
  | zero =>
    by_cases hpos : position ≠ position1
    · refine ⟨[], .idle position1, .ready (.ok ()), ?_, Nat.zero_le _, bytesAt_nil _ _, fun _ => rfl, ?_, ?_⟩
      · rw [readLoop, if_pos hpos, List.append_nil]
      · intro h
        cases h
      · intro e h
        cases h
    · have heq : position = position1 := not_not.mp hpos
      refine ⟨[], .reading position1 op, .pending, ?_, Nat.zero_le _, bytesAt_nil _ _, ?_, ?_, ?_⟩
      · rw [readLoop, if_neg hpos, List.append_nil]
      · intro h
        cases h
      · intro _
        refine ⟨heq, op, by rw [heq], ?_⟩
        rw [heq]
        exact hfollows
      · intro e h
        cases h
  | succ ready ih =>
    cases op with
    | nil =>
      refine ⟨[], .idle position1, .ready (.ok ()), ?_, Nat.zero_le _, bytesAt_nil _ _, fun _ => rfl, ?_, ?_⟩
      · rw [readLoop, List.append_nil]
      · intro h
        cases h
      · intro e h
        cases h
    | cons item op =>
      cases item with
      | size n =>
        obtain ⟨more, state, result, hloop, hright⟩ := @ih position1 op remaining appended hroom hfollows
        exact ⟨more, state, result, by rw [readLoop]; exact hloop, hright⟩
      | error =>
        refine ⟨[], .idle position, .ready (.error .readingData), ?_, Nat.zero_le _, bytesAt_nil _ _, ?_, ?_,
          fun _ _ => Or.inl rfl⟩
        · rw [readLoop, List.append_nil]
        · intro h
          cases h
        · intro h
          cases h
      | data leaf =>
        rw [readLoop]
        by_cases hoffset : leaf.offset ≠ position1
        · rw [if_pos hoffset]
          refine ⟨[], .poisoned, _, by rw [List.append_nil], Nat.zero_le _, bytesAt_nil _ _, ?_, ?_,
            fun _ _ => Or.inr rfl⟩
          · intro h
            cases h
          · intro h
            cases h
        · obtain ⟨hleaf, hrest⟩ := hfollows (not_not.mp hoffset)
          obtain ⟨hfits, hroom⟩ := hroom (not_not.mp hoffset)
          rw [if_neg hoffset, if_neg (Nat.not_lt.mpr hfits)]
          cases hadd : addU64 position1 leaf.data.length with
          | none =>
            refine ⟨leaf.data, .poisoned, _, rfl, hfits, hleaf, ?_, ?_, fun _ _ => Or.inr rfl⟩
            · intro h
              cases h
            · intro h
              cases h
          | some next =>
            have hlt := lt_of_addU64 hadd
            obtain rfl := addU64_eq_some hadd
            obtain ⟨more, state, result, hloop, hright⟩ :=
              @ih (position1 + leaf.data.length) op (remaining - leaf.data.length)
                (appended ++ leaf.data) (hroom hlt) hrest
            refine ⟨leaf.data ++ more, state, result, ?_, ?_, hleaf.append hright.bytes, ?_, ?_, hright.error⟩
            · rw [← List.append_assoc]
              exact hloop
            · have hcap := hright.capacity
              rw [List.length_append]
              omega
            · rw [List.length_append, ← Nat.add_assoc]
              exact hright.ok
            · rw [List.length_append, ← Nat.add_assoc]
              exact hright.pending

/-! ### The stream of a read -/

/-- The number of bytes of the items. -/
def opBytes : List ExportRangesItem → Nat
  | [] => 0
  | .data leaf :: op => leaf.data.length + opBytes op
  | .size _ :: op => opBytes op
  | .error :: op => opBytes op

/-- The items have the bytes of the blob from the position on, at most the given number of them. -/
structure Supplies (blob : List UInt8) (position len : Nat) (op : List ExportRangesItem) : Prop where
  follows : Follows blob position op
  bytes : opBytes op ≤ len

/-- The stored bytes of the entry are bytes of the blob. -/
def EntryOf (blob : List UInt8) (entry : RangesEntry) : Prop := ∀ p b, entry.data.stored p = some b → blob[p]? = some b

private theorem hasRoom_of_opBytes {ready position remaining : Nat} {op : List ExportRangesItem}
    (h : opBytes op ≤ remaining) :
    HasRoom ready position op remaining := by
  induction op generalizing ready position remaining with
  | nil => cases ready <;> trivial
  | cons item op ih =>
    cases ready with
    | zero => trivial
    | succ ready =>
      cases item with
      | size n => exact ih h
      | error => trivial
      | data leaf =>
        rw [opBytes] at h
        intro _
        exact ⟨by omega, fun _ => ih (by omega)⟩

section

variable {blob : List UInt8} {position len : Nat} {op : List ExportRangesItem}

private theorem follows_take (h : Follows blob position op) (sent : Nat) : Follows blob position (op.take sent) := by
  induction op generalizing position sent with
  | nil =>
    rw [List.take_nil]
    exact h
  | cons item op ih =>
    cases sent with
    | zero => trivial
    | succ sent =>
      cases item with
      | size n => exact ih h sent
      | error => trivial
      | data leaf => exact fun heq => ⟨(h heq).1, ih (h heq).2 sent⟩

private theorem follows_append_error (h : Follows blob position op) : Follows blob position (op ++ [.error]) := by
  induction op generalizing position with
  | nil => trivial
  | cons item op ih =>
    cases item with
    | size n => exact ih h
    | error => trivial
    | data leaf => exact fun heq => ⟨(h heq).1, ih (h heq).2⟩

private theorem opBytes_append (op op' : List ExportRangesItem) : opBytes (op ++ op') = opBytes op + opBytes op' := by
  induction op with
  | nil => exact (Nat.zero_add _).symm
  | cons item op ih =>
    cases item with
    | size n => exact ih
    | error => exact ih
    | data leaf => rw [List.cons_append, opBytes, opBytes, ih, Nat.add_assoc]

private theorem opBytes_take_le (op : List ExportRangesItem) (sent : Nat) : opBytes (op.take sent) ≤ opBytes op := by
  have h := opBytes_append (op.take sent) (op.drop sent)
  rw [List.take_append_drop] at h
  omega

private theorem Supplies.take (h : Supplies blob position len op) (sent : Nat) :
    Supplies blob position len (op.take sent) :=
  ⟨follows_take h.follows sent, Nat.le_trans (opBytes_take_le op sent) h.bytes⟩

private theorem Supplies.append_error (h : Supplies blob position len op) :
    Supplies blob position len (op ++ [.error]) :=
  ⟨follows_append_error h.follows, by rw [opBytes_append]; exact h.bytes⟩

private theorem supplies_nil : Supplies blob position len [] := ⟨trivial, Nat.zero_le _⟩

private theorem supplies_error : Supplies blob position len [.error] := ⟨trivial, Nat.zero_le _⟩

private theorem Supplies.append_errorItem (h : Supplies blob position len op) (e : Option ExportRangesError) :
    Supplies blob position len (op ++ errorItem e) := by
  have hnil : Supplies blob position len (op ++ []) := by
    rw [List.append_nil]
    exact h
  cases e with
  | none => exact hnil
  | some e =>
    cases e with
    | panicked => exact hnil
    | missing => exact h.append_error
    | io => exact h.append_error

private theorem supplies_cons {leaf : Leaf} (hlen : leaf.data.length ≤ len)
    (hbytes : leaf.offset = position → BytesAt blob position leaf.data)
    (h : Supplies blob (position + leaf.data.length) (len - leaf.data.length) op) :
    Supplies blob position len (.data leaf :: op) := by
  refine ⟨fun heq => ⟨hbytes heq, h.follows⟩, ?_⟩
  have hrest := h.bytes
  rw [opBytes]
  omega

end

/-- What is read of stored bytes are bytes of the blob. -/
private theorem bytesAt_of_stored {blob : List UInt8} {entry : RangesEntry} (hentry : EntryOf blob entry)
    {offset size : Nat}
    (hstored : ∀ p, offset ≤ p → p < offset + size → (entry.data.stored p).isSome = true) :
    BytesAt blob offset ((List.range' offset size).map (byteAt entry.data.stored)) := by
  intro i b hi
  rw [List.getElem?_map] at hi
  obtain ⟨p, hp, rfl⟩ := Option.map_eq_some_iff.mp hi
  have hlt : i < size := by
    have hlt := (List.getElem?_eq_some_iff.mp hp).1
    rwa [List.length_range'] at hlt
  rw [List.getElem?_range' hlt, Nat.one_mul, Option.some.injEq] at hp
  subst hp
  obtain ⟨b, hb⟩ := Option.isSome_iff_exists.mp (hstored (offset + i) (by omega) (by omega))
  rw [byteAt, hb, Option.getD_some]
  exact hentry _ b hb

private theorem supplies_sendPieces {blob : List UInt8} {entry : RangesEntry} (hentry : EntryOf blob entry)
    {stop offset : Nat}
    (hle : offset ≤ stop) (hstored : ∀ p, offset ≤ p → p < stop → (entry.data.stored p).isSome = true) :
    Supplies blob offset (stop - offset) ((sendPieces entry.data stop offset).1.map .data) := by
  induction hk : stop - offset using Nat.strong_induction_on generalizing offset with
  | _ k ih =>
  subst hk
  unfold sendPieces
  split
  · exact supplies_nil
  · have hpiece : ∀ p, offset ≤ p → p < offset + (min (offset + 1024) stop - offset) →
      (entry.data.stored p).isSome = true := by
      intro p h1 h2
      exact hstored p h1 (by omega)
    have hread := entry.data.reads _ _ hpiece
    have hbytes := bytesAt_of_stored hentry hpiece
    generalize hdata : (List.range' offset (min (offset + 1024) stop - offset)).map (byteAt entry.data.stored) =
      data at hread hbytes
    have hlen : data.length = min (offset + 1024) stop - offset := by rw [← hdata, List.length_map, List.length_range']
    rw [hread]
    dsimp only
    split
    · exact supplies_cons (by dsimp only; omega) (fun _ => hbytes) supplies_nil
    · have hnext : min (offset + 1024) stop = offset + data.length := by omega
      have hrest :=
        ih (stop - (offset + data.length)) (by omega) (by omega) (fun p h1 h2 => hstored p (by omega) h2) rfl
      rw [hnext, List.map_cons]
      rw [← Nat.sub_sub] at hrest
      exact supplies_cons (by dsimp only; omega) (fun _ => hbytes) hrest

private theorem sendPieces_head (data : DataReader) (stop offset : Nat) :
    (sendPieces data stop offset).1 = [] ∨ ∃ bytes rest, (sendPieces data stop offset).1 = ⟨offset, bytes⟩ :: rest := by
  unfold sendPieces
  split
  · exact Or.inl rfl
  · cases data.readBytesAt offset (min (offset + 1024) stop - offset) with
    | none => exact Or.inl rfl
    | some bytes =>
      dsimp only
      split
      · exact Or.inr ⟨bytes, [], rfl⟩
      · exact Or.inr ⟨bytes, _, rfl⟩

/-- Pieces before the position do not follow it. -/
private theorem follows_sendPieces_of_lt {blob : List UInt8} {data : DataReader} {stop offset position : Nat}
    (hlt : offset < position) : Follows blob position ((sendPieces data stop offset).1.map .data) := by
  rcases sendPieces_head data stop offset with h | ⟨bytes, rest, h⟩
  · rw [h]
    trivial
  · rw [h, List.map_cons]
    exact fun heq => absurd heq (Nat.ne_of_lt hlt)

private theorem supplies_sendRange {blob : List UInt8} {entry : RangesEntry} (hentry : EntryOf blob entry)
    {position len : Nat} :
    Supplies blob position len ((sendRange entry.bitfield entry.data (position, some (position + len))).1.map
      .data) := by
  by_cases hcov : Covered entry.bitfield (position, some (position + len))
  · rw [sendRange_of_covered hcov]
    have hstart : clampStart entry.bitfield.size (position, some (position + len)) =
      min entry.bitfield.size position := rfl
    have hend : clampEnd entry.bitfield.size (position, some (position + len)) =
      min entry.bitfield.size (position + len) := rfl
    have hstored : ∀ p, min entry.bitfield.size position ≤ p → p < min entry.bitfield.size (position + len) →
        (entry.data.stored p).isSome = true := by
      intro p h1 h2
      exact entry.present p (by omega) (hcov p h1 h2)
    rw [hstart, hend]
    have hle : min entry.bitfield.size position ≤ min entry.bitfield.size (position + len) := by omega
    have hpieces := supplies_sendPieces hentry hle hstored
    refine ⟨?_, Nat.le_trans hpieces.bytes (by omega)⟩
    rcases Nat.lt_or_ge entry.bitfield.size position with hlt | hge
    · exact follows_sendPieces_of_lt (by omega)
    · have hfollows := hpieces.follows
      rw [Nat.min_eq_right hge] at hfollows ⊢
      exact hfollows
  · rw [sendRange_of_not_covered hcov]
    exact supplies_nil

private theorem sendRanges_range {entry : RangesEntry} {start stop : Nat} :
    sendRanges entry.bitfield entry.data (RangeSet.range start stop).iter =
      if start < stop then sendRange entry.bitfield entry.data (start, some stop) else ([], none) := by
  rw [RangeSet.range]
  split
  · have hiter : sendRanges entry.bitfield entry.data [(start, some stop)] =
        sendRange entry.bitfield entry.data (start, some stop) := by
      rw [sendRanges]
      rcases sendRange entry.bitfield entry.data (start, some stop) with ⟨leaves, _ | e⟩
      · simp [sendRanges]
      · rfl
    exact hiter
  · rfl

/-- The stream of a read supplies at most as many bytes as the buffer has room for. -/
theorem supplies_exportStream {blob : List UInt8} {entry : Option RangesEntry}
    (hentry : ∀ e, entry = some e → EntryOf blob e)
    (ending : ExportEnd) (position len : Nat) :
    Supplies blob position len (exportStream entry ending (RangeSet.range position (position + len))) := by
  have hitems : Supplies blob position len (exportItems entry (RangeSet.range position (position + len))) := by
    cases entry with
    | none => exact supplies_error
    | some entry =>
      rw [exportItems, exportRangesFs, sentItems]
      apply Supplies.append_errorItem
      rw [sendRanges_range]
      split
      · exact supplies_sendRange (hentry entry rfl)
      · exact supplies_nil
  cases ending with
  | regular => exact hitems
  | failed sent => exact (hitems.take sent).append_error
  | lost sent => exact hitems.take sent

/-! ### Delivery in order -/

/-- The bytes that were delivered since the last seek are the bytes of the blob from there on, and the position is
where they end. -/
structure InOrder (blob : List UInt8) (r : Reader) : Prop where
  bytes : BytesAt blob r.base r.delivered
  idle : ∀ p, r.state = .idle p → p = r.base + r.delivered.length
  reading : ∀ p op, r.state = .reading p op → p = r.base + r.delivered.length ∧ Follows blob p op

/-- A call that goes on with a pending read has room for the pieces that arrive. -/
def Room (r : Reader) : Call → Prop
  | .read _ _ remaining ready =>
    match r.state with
    | .reading position op => HasRoom ready position op remaining
    | _ => True
  | _ => True

/-- The call reads from entries of the blob. -/
def Call.Of (blob : List UInt8) : Call → Prop
  | .read entry _ _ _ => ∀ e, entry = some e → EntryOf blob e
  | _ => True

private theorem inOrder_new (blob : List UInt8) : InOrder blob new := by
  refine ⟨bytesAt_nil blob 0, ?_, ?_⟩
  · intro p hp
    cases hp
    rfl
  · intro p op hp
    cases hp

/-- A call that delivers nothing either keeps the state, or leaves one that has no position to read from. -/
theorem InOrder.of_state {blob : List UInt8} {r : Reader} (h : InOrder blob r) {state : ReaderState}
    (hstate : state = r.state ∨ (∃ p, state = .seeking p) ∨ state = .poisoned) :
    InOrder blob ⟨state, r.base, r.delivered⟩ := by
  refine ⟨h.bytes, ?_, ?_⟩
  · intro p hp
    rcases hstate with rfl | ⟨q, rfl⟩ | rfl
    · exact h.idle p hp
    · cases hp
    · cases hp
  · intro p op hp
    rcases hstate with rfl | ⟨q, rfl⟩ | rfl
    · exact h.reading p op hp
    · cases hp
    · cases hp

private theorem inOrder_deliver {blob : List UInt8} {r : Reader} (h : InOrder blob r) {position remaining : Nat}
    (hposition : position = r.base + r.delivered.length) {more : List UInt8} {state : ReaderState}
    {result : Poll (Except ReaderError Unit)} (hright : ReadRight blob position position remaining more state result) :
    InOrder blob (deliver r ⟨state, more, result⟩) := by
  cases result with
  | pending =>
    obtain ⟨-, op, hstate, hfollows⟩ := hright.pending rfl
    refine ⟨h.bytes, ?_, ?_⟩
    · intro p hp
      cases hstate.symm.trans hp
    · intro p op' hp
      cases hstate.symm.trans hp
      exact ⟨hposition, hfollows⟩
  | ready result =>
    cases result with
    | ok _ =>
      have hstate := hright.ok rfl
      have hbytes := hright.bytes
      rw [hposition] at hbytes
      refine ⟨h.bytes.append hbytes, ?_, ?_⟩
      · intro p hp
        cases hstate.symm.trans hp
        rw [deliver, List.length_append, hposition, Nat.add_assoc]
      · intro p op hp
        cases hstate.symm.trans hp
    | error e =>
      rcases hright.error e rfl with hstate | hstate
      · refine ⟨h.bytes, ?_, ?_⟩
        · intro p hp
          cases hstate.symm.trans hp
          exact hposition
        · intro p op hp
          cases hstate.symm.trans hp
      · exact h.of_state (Or.inr (Or.inr hstate))

/-- A call of `poll_read` stays within the buffer, puts nothing there if it stays pending, and delivers in order. -/
structure ReadCall (blob : List UInt8) (r : Reader) (remaining : Nat) (out : ReadOutcome) : Prop where
  capacity : out.appended.length ≤ remaining
  pending : out.result = .pending → out.appended = []
  inOrder : InOrder blob (deliver r out)

private theorem readCall_of_readLoop {blob : List UInt8} {r : Reader} (h : InOrder blob r)
    {position remaining ready : Nat}
    (hposition : position = r.base + r.delivered.length) {op : List ExportRangesItem}
    (hroom : HasRoom ready position op remaining) (hfollows : Follows blob position op) :
    ∃ out, readLoop position ready position op remaining [] = some out ∧ ReadCall blob r remaining out := by
  obtain ⟨more, state, result, hloop, hright⟩ :=
    @readLoop_spec blob position ready position op remaining [] hroom hfollows
  rw [List.nil_append] at hloop
  refine ⟨_, hloop, hright.capacity, ?_, inOrder_deliver h hposition hright⟩
  intro hpending
  have hlen := (hright.pending hpending).1
  exact List.length_eq_zero_iff.mp (show more.length = 0 by omega)

/-- An error that leaves the state as it is, or poisons the reader. -/
private theorem readCall_error {blob : List UInt8} {r : Reader} (h : InOrder blob r) {state : ReaderState}
    {remaining : Nat} {e : ReaderError}
    (hstate : state = r.state ∨ (∃ p, state = .seeking p) ∨ state = .poisoned) :
    ReadCall blob r remaining ⟨state, [], .ready (.error e)⟩ :=
  ⟨Nat.zero_le _, fun _ => rfl, h.of_state hstate⟩

private theorem readCall_pollRead {blob : List UInt8} {r : Reader} (h : InOrder blob r) {entry : Option RangesEntry}
    {ending : ExportEnd}
    {remaining ready : Nat} (hof : Call.Of blob (.read entry ending remaining ready))
    (hroom : Room r (.read entry ending remaining ready)) :
    ∃ out, pollRead entry ending r.state remaining ready = some out ∧ ReadCall blob r remaining out := by
  rw [Room] at hroom
  cases hstate : r.state with
  | idle position =>
    rw [pollRead]
    cases hadd : addU64 position remaining with
    | none => exact ⟨_, rfl, readCall_error h (Or.inr (Or.inr rfl))⟩
    | some stop =>
      obtain rfl := addU64_eq_some hadd
      have hsupplies := supplies_exportStream hof ending position remaining
      exact readCall_of_readLoop h (h.idle position hstate) (hasRoom_of_opBytes hsupplies.bytes) hsupplies.follows
  | reading position op =>
    rw [hstate] at hroom
    obtain ⟨hposition, hfollows⟩ := h.reading position op hstate
    exact readCall_of_readLoop h hposition hroom hfollows
  | seeking position => exact ⟨_, rfl, readCall_error h (Or.inr (Or.inl ⟨position, rfl⟩))⟩
  | poisoned => exact ⟨_, rfl, readCall_error h (Or.inr (Or.inr rfl))⟩

private theorem step_inOrder {blob : List UInt8} {r : Reader} {c : Call} (h : InOrder blob r)
    (hok : Room r c ∧ c.Of blob) :
    ∃ r', step r c = some r' ∧ InOrder blob r' := by
  cases c with
  | read entry ending remaining ready =>
    obtain ⟨out, hread, hcall⟩ := readCall_pollRead h hok.2 hok.1
    exact ⟨_, by rw [step, hread, Option.map_some], hcall.inOrder⟩
  | startSeek seekFrom =>
    refine ⟨_, rfl, h.of_state (Or.inr ?_)⟩
    unfold startSeek
    split
    · split
      · exact Or.inl ⟨_, rfl⟩
      · split
        · exact Or.inr rfl
        · exact Or.inl ⟨_, rfl⟩
      · exact Or.inr rfl
    all_goals exact Or.inr rfl
  | pollComplete =>
    rw [step]
    cases hstate : r.state with
    | seeking position =>
      refine ⟨_, rfl, bytesAt_nil blob position, ?_, ?_⟩
      · intro p hp
        cases hp
        rfl
      · intro p op hp
        cases hp
    | idle position => exact ⟨_, rfl, h.of_state (Or.inl hstate.symm)⟩
    | reading position op => exact ⟨_, rfl, h.of_state (Or.inl hstate.symm)⟩
    | poisoned => exact ⟨_, rfl, h.of_state (Or.inl hstate.symm)⟩

/-- Without room, the call panics. -/
theorem room_of_step {r r' : Reader} {c : Call} (h : step r c = some r') : Room r c := by
  cases c with
  | read entry ending remaining ready =>
    obtain ⟨out, hread, -⟩ := Option.map_eq_some_iff.mp h
    rw [Room]
    split
    · rename_i position op hstate
      rw [hstate] at hread
      exact hasRoom_of_readLoop hread
    · trivial
  | startSeek seekFrom => trivial
  | pollComplete => trivial

/-- The reader answers all calls.  No read puts more into the buffer than there is room, the bytes of the successful
reads since the last seek are the bytes of the blob from there on, and the position is where they end. -/
structure Delivers (blob : List UInt8) (calls : List Call) : Prop where
  answers : ∃ r, run step new calls = some r
  reads : ∀ before entry ending remaining ready r, before ++ [.read entry ending remaining ready] <+: calls →
    run step new before = some r → ∃ out, pollRead entry ending r.state remaining ready = some out ∧
      ReadCall blob r remaining out
  inOrder : ∀ before r, before <+: calls → run step new before = some r → InOrder blob r

/-- The reader delivers the bytes in order, exactly if each call that goes on with a pending read has room for the
pieces that arrive. -/
theorem reader_delivers_iff (blob : List UInt8) (calls : List Call) (hof : ∀ c ∈ calls, c.Of blob) :
    Delivers blob calls ↔ RunMeets step Room new calls := by
  constructor
  · intro h
    obtain ⟨r, hrun⟩ := h.answers
    exact runMeets_of_run step room_of_step hrun
  · intro h
    have hmeets := h.and step (runMeets_of_forall step (s := new) hof)
    have hinv : ∀ before r, before <+: calls → run step new before = some r → InOrder blob r := by
      rintro before r ⟨after, rfl⟩ hrun
      refine inv_of_run step ?_ (inOrder_new blob) ((runMeets_append step).mp hmeets).1 hrun
      intro s a s' hs hok hstep
      obtain ⟨t, ht, hinv⟩ := step_inOrder hs hok
      rw [hstep, Option.some.injEq] at ht
      rwa [ht]
    refine ⟨?_, ?_, hinv⟩
    · obtain ⟨r, hrun, -⟩ := exists_run step step_inOrder (inOrder_new blob) hmeets
      exact ⟨r, hrun⟩
    · rintro before entry ending remaining ready r ⟨after, rfl⟩ hrun
      rw [List.append_assoc, List.singleton_append] at hmeets
      have hok := (((runMeets_append step).mp hmeets).2 r hrun).1
      have hr := hinv before r ⟨[.read entry ending remaining ready] ++ after, by rw [List.append_assoc]⟩ hrun
      exact readCall_pollRead hr hok.2 hok.1

/-- A blob of two bytes. -/
def twoBytes : RangesEntry := RangesEntry.ofData [7, 8] (by decide)

private theorem entryOf_twoBytes : ∀ e, some twoBytes = some e → EntryOf [7, 8] e := by
  rintro e ⟨⟩ p b h
  exact h

/-- A read that was pending goes on with a buffer of the same size, and then there is a seek. -/
theorem reader_delivers_sameSize :
    Delivers [7, 8] [.read (some twoBytes) .regular 2 0, .read (some twoBytes) .regular 2 2, .startSeek (.start 1),
      .pollComplete] := by
  refine (reader_delivers_iff _ _ ?_).mpr ⟨trivial, ?_⟩
  · simp only [List.forall_mem_cons, List.not_mem_nil, false_implies, implies_true, and_true]
    exact ⟨entryOf_twoBytes, entryOf_twoBytes, trivial, trivial⟩
  · rintro r ⟨⟩
    refine ⟨?_, fun _ _ => ⟨trivial, fun _ _ => ⟨trivial, fun _ _ => trivial⟩⟩⟩
    exact hasRoom_of_opBytes (supplies_exportStream entryOf_twoBytes .regular 0 2).bytes

private theorem exportStream_twoBytes : exportStream (some twoBytes) .regular (RangeSet.range 0 2) =
    [.data ⟨0, [7, 8]⟩] := by
  rw [exportStream, exportItems, exportRangesFs, sendRanges_range, if_pos (by decide)]
  have hsend : sendRange twoBytes.bitfield twoBytes.data (0, some 2) = ([⟨0, [7, 8]⟩], none) := by
    have hpieces : sendPieces twoBytes.data 2 0 = ([⟨0, [7, 8]⟩], none) := by
      unfold sendPieces
      decide +kernel
    have hsup : twoBytes.bitfield.ranges.isSuperset (chunkRangesBytes 0 2) = true := by decide +kernel
    rw [sendRange]
    exact (if_pos hsup).trans hpieces
  rw [hsend]
  rfl

/-- The read goes on with a smaller buffer. -/
theorem not_delivers_smaller :
    (∀ c ∈ [Call.read (some twoBytes) .regular 2 0, .read (some twoBytes) .regular 1 1], c.Of [7, 8]) ∧
      ¬ Delivers [7, 8] [.read (some twoBytes) .regular 2 0, .read (some twoBytes) .regular 1 1] := by
  refine ⟨?_, ?_⟩
  · simp only [List.forall_mem_cons, List.not_mem_nil, false_implies, implies_true, and_true]
    exact ⟨entryOf_twoBytes, entryOf_twoBytes⟩
  · intro h
    obtain ⟨r, hrun⟩ := h.answers
    obtain ⟨s, hs, hrun⟩ := run_cons step hrun
    cases hs
    obtain ⟨t, ht, -⟩ := run_cons step hrun
    have hroom : HasRoom 1 0 (exportStream (some twoBytes) .regular (RangeSet.range 0 2)) 1 := room_of_step ht
    rw [exportStream_twoBytes] at hroom
    exact absurd (hroom rfl).1 (by decide)

/-! ### Errors -/

/-- The state after a call, if the call returns an error. -/
def errorState (s : ReaderState) : Call → Option ReaderState
  | .read entry ending remaining ready =>
    match pollRead entry ending s remaining ready with
    | some ⟨state, _, .ready (.error _)⟩ => some state
    | _ => none
  | .startSeek seekFrom =>
    match startSeek s seekFrom with
    | (state, .error _) => some state
    | (_, .ok _) => none
  | .pollComplete =>
    match pollComplete s with
    | (state, .error _) => some state
    | (_, .ok _) => none

def ReaderState.position? : ReaderState → Option Nat
  | .idle position => some position
  | .seeking position => some position
  | .reading position _ => some position
  | .poisoned => none

/-- The reader is not poisoned and is where it was.  It goes on as before, except that a read that was pending has
ended. -/
structure Kept (s s' : ReaderState) : Prop where
  notPoisoned : s' ≠ .poisoned
  position : s'.position? = s.position?
  asBefore : s' = s ∨ ∃ position op, s = .reading position op ∧ s' = .idle position

def KeptByErrors (s : ReaderState) (c : Call) : Prop := ∀ s', errorState s c = some s' → Kept s s'

/-- The pieces that arrive follow each other, as long as they fit into the buffer. -/
def Aligned : Nat → Nat → List ExportRangesItem → Nat → Prop
  | 0, _, _, _ => True
  | _ + 1, _, [], _ => True
  | ready + 1, position, .size _ :: op, remaining => Aligned ready position op remaining
  | _ + 1, _, .error :: _, _ => True
  | ready + 1, position, .data leaf :: op, remaining => leaf.offset = position ∧ (leaf.data.length ≤ remaining →
    position + leaf.data.length < 2 ^ 64 ∧ Aligned ready (position + leaf.data.length) op
      (remaining - leaf.data.length))

/-- The call does not take one of the exits that leave the reader poisoned. -/
def PutsBack : ReaderState → Call → Prop
  | .idle position, .read entry ending remaining ready => position + remaining < 2 ^ 64 ∧
    Aligned ready position (exportStream entry ending (RangeSet.range position (position + remaining))) remaining
  | .reading position op, .read _ _ remaining ready => Aligned ready position op remaining
  | .seeking _, .read _ _ _ _ => True
  | .idle _, .startSeek (.start _) => True
  | .idle position, .startSeek (.current offset) => 0 ≤ position + offset ∧ position + offset < 2 ^ 64
  | .idle _, .startSeek (.fromEnd _) => False
  | .reading _ _, .startSeek _ => False
  | .seeking _, .startSeek _ => False
  | .poisoned, _ => False
  | _, .pollComplete => True

private theorem readLoop_error_of_aligned {position ready position1 : Nat}
    {op : List ExportRangesItem} {remaining : Nat}
    {appended appended' : List UInt8} {state : ReaderState} {e : ReaderError} (h : Aligned ready position1 op remaining)
    (hloop : readLoop position ready position1 op remaining appended = some ⟨state, appended', .ready (.error e)⟩) :
    state = .idle position := by
  fun_induction readLoop position ready position1 op remaining appended with
  | case1 => cases hloop
  | case2 => cases hloop
  | case3 => cases hloop
  | case4 ready position1 n op remaining appended ih => exact ih h hloop
  | case5 ready position1 leaf op remaining appended hoffset => exact absurd h.1 hoffset
  | case6 => cases hloop
  | case7 ready position1 leaf op remaining appended hoffset hlt hadd =>
    rw [addU64_of_lt (h.2 (Nat.not_lt.mp hlt)).1] at hadd
    cases hadd
  | case8 ready position1 leaf op remaining appended hoffset hlt next hadd ih =>
    obtain rfl := addU64_eq_some hadd
    exact ih (h.2 (Nat.not_lt.mp hlt)).2 hloop
  | case9 =>
    cases hloop
    rfl

private theorem readLoop_error_of_not_aligned (position : Nat) {ready position1 : Nat}
    {op : List ExportRangesItem} {remaining : Nat}
    (appended : List UInt8) (h : ¬ Aligned ready position1 op remaining) :
    ∃ appended' e, readLoop position ready position1 op remaining appended =
      some ⟨.poisoned, appended', .ready (.error e)⟩ := by
  fun_induction readLoop position ready position1 op remaining appended with
  | case1 => exact absurd trivial h
  | case2 => exact absurd trivial h
  | case3 => exact absurd trivial h
  | case4 ready position1 n op remaining appended ih => exact ih h
  | case5 ready position1 leaf op remaining appended hoffset => exact ⟨_, _, rfl⟩
  | case6 ready position1 leaf op remaining appended hoffset hlt =>
    exact absurd ⟨not_not.mp hoffset, fun hle => absurd hlt (Nat.not_lt.mpr hle)⟩ h
  | case7 => exact ⟨_, _, rfl⟩
  | case8 ready position1 leaf op remaining appended hoffset hlt next hadd ih =>
    have hsum := lt_of_addU64 hadd
    obtain rfl := addU64_eq_some hadd
    exact ih (fun hrest => h ⟨not_not.mp hoffset, fun _ => ⟨hsum, hrest⟩⟩)
  | case9 => exact absurd trivial h

private theorem Kept.refl {s : ReaderState} (h : s ≠ .poisoned) : Kept s s := ⟨h, rfl, Or.inl rfl⟩

private theorem not_kept_poisoned (s : ReaderState) : ¬ Kept s .poisoned := fun h => h.notPoisoned rfl

private theorem keptByErrors_of_none {s : ReaderState} {c : Call} (h : errorState s c = none) : KeptByErrors s c := by
  intro s' hs'
  rw [h] at hs'
  cases hs'

private theorem not_keptByErrors {s : ReaderState} {c : Call} (h : errorState s c = some .poisoned) :
    ¬ KeptByErrors s c :=
  fun hkept => not_kept_poisoned s (hkept .poisoned h)

/-- A read that is started, or goes on. -/
private theorem keptByErrors_read_iff {s : ReaderState} {entry : Option RangesEntry} {ending : ExportEnd}
    {remaining ready position : Nat}
    {op : List ExportRangesItem} (hkept : Kept s (.idle position))
    (hread : pollRead entry ending s remaining ready = readLoop position ready position op remaining []) :
    KeptByErrors s (.read entry ending remaining ready) ↔ Aligned ready position op remaining := by
  constructor
  · intro h
    by_contra hnot
    obtain ⟨appended, e, hloop⟩ := readLoop_error_of_not_aligned position [] hnot
    refine not_keptByErrors ?_ h
    rw [errorState, hread, hloop]
  · intro h s' hs'
    rw [errorState, hread] at hs'
    split at hs'
    · rename_i state appended e hloop
      cases hs'
      rw [readLoop_error_of_aligned h hloop]
      exact hkept
    · cases hs'

/-- A call that fails leaves the reader as it was, exactly if it does not take one of the exits that forget to put the
state back. -/
theorem errors_keep_reader_iff (s : ReaderState) (c : Call) : KeptByErrors s c ↔ PutsBack s c := by
  cases c with
  | read entry ending remaining ready =>
    cases s with
    | idle position =>
      by_cases hsum : position + remaining < 2 ^ 64
      · rw [PutsBack, and_iff_right hsum]
        refine keptByErrors_read_iff (Kept.refl (by simp)) ?_
        rw [pollRead, addU64_of_lt hsum]
      · refine iff_of_false (not_keptByErrors ?_) (fun h => hsum h.1)
        rw [errorState, pollRead, addU64, if_neg hsum]
    | reading position op => exact keptByErrors_read_iff ⟨by simp, rfl, Or.inr ⟨position, op, rfl, rfl⟩⟩ rfl
    | seeking position =>
      refine iff_of_true ?_ trivial
      rintro s' ⟨⟩
      exact Kept.refl (by simp)
    | poisoned => exact iff_of_false (not_keptByErrors rfl) id
  | startSeek seekFrom =>
    cases s with
    | idle position =>
      cases seekFrom with
      | start pos => exact iff_of_true (keptByErrors_of_none rfl) trivial
      | current offset =>
        by_cases hfits : 0 ≤ position + offset ∧ position + offset < 2 ^ 64
        · refine iff_of_true (keptByErrors_of_none ?_) hfits
          rw [errorState, startSeek, addSigned, if_pos hfits]
        · refine iff_of_false (not_keptByErrors ?_) hfits
          rw [errorState, startSeek, addSigned, if_neg hfits]
      | fromEnd offset => exact iff_of_false (not_keptByErrors rfl) id
    | reading position op => exact iff_of_false (not_keptByErrors rfl) id
    | seeking position => exact iff_of_false (not_keptByErrors rfl) id
    | poisoned => exact iff_of_false (not_keptByErrors rfl) id
  | pollComplete =>
    cases s with
    | idle position => exact iff_of_true (keptByErrors_of_none rfl) trivial
    | reading position op =>
      refine iff_of_true ?_ trivial
      rintro s' ⟨⟩
      exact Kept.refl (by simp)
    | seeking position => exact iff_of_true (keptByErrors_of_none rfl) trivial
    | poisoned => exact iff_of_false (not_keptByErrors rfl) id

/-- Seeking from the end is not supported, and leaves a new reader poisoned. -/
theorem not_keptByErrors_seekFromEnd : ¬ KeptByErrors new.state (.startSeek (.fromEnd 0)) :=
  not_keptByErrors rfl

end BlobReader

end IrohBlobs
