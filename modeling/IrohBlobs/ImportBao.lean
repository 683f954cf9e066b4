import IrohBlobs.Traverse
import IrohBlobs.StateMachine

/-!
# Imports of verified streams

The model of `import_bao_impl` in `store/fs.rs` and of `import_bao` in `store/mem.rs`, for one hash.  Any number of
imports run concurrently.  Each has its own claimed size and its own decoder, which forwards only verified items
(`Merkle.Decoder`); it can end after any item.  The file store collects items in batches and writes a batch under the
lock of the entry, the memory store writes item by item.

The invariant `FsInv` says that all chunks of the bitfield are provable, and that the pairs which an import has verified
are in its batch or in the outboard.  It is preserved as long as the claimed size of an import puts each parent where it
belongs (`Placed`).
-/

namespace IrohBlobs

namespace ImportBao

open Merkle BaoTree Provable

/-! ### The file store -/

section Fs

variable {H : Type}

/-- An import task: the decoder that feeds it, the current batch, and the chunks of the leaves of the batch. -/
structure ImportStream (H : Type) where
  decoder : Decoder H
  batch : List (BaoContentItem H)
  ranges : ChunkRanges

/-- The entry of the hash, and the imports that are running. -/
structure FsStore (H : Type) where
  entry : BaoFileStorage H
  streams : Nat → Option (ImportStream H)

/-- The store before any import. -/
def FsStore.new : FsStore H := ⟨.nonExisting, fun _ => none⟩

/-- The chunks of a leaf. -/
def chunkRange (leaf : Leaf) : ChunkRanges :=
  RangeSet.range (chunks leaf.offset) (chunks (leaf.offset + leaf.data.length))

/-- The leaf has the last chunk, but does not end at the claimed size. -/
def invalidSize (size : Nat) (leaf : Leaf) : Bool :=
  (chunkRange leaf).contains (chunks size - 1) && size != leaf.offset + leaf.data.length

/-- Write a batch to the entry.  The file operations fail, or they succeed and leave out some cells.  A failed write
poisons the entry; entries that ignore the write do not fail. -/
def writeBatch (options : InlineOptions) (entry : BaoFileStorage H) (batch : List (BaoContentItem H))
    (bitfield : Bitfield)
    (io : Option Omits) : BaoFileStorage H × Bool :=
  match entry with
  | .complete _ | .poisoned | .initial | .loading => (entry, true)
  | _ =>
    match io with
    | some omits => ((entry.writeBatch options (.new omits) batch bitfield).1, true)
    | none => (.poisoned, false)

/-- An item is added to the batch of an import. -/
def push (s : FsStore H) (id : Nat) (st : ImportStream H) : BaoContentItem H → FsStore H
  | .leaf leaf =>
    if invalidSize st.decoder.size leaf then { s with streams := Function.update s.streams id none }
    else
      { s with
        streams := Function.update s.streams id
          (some { st with ranges := st.ranges ∪ chunkRange leaf, batch := st.batch ++ [.leaf leaf] }) }
  | .parent parent =>
    { s with streams := Function.update s.streams id (some { st with batch := st.batch ++ [.parent parent] }) }

/-- The batch of an import is written, and the import goes on if that succeeds. -/
def flush (options : InlineOptions) (s : FsStore H) (id : Nat) (st : ImportStream H) (io : Option Omits)
    (next : FsStore H → ImportStream H → FsStore H) : FsStore H :=
  let (entry, written) := writeBatch options s.entry st.batch ⟨st.decoder.size, st.ranges⟩ io
  if written then next { s with entry } { st with batch := [], ranges := ∅ }
  else ⟨entry, Function.update s.streams id none⟩

/-- An import receives an item.  A parent after a leaf starts a new batch. -/
def recv (options : InlineOptions) (s : FsStore H) (id : Nat) (st : ImportStream H) (item : BaoContentItem H)
    (io : Option Omits) : FsStore H :=
  if (st.batch.getLast?.map BaoContentItem.isLeaf).getD false && item.isParent then
    flush options s id st io (fun s st => push s id st item)
  else push s id st item

/-- An import is at its end: the last batch is written. -/
def finish (options : InlineOptions) (s : FsStore H) (id : Nat) (st : ImportStream H) (io : Option Omits) : FsStore H :=
  if st.batch.isEmpty then { s with streams := Function.update s.streams id none }
  else flush options s id st io (fun s _ => { s with streams := Function.update s.streams id none })

/-- The steps of the imports, with what the file operations of the step do. -/
inductive Action (H : Type)
  | start (id size : Nat)
  | parent (id : Nat) (path : List Bool) (pair : H × H) (io : Option Omits)
  | leaf (id : Nat) (path : List Bool) (data : List UInt8) (io : Option Omits)
  | finish (id : Nat) (io : Option Omits)
  | stop (id : Nat)

variable [DecidableEq H]

/-- One step.  Items that the decoder does not verify are not forwarded. -/
def fsStep (f : HashFns UInt8 H) (root : H) (options : InlineOptions) (s : FsStore H) : Action H → Option (FsStore H)
  | .start id size =>
    if 0 < size ∧ (s.streams id).isNone then
      some { s with streams := Function.update s.streams id (some ⟨⟨size, root, []⟩, [], ∅⟩) }
    else none
  | .parent id path pair io =>
    (s.streams id).bind fun st =>
      (st.decoder.parent f path pair).map fun decoder =>
        recv options s id { st with decoder } (.parent ⟨nodeAt (treeChunks st.decoder.size) path, pair⟩) io
  | .leaf id path data io =>
    (s.streams id).bind fun st =>
      if st.decoder.leaf f 16 path data then
        some (recv options s id st (.leaf ⟨(sub (treeChunks st.decoder.size) path).1 * 1024, data⟩) io)
      else none
  | .finish id io => (s.streams id).map fun st => finish options s id st io
  | .stop id => (s.streams id).map fun _ => { s with streams := Function.update s.streams id none }

end Fs

/-! ### The invariant -/

section Streams

variable {H : Type} (f : HashFns UInt8 H) (blob : List UInt8)

/-- A verified leaf, with all pairs above it. -/
structure LeafOf (d : Decoder H) (p : List Bool) (leaf : Leaf) : Prop where
  leaf : TrueLeaf blob d.size p leaf
  above : ∀ q b r, p = q ++ b :: r → ∃ pair, (q, pair) ∈ d.pairs

/-- The verified pairs of an import are true and belong where the claimed size puts them, and so do the items of its
batch.  The verified pairs that are stored are in the batch, or else `stored` holds for them. -/
structure StreamInv (stored : List Bool → Prop) (st : ImportStream H) : Prop where
  sound : Decoder.Sound f blob st.decoder
  size_pos : 0 < st.decoder.size
  placed : ∀ q pair, (q, pair) ∈ st.decoder.pairs →
    TrueParent f blob st.decoder.size q ⟨nodeAt (treeChunks st.decoder.size) q, pair⟩
  items : ∀ item ∈ st.batch, TrueItem f blob st.decoder.size item
  stored : ∀ q pair, (q, pair) ∈ st.decoder.pairs → 16 < (sub (treeChunks st.decoder.size) q).2 →
    .parent ⟨nodeAt (treeChunks st.decoder.size) q, pair⟩ ∈ st.batch ∨ stored q
  ranges : ∀ x ∈ st.ranges, ∃ p leaf, .leaf leaf ∈ st.batch ∧ LeafOf blob st.decoder p leaf ∧
    (sub (treeChunks blob.length) p).1 ≤ x ∧ x < (sub (treeChunks blob.length) p).1 + (sub (treeChunks blob.length) p).2

variable {f blob} {stored : List Bool → Prop} {st : ImportStream H}

theorem treeChunks_eq {len : Nat} (h : 0 < len) : treeChunks len = chunks len := by
  unfold treeChunks chunks
  omega

/-- A leaf of a wrong size does not contain the last chunk of either tree. -/
theorem trueLeaf_end_lt {size : Nat} {p : List Bool} {leaf : Leaf} (h : TrueLeaf blob size p leaf) (hpos : 0 < size)
    (hne : size ≠ blob.length) :
    (sub (treeChunks blob.length) p).1 + (sub (treeChunks blob.length) p).2 < chunks size ∧
      (sub (treeChunks blob.length) p).1 + (sub (treeChunks blob.length) p).2 < chunks blob.length := by
  have hn : ∀ len, 0 < treeChunks len := fun len => by unfold treeChunks; omega
  have hnot : ¬ ∀ b ∈ p, b = true := fun hright => hne (h.last hright)
  have h1 := (sub_bounds (hn size) h.path').2
  have h2 := (sub_bounds (hn blob.length) h.path).2
  have h3 := mt (sub_end_iff (hn size) h.path').mp hnot
  have h4 := mt (sub_end_iff (hn blob.length) h.path).mp hnot
  rw [h.sub_eq] at h1 h3
  rw [← treeChunks_eq hpos, ← treeChunks_eq (List.length_pos_iff.mpr h.ne_nil)]
  omega

/-- The update for a batch fits the blob. -/
theorem StreamInv.fits {reaches : Nat → Nat → Prop} (h : StreamInv f blob stored st)
    (hreach : ∀ p leaf, .leaf leaf ∈ st.batch → TrueLeaf blob st.decoder.size p leaf →
      ∀ y, (sub (treeChunks blob.length) p).1 ≤ y →
        y < (sub (treeChunks blob.length) p).1 + (sub (treeChunks blob.length) p).2 → reaches st.decoder.size y) :
    Fits blob.length reaches ⟨st.decoder.size, st.ranges⟩ := by
  by_cases hsize : st.decoder.size = blob.length
  · exact Or.inl hsize
  · refine Or.inr (fun x hx => ?_)
    obtain ⟨p, leaf, hmem, hleaf, h1, h2⟩ := h.ranges x hx
    obtain ⟨h3, h4⟩ := trueLeaf_end_lt hleaf.leaf h.size_pos hsize
    have h5 : x + 1 < chunks st.decoder.size := by omega
    exact ⟨h5, by omega, x, Nat.le_refl x, hreach p leaf hmem hleaf.leaf x h1 h2⟩

/-- After the batch of an import is written, the chunks of the updated bitfield are provable. -/
theorem StreamInv.hasBitfield {reaches : Nat → Nat → Prop} {write : Nat → BaoContentItem H → List (Nat × List H)}
    (hw : OutboardWriter write) {data : Content UInt8} {outboard : Content H}
    (h : StreamInv f blob (HasPair f blob outboard) st)
    {bitfield update : Bitfield} (hb : HasBitfield f blob data outboard bitfield)
    (hfits : Fits blob.length reaches bitfield)
    (hupdate : ∀ x ∈ update.ranges, x < chunks blob.length → x ∈ st.ranges) (hfits' : Fits blob.length reaches update) :
    HasBitfield f blob (data.writes (st.batch.flatMap dataWrites))
      (outboard.writes (st.batch.flatMap (write st.decoder.size))) (bitfield.combine update) := by
  intro x hx hlt
  have hows := respects_outboardWrites hw h.items
  rcases (fits_combine hfits hfits').2 x hx with hx | ⟨hle, -⟩
  · rcases RangeSet.mem_union.mp hx with hx | hx
    · exact (hb x hx hlt).writes (respects_dataWrites h.items) hows
    · obtain ⟨p, leaf, hmem, hleaf, h1, h2⟩ := h.ranges x (hupdate x hx hlt)
      refine hasChunk_of_leaf h.items hmem hleaf.leaf (fun q b r hq hlt16 hstored => ?_) h1 h2
      obtain ⟨pair, hpair⟩ := hleaf.above q b r hq
      rcases h.stored q pair hpair hlt16 with hin | hhas
      · exact hasPair_of_mem hw h.items hin (h.placed q pair hpair) hlt16 outboard
      · exact hhas.writes hstored hows
  · omega

/-- A complete bitfield has the right size and all chunks. -/
theorem complete_of_fits {S : Nat} {reaches : Nat → Nat → Prop} {b : Bitfield} (h : Fits S reaches b)
    (hc : b.isComplete = true) : b.size = S ∧ ∀ x, x < chunks S → x ∈ b.ranges := by
  unfold Bitfield.isComplete at hc
  rcases h with h | h
  · refine ⟨h, fun x hx => ?_⟩
    rw [h] at hc
    split at hc
    · exact RangeSet.isAll_iff.mp hc x
    · exact RangeSet.isSubset_iff.mp hc x (by rw [RangeSet.mem_range]; omega)
  · exfalso
    split at hc
    · rename_i hz
      have := (h 0 (RangeSet.isAll_iff.mp hc 0)).1
      rw [hz] at this
      unfold chunks at this
      omega
    · rename_i hz
      have hpos := Bitfield.chunks_pos (Nat.pos_of_ne_zero hz)
      have := (h (chunks b.size - 1) (RangeSet.isSubset_iff.mp hc _ (by rw [RangeSet.mem_range]; omega))).1
      omega

/-! ### Steps of an import -/

/-- The verified pairs stay stored when the entry changes. -/
theorem StreamInv.mono {stored' : List Bool → Prop} (h : StreamInv f blob stored st)
    (hmono : ∀ q, IsStored blob q → stored q → stored' q) : StreamInv f blob stored' st := by
  refine ⟨h.sound, h.size_pos, h.placed, h.items, fun q pair hmem hlt => ?_, h.ranges⟩
  exact (h.stored q pair hmem hlt).imp_right (hmono q ((h.placed q pair hmem).placed hlt).1)

/-- After its batch is written, an import starts an empty batch. -/
theorem StreamInv.flushed {stored' : List Bool → Prop} (h : StreamInv f blob stored st)
    (hall : ∀ q pair, (q, pair) ∈ st.decoder.pairs → 16 < (sub (treeChunks st.decoder.size) q).2 → stored' q) :
    StreamInv f blob stored' { st with batch := [], ranges := ∅ } :=
  ⟨h.sound, h.size_pos, h.placed, by simp, fun q pair hmem hlt => Or.inr (hall q pair hmem hlt),
    fun x hx => absurd hx (RangeSet.not_mem_empty x)⟩

theorem streamInv_start {root : H} (hroot : root = nodeHash f blob []) {size : Nat} (hsize : 0 < size) :
    StreamInv f blob stored ⟨⟨size, root, []⟩, [], ∅⟩ :=
  ⟨⟨hroot, by simp, by simp⟩, hsize, by simp, by simp, by simp, fun x hx => absurd hx (RangeSet.not_mem_empty x)⟩

variable [DecidableEq H]

/-- A claimed size puts a parent where the tree of the blob has it. -/
def PlacedAt (blob : List UInt8) (size : Nat) (p : List Bool) : Prop :=
  16 < (sub (treeChunks size) p).2 → IsStored blob p ∧ slot (treeChunks size) p = slot (treeChunks blob.length) p

theorem parent_eq_some {d d' : Decoder H} {p : List Bool} {pair : H × H} (h : d.parent f p pair = some d') :
    d' = { d with pairs := (p, pair) :: d.pairs } ∧ IsPath 1 (treeChunks d.size) p ∧
      1 < (sub (treeChunks d.size) p).2 := by
  unfold Decoder.parent at h
  split at h
  · rename_i hcond
    cases h
    exact ⟨rfl, hcond.1, hcond.2.1⟩
  · cases h

theorem StreamInv.pushParent (hf : CollisionFree f) (h : StreamInv f blob stored st) {p : List Bool} {pair : H × H}
    {d' : Decoder H} (hd : st.decoder.parent f p pair = some d') (hplaced : PlacedAt blob st.decoder.size p) :
    StreamInv f blob stored
      { st with decoder := d', batch := st.batch ++ [.parent ⟨nodeAt (treeChunks st.decoder.size) p, pair⟩] } := by
  have hsound := h.sound.parent hf hd
  obtain ⟨rfl, hpath, hlt⟩ := parent_eq_some hd
  have hpair := (hsound.pairs p pair List.mem_cons_self).2.2
  have hparent : TrueParent f blob st.decoder.size p ⟨nodeAt (treeChunks st.decoder.size) p, pair⟩ :=
    ⟨hpath, hlt, rfl, hpair, hplaced⟩
  refine ⟨hsound, h.size_pos, fun q pair' hmem => ?_, fun item hmem => ?_, fun q pair' hmem hlt' => ?_, fun x hx => ?_⟩
  · rcases List.mem_cons.mp hmem with heq | hmem
    · cases heq
      exact hparent
    · exact h.placed q pair' hmem
  · rcases List.mem_append.mp hmem with hmem | hmem
    · exact h.items item hmem
    · rw [List.mem_singleton.mp hmem]
      exact ⟨p, hparent⟩
  · rcases List.mem_cons.mp hmem with heq | hmem
    · cases heq
      exact Or.inl (by simp)
    · exact (h.stored q pair' hmem hlt').imp_left (List.mem_append_left _)
  · obtain ⟨q, leaf, hmem, hleaf, hx⟩ := h.ranges x hx
    refine ⟨q, leaf, List.mem_append_left _ hmem, ⟨hleaf.leaf, fun q' b r hq => ?_⟩, hx⟩
    obtain ⟨pair', hpair'⟩ := hleaf.above q' b r hq
    exact ⟨pair', List.mem_cons_of_mem _ hpair'⟩

/-- A verified leaf is a leaf of the blob. -/
theorem StreamInv.leafOf (hf : CollisionFree f) (h : StreamInv f blob stored st) {p : List Bool} {data : List UInt8}
    (hd : st.decoder.leaf f 16 p data = true) :
    LeafOf blob st.decoder p ⟨(sub (treeChunks st.decoder.size) p).1 * 1024, data⟩ := by
  obtain ⟨hpath, hpath', hsub, hle, hdata, hne, hlast, hprev⟩ := h.sound.leaf hf h.size_pos hd
  refine ⟨⟨hpath, hpath', hsub, hle, by rw [hsub], hdata, hne, hlast⟩, fun q b r hq => ?_⟩
  -- the pair right above the leaf is verified, and so are all above it
  rcases List.eq_nil_or_concat (b :: r) with hnil | ⟨r', b', hr⟩
  · cases hnil
  · rw [hr, List.concat_eq_append, ← List.append_assoc] at hq
    obtain ⟨pair, hpair⟩ := hprev _ _ hq
    exact h.sound.mem_of_append hpair

/-- The chunks of a true leaf. -/
theorem mem_chunkRange {size : Nat} {p : List Bool} {leaf : Leaf} (h : TrueLeaf blob size p leaf) {x : Nat} :
    x ∈ chunkRange leaf ↔ (sub (treeChunks blob.length) p).1 ≤ x ∧
      x < (sub (treeChunks blob.length) p).1 + (sub (treeChunks blob.length) p).2 := by
  have hn : 0 < treeChunks blob.length := by unfold treeChunks; omega
  obtain ⟨h1, h2⟩ := sub_bounds hn h.path
  have hlen := chunks_region h.ne_nil h1 h2
  rw [← h.data] at hlen
  have hend : chunks (leaf.offset + leaf.data.length) =
      (sub (treeChunks blob.length) p).1 + (sub (treeChunks blob.length) p).2 := by
    rw [h.offset]
    unfold chunks at hlen ⊢
    omega
  have hstart : chunks leaf.offset = (sub (treeChunks blob.length) p).1 := by
    rw [h.offset]
    unfold chunks
    omega
  rw [chunkRange, RangeSet.mem_range, hend, hstart]

theorem StreamInv.pushLeaf (hf : CollisionFree f) (h : StreamInv f blob stored st) {p : List Bool} {data : List UInt8}
    (hd : st.decoder.leaf f 16 p data = true) {leaf : Leaf}
    (hleaf : leaf = ⟨(sub (treeChunks st.decoder.size) p).1 * 1024, data⟩) :
    StreamInv f blob stored { st with ranges := st.ranges ∪ chunkRange leaf, batch := st.batch ++ [.leaf leaf] } := by
  have hof := h.leafOf hf hd
  rw [← hleaf] at hof
  refine ⟨h.sound, h.size_pos, h.placed, fun item hmem => ?_, fun q pair hmem hlt => ?_, fun x hx => ?_⟩
  · rcases List.mem_append.mp hmem with hmem | hmem
    · exact h.items item hmem
    · rw [List.mem_singleton.mp hmem]
      exact ⟨p, hof.leaf⟩
  · exact (h.stored q pair hmem hlt).imp_left (List.mem_append_left _)
  · rcases RangeSet.mem_union.mp hx with hx | hx
    · obtain ⟨q, leaf', hmem, hrest⟩ := h.ranges x hx
      exact ⟨q, leaf', List.mem_append_left _ hmem, hrest⟩
    · exact ⟨p, leaf, by simp, hof, (mem_chunkRange hof.leaf).mp hx⟩

end Streams

/-! ### Runs of the file store -/

section Rule

variable {H : Type}

/-- The first batch of an entry, which is copied from memory to the files, is copied without leaving out cells. -/
def CopiesAll (options : InlineOptions) : BaoFileStorage H → ImportStream H → Option Omits → Prop
  | .nonExisting, st, io => maxOffset st.batch ≤ options.maxDataInlined → ∀ omits, io = some omits → omits.WritesAll
  | _, _, _ => True

/-- Conditions on the steps of imports: on the claimed size and the path of a parent or of a leaf, and on the entry,
the stream and the file operations of a step that may write the batch. -/
structure Condition (H : Type) where
  parent : Nat → List Bool → Prop
  leaf : Nat → List Bool → Prop
  batch : BaoFileStorage H → ImportStream H → Option Omits → Prop

def Condition.Meets (c : Condition H) (s : FsStore H) : Action H → Prop
  | .start _ _ | .stop _ => True
  | .parent id path _ io => ∀ st, s.streams id = some st → c.parent st.decoder.size path ∧ c.batch s.entry st io
  | .leaf id path _ _ => ∀ st, s.streams id = some st → c.leaf st.decoder.size path
  | .finish id io => ∀ st, s.streams id = some st → c.batch s.entry st io

/-- What has to be proved of predicates on the entry and on the imports so that every step preserves them. -/
structure Preserved [DecidableEq H] (f : HashFns UInt8 H) (root : H) (options : InlineOptions) (c : Condition H)
    (entryInv : BaoFileStorage H → Prop) (streamInv : BaoFileStorage H → ImportStream H → Prop) : Prop where
  start : ∀ entry size, 0 < size → streamInv entry ⟨⟨size, root, []⟩, [], ∅⟩
  parent : ∀ entry st p pair d', streamInv entry st → c.parent st.decoder.size p →
    st.decoder.parent f p pair = some d' →
    streamInv entry
      { st with decoder := d', batch := st.batch ++ [.parent ⟨nodeAt (treeChunks st.decoder.size) p, pair⟩] }
  leaf : ∀ entry st p data leaf, streamInv entry st → c.leaf st.decoder.size p → st.decoder.leaf f 16 p data = true →
    leaf = ⟨(sub (treeChunks st.decoder.size) p).1 * 1024, data⟩ →
    streamInv entry { st with ranges := st.ranges ∪ chunkRange leaf, batch := st.batch ++ [.leaf leaf] }
  write : ∀ entry st io entry' written, entryInv entry → streamInv entry st → c.batch entry st io →
    writeBatch options entry st.batch ⟨st.decoder.size, st.ranges⟩ io = (entry', written) →
    entryInv entry' ∧ (∀ st', streamInv entry st' → streamInv entry' st') ∧
      (written = true → streamInv entry' { st with batch := [], ranges := ∅ })

/-- The predicates hold of the entry and of all imports. -/
structure Holds (entryInv : BaoFileStorage H → Prop) (streamInv : BaoFileStorage H → ImportStream H → Prop)
    (s : FsStore H) : Prop where
  entry : entryInv s.entry
  streams : ∀ id st, s.streams id = some st → streamInv s.entry st

variable {f : HashFns UInt8 H} {root : H} {options : InlineOptions} {c : Condition H}
  {entryInv : BaoFileStorage H → Prop}
  {streamInv : BaoFileStorage H → ImportStream H → Prop} {s : FsStore H}

private theorem Holds.update (h : Holds entryInv streamInv s) {id : Nat} {o : Option (ImportStream H)}
    (ho : ∀ st, o = some st → streamInv s.entry st) :
    Holds entryInv streamInv { s with streams := Function.update s.streams id o } := by
  refine ⟨h.entry, fun id' st hst => ?_⟩
  by_cases hid : id' = id
  · subst hid
    exact ho st (by simpa using hst)
  · exact h.streams id' st (by simpa [hid] using hst)

private theorem Holds.stop (h : Holds entryInv streamInv s) (id : Nat) :
    Holds entryInv streamInv { s with streams := Function.update s.streams id none } :=
  h.update (fun _ hst => by cases hst)

variable [DecidableEq H]

/-- Writing the batch of an import keeps the predicates if the continuation does. -/
private theorem Preserved.flush (hp : Preserved f root options c entryInv streamInv)
    (h : Holds entryInv streamInv s) {id : Nat}
    {st : ImportStream H} (hst : streamInv s.entry st) {io : Option Omits} (hc : c.batch s.entry st io) {d : Decoder H}
    (hd : d.size = st.decoder.size) {next : FsStore H → ImportStream H → FsStore H}
    (hnext : ∀ s' : FsStore H, Holds entryInv streamInv s' → streamInv s'.entry { st with batch := [], ranges := ∅ } →
      Holds entryInv streamInv (next s' { st with decoder := d, batch := [], ranges := ∅ })) :
    Holds entryInv streamInv (flush options s id { st with decoder := d } io next) := by
  unfold ImportBao.flush
  rw [hd]
  obtain ⟨h1, h2, h3⟩ := hp.write s.entry st io _ _ h.entry hst hc rfl
  have hs' : Holds entryInv streamInv { s with entry := _ } := ⟨h1, fun id' st' hst' => h2 st' (h.streams id' st' hst')⟩
  simp only
  split
  · exact hnext _ hs' (h3 ‹_›)
  · exact hs'.stop id

/-- The rule for one step. -/
private theorem Preserved.step (hp : Preserved f root options c entryInv streamInv) {a : Action H} {s' : FsStore H}
    (h : Holds entryInv streamInv s) (hc : c.Meets s a) (hstep : fsStep f root options s a = some s') :
    Holds entryInv streamInv s' := by
  cases a with
  | start id size =>
    simp only [fsStep] at hstep
    split at hstep
    · rename_i hcond
      cases hstep
      refine h.update (fun st hst => ?_)
      cases hst
      exact hp.start s.entry size hcond.1
    · cases hstep
  | stop id =>
    obtain ⟨st, -, rfl⟩ := Option.map_eq_some_iff.mp hstep
    exact h.stop id
  | finish id io =>
    obtain ⟨st, hst, rfl⟩ := Option.map_eq_some_iff.mp hstep
    unfold finish
    split
    · exact h.stop id
    · exact hp.flush h (h.streams id st hst) (hc st hst) (d := st.decoder) rfl (fun s' hs' _ => hs'.stop id)
  | parent id path pair io =>
    obtain ⟨st, hst, hstep⟩ := Option.bind_eq_some_iff.mp hstep
    obtain ⟨d', hd, rfl⟩ := Option.map_eq_some_iff.mp hstep
    obtain ⟨hc1, hc2⟩ := hc st hst
    have hsize : d'.size = st.decoder.size := by rw [(parent_eq_some hd).1]
    have hinv := h.streams id st hst
    unfold recv
    split
    · refine hp.flush h hinv hc2 hsize (fun s' hs' hst' => ?_)
      refine hs'.update (fun st' hst'' => ?_)
      cases hst''
      exact hp.parent s'.entry { st with batch := [], ranges := ∅ } path pair d' hst' hc1 hd
    · refine h.update (fun st' hst' => ?_)
      cases hst'
      exact hp.parent s.entry st path pair d' hinv hc1 hd
  | leaf id path data io =>
    obtain ⟨st, hst, hstep⟩ := Option.bind_eq_some_iff.mp hstep
    have hc1 := hc st hst
    have hinv := h.streams id st hst
    split at hstep
    · rename_i hd
      cases hstep
      -- a leaf never starts a new batch
      rw [recv, if_neg (by simp [BaoContentItem.isParent]), push]
      split
      · exact h.stop id
      · refine h.update (fun st' hst' => ?_)
        cases hst'
        exact hp.leaf s.entry st path data _ hinv hc1 hd rfl
    · cases hstep

/-- The rule for runs. -/
theorem Preserved.run (hp : Preserved f root options c entryInv streamInv) {as : List (Action H)} {s' : FsStore H}
    (h : Holds entryInv streamInv s) (hc : StateMachine.RunMeets (fsStep f root options) c.Meets s as)
    (hrun : StateMachine.run (fsStep f root options) s as = some s') : Holds entryInv streamInv s' :=
  StateMachine.inv_of_run (fsStep f root options) hp.step h hc hrun

end Rule

end ImportBao

end IrohBlobs
