import IrohBlobs.ImportMem

/-!
# Partial blobs stay provable

The results about imports with wrong claimed sizes, for the file store and for the memory store.  They hold as long as
the claimed size of an import puts each parent where it belongs.  An import can violate this without ever having a leaf
verified: the pairs of a blob with 49 chunks also verify in a tree with 128 chunks, where they have other positions.
-/

namespace IrohBlobs

open Merkle BaoTree Provable ImportBao

/-! ### Imports of true pairs -/

section

variable {H : Type} (f : HashFns UInt8 H) (blob : List UInt8)

/-- The pair of a node. -/
def pairAt (p : List Bool) : H × H := (nodeHash f blob (p ++ [false]), nodeHash f blob (p ++ [true]))

/-- An import that claims a size and has received the pairs of some nodes. -/
def honest (size : Nat) (ps : List (List Bool)) : ImportStream H where
  decoder := ⟨size, nodeHash f blob [], (ps.map (fun p => (p, pairAt f blob p))).reverse⟩
  batch := ps.map (fun p => .parent ⟨nodeAt (treeChunks size) p, pairAt f blob p⟩)
  ranges := ∅

/-- The nodes are inner nodes of the claimed tree and of the tree of the blob, and each comes after its parent. -/
def Descends (n n' : Nat) : List (List Bool) → List (List Bool) → Prop
  | _, [] => True
  | ps, p :: rest =>
    ((IsPath 1 n p ∧ 1 < (sub n p).2) ∧ IsPath 1 n' p ∧ 1 < (sub n' p).2) ∧ (p = [] ∨ p.dropLast ∈ ps) ∧
    Descends n n' (ps ++ [p]) rest

instance decidableDescends (n n' : Nat) : (ps qs : List (List Bool)) → Decidable (Descends n n' ps qs)
  | _, [] => isTrue trivial
  | ps, p :: rest =>
    have := decidableDescends n n' (ps ++ [p]) rest
    inferInstanceAs (Decidable (_ ∧ (_ ∨ _) ∧ Descends n n' (ps ++ [p]) rest))

variable {f blob}

private theorem expected_honest {size : Nat} {ps : List (List Bool)} {p : List Bool} (hp : p = [] ∨ p.dropLast ∈ ps) :
    (honest f blob size ps).decoder.expected p = some (nodeHash f blob p) := by
  rcases List.eq_nil_or_concat p with rfl | ⟨q, b, rfl⟩
  · rfl
  · rw [List.concat_eq_append] at *
    have hq : q ∈ ps := by simpa using hp
    have hlookup : ((ps.map (fun p => (p, pairAt f blob p))).reverse).lookup q = some (pairAt f blob q) := by
      clear hp
      rw [← List.map_reverse]
      rw [← List.mem_reverse] at hq
      generalize ps.reverse = l at hq
      induction l with
      | nil => cases hq
      | cons a l ih =>
        rw [List.map_cons, List.lookup_cons]
        by_cases ha : q = a
        · subst ha
          simp
        · rw [beq_false_of_ne ha]
          exact ih (by simpa [ha] using hq)
    simp only [Decoder.expected, honest, List.getLast?_concat, List.dropLast_concat, hlookup, Option.map_some]
    cases b <;> rfl

/-- The leaf of the blob at a path. -/
def leafAt (blob : List UInt8) (p : List Bool) : Leaf :=
  ⟨(sub (treeChunks blob.length) p).1 * 1024,
    region blob (sub (treeChunks blob.length) p).1 (sub (treeChunks blob.length) p).2⟩

variable [DecidableEq H] {s : FsStore H} {id size : Nat} {options : InlineOptions}

/-- The pair of a node that is an inner node of both trees is verified. -/
theorem parent_honest {ps : List (List Bool)} {q : List Bool}
    (hq : (IsPath 1 (treeChunks size) q ∧ 1 < (sub (treeChunks size) q).2) ∧ IsPath 1 (treeChunks blob.length) q ∧
      1 < (sub (treeChunks blob.length) q).2) (hparent : q = [] ∨ q.dropLast ∈ ps) :
    (honest f blob size ps).decoder.parent f q (pairAt f blob q) = some (honest f blob size (ps ++ [q])).decoder := by
  obtain ⟨⟨h1, h2⟩, h3, h4⟩ := hq
  rw [Decoder.parent, if_pos ⟨h1, h2, by rw [expected_honest hparent, nodeHash_eq_parent f h3 h4]; rfl⟩]
  simp [honest]

/-- A leaf of an import with the right size is verified. -/
theorem leaf_honest {ps : List (List Bool)} {p : List Bool}
    (hp : IsPath 1 (treeChunks blob.length) p ∧ (sub (treeChunks blob.length) p).2 ≤ 16)
    (hparent : p = [] ∨ p.dropLast ∈ ps) :
    (honest f blob blob.length ps).decoder.leaf f 16 p (leafAt blob p).data = true := by
  unfold Decoder.leaf
  rw [decide_eq_true_iff]
  refine ⟨hp.1, hp.2, length_region _ _ _, ?_⟩
  rw [expected_honest hparent]
  rfl

omit [DecidableEq H] in
private theorem update_self (s : FsStore H) (id : Nat) (o : Option (ImportStream H)) :
    FsStore.streams { s with streams := Function.update s.streams id o } id = o :=
  Function.update_self ..

private theorem step_start (hsize : 0 < size) (hst : s.streams id = none) :
    fsStep f (nodeHash f blob []) options s (.start id size) =
      some { s with streams := Function.update s.streams id (some (honest f blob size [])) } := by
  simp only [fsStep]
  rw [if_pos ⟨hsize, by rw [hst]; rfl⟩]
  rfl

private theorem step_parent {ps : List (List Bool)} {q : List Bool} (hst : s.streams id = some (honest f blob size ps))
    (hq : (IsPath 1 (treeChunks size) q ∧ 1 < (sub (treeChunks size) q).2) ∧ IsPath 1 (treeChunks blob.length) q ∧
      1 < (sub (treeChunks blob.length) q).2) (hparent : q = [] ∨ q.dropLast ∈ ps) (io : Option Omits) :
    fsStep f (nodeHash f blob []) options s (.parent id q (pairAt f blob q) io) =
      some { s with streams := Function.update s.streams id (some (honest f blob size (ps ++ [q]))) } := by
  have hd := parent_honest (f := f) hq hparent
  have hbatch : ((honest f blob size ps).batch.getLast?.map BaoContentItem.isLeaf).getD false = false := by
    simp only [honest, List.getLast?_map, Option.map_map]
    cases ps.getLast? <;> rfl
  simp only [fsStep, hst, Option.bind_some, hd, Option.map_some, recv, hbatch, Bool.false_and, Bool.false_eq_true,
    if_false, push]
  simp [honest]

/-- A last leaf, with the right size. -/
theorem step_leaf {ps : List (List Bool)} {p : List Bool} (hlen : size = blob.length)
    (hst : s.streams id = some (honest f blob size ps))
    (hp : IsPath 1 (treeChunks size) p ∧ (sub (treeChunks size) p).2 ≤ 16) (hparent : p = [] ∨ p.dropLast ∈ ps)
    (hsize : invalidSize size (leafAt blob p) = false) (io : Option Omits) :
    fsStep f (nodeHash f blob []) options s (.leaf id p (leafAt blob p).data io) =
      some { s with streams := Function.update s.streams id (some ⟨(honest f blob size ps).decoder,
        (honest f blob size ps).batch ++ [.leaf (leafAt blob p)], ∅ ∪ chunkRange (leafAt blob p)⟩) } := by
  subst hlen
  have hd := leaf_honest (f := f) hp hparent
  have hstep : fsStep f (nodeHash f blob []) options s (.leaf id p (leafAt blob p).data io) =
      some (push s id (honest f blob blob.length ps) (.leaf (leafAt blob p))) := by
    simp only [fsStep, hst, Option.bind_some, hd, if_true, recv, BaoContentItem.isParent, Bool.and_false,
      Bool.false_eq_true, if_false]
    rfl
  have hvalid : invalidSize (honest f blob blob.length ps).decoder.size (leafAt blob p) ≠ true := by
    rw [show (honest f blob blob.length ps).decoder.size = blob.length from rfl, hsize]
    simp
  rw [hstep, push, if_neg hvalid]
  rfl

private theorem step_finish {st : ImportStream H} {root : H} {io : Option Omits} (entry : BaoFileStorage H)
    (hst : s.streams id = some st) (hbatch : st.batch ≠ [])
    (hentry : writeBatch options s.entry st.batch ⟨st.decoder.size, st.ranges⟩ io = (entry, true)) :
    fsStep f root options s (.finish id io) = some ⟨entry, Function.update s.streams id none⟩ := by
  simp only [fsStep, hst, Option.map_some, ImportBao.finish, List.isEmpty_iff, hbatch, if_false, flush, hentry, if_true]

private theorem run_parents (size : Nat) (ps qs : List (List Bool)) (hst : s.streams id = some (honest f blob size ps))
    (hq : Descends (treeChunks size) (treeChunks blob.length) ps qs) (as : List (Action H)) :
    StateMachine.run (fsStep f (nodeHash f blob []) options) s
        (qs.map (fun q => .parent id q (pairAt f blob q) (some .none)) ++ as) =
      StateMachine.run (fsStep f (nodeHash f blob []) options)
        { s with streams := Function.update s.streams id (some (honest f blob size (ps ++ qs))) } as := by
  induction qs generalizing s ps with
  | nil =>
    rw [List.append_nil, ← hst, Function.update_eq_self]
    rfl
  | cons q qs ih =>
    obtain ⟨hq, hparent, hrest⟩ := hq
    rw [List.map_cons, List.cons_append, StateMachine.run_of_step (step_parent hst hq hparent _),
      ih _ (update_self ..) hrest, Function.update_idem, List.append_assoc, List.singleton_append]

end

/-- Terms in place of hashes: nothing collides. -/
inductive HashTerm
  | chunk (start : Nat) (data : List UInt8) (isRoot : Bool)
  | parent (l r : HashTerm) (isRoot : Bool)
  deriving DecidableEq

def termHash : HashFns UInt8 HashTerm := ⟨.chunk, .parent⟩

theorem collisionFree_termHash : CollisionFree termHash := by
  constructor <;> simp [termHash]

/-! ### The result -/

section

variable {H : Type} [DecidableEq H] {f : HashFns UInt8 H}

/-- If all parents are placed, the chunks of the bitfield stay provable.  If in addition the leaves are whole chunk
groups and the size info is not lost, exports of ranges of the bitfield succeed. -/
theorem partialBlobs_stay_provable (hf : CollisionFree f) (blob : List UInt8) (options : InlineOptions)
    {traverse : ExportSource H → ChunkRanges → List (EncodedItem H)} (ht : TraversesValidated f traverse) :
    (∀ as s, StateMachine.run (fsStep f (nodeHash f blob []) options) .new as = some s →
      StateMachine.RunMeets (fsStep f (nodeHash f blob []) options) (placed options blob).Meets .new as →
      EntryProvable f blob s.entry) ∧
    (∀ as s, StateMachine.run (fsStep f (nodeHash f blob []) options) .new as = some s →
      StateMachine.RunMeets (fsStep f (nodeHash f blob []) options) (placedWhole options blob).Meets .new as →
      ∀ b size ranges, s.entry.bitfield = some b → s.entry.currentSize = some size → (∀ x ∈ ranges, x ∈ b.ranges) →
        ExportSucceeds (exportBaoImpl traverse (nodeHash f [] []) (nodeHash f blob []) s.entry ranges) ranges) ∧
    (∀ as s, StateMachine.run (ImportMem.memStep f (nodeHash f blob [])) .new as = some s →
      StateMachine.RunMeets (ImportMem.memStep f (nodeHash f blob [])) (ImportMem.Meets blob False) .new as →
      HasBitfield f blob s.entry.data s.entry.outboard s.entry.bitfield) ∧
    (∀ as s, StateMachine.run (ImportMem.memStep f (nodeHash f blob [])) .new as = some s →
      StateMachine.RunMeets (ImportMem.memStep f (nodeHash f blob [])) (ImportMem.Meets blob True) .new as →
      ∀ ranges : ChunkRanges, (∀ x ∈ ranges, x ∈ s.entry.bitfield.ranges) →
        ExportSucceeds (s.entry.exportBao traverse (nodeHash f blob []) ranges) ranges) := by
  refine ⟨fun as s hrun hmeets => ?_, fun as s hrun hmeets b size ranges hb hsize hranges => ?_,
    fun as s hrun hmeets => ?_, fun as s hrun hmeets ranges hranges => ?_⟩
  · have h := (preserved_provable hf (placed options blob) (fun _ _ hp => hp) (fun _ _ _ hcopies => hcopies)).run
      (s := .new) ⟨trivial, fun id st hst => by cases hst⟩ hmeets hrun
    exact h.entry.provable
  · have h := (preserved_export hf).run
      (s := .new) ⟨⟨trivial, trivial⟩, fun id st hst => by cases hst⟩ hmeets hrun
    exact export_succeeds ht h.entry.1 h.entry.2 hb hsize hranges
  · have h := StateMachine.inv_of_run _ (ImportMem.memStep_inv hf) ImportMem.storeInv_new hmeets hrun
    exact h.entry.hasBitfield
  · have h := StateMachine.inv_of_run _ (ImportMem.memStep_inv hf) ImportMem.storeInv_new hmeets hrun
    exact ImportMem.exportBao_succeeds ht h.entry hranges

end

/-- A blob with 49 chunks. -/
def blob49 : List UInt8 := List.replicate 50176 0

private theorem length_blob49 : blob49.length = 50176 := List.length_replicate

private theorem treeChunks_blob49 : treeChunks blob49.length = 49 := by
  rw [length_blob49]
  decide

private theorem leafAt_blob49 : leafAt blob49 [true, true] = ⟨49152, List.replicate 1024 0⟩ := by
  rw [leafAt, treeChunks_blob49, show sub 49 [true, true] = (48, 1) by decide]
  rw [region, blob49, List.drop_replicate, List.take_replicate]
  rfl

/-! ### An interrupted import -/

private theorem invalidSize_blob49 : invalidSize 50176 (leafAt blob49 [true, true]) = false := by
  rw [leafAt_blob49, invalidSize, chunkRange, List.length_replicate]
  decide

/-- The pairs and the chunk groups of the selected chunks below a path, in pre-order. -/
noncomputable def groupItems (src : ExportSource HashTerm) (ranges : ChunkRanges) :
    Nat → List Bool → List (EncodedItem HashTerm)
  | 0, _ => []
  | fuel + 1, p =>
    open Classical in
    let node := sub (treeChunks src.size) p
    if ∃ x ∈ ranges, node.1 ≤ src.selected x ∧ src.selected x < node.1 + node.2 then
      if node.2 ≤ 16 then
        [.leaf ⟨node.1 * 1024, (List.range' (node.1 * 1024) (min (node.2 * 1024) (src.size - node.1 * 1024))).filterMap
          src.data.cell⟩]
      else
        match src.outboard.cell (2 * slot (treeChunks src.size) p),
          src.outboard.cell (2 * slot (treeChunks src.size) p + 1) with
        | some l, some r =>
          .parent ⟨nodeAt (treeChunks src.size) p, (l, r)⟩ ::
            (groupItems src ranges fuel (p ++ [false]) ++ groupItems src ranges fuel (p ++ [true]))
        | _, _ => []
    else []

/-- A traversal that compares all hashes before it sends anything. -/
noncomputable def traverseGroups (src : ExportSource HashTerm) (ranges : ChunkRanges) : List (EncodedItem HashTerm) :=
  open Classical in
  if ∀ x ∈ ranges, src.Verifies termHash (src.selected x) then
    .size src.size :: groupItems src ranges (treeChunks src.size) [] ++ [.done]
  else [.size src.size, .error (.leafHashMismatch 0)]

private theorem error_notMem_groupItems (src : ExportSource HashTerm) (ranges : ChunkRanges)
    (e : EncodeError) (fuel : Nat)
    (p : List Bool) : .error e ∉ groupItems src ranges fuel p := by
  induction fuel generalizing p with
  | zero => simp [groupItems]
  | succ fuel ih =>
    simp only [groupItems]
    split
    · split
      · simp
      · split
        · simp [ih]
        · simp
    · simp

private theorem traversesValidated_traverseGroups : TraversesValidated termHash traverseGroups := by
  intro src ranges h
  unfold traverseGroups
  rw [if_pos h]
  exact ⟨by simp, fun e => by simp [error_notMem_groupItems]⟩

/-- The last chunk is imported with the right size.  Then an import claims 128 chunks, and ends after the root pair. -/
def interruptedRun : List (Action HashTerm) :=
  [.start 0 50176, .parent 0 [] (pairAt termHash blob49 []) (some .none),
    .parent 0 [true] (pairAt termHash blob49 [true]) (some .none),
    .leaf 0 [true, true] (leafAt blob49 [true, true]).data (some .none), .finish 0 (some .none), .start 1 131072,
    .parent 1 [] (pairAt termHash blob49 []) (some .none), .finish 1 (some .none)]

/-- The first batch is written in memory and then copied to files. -/
private theorem firstImport_mem : ∃ fs : PartialFileStorage HashTerm,
    writeBatch ⟨65536, 16384⟩ .nonExisting
      ((honest termHash blob49 50176 [[], [true]]).batch ++ [.leaf (leafAt blob49 [true, true])])
      ⟨50176, ∅ ∪ chunkRange (leafAt blob49 [true, true])⟩ (some .none) = (.partialFile fs, true) ∧
      fs.bitfield = ⟨50176, RangeSet.rangeFrom 48⟩ := by
  have hmax : maxOffset ((honest termHash blob49 50176 [[], [true]]).batch ++ [.leaf ⟨49152, List.replicate 1024 0⟩]) ≤
      65536 := by
    simp only [maxOffset, honest, List.map_cons, List.map_nil, List.cons_append, List.nil_append, List.filterMap_cons,
      List.filterMap_nil, List.foldl_cons, List.foldl_nil, List.length_replicate]
    decide
  obtain ⟨-, -, hb⟩ := writeBatch_eq_mem 50176
    ((honest termHash blob49 50176 [[], [true]]).batch ++ [.leaf ⟨49152, List.replicate 1024 0⟩])
      PartialMemStorage.default
  rw [leafAt_blob49, chunkRange, List.length_replicate]
  simp only [writeBatch, BaoFileStorage.writeBatch, BaoFileStorage.writeBatchMem, if_pos hmax,
    BaoFileStorage.afterMemBatch]
  rw [hb, if_neg (by decide)]
  exact ⟨_, rfl, by decide⟩

/-- The steps of the run meet the condition, and the last chunk is in the bitfield after it. -/
private theorem run_interrupted :
    ∃ s, StateMachine.run (fsStep termHash (nodeHash termHash blob49 []) ⟨65536, 16384⟩) .new interruptedRun = some s ∧
      StateMachine.RunMeets (fsStep termHash (nodeHash termHash blob49 []) ⟨65536, 16384⟩)
        (placedWhole ⟨65536, 16384⟩ blob49).Meets .new interruptedRun ∧
      ∃ b size, s.entry.bitfield = some b ∧ s.entry.currentSize = some size ∧ 48 ∈ b.ranges := by
  obtain ⟨fs, hfirst, hbits⟩ := firstImport_mem
  have hlen := treeChunks_blob49
  have htree : treeChunks 50176 = 49 := by decide
  have hplaced : ∀ p, IsPath 16 49 p ∧ 16 < (sub 49 p).2 → PlacedAt blob49 50176 p := by
    intro p hp _
    rw [IsStored, hlen, htree]
    exact ⟨hp, rfl⟩
  have hroot : PlacedAt blob49 131072 [] := by
    intro _
    rw [IsStored, hlen]
    decide
  have hcopies : ∀ entry st, CopiesAll (H := HashTerm) ⟨65536, 16384⟩ entry st (some .none) := by
    intro entry st
    cases entry with
    | nonExisting =>
      rintro _ omits ⟨⟩
      rfl
    | _ => trivial
  have hbatch : ∀ entry st, st.decoder.size = 50176 →
      (placedWhole (H := HashTerm) ⟨65536, 16384⟩ blob49).batch entry st (some .none) :=
    fun entry st hsize => ⟨knownSize_of_size_eq (hsize.trans length_blob49.symm), hcopies entry st⟩
  unfold interruptedRun
  refine StateMachine.exists_run_cons trivial (step_start (by omega) rfl) ?_
  refine StateMachine.exists_run_cons ?_ (step_parent (update_self ..) (by rw [hlen]; decide) (Or.inl rfl) _) ?_
  · rintro st ⟨⟩
    exact ⟨hplaced _ (by decide), hbatch _ _ rfl⟩
  refine StateMachine.exists_run_cons ?_ (step_parent (update_self ..) (by rw [hlen]; decide) (Or.inr (by decide)) _) ?_
  · rintro st ⟨⟩
    exact ⟨hplaced _ (by decide), hbatch _ _ rfl⟩
  refine StateMachine.exists_run_cons ?_
    (step_leaf length_blob49.symm (update_self ..) (by rw [htree]; decide) (by decide) invalidSize_blob49 _) ?_
  · rintro st ⟨⟩
    show IsPath 16 (treeChunks 50176) _
    rw [htree]
    decide
  refine StateMachine.exists_run_cons ?_ (step_finish (.partialFile fs) (update_self ..) (by simp) hfirst) ?_
  · rintro st ⟨⟩
    exact hbatch _ _ rfl
  refine StateMachine.exists_run_cons trivial (step_start (by omega) (by simp [FsStore.new])) ?_
  refine StateMachine.exists_run_cons ?_ (step_parent (update_self ..) (by rw [hlen]; decide) (Or.inl rfl) _) ?_
  · rintro st ⟨⟩
    exact ⟨hroot, trivial, trivial⟩
  refine StateMachine.exists_run_cons ?_
    (step_finish _ (update_self ..) (by simp [honest]) (writeBatch_partialFile ..)) ?_
  · rintro st ⟨⟩
    exact ⟨trivial, trivial⟩
  refine ⟨_, rfl, trivial, ?_⟩
  simp only [BaoFileStorage.afterFileBatch, hbits]
  rw [if_neg (by decide)]
  have hmem : 48 ∈ (Bitfield.combine ⟨50176, RangeSet.rangeFrom 48⟩ ⟨131072, ∅⟩).ranges := by decide
  exact ⟨_, _, rfl, rfl, hmem⟩

private theorem meets_placed {H : Type} {blob : List UInt8} {options : InlineOptions} {s : FsStore H} {a : Action H}
    (h : (placedWhole options blob).Meets s a) : (placed options blob).Meets s a := by
  cases a with
  | start id size => trivial
  | stop id => trivial
  | parent id path pair io => exact fun st hst => ⟨(h st hst).1, (h st hst).2.2⟩
  | leaf id path data io => exact fun _ _ => trivial
  | finish id io => exact fun st hst => (h st hst).2

theorem partialBlobs_stay_provable_interrupted :
    ∃ s, StateMachine.run (fsStep termHash (nodeHash termHash blob49 []) ⟨65536, 16384⟩) .new interruptedRun = some s ∧
      EntryProvable termHash blob49 s.entry ∧
      ExportSucceeds (exportBaoImpl traverseGroups (nodeHash termHash [] []) (nodeHash termHash blob49 []) s.entry
        (RangeSet.range 48 49)) (RangeSet.range 48 49) := by
  obtain ⟨s, hrun, hmeets, b, size, hb, hsize, hmem⟩ := run_interrupted
  obtain ⟨hprovable, hexport, -⟩ :=
    partialBlobs_stay_provable collisionFree_termHash blob49 ⟨65536, 16384⟩ traversesValidated_traverseGroups
  refine ⟨s, hrun, hprovable _ s hrun (hmeets.mono _ fun _ _ => meets_placed),
    hexport _ s hrun hmeets b size _ hb hsize ?_⟩
  intro x hx
  have hx' : x = 48 := by
    have := RangeSet.mem_range.mp hx
    omega
  rwa [hx']

/-! ### A wrong claimed size -/

/-- First the last chunk is imported with the right size.  Then an import claims 128 chunks, and ends after three
parents. -/
def wrongSizeRun : List (Action HashTerm) :=
  .start 0 50176 ::
    ([[], [true]].map (fun p => .parent 0 p (pairAt termHash blob49 p) (some .none)) ++
      .leaf 0 [true, true] (leafAt blob49 [true, true]).data (some .none) :: .finish 0 (some .none) ::
        .start 1 131072 ::
        ([[], [false], [false, false]].map (fun p => .parent 1 p (pairAt termHash blob49 p) (some .none)) ++
          [.finish 1 (some .none)]))

/-- The entry after the first import. -/
private theorem firstImport : ∃ fs : PartialFileStorage HashTerm,
    writeBatch ⟨16384, 16384⟩ .nonExisting
      ((honest termHash blob49 50176 [[], [true]]).batch ++ [.leaf (leafAt blob49 [true, true])])
      ⟨50176, ∅ ∪ chunkRange (leafAt blob49 [true, true])⟩ (some .none) = (.partialFile fs, true) ∧
      fs.bitfield = ⟨50176, RangeSet.rangeFrom 48⟩ := by
  rw [leafAt_blob49, writeBatch_nonExisting ?_, writeBatch_partialFile, chunkRange, List.length_replicate,
    BaoFileStorage.afterFileBatch, if_neg (by decide)]
  · exact ⟨_, rfl, by decide⟩
  · simp only [maxOffset, honest, List.map_cons, List.map_nil, List.cons_append, List.nil_append, List.filterMap_cons,
      List.filterMap_nil, List.foldl_cons, List.foldl_nil, List.length_replicate]
    decide

/-- The claimed size of the second import puts the pair at the path `[false, false]` where that at `[true]` belongs. -/
private theorem secondImport (outboard : Content HashTerm) :
    (outboard.writes ((honest termHash blob49 131072 [[], [false], [false, false]]).batch.flatMap
      (outboardWrites 131072))).cell 4 =
      some (nodeHash termHash blob49 [false, false, false]) := by
  have hwrites : ∀ p, (IsPath 1 128 p ∧ 16 < (sub 128 p).2) →
      outboardWrites 131072 (.parent ⟨nodeAt 128 p, pairAt termHash blob49 p⟩) =
        [(2 * slot 128 p, [nodeHash termHash blob49 (p ++ [false])]),
          (2 * slot 128 p + 1, [nodeHash termHash blob49 (p ++ [true])])] := by
    rintro p ⟨h1, h2⟩
    simp only [outboardWrites, show treeChunks 131072 = 128 by decide, preOrderOffset_node h1 h2, pairAt]
  simp only [honest, show treeChunks 131072 = 128 by decide, List.map_cons, List.map_nil, List.flatMap_cons,
    List.flatMap_nil, hwrites [] (by decide), hwrites [false] (by decide), hwrites [false, false] (by decide),
    show slot 128 [] = 0 by decide, show slot 128 [false] = 1 by decide, show slot 128 [false, false] = 2 by decide]
  simp [Content.cell_write]

theorem not_provable_wrongSize : CollisionFree termHash ∧
    ∃ s, StateMachine.run (fsStep termHash (nodeHash termHash blob49 []) ⟨16384, 16384⟩) .new wrongSizeRun = some s ∧
      ¬ EntryProvable termHash blob49 s.entry := by
  refine ⟨collisionFree_termHash, ?_⟩
  obtain ⟨fs, hfirst, hbits⟩ := firstImport
  have hlen := treeChunks_blob49
  unfold wrongSizeRun
  rw [StateMachine.run_of_step (step_start (by omega) rfl),
    run_parents 50176 [] [[], [true]] (update_self ..) (by rw [hlen]; decide),
    StateMachine.run_of_step (step_leaf length_blob49.symm (update_self ..) (by decide)
      (by decide) invalidSize_blob49 _),
    StateMachine.run_of_step (step_finish (.partialFile fs) (update_self ..) (by simp) ?_),
    StateMachine.run_of_step (step_start (by omega) (by simp [FsStore.new])),
    run_parents 131072 [] [[], [false], [false, false]] (update_self ..) (by rw [hlen]; decide),
    StateMachine.run_of_step (step_finish _ (update_self ..) (by simp [honest]) (writeBatch_partialFile ..))]
  swap
  · exact hfirst
  refine ⟨_, rfl, fun hprov => ?_⟩
  simp only [BaoFileStorage.afterFileBatch, hbits] at hprov
  rw [if_neg (by decide)] at hprov
  -- the last chunk is in the bitfield, but the pair above it was overwritten
  have hmem : 48 ∈ (Bitfield.combine ⟨50176, RangeSet.rangeFrom 48⟩ ⟨131072, ∅⟩).ranges := by decide
  have hstored : IsStored blob49 [true] := by
    unfold IsStored
    rw [hlen]
    decide
  have hpair := (hprov 48 hmem (by rw [length_blob49]; decide)).pairs [true] hstored (by rw [hlen]; decide)
    (by rw [hlen]; decide)
  have hcell := hpair.1
  rw [hlen, show 2 * slot 49 [true] = 4 by decide] at hcell
  have hne := (hashSubtree_inj collisionFree_termHash (Option.some.inj ((secondImport fs.outboard).symm.trans hcell))).1
  rw [hlen] at hne
  exact absurd hne (by decide)

end IrohBlobs
