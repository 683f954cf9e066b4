import IrohBlobs.StaysProvable

/-!
# Completion in the memory store

When the bitfield of an entry becomes complete, `import_bao` of `store/mem.rs` turns the data and the outboard into
vectors and unwraps the results, which panics if there are gaps.  Completeness is judged by the chunks alone.  The
leaves leave no gaps in the data, whatever size they were sent with, but a parent of an import with a wrong size may
be written beyond the end of the outboard.  If all parents are placed, nothing panics, and the outboard is that of the
blob.
-/

namespace IrohBlobs

namespace ImportMem

open Merkle BaoTree Provable ImportBao

section

variable {H : Type}

/-- No completion has panicked: a partial entry is not complete, and a complete one was made of content without gaps. -/
def Settled : MemStorage H → Prop
  | .partialEntry s => s.bitfield.isComplete = false
  | .complete data outboard => data.NoGaps ∧ outboard.NoGaps

/-- An item that does not panic keeps the entry settled. -/
private theorem Settled.recv {size : Nat} {item : BaoContentItem H} {entry entry' : MemStorage H} (h : Settled entry)
    (hrecv : entry.recv size item = (entry', true)) : Settled entry' := by
  cases entry with
  | complete data outboard =>
    cases hrecv
    exact h
  | partialEntry s =>
    cases item with
    | parent parent =>
      rw [recv_parent] at hrecv
      cases hrecv
      exact h
    | leaf leaf =>
      simp only [MemStorage.recv] at hrecv
      split at hrecv
      · split at hrecv
        · rename_i hgaps
          cases hrecv
          exact hgaps
        · cases hrecv
      · rename_i hcomplete
        cases hrecv
        exact Bool.eq_false_iff.mpr hcomplete

/-- Parents do not panic. -/
theorem recv_parent_alive (size : Nat) (parent : Parent H) (entry : MemStorage H) :
    (entry.recv size (.parent parent)).2 = true := by
  cases entry with
  | complete data outboard => rfl
  | partialEntry s => rw [recv_parent]

private theorem Settled.start {entry : MemStorage H} (h : Settled entry) (size : Nat) : Settled (entry.start size) := by
  cases entry with
  | partialEntry s => exact h
  | complete data outboard => exact h

variable [DecidableEq H] {f : HashFns UInt8 H} {blob : List UInt8} {store store' : MemStore H}

/-- Every step under the condition keeps the entry settled: the invariant says that a verified leaf does not panic. -/
private theorem Settled.step (hf : CollisionFree f) {a : Action H} (hinv : StoreInv f blob False store)
    (h : Settled store.entry)
    (hstep : memStep f (nodeHash f blob []) store a = some store') : Settled store'.entry := by
  cases a with
  | start id size =>
    simp only [memStep] at hstep
    split at hstep
    · cases hstep
      exact h.start size
    · cases hstep
  | stop id =>
    obtain ⟨d, -, rfl⟩ := Option.map_eq_some_iff.mp hstep
    exact h
  | parent id path pair =>
    obtain ⟨d, -, hstep⟩ := Option.bind_eq_some_iff.mp hstep
    obtain ⟨d', -, rfl⟩ := Option.map_eq_some_iff.mp hstep
    exact h.recv (Prod.ext rfl (recv_parent_alive _ _ _))
  | leaf id path data =>
    obtain ⟨d, hd, hstep⟩ := Option.bind_eq_some_iff.mp hstep
    split at hstep
    · rename_i hleaf
      cases hstep
      have hpush := (hinv.streams id d hd).pushLeaf hf hleaf rfl
      have hempty : ∀ r : ChunkRanges, ∅ ∪ r = r := fun r => RangeSet.ext_mem (fun x => by simp [RangeSet.mem_union])
      rw [hempty] at hpush
      have halive : (store.entry.recv d.size (.leaf ⟨(sub (treeChunks d.size) path).1 * 1024, data⟩)).2 = true := by
        have hentry := hinv.entry
        cases he : store.entry with
        | complete data outboard => rfl
        | partialEntry s =>
          rw [he] at hentry hpush
          exact (hentry.leaf hpush False.elim rfl).2.1
      exact h.recv (Prod.ext rfl halive)
    · cases hstep

/-- The completion of an entry went well. -/
structure Completed (f : HashFns UInt8 H) (blob : List UInt8) (data : Content UInt8) (outboard : Content H) : Prop where
  dataNoGaps : data.NoGaps
  length : data.len = blob.length
  content : ∀ i, i < blob.length → data.cell i = blob[i]?
  outboardNoGaps : outboard.NoGaps
  /-- The outboard starts with the pairs of all nodes, in pre-order. -/
  pairs : ∀ p, IsStored blob p → HasPair f blob outboard p

/-- If all parents are placed, a complete bitfield always completes the entry without a panic, and a complete entry has
the data and the outboard of the blob. -/
theorem completion_does_not_panic (hf : CollisionFree f) (blob : List UInt8) {as : List (Action H)} {s : MemStore H}
    (hrun : StateMachine.run (memStep f (nodeHash f blob [])) .new as = some s)
    (hmeets : StateMachine.RunMeets (memStep f (nodeHash f blob [])) (Meets blob False) .new as) :
    (∀ storage, s.entry = .partialEntry storage → storage.bitfield.isComplete = false) ∧
    ∀ data outboard, s.entry = .complete data outboard → Completed f blob data outboard := by
  have hnew : StoreInv f blob False MemStore.new ∧ Settled (MemStore.new : MemStore H).entry := ⟨storeInv_new, rfl⟩
  have hstep : ∀ {s : MemStore H} {a : Action H} {s' : MemStore H}, StoreInv f blob False s ∧ Settled s.entry →
    Meets blob False s a →
      memStep f (nodeHash f blob []) s a = some s' → StoreInv f blob False s' ∧ Settled s'.entry := by
    intro s a s' hs hc hstep
    exact ⟨memStep_inv hf hs.1 hc hstep, hs.2.step hf hs.1 hstep⟩
  obtain ⟨hinv, hsettled⟩ := StateMachine.inv_of_run _ hstep hnew hmeets hrun
  constructor
  · intro storage hentry
    rw [hentry] at hsettled
    exact hsettled
  · intro data outboard hentry
    have hmem := hinv.entry
    rw [hentry] at hmem hsettled
    obtain ⟨hbitfield, hlen⟩ := hmem
    have hall : ∀ x, x < chunks blob.length → HasChunk f blob data outboard x :=
      fun x hx => hbitfield x (RangeSet.mem_all x) hx
    refine ⟨hsettled.1, hlen, ?_, hsettled.2, ?_⟩
    · intro i hi
      have hx : i / 1024 < chunks blob.length := by
        unfold chunks
        omega
      exact (hall _ hx).data i (by omega) (by omega) hi
    · intro p hp
      have hn : 0 < treeChunks blob.length := by unfold treeChunks; omega
      have hbounds := sub_bounds hn (hp.1.mono (k := 1) (by omega))
      have hstored := hp.2
      have hx : (sub (treeChunks blob.length) p).1 < chunks blob.length := by
        have e : treeChunks blob.length = max 1 (chunks blob.length) := rfl
        omega
      exact (hall _ hx).pairs p hp (Nat.le_refl _) (by omega)

/-! ### Runs of imports of true pairs -/

variable {id size : Nat}

omit [DecidableEq H] in
private theorem streams_update (entry : MemStorage H) (streams : Nat → Option (Decoder H)) (id : Nat)
    (o : Option (Decoder H)) :
    MemStore.streams ⟨entry, Function.update streams id o⟩ id = o := Function.update_self ..

private theorem memStep_start (hsize : 0 < size) (hst : store.streams id = none) :
    memStep f (nodeHash f blob []) store (.start id size) =
      some ⟨store.entry.start size, Function.update store.streams id (some (honest f blob size []).decoder)⟩ := by
  rw [memStep, if_pos ⟨hsize, by rw [hst]; rfl⟩]
  rfl

private theorem memStep_parent {ps : List (List Bool)} {q : List Bool}
    (hst : store.streams id = some (honest f blob size ps).decoder)
    (hq : (IsPath 1 (treeChunks size) q ∧ 1 < (sub (treeChunks size) q).2) ∧ IsPath 1 (treeChunks blob.length) q ∧
      1 < (sub (treeChunks blob.length) q).2) (hparent : q = [] ∨ q.dropLast ∈ ps) :
    memStep f (nodeHash f blob []) store (.parent id q (pairAt f blob q)) =
      some ⟨(store.entry.recv size (.parent ⟨nodeAt (treeChunks size) q, pairAt f blob q⟩)).1,
        Function.update store.streams id (some (honest f blob size (ps ++ [q])).decoder)⟩ := by
  have hd := parent_honest (f := f) hq hparent
  have hsize : (honest f blob size (ps ++ [q])).decoder.size = size := rfl
  have hsize' : (honest f blob size ps).decoder.size = size := rfl
  rw [memStep, hst, Option.bind_some, hd, Option.map_some, recv, hsize, hsize']
  simp only [recv_parent_alive, if_true]

private theorem memStep_leaf {ps : List (List Bool)} {p : List Bool} (hlen : size = blob.length)
    (hst : store.streams id = some (honest f blob size ps).decoder)
    (hp : IsPath 1 (treeChunks size) p ∧ (sub (treeChunks size) p).2 ≤ 16) (hparent : p = [] ∨ p.dropLast ∈ ps) :
    memStep f (nodeHash f blob []) store (.leaf id p (leafAt blob p).data) =
      some (recv store id (honest f blob size ps).decoder (.leaf (leafAt blob p))) := by
  subst hlen
  have hd := leaf_honest (f := f) hp hparent
  rw [memStep, hst, Option.bind_some, if_pos hd]
  rfl

omit [DecidableEq H] in
/-- An import that panics is gone. -/
private theorem recv_of_panic {d : Decoder H} {item : BaoContentItem H} {entry entry' : MemStorage H}
    (hsize : d.size = size)
    (hrecv : entry.recv size item = (entry', false)) (streams : Nat → Option (Decoder H)) :
    recv ⟨entry, streams⟩ id d item = ⟨entry', Function.update streams id none⟩ := by
  subst hsize
  simp only [recv, hrecv, Bool.false_eq_true, if_false]

private theorem memStep_stop {d : Decoder H} {root : H} (hst : store.streams id = some d) :
    memStep f root store (.stop id) = some { store with streams := Function.update store.streams id none } := by
  rw [memStep, hst, Option.map_some]

end

/-! ### Streams next to each other -/

section

variable {H : Type} {b : Bitfield} {entry : MemStorage H}

/-- A partial entry with a given bitfield. -/
def IsPartial (b : Bitfield) : MemStorage H → Prop
  | .partialEntry s => s.bitfield = b
  | .complete _ _ => False

private theorem IsPartial.start (h : IsPartial b entry) (size : Nat) : IsPartial b (entry.start size) := by
  cases entry with
  | partialEntry s => exact h
  | complete data outboard => exact h

private theorem IsPartial.parent (h : IsPartial b entry) (size : Nat) (parent : Parent H) :
    IsPartial b (entry.recv size (.parent parent)).1 := by
  cases entry with
  | partialEntry s =>
    rw [recv_parent]
    exact h
  | complete data outboard => exact h

/-- A leaf that does not complete the bitfield. -/
private theorem IsPartial.leaf (h : IsPartial b entry) {size : Nat} {leaf : Leaf}
    (hb : (b.update (.new (chunkRange leaf) size)).1.isComplete = false) (streams : Nat → Option (Decoder H)) (id : Nat)
    {d : Decoder H} (hsize : d.size = size) :
    ∃ entry', recv ⟨entry, streams⟩ id d (.leaf leaf) = ⟨entry', Function.update streams id (some d)⟩ ∧
      IsPartial (b.update (.new (chunkRange leaf) size)).1 entry' := by
  subst hsize
  cases entry with
  | complete data outboard => exact h.elim
  | partialEntry s =>
    cases h
    refine ⟨.partialEntry { s with
      data := s.data.write leaf.offset leaf.data
      bitfield := (s.bitfield.update (.new (chunkRange leaf) d.size)).1 }, ?_, rfl⟩
    simp only [recv, MemStorage.recv, hb, Bool.false_eq_true, if_false, if_true]

/-- A leaf that completes the bitfield completes the entry, or else the bitfield alone is complete. -/
private theorem IsPartial.completes (h : IsPartial b entry) {size : Nat} {leaf : Leaf}
    (hb : (b.update (.new (chunkRange leaf) size)).1.isComplete = true) :
    (∃ data outboard, (entry.recv size (.leaf leaf)).1 = .complete data outboard) ∨
      ∃ storage, (entry.recv size (.leaf leaf)).1 = .partialEntry storage ∧ storage.bitfield.isComplete = true := by
  cases entry with
  | complete data outboard => exact h.elim
  | partialEntry s =>
    cases h
    simp only [MemStorage.recv, hb, if_true]
    split
    · exact Or.inl ⟨_, _, rfl⟩
    · exact Or.inr ⟨_, rfl, hb⟩

variable [DecidableEq H] {f : HashFns UInt8 H} {blob : List UInt8} {store : MemStore H} {id size : Nat}

/-- A run that goes on after a leaf that does not complete the bitfield. -/
private theorem exists_run_leaf {p : MemStore H → Prop} {ps : List (List Bool)} {q : List Bool} {as : List (Action H)}
    (h : IsPartial b store.entry) (hlen : size = blob.length)
    (hst : store.streams id = some (honest f blob size ps).decoder)
    (hq : IsPath 1 (treeChunks size) q ∧ (sub (treeChunks size) q).2 ≤ 16) (hparent : q = [] ∨ q.dropLast ∈ ps)
    (hb : (b.update (.new (chunkRange (leafAt blob q)) size)).1.isComplete = false)
    (hrest : ∀ entry', IsPartial (b.update (.new (chunkRange (leafAt blob q)) size)).1 entry' →
      ∃ t, StateMachine.run (memStep f (nodeHash f blob []))
          ⟨entry', Function.update store.streams id (some (honest f blob size ps).decoder)⟩ as = some t ∧
        StateMachine.RunMeets (memStep f (nodeHash f blob [])) (Meets blob False)
          ⟨entry', Function.update store.streams id (some (honest f blob size ps).decoder)⟩ as ∧ p t) :
    ∃ t, StateMachine.run (memStep f (nodeHash f blob [])) store (.leaf id q (leafAt blob q).data :: as) = some t ∧
      StateMachine.RunMeets (memStep f (nodeHash f blob [])) (Meets blob False) store
        (.leaf id q (leafAt blob q).data :: as) ∧
      p t := by
  obtain ⟨entry', hrecv, hentry⟩ := h.leaf hb store.streams id (d := (honest f blob size ps).decoder) rfl
  have hstep := memStep_leaf (f := f) hlen hst hq hparent
  rw [hrecv] at hstep
  exact StateMachine.exists_run_cons (fun _ _ hfalse => hfalse.elim) hstep (hrest entry' hentry)

end

/-- A blob with 17 chunks, in two chunk groups. -/
def blob17 : List UInt8 := List.replicate 17408 0

private theorem length_blob17 : blob17.length = 17408 := List.length_replicate

private theorem treeChunks_blob17 : treeChunks blob17.length = 17 := by
  rw [length_blob17]
  decide

private theorem leafAt_blob17_false : leafAt blob17 [false] = ⟨0, List.replicate 16384 0⟩ := by
  rw [leafAt, treeChunks_blob17, show sub 17 [false] = (0, 16) by decide, region, blob17, List.drop_replicate,
    List.take_replicate]
  norm_num

private theorem leafAt_blob17_true : leafAt blob17 [true] = ⟨16384, List.replicate 1024 0⟩ := by
  rw [leafAt, treeChunks_blob17, show sub 17 [true] = (16, 1) by decide, region, blob17, List.drop_replicate,
    List.take_replicate]
  norm_num

/-- An import that claims 128 chunks, of which only the root pair is verified, and two imports with the right size,
which send one chunk group each. -/
def interleavedRun : List (Action HashTerm) :=
  [.start 0 131072, .parent 0 [] (pairAt termHash blob17 []), .start 1 17408, .parent 1 [] (pairAt termHash blob17 []),
    .start 2 17408, .leaf 1 [true] (leafAt blob17 [true]).data, .stop 0,
      .parent 2 [] (pairAt termHash blob17 []), .stop 1,
    .leaf 2 [false] (leafAt blob17 [false]).data]

/-- The root pair has the same place for both sizes. -/
private theorem run_interleaved :
    ∃ s, StateMachine.run (memStep termHash (nodeHash termHash blob17 [])) .new interleavedRun = some s ∧
      StateMachine.RunMeets (memStep termHash (nodeHash termHash blob17 [])) (Meets blob17 False) .new interleavedRun ∧
      ((∃ data outboard, s.entry = .complete data outboard) ∨
        ∃ storage, s.entry = .partialEntry storage ∧ storage.bitfield.isComplete = true) := by
  have hlen := treeChunks_blob17
  have hroot : ∀ size, treeChunks size = 17 ∨ treeChunks size = 128 → PlacedAt blob17 size [] := by
    intro size hsize _
    rw [IsStored, hlen]
    refine ⟨by decide, ?_⟩
    rcases hsize with hsize | hsize
    · rw [hsize]
    · rw [hsize]
      decide
  have hinner : ∀ size, treeChunks size = 17 ∨ treeChunks size = 128 →
      (IsPath 1 (treeChunks size) [] ∧ 1 < (sub (treeChunks size) []).2) ∧ IsPath 1 (treeChunks blob17.length) [] ∧
        1 < (sub (treeChunks blob17.length) []).2 := by
    intro size hsize
    rw [hlen]
    rcases hsize with hsize | hsize
    · rw [hsize]
      decide
    · rw [hsize]
      decide
  have h17 : treeChunks 17408 = 17 := by decide
  have h128 : treeChunks 131072 = 128 := by decide
  refine StateMachine.exists_run_cons trivial (memStep_start (by decide) rfl) ?_
  refine StateMachine.exists_run_cons ?_ (memStep_parent (streams_update ..) (hinner _ (Or.inr h128)) (Or.inl rfl)) ?_
  · rintro d ⟨⟩
    exact hroot _ (Or.inr h128)
  refine StateMachine.exists_run_cons trivial (memStep_start (by decide) rfl) ?_
  refine StateMachine.exists_run_cons ?_ (memStep_parent (streams_update ..) (hinner _ (Or.inl h17)) (Or.inl rfl)) ?_
  · rintro d ⟨⟩
    exact hroot _ (Or.inl h17)
  refine StateMachine.exists_run_cons trivial (memStep_start (by decide) rfl) ?_
  have hempty : IsPartial (H := HashTerm) .empty MemStore.new.entry := rfl
  have hroots :=
    ((((hempty.start 131072).parent 131072 ⟨nodeAt (treeChunks 131072) [], pairAt termHash blob17 []⟩).start
    17408).parent 17408 ⟨nodeAt (treeChunks 17408) [], pairAt termHash blob17 []⟩).start 17408
  refine exists_run_leaf hroots length_blob17.symm rfl (by rw [h17]; decide) (Or.inr (by decide)) ?_ ?_
  · rw [leafAt_blob17_true, chunkRange, List.length_replicate]
    decide
  intro entry hentry
  refine StateMachine.exists_run_cons trivial (memStep_stop rfl) ?_
  refine StateMachine.exists_run_cons ?_ (memStep_parent rfl (hinner _ (Or.inl h17)) (Or.inl rfl)) ?_
  · rintro d ⟨⟩
    exact hroot _ (Or.inl h17)
  refine StateMachine.exists_run_cons trivial (memStep_stop rfl) ?_
  refine StateMachine.exists_run_cons ?_
    (memStep_leaf length_blob17.symm rfl (by rw [h17]; decide) (Or.inr (by decide))) ?_
  · exact fun d _ hfalse => hfalse.elim
  refine ⟨_, rfl, trivial, (hentry.parent 17408 ⟨nodeAt (treeChunks 17408) [], pairAt termHash blob17 []⟩).completes ?_⟩
  rw [leafAt_blob17_true, leafAt_blob17_false]
  simp only [chunkRange, List.length_replicate]
  decide

/-- All streams together complete the entry. -/
theorem completion_does_not_panic_interleaved : ∃ s data outboard,
    StateMachine.run (memStep termHash (nodeHash termHash blob17 [])) .new interleavedRun = some s ∧
      s.entry = .complete data outboard ∧ Completed termHash blob17 data outboard := by
  obtain ⟨s, hrun, hmeets, hentry⟩ := run_interleaved
  obtain ⟨hincomplete, hcompleted⟩ := completion_does_not_panic collisionFree_termHash blob17 hrun hmeets
  rcases hentry with ⟨data, outboard, hentry⟩ | ⟨storage, hentry, hcomplete⟩
  · exact ⟨s, data, outboard, hrun, hentry, hcompleted data outboard hentry⟩
  · rw [hincomplete storage hentry] at hcomplete
    cases hcomplete

/-! ### A parent beyond the end of the outboard -/

/-- A blob with 4 chunks. -/
def blob4 : List UInt8 := List.replicate 4096 0

/-- An import claims 64 chunks and ends after two parents.  Then the blob is imported with the right size. -/
def beyondRun : List (Action HashTerm) :=
  [.start 0 65536, .parent 0 [] (pairAt termHash blob4 []), .parent 0 [true] (pairAt termHash blob4 [true]), .stop 0,
    .start 1 4096, .leaf 1 [] (leafAt blob4 []).data]

private theorem length_blob4 : blob4.length = 4096 := List.length_replicate

private theorem treeChunks_blob4 : treeChunks blob4.length = 4 := by
  rw [length_blob4]
  decide

private theorem leafAt_blob4 : leafAt blob4 [] = ⟨0, List.replicate 4096 0⟩ := by
  rw [leafAt, treeChunks_blob4, show sub 4 [] = (0, 4) by decide, region, blob4, List.drop_replicate,
    List.take_replicate]
  norm_num

/-- The outboard after the two parents, of which the second is beyond a gap. -/
private def beyondOutboard : Content HashTerm :=
  (Content.empty.write 0 [(pairAt termHash blob4 []).1, (pairAt termHash blob4 []).2]).write 4
    [(pairAt termHash blob4 [true]).1, (pairAt termHash blob4 [true]).2]

private theorem gaps_beyondOutboard : ¬ beyondOutboard.NoGaps := by
  intro h
  have hcell := h 2 (by simp [beyondOutboard, Content.write, Content.empty])
  rw [beyondOutboard, Content.cell_write, Content.cell_write] at hcell
  exact absurd hcell (by simp [Content.empty])

private theorem outboard_beyond :
    ((MemStorage.start 65536 (.partialEntry .default)).recv 65536
      (.parent ⟨nodeAt 64 [], pairAt termHash blob4 []⟩)).1.recv 65536
        (.parent ⟨nodeAt 64 [true], pairAt termHash blob4 [true]⟩) =
      (.partialEntry ⟨.empty, beyondOutboard, ⟨0, 65536⟩, .empty⟩, true) := by
  have htree : treeChunks 65536 = 64 := by decide
  have hroot : preOrderOffset 64 (nodeAt 64 []) = some 0 := preOrderOffset_node (by decide) (by decide)
  have hright : preOrderOffset 64 (nodeAt 64 [true]) = some 2 := preOrderOffset_node (by decide) (by decide)
  simp only [MemStorage.start, MemStorage.recv, htree, hroot, hright]
  rfl

/-- The last chunk completes the bitfield, but the outboard has a gap. -/
private theorem recv_beyond : ∃ bitfield,
    (MemStorage.start 4096 (.partialEntry ⟨.empty, beyondOutboard, ⟨0, 65536⟩, .empty⟩)).recv 4096
      (.leaf (leafAt blob4 [])) =
      (.partialEntry ⟨.empty, .empty, ⟨0, 4096⟩, bitfield⟩, false) ∧ bitfield.isComplete = true := by
  have hbitfield : (Bitfield.empty.update (.new (chunkRange (leafAt blob4 [])) 4096)).1.isComplete = true := by
    rw [leafAt_blob4, chunkRange, List.length_replicate]
    decide
  have hstart : MemStorage.start 4096 (.partialEntry ⟨.empty, beyondOutboard, ⟨0, 65536⟩, .empty⟩) =
      .partialEntry ⟨.empty, beyondOutboard, ⟨0, 4096⟩, .empty⟩ := rfl
  refine ⟨_, ?_, hbitfield⟩
  rw [hstart]
  simp only [MemStorage.recv]
  rw [if_pos hbitfield, if_neg (fun h => gaps_beyondOutboard h.2)]

/-- The import with the right size panics. -/
theorem not_completed_beyond : CollisionFree termHash ∧
    ∃ s storage, StateMachine.run (memStep termHash (nodeHash termHash blob4 [])) .new beyondRun = some s ∧
      s.entry = .partialEntry storage ∧ storage.bitfield.isComplete = true ∧ s.streams 1 = none := by
  refine ⟨collisionFree_termHash, ?_⟩
  have hlen := treeChunks_blob4
  have hclaimed : treeChunks 65536 = 64 := by decide
  have hinner : ∀ q : List Bool, ((IsPath 1 64 q ∧ 1 < (sub 64 q).2) ∧ IsPath 1 4 q ∧ 1 < (sub 4 q).2) →
      ((IsPath 1 (treeChunks 65536) q ∧ 1 < (sub (treeChunks 65536) q).2) ∧ IsPath 1 (treeChunks blob4.length) q ∧
        1 < (sub (treeChunks blob4.length) q).2) := by
    intro q hq
    rwa [hlen, hclaimed]
  rw [beyondRun, StateMachine.run_of_step (memStep_start (by decide) rfl),
    StateMachine.run_of_step (memStep_parent (streams_update ..) (hinner [] (by decide)) (Or.inl rfl)),
    StateMachine.run_of_step (memStep_parent (streams_update ..) (hinner [true] (by decide)) (Or.inr (by decide))),
    StateMachine.run_of_step (memStep_stop (streams_update ..)),
    StateMachine.run_of_step (memStep_start (by decide) (by simp [MemStore.new])),
    StateMachine.run_of_step (memStep_leaf length_blob4.symm (streams_update ..)
      (by rw [← length_blob4, hlen]; decide) (Or.inl rfl))]
  obtain ⟨bitfield, hrecv, hcomplete⟩ := recv_beyond
  dsimp only [MemStore.new]
  have hsize : (honest termHash blob4 4096 []).decoder.size = 4096 := rfl
  rw [hclaimed, outboard_beyond, recv_of_panic hsize hrecv]
  exact ⟨_, _, rfl, rfl, hcomplete, streams_update ..⟩

end ImportMem

end IrohBlobs
