import IrohBlobs.Protocol
import IrohBlobs.HashSeq

/-!
# The blob schedule of a request

The wire format has no markers between blobs, so both sides of a request have to handle the same blobs in the same
order.  `schedule` lists them: the blobs with a non-empty selection, each with its index, hash and ranges.

The functions on both sides are runs of an operation per blob (`Op`), which can fail.  `Follows` says what they have in
common: the blobs of a run are a prefix of the schedule, and the whole schedule if the run succeeds.
-/

namespace IrohBlobs

/-- A blob of a response. -/
structure BlobItem where
  index : Nat
  hash : Hash
  ranges : ChunkRanges
  deriving DecidableEq

/-- The blobs of a request for the given hashes, in the order in which they are sent. -/
def schedule (hashes : List Hash) (ranges : ChunkRangesSeq) : List BlobItem :=
  hashes.zipIdx.filterMap (fun p => if (ranges.get p.2).isEmpty then none else some ⟨p.2, p.1, ranges.get p.2⟩)

/-- The part of the schedule from index `n` on. -/
def scheduleFrom (hashes : List Hash) (ranges : ChunkRangesSeq) (n : Nat) : List BlobItem :=
  (hashes.zipIdx.drop n).filterMap
    (fun p => if (ranges.get p.2).isEmpty then none else some ⟨p.2, p.1, ranges.get p.2⟩)

@[simp] theorem scheduleFrom_zero (hashes : List Hash) (ranges : ChunkRangesSeq) :
    scheduleFrom hashes ranges 0 = schedule hashes ranges := rfl

theorem scheduleFrom_of_length_le {hashes : List Hash} {ranges : ChunkRangesSeq} {n : Nat} (h : hashes.length ≤ n) :
    scheduleFrom hashes ranges n = [] := by
  simp [scheduleFrom, List.drop_eq_nil_of_le, h]

private theorem drop_zipIdx {hashes : List Hash} {n : Nat} {h : Hash} (hn : hashes[n]? = some h) :
    hashes.zipIdx.drop n = (h, n) :: hashes.zipIdx.drop (n + 1) := by
  obtain ⟨hlt, he⟩ := List.getElem?_eq_some_iff.mp hn
  rw [List.drop_eq_getElem_cons (by simpa using hlt)]
  simp [he]

theorem scheduleFrom_selected {hashes : List Hash} {ranges : ChunkRangesSeq} {n : Nat} {h : Hash}
    (hn : hashes[n]? = some h) (hr : (ranges.get n).isEmpty = false) :
    scheduleFrom hashes ranges n = ⟨n, h, ranges.get n⟩ :: scheduleFrom hashes ranges (n + 1) := by
  rw [scheduleFrom, drop_zipIdx hn, List.filterMap_cons_some (b := ⟨n, h, ranges.get n⟩) (by simp [hr])]
  rfl

theorem scheduleFrom_skip {hashes : List Hash} {ranges : ChunkRangesSeq} {n : Nat}
    (hr : (ranges.get n).isEmpty = true) : scheduleFrom hashes ranges n = scheduleFrom hashes ranges (n + 1) := by
  cases hn : hashes[n]? with
  | none =>
    have hlen := List.getElem?_eq_none_iff.mp hn
    rw [scheduleFrom_of_length_le hlen, scheduleFrom_of_length_le (by omega)]
  | some h =>
    rw [scheduleFrom, drop_zipIdx hn, List.filterMap_cons_none (by simp [hr])]
    rfl

/-- Blobs without a selection do not contribute. -/
theorem scheduleFrom_skip_to {hashes : List Hash} {ranges : ChunkRangesSeq} {n m : Nat} (hnm : n ≤ m)
    (hr : ∀ j, n ≤ j → j < m → (ranges.get j).isEmpty = true) :
    scheduleFrom hashes ranges n = scheduleFrom hashes ranges m := by
  induction m, hnm using Nat.le_induction with
  | base => rfl
  | succ m hm ih =>
    rw [ih (fun j hj hlt => hr j hj (by omega)), scheduleFrom_skip (hr m hm (by omega))]

theorem scheduleFrom_eq_nil {hashes : List Hash} {ranges : ChunkRangesSeq} {n : Nat}
    (hr : ∀ j, n ≤ j → (ranges.get j).isEmpty = true) : scheduleFrom hashes ranges n = [] := by
  rw [scheduleFrom_skip_to (m := max n hashes.length) (by omega) (fun j hj _ => hr j hj)]
  exact scheduleFrom_of_length_le (by omega)

/-- A selected blob is in the schedule. -/
theorem mem_scheduleFrom {hashes : List Hash} {ranges : ChunkRangesSeq} {n i : Nat} (hn : n ≤ i) {h : Hash}
    (hi : hashes[i]? = some h)
    (hr : (ranges.get i).isEmpty = false) : ⟨i, h, ranges.get i⟩ ∈ scheduleFrom hashes ranges n := by
  induction hk : i - n generalizing n with
  | zero =>
    obtain rfl : n = i := by omega
    rw [scheduleFrom_selected hi hr]
    exact List.mem_cons_self
  | succ k ih =>
    have hrest := @ih (n + 1) (by omega) (by omega)
    cases hempty : (ranges.get n).isEmpty with
    | true =>
      rw [scheduleFrom_skip hempty]
      exact hrest
    | false =>
      have hlt : n < hashes.length := by
        have hlen := (List.getElem?_eq_some_iff.mp hi).1
        omega
      rw [scheduleFrom_selected (List.getElem?_eq_getElem hlt) hempty]
      exact List.mem_cons_of_mem _ hrest

/-- The blobs of the schedule are looked up. -/
theorem lookup_of_mem_scheduleFrom {hashes : List Hash} {ranges : ChunkRangesSeq} {n : Nat} {item : BlobItem}
    (h : item ∈ scheduleFrom hashes ranges n) : ∃ i, n ≤ i ∧ hashes[i]? = some item.hash := by
  unfold scheduleFrom at h
  obtain ⟨p, hp, heq⟩ := List.mem_filterMap.mp h
  obtain ⟨k, hk⟩ := List.mem_iff_getElem?.mp hp
  rw [List.getElem?_drop, List.getElem?_zipIdx, Option.map_eq_some_iff] at hk
  obtain ⟨hash, hhash, rfl⟩ := hk
  split at heq
  · cases heq
  · cases heq
    exact ⟨n + k, Nat.le_add_right n k, hhash⟩

/-! ### Runs -/

section Runs

variable {W E : Type}

/-- The handling of one blob, which can fail. -/
abbrev Op (W E : Type) := Nat → Hash → ChunkRanges → W → Except E Unit × W

/-- What a run did: the blobs it started to handle, its result, and the state it left. -/
structure Run (W E : Type) where
  trace : List BlobItem
  result : Except E Unit
  state : W

/-- A run that ends at once. -/
def Run.stop (result : Except E Unit) (state : W) : Run W E := ⟨[], result, state⟩

/-- A run that starts with the given blobs. -/
def Run.after (items : List BlobItem) (run : Run W E) : Run W E := { run with trace := items ++ run.trace }

/-- One blob is handled, and on success the run continues. -/
def Run.step (op : Op W E) (item : BlobItem) (w : W) (next : W → Run W E) : Run W E :=
  match op item.index item.hash item.ranges w with
  | (.ok (), w) => (next w).after [item]
  | (.error e, w) => ⟨[item], .error e, w⟩

/-- The blobs of the run are a prefix of the schedule; a successful run has handled all of it, and the run succeeds if
nothing goes wrong. -/
structure Follows (good : Prop) (run : Run W E) (sched : List BlobItem) : Prop where
  trace_prefix : run.trace <+: sched
  trace_of_ok : run.result = .ok () → run.trace = sched
  ok_of_good : good → run.result = .ok ()

/-- The operation on a blob never fails. -/
def Op.Succeeds (op : Op W E) : Prop := ∀ i h r w, (op i h r w).1 = .ok ()

theorem follows_stop (good : Prop) (w : W) : Follows good (Run.stop (.ok () : Except E Unit) w) [] :=
  ⟨List.prefix_rfl, fun _ => rfl, fun _ => rfl⟩

theorem follows_step {good : Prop} {op : Op W E} {item : BlobItem} {w : W} {next : W → Run W E}
    {sched : List BlobItem} (hgood : good → op.Succeeds)
    (h : ∀ w', op item.index item.hash item.ranges w = (.ok (), w') → Follows good (next w') sched) :
    Follows good (Run.step op item w next) (item :: sched) := by
  unfold Run.step
  split
  · rename_i w' hw
    obtain ⟨h1, h2, h3⟩ := h w' hw
    refine ⟨List.cons_prefix_cons.mpr ⟨rfl, h1⟩, fun hr => ?_, h3⟩
    simp only [Run.after, List.singleton_append, List.cons.injEq, true_and]
    exact h2 hr
  · rename_i e w' hw
    refine ⟨List.cons_prefix_cons.mpr ⟨rfl, List.nil_prefix⟩, fun hr => ?_, fun hg => ?_⟩
    · cases hr
    · have := hgood hg item.index item.hash item.ranges w
      rw [hw] at this
      exact this

/-- `Run.step` for a loop with bounded rounds, where `none` says that the rounds did not suffice. -/
def Run.stepOpt (op : Op W E) (item : BlobItem) (w : W) (next : W → Option (Run W E)) : Option (Run W E) :=
  match op item.index item.hash item.ranges w with
  | (.ok (), w) => (next w).map (Run.after [item])
  | (.error e, w) => some ⟨[item], .error e, w⟩

theorem follows_stepOpt {good : Prop} {op : Op W E} {item : BlobItem} {w : W} {next : W → Option (Run W E)}
    {sched : List BlobItem} (hgood : good → op.Succeeds)
    (h : ∀ w', op item.index item.hash item.ranges w = (.ok (), w') →
      ∃ run, next w' = some run ∧ Follows good run sched) :
    ∃ run, Run.stepOpt op item w next = some run ∧ Follows good run (item :: sched) := by
  have hstep : ∃ next' : W → Run W E, Run.stepOpt op item w next = some (Run.step op item w next') ∧
      ∀ w', op item.index item.hash item.ranges w = (.ok (), w') → Follows good (next' w') sched := by
    unfold Run.stepOpt Run.step
    split
    · rename_i w' hw
      obtain ⟨run, hr, hf⟩ := h w' hw
      refine ⟨fun _ => run, ?_, fun _ _ => hf⟩
      simp [hr]
    · rename_i e w' hw
      exact ⟨fun w => Run.stop (.ok ()) w, rfl, fun w'' h' => by rw [hw] at h'; cases h'⟩
  obtain ⟨next', hs, hn⟩ := hstep
  exact ⟨_, hs, follows_step hgood hn⟩

/-- The operation succeeds on the blobs, one after the other. -/
inductive Executes (op : Op W E) : List BlobItem → W → W → Prop
  | nil (w : W) : Executes op [] w w
  | cons {item : BlobItem} {items : List BlobItem} {w w₁ w' : W}
    (head : op item.index item.hash item.ranges w = (.ok (), w₁)) (tail : Executes op items w₁ w') :
    Executes op (item :: items) w w'

theorem executes_stepOpt {op : Op W E} {item : BlobItem} {items : List BlobItem} {w : W} {next : W → Option (Run W E)}
    {run : Run W E} (hrun : Run.stepOpt op item w next = some run) (hok : run.result = .ok ())
    (h : ∀ w' run', op item.index item.hash item.ranges w = (.ok (), w') → next w' = some run' → run'.result = .ok () →
      Executes op items w' run'.state) : Executes op (item :: items) w run.state := by
  unfold Run.stepOpt at hrun
  split at hrun
  · rename_i w' hw
    obtain ⟨run', hnext, rfl⟩ := Option.map_eq_some_iff.mp hrun
    exact .cons hw (h w' run' hw hnext hok)
  · cases hrun
    cases hok

/-- What every operation does to the state, a run does as well. -/
theorem rel_stepOpt {op : Op W E} (rel : W → W → Prop) (htrans : ∀ {w w' w''}, rel w w' → rel w' w'' → rel w w'')
    (hop : ∀ i h r w, rel w (op i h r w).2) {item : BlobItem} {w : W} {next : W → Option (Run W E)} {run : Run W E}
    (hrun : Run.stepOpt op item w next = some run) (hnext : ∀ w' run', next w' = some run' → rel w' run'.state) :
    rel w run.state := by
  have hhead := hop item.index item.hash item.ranges w
  unfold Run.stepOpt at hrun
  split at hrun
  · rename_i w' hw
    obtain ⟨run', hrun', rfl⟩ := Option.map_eq_some_iff.mp hrun
    rw [hw] at hhead
    exact htrans hhead (hnext w' run' hrun')
  · rename_i e w' hw
    cases hrun
    rw [hw] at hhead
    exact hhead

/-- The two sides of a stream agree: the blobs of one side are a prefix of those of the other, they are the same if both
sides succeed, and each side succeeds if nothing goes wrong there. -/
structure Agree {V F : Type} (goodS goodR : Prop) (sender : Run W E) (receiver : Run V F) : Prop where
  comparable : sender.trace <+: receiver.trace ∨ receiver.trace <+: sender.trace
  trace_eq : sender.result = .ok () → receiver.result = .ok () → sender.trace = receiver.trace
  sender_ok : goodS → sender.result = .ok ()
  receiver_ok : goodR → receiver.result = .ok ()

theorem agree_of_follows {V F : Type} {goodS goodR : Prop} {sender : Run W E} {receiver : Run V F}
    {sched : List BlobItem} (hs : Follows goodS sender sched) (hr : Follows goodR receiver sched) :
    Agree goodS goodR sender receiver where
  comparable := List.prefix_or_prefix_of_prefix hs.trace_prefix hr.trace_prefix
  trace_eq h h' := (hs.trace_of_ok h).trans (hr.trace_of_ok h').symm
  sender_ok := hs.ok_of_good
  receiver_ok := hr.ok_of_good

end Runs

end IrohBlobs
