import IrohBlobs.BitfieldLattice
import IrohBlobs.StateMachine

/-!
# Observing a bitfield

The model of `handle_observe` of the provider and of `forward_delta` of the memory store.  Both send the bitfield of an
entry and then the differences to it, and the receiver combines what it gets.  The receiver misses a new size if the
upper bound of the chunks stays the same: the difference then does not reach as far as the old chunks, so the old size
wins (`combine_diff_iff`).
-/

namespace RangeSet

theorem bound_inj {s t : RangeSet} : s.bound = t.bound ↔ s.upperBound = t.upperBound := by
  constructor
  · intro h
    cases hs : s.upperBound with
    | none =>
      cases ht : t.upperBound with
      | none => rfl
      | some v =>
        rw [bound_of_none hs, bound_of_some ht] at h
        exact absurd h.symm WithTop.coe_ne_top
    | some u =>
      cases ht : t.upperBound with
      | none =>
        rw [bound_of_some hs, bound_of_none ht] at h
        exact absurd h WithTop.coe_ne_top
      | some v =>
        rw [bound_of_some hs, bound_of_some ht] at h
        rw [WithTop.coe_inj.mp h]
  · intro h
    unfold bound
    rw [h]

/-- Two nonempty sets with the same upper bound have a common member. -/
theorem exists_mem_of_bound_eq {s t : RangeSet} (h : s.bound = t.bound) (hne : t ≠ ∅) : ∃ x, x ∈ s ∧ x ∈ t := by
  have hub := bound_inj.mp h
  cases ht : t.upperBound with
  | none =>
    obtain ⟨m, hm⟩ := mem_of_upperBound_none (hub.trans ht)
    obtain ⟨n, hn⟩ := mem_of_upperBound_none ht
    exact ⟨max m n, hm _ (Nat.le_max_left m n), hn _ (Nat.le_max_right m n)⟩
  | some u =>
    cases u with
    | zero =>
      refine absurd (eq_empty_iff.mpr (fun x hx => ?_)) hne
      have := lt_of_upperBound ht hx
      omega
    | succ u => exact ⟨u, pred_mem_of_upperBound (hub.trans ht), pred_mem_of_upperBound ht⟩

end RangeSet

namespace IrohBlobs

open Merkle (chunks)

namespace Bitfield

variable {S : Nat} {a b : Bitfield}

/-! ### Differences -/

/-- The old size reaches the receiver: a new size comes with chunks beyond the old ones, or there are no chunks. -/
def Forwarded (a b : Bitfield) : Prop :=
  a.ranges.upperBound = b.ranges.upperBound → b.ranges ≠ ∅ → a.size = b.size

instance (a b : Bitfield) : Decidable (Forwarded a b) := inferInstanceAs (Decidable (_ → _ → _))

/-- The second bitfield results from the first one by updates. -/
structure Grows (S : Nat) (a b : Bitfield) : Prop where
  old : Normal S a
  new : Normal S b
  subset : ∀ x ∈ a.ranges, x ∈ b.ranges
  rank : a.rank ≤ b.rank

private theorem Grows.refl (h : Normal S a) : Grows S a a := ⟨h, h, fun _ hx => hx, le_refl _⟩

private theorem Grows.combine (h : Grows S a b) {u : Bitfield} (hu : Normal S u) : Grows S a (b.combine u) where
  old := h.old
  new := h.new.combine hu
  subset x hx := mem_combine (RangeSet.mem_union.mpr (Or.inl (h.subset x hx)))
  rank := by
    rw [rank_combine h.new hu]
    exact h.rank.trans (le_max_left _ _)

private theorem Grows.mem_diff (h : Grows S a b) {x : Nat} : x ∈ (a.diff b).ranges ↔ x ∈ b.ranges ∧ x ∉ a.ranges := by
  have := h.subset x
  show x ∈ a.ranges ^^^ b.ranges ↔ _
  rw [RangeSet.mem_xor]
  tauto

private theorem Grows.size_diff (h : Grows S a b) : (a.diff b).size = b.size := by
  show a.chooseSize b = b.size
  rw [chooseSize_eq, if_pos h.rank]

/-- The difference is an update like any other. -/
private theorem Grows.normal_diff (h : Grows S a b) : Normal S (a.diff b) := by
  constructor
  · rw [h.size_diff]
    exact h.new.claim.imp_right (fun hclaim x hx => hclaim x (h.mem_diff.mp hx).1)
  · intro x hx
    rw [h.mem_diff, h.mem_diff, h.old.tail x hx, h.new.tail x hx]

private theorem Grows.union_diff (h : Grows S a b) : a.ranges ∪ (a.diff b).ranges = b.ranges := by
  apply RangeSet.ext_mem
  intro x
  have := h.subset x
  rw [RangeSet.mem_union, h.mem_diff]
  tauto

/-- The receiver has the new chunks. -/
private theorem Grows.ranges_combine_diff (h : Grows S a b) : (a.combine (a.diff b)).ranges = b.ranges := by
  rw [ranges_combine h.old h.normal_diff, h.union_diff]

private theorem Grows.size_combine_diff (h : Grows S a b) :
    (a.combine (a.diff b)).size = if a.rank ≤ (a.diff b).rank then b.size else a.size := by
  show (Bitfield.new _ (a.chooseSize (a.diff b))).size = _
  rw [size_new, chooseSize_eq, h.size_diff]

/-- The difference decides the size if the old chunks do not reach as far as the new ones, or if there are none. -/
private theorem Grows.rank_le_diff (h : Grows S a b) :
    a.rank ≤ (a.diff b).rank ↔ (a.ranges.upperBound = b.ranges.upperBound → b.ranges = ∅) := by
  have hbound : max a.ranges.bound (a.diff b).ranges.bound = b.ranges.bound := by
    rw [← RangeSet.bound_union, h.union_diff]
  rw [← RangeSet.bound_inj, rank_le_iff, h.size_diff]
  rcases rank_le_iff.mp h.rank with hlt | ⟨heq, hsize⟩
  · -- the chunks beyond the old ones belong to the difference
    have hdiff : (a.diff b).ranges.bound = b.ranges.bound := by
      rcases max_choice a.ranges.bound (a.diff b).ranges.bound with hmax | hmax
      · rw [hmax] at hbound
        exact absurd hbound hlt.ne
      · rwa [hmax] at hbound
    rw [hdiff]
    exact iff_of_true (Or.inl hlt) (fun heq => absurd heq hlt.ne)
  · constructor
    · intro hle _
      by_contra hne
      have hle' : (a.diff b).ranges.bound ≤ a.ranges.bound := by
        rw [heq, ← hbound]
        exact le_max_right _ _
      have heq' : (a.diff b).ranges.bound = a.ranges.bound := by
        rcases hle with hlt | ⟨he, -⟩
        · exact absurd hlt hle'.not_gt
        · exact he.symm
      have hnea : a.ranges ≠ ∅ := by
        intro hempty
        obtain ⟨x, hx, -⟩ := RangeSet.exists_mem_of_bound_eq heq hne
        rw [hempty] at hx
        exact RangeSet.not_mem_empty x hx
      obtain ⟨x, hx, hxa⟩ := RangeSet.exists_mem_of_bound_eq heq' hnea
      exact (h.mem_diff.mp hx).2 hxa
    · intro hempty
      have hb := hempty heq
      have hdiff : (a.diff b).ranges = a.ranges := by
        rw [hb] at heq
        have hnone : ∀ x, x ∉ b.ranges := fun x hx => RangeSet.not_mem_empty x (hb ▸ hx)
        apply RangeSet.ext_mem
        intro x
        exact iff_of_false (fun hx => hnone x (h.mem_diff.mp hx).1) (fun hx => hnone x (h.subset x hx))
      rw [hdiff]
      exact Or.inr ⟨rfl, hsize⟩

/-- The difference is an inverse of `combine` exactly if the size is forwarded. -/
theorem combine_diff_iff (h : Grows S a b) : a.combine (a.diff b) = b ↔ Forwarded a b := by
  have hranges := h.ranges_combine_diff
  have hsize := h.size_combine_diff
  have hiff : a.combine (a.diff b) = b ↔ (a.combine (a.diff b)).size = b.size := by
    constructor
    · intro he
      rw [he]
    · intro he
      calc a.combine (a.diff b) = ⟨(a.combine (a.diff b)).size, (a.combine (a.diff b)).ranges⟩ := rfl
        _ = b := by rw [he, hranges]
  rw [hiff, hsize, if_congr h.rank_le_diff rfl rfl]
  unfold Forwarded
  by_cases hub : a.ranges.upperBound = b.ranges.upperBound
  · by_cases hempty : b.ranges = ∅
    · simp [hempty]
    · simp [hub, hempty]
  · simp [hub]

/-- An empty difference means that nothing changed. -/
theorem eq_of_isEmpty_diff (h : Grows S a b) (hempty : (a.diff b).isEmpty = true) : a = b := by
  unfold isEmpty at hempty
  rw [Bool.and_eq_true, RangeSet.isEmpty_iff, beq_iff_eq, h.size_diff] at hempty
  obtain ⟨hnone, hsize⟩ := hempty
  have hranges : a.ranges = b.ranges := by
    rw [← h.union_diff]
    apply RangeSet.ext_mem
    intro x
    rw [RangeSet.mem_union]
    exact (or_iff_left (hnone x)).symm
  have hle : a.size ≤ b.size := by
    rcases rank_le_iff.mp h.rank with hlt | ⟨-, hle⟩
    · rw [hranges] at hlt
      exact absurd hlt (lt_irrefl _)
    · exact hle
  calc a = ⟨a.size, a.ranges⟩ := rfl
    _ = ⟨b.size, b.ranges⟩ := by rw [hranges, show a.size = b.size by omega]

end Bitfield

/-! ### The observe stream -/

/-- An item of the observe stream. -/
structure ObserveItem where
  size : Nat
  ranges : ChunkRanges

namespace ObserveItem

def ofBitfield (b : Bitfield) : ObserveItem := ⟨b.size, b.ranges⟩

def toBitfield (item : ObserveItem) : Bitfield := ⟨item.size, item.ranges⟩

end ObserveItem

/-- A new value in the loop of `handle_observe`: the item that is sent, and the value to compare the next one with. -/
def handleObserve (old new : Bitfield) : Option ObserveItem × Bitfield :=
  let diff := old.diff new
  if diff.isEmpty then (none, old) else (some (.ofBitfield diff), new)

/-- A new value in the loop of `forward_delta`. -/
def forwardDelta (old new : Bitfield) : Option Bitfield × Bitfield :=
  let diff := old.diff new
  if diff.isEmpty then (none, old) else (some diff, new)

namespace Observe

/-- Who sends the differences. -/
inductive Sender
  | handleObserve
  | forwardDelta

/-- What the receiver gets for a new value, and the value to compare the next one with. -/
def Sender.next (sender : Sender) (old new : Bitfield) : Option Bitfield × Bitfield :=
  match sender with
  | .handleObserve =>
    let (item, old) := IrohBlobs.handleObserve old new
    (item.map ObserveItem.toBitfield, old)
  | .forwardDelta => IrohBlobs.forwardDelta old new

/-- An observed entry: its bitfield, the last value the sender saw, and the bitfield of the receiver. -/
structure State where
  current : Bitfield
  old : Bitfield
  received : Bitfield

/-- The entry of a blob of size `S` gets an update, or the sender sees the latest value. -/
inductive Event (S : Nat)
  | update (u : Bitfield.Update S)
  | next

/-- The first item is the bitfield itself. -/
def start (b : Bitfield) : State := ⟨b, b, b⟩

variable {S : Nat}

def step (sender : Sender) (s : State) : Event S → Option State
  | .update u => some { s with current := (s.current.update u.bitfield).1 }
  | .next =>
    let (item, old) := sender.next s.old s.current
    some { s with
      old
      received := match item with
        | some item => s.received.combine item
        | none => s.received }

/-- After every value that the sender sees the receiver has the bitfield of the entry. -/
def Follows (sender : Sender) (s : State) (e : Event S) : Prop :=
  e = .next → ∀ s', step sender s e = some s' → s'.received = s'.current

/-- What the sender sees forwards the size. -/
def Forwards (s : State) (e : Event S) : Prop := e = .next → Bitfield.Forwarded s.old s.current

variable {sender : Sender} {s s' : State}

private theorem step_next (s : State) :
    step sender s (.next : Event S) = some (if (s.old.diff s.current).isEmpty then s
      else ⟨s.current, s.current, s.received.combine (s.old.diff s.current)⟩) := by
  cases sender <;>
    simp only [step, Sender.next, handleObserve, forwardDelta] <;>
    split <;> rfl

/-- The entry grows, and the receiver has what the sender saw last. -/
structure Inv (S : Nat) (s : State) : Prop where
  grows : Bitfield.Grows S s.old s.current
  received : s.received = s.old

/-- The receiver follows exactly if the size is forwarded. -/
private theorem follows_next_iff (h : Inv S s) : Follows sender s (.next : Event S) ↔ Forwards s (.next : Event S) := by
  unfold Follows Forwards
  rw [step_next]
  simp only [forall_const, Option.some.injEq, forall_eq']
  split
  · rename_i hempty
    have heq := Bitfield.eq_of_isEmpty_diff h.grows hempty
    refine iff_of_true (h.received.trans heq) (fun _ _ => ?_)
    rw [heq]
  · show s.received.combine (s.old.diff s.current) = s.current ↔ _
    rw [h.received]
    exact Bitfield.combine_diff_iff h.grows

private theorem Inv.next (h : Inv S s) (hf : Follows sender s (.next : Event S))
    (hs : step sender s (.next : Event S) = some s') : Inv S s' := by
  have hreceived := hf rfl s' hs
  rw [step_next, Option.some.injEq] at hs
  split at hs
  · rwa [← hs]
  · subst hs
    exact ⟨Bitfield.Grows.refl h.grows.new, hreceived⟩

private theorem Inv.update (h : Inv S s) {u : Bitfield.Update S}
    (hs : step sender s (.update u) = some s') : Inv S s' := by
  simp only [step, Option.some.injEq] at hs
  subst hs
  exact ⟨h.grows.combine u.consistent.normal, h.received⟩

/-- A run follows the entry exactly if it forwards all sizes. -/
private theorem runFollows_iff {es : List (Event S)} (h : Inv S s) :
    StateMachine.RunMeets (step sender) (Follows sender) s es ↔ StateMachine.RunMeets (step sender) Forwards s es := by
  refine StateMachine.runMeets_congr (step sender) (fun {s e} hs => ?_) (fun {s e s'} hs hf hs' => ?_) h
  · cases e with
    | update u => exact iff_of_true (fun he => by cases he) (fun he => by cases he)
    | next => exact follows_next_iff hs
  · cases e with
    | update u => exact hs.update hs'
    | next => exact hs.next hf hs'

end Observe

namespace Bitfield

/-- A bitfield grows with every list of updates. -/
private theorem Grows.foldl {S : Nat} {a b : Bitfield} (h : Grows S a b) (us : List (Update S)) :
    Grows S a (us.foldl (fun b u => (b.update u.bitfield).1) b) := by
  induction us generalizing b with
  | nil => exact h
  | cons u us ih => exact ih (h.combine u.consistent.normal)

end Bitfield

namespace Observe

/-- The receiver of the differences has the bitfield of the entry after every value that the sender sees, exactly if
every new size comes with chunks beyond the old ones.  Only values that changed nothing are skipped. -/
theorem observer_follows_iff (S : Nat) (b : Bitfield.Update S) :
    (∀ (sender : Sender) (es : List (Event S)),
      StateMachine.RunMeets (step sender) (Follows sender) (start b.bitfield) es ↔
        StateMachine.RunMeets (step sender) Forwards (start b.bitfield) es) ∧
    (∀ us : List (Bitfield.Update S), ∀ new, new = us.foldl (fun b u => (b.update u.bitfield).1) b.bitfield →
      (b.bitfield.combine (b.bitfield.diff new) = new ↔ b.bitfield.Forwarded new) ∧
        ((b.bitfield.diff new).isEmpty = true → b.bitfield = new)) := by
  have hstart := Bitfield.Grows.refl b.consistent.normal
  constructor
  · intro sender es
    exact runFollows_iff ⟨hstart, rfl⟩
  · intro us new hnew
    have hgrows : Bitfield.Grows S b.bitfield new := by
      rw [hnew]
      exact hstart.foldl us
    exact ⟨Bitfield.combine_diff_iff hgrows, Bitfield.eq_of_isEmpty_diff hgrows⟩

private theorem consistent_firstChunk {size : Nat} (h : size ≠ 3000 ∧ 1024 < size) :
    Bitfield.Consistent 3000 (.new (RangeSet.range 0 1) size) := by
  refine Or.inr (Or.inr (Or.inr ⟨RangeSet.range 0 1, size, h.1, fun x hx => ?_, rfl⟩))
  rw [RangeSet.mem_range] at hx
  simp only [chunks]
  omega

/-- The first chunk of a blob of three chunks, with a claimed size. -/
def firstChunk (size : Nat) (h : size ≠ 3000 ∧ 1024 < size) : Bitfield.Update 3000 where
  bitfield := .new (RangeSet.range 0 1) size
  consistent := consistent_firstChunk h

theorem observer_follows_iff_firstChunk :
    (firstChunk 4000 (by decide)).bitfield.combine
      ((firstChunk 4000 (by decide)).bitfield.diff (.new (RangeSet.range 0 1) 5000)) ≠
      .new (RangeSet.range 0 1) 5000 := by
  have hnew : Bitfield.new (RangeSet.range 0 1) 5000 = [firstChunk 5000 (by decide)].foldl
      (fun b u => (b.update u.bitfield).1) (firstChunk 4000 (by decide)).bitfield := by decide
  have h := ((observer_follows_iff 3000 (firstChunk 4000 (by decide))).2 _ _ hnew).1
  rw [Ne, h]
  decide

/-- The receiver misses the larger of two claimed sizes. -/
theorem not_follows_firstChunk : ¬ ∀ (S : Nat) (b : Bitfield.Update S) (sender : Sender) (es : List (Event S)),
    StateMachine.RunMeets (step sender) (Follows sender) (start b.bitfield) es := by
  intro h
  have hrun := h 3000 (firstChunk 4000 (by decide)) .handleObserve [.update (firstChunk 5000 (by decide)), .next]
  have hnext := (hrun.2 _ rfl).1 rfl _ rfl
  exact absurd hnext (by decide)

end Observe

end IrohBlobs
