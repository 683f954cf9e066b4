import IrohBlobs.Provider

/-!
# The getter

The state machine of `get.rs` that reads a response, and the functions of `api/remote.rs` that drive it, together with
the sending side of a push.  Reading one blob (its header and content, and the import into the store) is the operation
of the run.

Every function here follows the schedule of its request, as its counterpart in the provider does, so both sides of a
stream agree on the blob that each part of it belongs to.
-/

namespace IrohBlobs

namespace Get

/-- The errors of a get request. -/
inductive GetError
  | connected
  | initialNext
  | connectedNext
  | atBlobHeaderNext
  | decode
  | localFailure
  | badRequest
  | atClosingNext
  deriving DecidableEq

/-! ### The states -/

structure AtStartRoot where
  ranges : ChunkRanges
  rangesIter : ChunkRangesSeq.NonEmptyIter
  hash : Hash

structure AtStartChild where
  ranges : ChunkRanges
  rangesIter : ChunkRangesSeq.NonEmptyIter
  offset : Nat

structure AtBlobHeader where
  ranges : ChunkRanges
  rangesIter : ChunkRangesSeq.NonEmptyIter
  hash : Hash

structure AtEndBlob where
  rangesIter : ChunkRangesSeq.NonEmptyIter

structure AtClosing where
  checkExtraData : Bool

inductive ConnectedNext
  | startRoot (s : AtStartRoot)
  | startChild (s : AtStartChild)
  | closing (s : AtClosing)

inductive EndBlobNext
  | moreChildren (s : AtStartChild)
  | closing (s : AtClosing)

/-- The state after the request is sent. -/
def AtConnected.next (request : GetRequest Hash) : ConnectedNext :=
  match request.ranges.iterNonEmptyInfinite.next with
  | (some (offset, ranges), rangesIter) =>
    if offset = 0 then .startRoot ⟨ranges, rangesIter, request.hash⟩ else .startChild ⟨ranges, rangesIter, offset⟩
  | (none, _) => .closing ⟨true⟩

/-- The first state of a get many request. -/
def startGetMany (request : GetManyRequest Hash) : EndBlobNext :=
  match request.ranges.iterNonEmptyInfinite.next with
  | (some (childOffset, childRanges), rangesIter) => .moreChildren ⟨childRanges, rangesIter, childOffset⟩
  | (none, _) => .closing ⟨true⟩

def AtStartRoot.next (s : AtStartRoot) : AtBlobHeader := ⟨s.ranges, s.rangesIter, s.hash⟩

/-- The hash of the child has to be provided by the caller. -/
def AtStartChild.next (s : AtStartChild) (hash : Hash) : AtBlobHeader := ⟨s.ranges, s.rangesIter, hash⟩

def AtStartChild.finish (_ : AtStartChild) : AtClosing := ⟨false⟩

def AtEndBlob.next (s : AtEndBlob) : EndBlobNext :=
  match s.rangesIter.next with
  | (some (offset, ranges), rangesIter) => .moreChildren ⟨ranges, rangesIter, offset⟩
  | (none, _) => .closing ⟨true⟩

/-! ### The drivers -/

section Drivers

variable {W : Type}

/-- A blob is read from its header to its end. -/
def readBlob (op : Op W GetError) (index : Nat) (header : AtBlobHeader) (w : W)
    (next : AtEndBlob → W → Option (Run W GetError)) : Option (Run W GetError) :=
  Run.stepOpt op ⟨index, header.hash, header.ranges⟩ w (fun w => next ⟨header.rangesIter⟩ w)

/-- The loop over the children, for a bounded number of rounds.  `lookup` gives the hash for an offset, and `close` is
the outcome of closing the response. -/
def readChildren (op : Op W GetError) (close : AtClosing → W → Except GetError Unit) (lookup : Nat → Option Hash) :
    Nat → EndBlobNext → W → Option (Run W GetError)
  | 0, _, _ => none
  | fuel + 1, next, w =>
    match next with
    | .closing atClosing => some (Run.stop (close atClosing w) w)
    | .moreChildren atStartChild =>
      match lookup atStartChild.offset with
      | none => some (Run.stop (close atStartChild.finish w) w)
      | some hash =>
        readBlob op atStartChild.offset (atStartChild.next hash) w
          (fun atEndBlob w => readChildren op close lookup fuel atEndBlob.next w)

/-- The part of `execute_get_sink` after the root: the hash sequence is read from the store if there are children. -/
def readRest (op : Op W GetError) (close : AtClosing → W → Except GetError Unit)
    (getBytes : W → Except GetError (List UInt8)) (fuel : Nat) (next : EndBlobNext) (w : W) : Option (Run W GetError) :=
  match next with
  | .closing atClosing => some (Run.stop (close atClosing w) w)
  | .moreChildren atStartChild =>
    match getBytes w with
    | .error e => some (Run.stop (.error e) w)
    | .ok bytes =>
      match HashSeq.new bytes with
      | none => some (Run.stop (.error .badRequest) w)
      | some hashSeq =>
        readChildren op close (fun offset => hashSeq.get (offset - 1)) fuel (.moreChildren atStartChild) w

/-- Execute a get request.  `sent` is the outcome of connecting and sending the request. -/
def executeGetSink (op : Op W GetError) (close : AtClosing → W → Except GetError Unit)
    (getBytes : W → Except GetError (List UInt8)) (sent : Except GetError Unit) (request : GetRequest Hash) (fuel : Nat)
    (w : W) : Option (Run W GetError) :=
  match sent with
  | .error e => some (Run.stop (.error e) w)
  | .ok () =>
    match AtConnected.next request with
    | .startRoot atStartRoot =>
      readBlob op 0 atStartRoot.next w (fun atEndBlob w => readRest op close getBytes fuel atEndBlob.next w)
    | .startChild atStartChild => readRest op close getBytes fuel (.moreChildren atStartChild) w
    | .closing atClosing => readRest op close getBytes fuel (.closing atClosing) w

/-- Execute a get many request: the hash sequence is the list of the request. -/
def executeGetManySink (op : Op W GetError) (close : AtClosing → W → Except GetError Unit) (sent : Except GetError Unit)
    (request : GetManyRequest Hash) (fuel : Nat) (w : W) : Option (Run W GetError) :=
  match sent with
  | .error e => some (Run.stop (.error e) w)
  | .ok () => readChildren op close (HashSeq.ofHashes request.hashes).get fuel (startGetMany request) w

/-- The sending side of a push.  `sent` is the outcome of connecting and writing the request, `finish` that of finishing
the stream. -/
def executePushSink (op : Op W ProviderError) (finish : W → Except ProviderError Unit)
    (getBytes : W → Except ProviderError (List UInt8)) (sent : Except ProviderError Unit) (request : PushRequest Hash)
    (w : W) : Run W ProviderError :=
  match sent with
  | .error e => Run.stop (.error e) w
  | .ok () =>
    let run := handlePush op getBytes request w
    match run.result with
    | .ok () => { run with result := finish run.state }
    | .error _ => run

/-! ### Both sides follow the schedule -/

/-- Nothing goes wrong on the receiving side. -/
def Good (op : Op W GetError) (close : AtClosing → W → Except GetError Unit) (sent : Except GetError Unit) : Prop :=
  op.Succeeds ∧ (∀ c w, close c w = .ok ()) ∧ sent = .ok ()

private theorem follows_close {op : Op W GetError} {close : AtClosing → W → Except GetError Unit}
    {sent : Except GetError Unit} (c : AtClosing) (w : W) :
    Follows (Good op close sent) (Run.stop (close c w) w) [] :=
  ⟨List.prefix_rfl, fun _ => rfl, fun hg => hg.2.1 c w⟩

private theorem endBlob_next (ranges : ChunkRangesSeq) (n : Nat) :
    (∃ i, n ≤ i ∧ (ranges.get i).isEmpty = false ∧ (∀ j, n ≤ j → j < i → (ranges.get j).isEmpty = true) ∧
      AtEndBlob.next ⟨ranges.nonEmptyAt n⟩ = .moreChildren ⟨ranges.get i, ranges.nonEmptyAt (i + 1), i⟩) ∨
    ((∀ j, n ≤ j → (ranges.get j).isEmpty = true) ∧ AtEndBlob.next ⟨ranges.nonEmptyAt n⟩ = .closing ⟨true⟩) := by
  rcases ranges.next_cases n with ⟨i, hni, hi, hmin, hnext⟩ | ⟨hempty, m, -, hnext⟩
  · exact Or.inl ⟨i, hni, hi, hmin, by simp only [AtEndBlob.next, hnext]⟩
  · exact Or.inr ⟨hempty, by simp only [AtEndBlob.next, hnext]⟩

/-- The loop over the children handles the rest of the schedule, from every state of the iterator. -/
private theorem follows_readChildren {op : Op W GetError} {close : AtClosing → W → Except GetError Unit}
    {sent : Except GetError Unit} {lookup : Nat → Option Hash} {hashes : List Hash} (ranges : ChunkRangesSeq)
    {fuel n : Nat} (hlookup : ∀ i, n ≤ i → lookup i = hashes[i]?)
    (hfuel : hashes.length + 1 ≤ fuel + n) (hpos : 0 < fuel)
    (w : W) :
    ∃ run, readChildren op close lookup fuel (AtEndBlob.next ⟨ranges.nonEmptyAt n⟩) w = some run ∧
      Follows (Good op close sent) run (scheduleFrom hashes ranges n) := by
  induction fuel generalizing n w with
  | zero => omega
  | succ fuel ih =>
    unfold readChildren
    rcases endBlob_next ranges n with ⟨i, hni, hi, hmin, hnext⟩ | ⟨hempty, hnext⟩
    · rw [hnext, scheduleFrom_skip_to hni hmin]
      simp only [hlookup i hni]
      cases hget : hashes[i]? with
      | none =>
        rw [scheduleFrom_of_length_le (List.getElem?_eq_none_iff.mp hget)]
        exact ⟨_, rfl, follows_close _ w⟩
      | some hash =>
        have hlt : i < hashes.length := (List.getElem?_eq_some_iff.mp hget).1
        rw [scheduleFrom_selected hget hi]
        refine follows_stepOpt (fun hg => hg.1) (fun w' _ => ?_)
        exact ih (fun j hj => hlookup j (by omega)) (by omega) (by omega) w'
    · rw [hnext, scheduleFrom_eq_nil hempty]
      exact ⟨_, rfl, follows_close _ w⟩

private theorem follows_readRest {op : Op W GetError} {close : AtClosing → W → Except GetError Unit}
    {sent : Except GetError Unit} {getBytes : W → Except GetError (List UInt8)} {root : Hash} {seq : HashSeq}
    (ranges : ChunkRangesSeq) {fuel n : Nat} (hn : 0 < n) (hfuel : seq.iter.length + 2 ≤ fuel) {w : W}
    (hbytes : getBytes w = .ok seq.bytes) :
    ∃ run, readRest op close getBytes fuel (AtEndBlob.next ⟨ranges.nonEmptyAt n⟩) w = some run ∧
      Follows (Good op close sent) run (scheduleFrom (root :: seq.iter) ranges n) := by
  have hlookup : ∀ i, n ≤ i → seq.get (i - 1) = (root :: seq.iter)[i]? := by
    intro i hi
    obtain ⟨i, rfl⟩ : ∃ j, i = j + 1 := ⟨i - 1, by omega⟩
    simp [← HashSeq.getElem?_iter]
  have hchildren : ∃ run, readChildren op close (fun offset => seq.get (offset - 1)) fuel
      (AtEndBlob.next ⟨ranges.nonEmptyAt n⟩) w = some run ∧
        Follows (Good op close sent) run (scheduleFrom (root :: seq.iter) ranges n) :=
    follows_readChildren ranges hlookup (by simp only [List.length_cons]; omega) (by omega) w
  unfold readRest
  rcases endBlob_next ranges n with ⟨i, hni, hi, hmin, hnext⟩ | ⟨hempty, hnext⟩
  · rw [hnext] at hchildren ⊢
    simp only [hbytes, HashSeq.new_bytes]
    exact hchildren
  · rw [hnext, scheduleFrom_eq_nil hempty]
    exact ⟨_, rfl, follows_close _ w⟩

private theorem connected_next (request : GetRequest Hash) :
    ((request.ranges.get 0).isEmpty = false ∧
      AtConnected.next request = .startRoot ⟨request.ranges.get 0, request.ranges.nonEmptyAt 1, request.hash⟩) ∨
    ((request.ranges.get 0).isEmpty = true ∧
      AtConnected.next request =
        (match AtEndBlob.next ⟨request.ranges.nonEmptyAt 1⟩ with
          | .moreChildren s => .startChild s
          | .closing s => .closing s)) := by
  cases h0 : (request.ranges.get 0).isEmpty with
  | false =>
    left
    have hnext := ChunkRangesSeq.next_eq_some (Nat.le_refl 0) h0 (fun j _ hj => absurd hj (Nat.not_lt_zero j))
    rw [ChunkRangesSeq.nonEmptyAt_zero] at hnext
    simp only [AtConnected.next, hnext, ↓reduceIte, true_and]
  | true =>
    right
    refine ⟨rfl, ?_⟩
    have hzero : ∀ {P : Nat → Prop}, P 0 → (∀ j, 1 ≤ j → P j) → ∀ j, 0 ≤ j → P j := by
      intro P hP hrest j _
      cases j with
      | zero => exact hP
      | succ j => exact hrest (j + 1) (by omega)
    rcases endBlob_next request.ranges 1 with ⟨i, hni, hi, hmin, hnext⟩ | ⟨hempty, hnext⟩
    · have hfirst := ChunkRangesSeq.next_eq_some (Nat.zero_le i) hi (fun j _ hj => by
        cases j with
        | zero => exact h0
        | succ j => exact hmin (j + 1) (by omega) hj)
      rw [ChunkRangesSeq.nonEmptyAt_zero] at hfirst
      rw [hnext]
      simp only [AtConnected.next, hfirst, show ¬ i = 0 by omega, ↓reduceIte]
    · obtain ⟨m, -, hfirst⟩ := ChunkRangesSeq.next_eq_none (hzero h0 hempty)
      rw [ChunkRangesSeq.nonEmptyAt_zero] at hfirst
      rw [hnext]
      simp only [AtConnected.next, hfirst]

/-- `execute_get_sink` follows the schedule, if the root is a complete hash sequence when it is read from the store. -/
theorem follows_executeGetSink {op : Op W GetError} {close : AtClosing → W → Except GetError Unit}
    {getBytes : W → Except GetError (List UInt8)} {sent : Except GetError Unit} {request : GetRequest Hash}
    {seq : HashSeq} {fuel : Nat} (hfuel : seq.iter.length + 2 ≤ fuel) {w : W}
    (hbytes : ∀ w', (if (request.ranges.get 0).isEmpty then w' = w
      else op 0 request.hash (request.ranges.get 0) w = (.ok (), w')) → getBytes w' = .ok seq.bytes) :
    ∃ run, executeGetSink op close getBytes sent request fuel w = some run ∧
      Follows (Good op close sent) run (schedule (request.hash :: seq.iter) request.ranges) := by
  unfold executeGetSink
  cases sent with
  | error e => exact ⟨_, rfl, List.nil_prefix, fun h => (by cases h), fun h => absurd h.2.2 (by simp)⟩
  | ok u =>
    rw [← scheduleFrom_zero]
    rcases connected_next request with ⟨h0, hnext⟩ | ⟨h0, hnext⟩
    · simp only [h0, Bool.false_eq_true, ↓reduceIte] at hbytes
      simp only [hnext]
      rw [scheduleFrom_selected (h := request.hash) rfl h0]
      refine follows_stepOpt (fun hg => hg.1) (fun w' hw' => ?_)
      exact follows_readRest request.ranges (by omega) hfuel (hbytes w' hw')
    · simp only [h0, ↓reduceIte, forall_eq] at hbytes
      rw [scheduleFrom_skip h0]
      have hrest : ∃ run, readRest op close getBytes fuel (AtEndBlob.next ⟨request.ranges.nonEmptyAt 1⟩) w = some run ∧
          Follows (Good op close (.ok u)) run (scheduleFrom (request.hash :: seq.iter) request.ranges 1) :=
        follows_readRest request.ranges (by omega) hfuel hbytes
      rw [hnext]
      cases hend : AtEndBlob.next ⟨request.ranges.nonEmptyAt 1⟩ with
      | moreChildren s =>
        rw [hend] at hrest
        exact hrest
      | closing s =>
        rw [hend] at hrest
        exact hrest

/-- The loop over the children, if it succeeds. -/
private theorem executes_readChildren {op : Op W GetError} {close : AtClosing → W → Except GetError Unit}
    {lookup : Nat → Option Hash} {hashes : List Hash} (ranges : ChunkRangesSeq) {fuel n : Nat}
    (hlookup : ∀ i, n ≤ i → lookup i = hashes[i]?) {w : W} {run : Run W GetError}
    (hrun : readChildren op close lookup fuel (AtEndBlob.next ⟨ranges.nonEmptyAt n⟩) w = some run)
    (hok : run.result = .ok ()) : Executes op (scheduleFrom hashes ranges n) w run.state := by
  induction fuel generalizing n w run with
  | zero => cases hrun
  | succ fuel ih =>
    unfold readChildren at hrun
    rcases endBlob_next ranges n with ⟨i, hni, hi, hmin, hnext⟩ | ⟨hempty, hnext⟩
    · rw [scheduleFrom_skip_to hni hmin]
      simp only [hnext, hlookup i hni] at hrun
      cases hget : hashes[i]? with
      | none =>
        rw [hget] at hrun
        cases hrun
        rw [scheduleFrom_of_length_le (List.getElem?_eq_none_iff.mp hget)]
        exact .nil w
      | some hash =>
        rw [hget] at hrun
        rw [scheduleFrom_selected hget hi]
        refine executes_stepOpt hrun hok ?_
        intro w' run' _ hnext' hok'
        exact ih (fun j hj => hlookup j (by omega)) hnext' hok'
    · rw [hnext] at hrun
      cases hrun
      rw [scheduleFrom_eq_nil hempty]
      exact .nil w

/-- The part after the root, if it succeeds: no child is selected, or the children of the hash sequence are read. -/
private theorem executes_readRest {op : Op W GetError} {close : AtClosing → W → Except GetError Unit}
    {getBytes : W → Except GetError (List UInt8)} (root : Hash) (ranges : ChunkRangesSeq) {fuel : Nat} {w : W}
    {run : Run W GetError} (hrun : readRest op close getBytes fuel (AtEndBlob.next ⟨ranges.nonEmptyAt 1⟩) w = some run)
    (hok : run.result = .ok ()) :
    (∀ i, 1 ≤ i → (ranges.get i).isEmpty = true) ∧ run.state = w ∨
      ∃ seq : HashSeq, getBytes w = .ok seq.bytes ∧
        Executes op (scheduleFrom (root :: seq.iter) ranges 1) w run.state := by
  unfold readRest at hrun
  split at hrun
  · rename_i atClosing hclosing
    cases hrun
    refine Or.inl ⟨?_, rfl⟩
    rcases endBlob_next ranges 1 with ⟨i, -, -, -, hnext⟩ | ⟨hempty, -⟩
    · rw [hnext] at hclosing
      cases hclosing
    · exact hempty
  · rename_i atStartChild hmore
    split at hrun
    · cases hrun
      cases hok
    · rename_i bytes hbytes
      split at hrun
      · cases hrun
        cases hok
      · rename_i seq hseq
        refine Or.inr ⟨seq, by rw [hbytes, HashSeq.new_eq_some hseq], ?_⟩
        have hlookup : ∀ i, 1 ≤ i → seq.get (i - 1) = (root :: seq.iter)[i]? := by
          intro i hi
          obtain ⟨i, rfl⟩ : ∃ j, i = j + 1 := ⟨i - 1, by omega⟩
          simp [← HashSeq.getElem?_iter]
        rw [← hmore] at hrun
        exact executes_readChildren ranges hlookup hrun hok

/-- What `execute_get_sink` has done if it succeeds: it has read the root, if it is selected, and the selected children
of the hash sequence that it then got from the store. -/
theorem executes_executeGetSink {op : Op W GetError} {close : AtClosing → W → Except GetError Unit}
    {getBytes : W → Except GetError (List UInt8)} {sent : Except GetError Unit} {request : GetRequest Hash} {fuel : Nat}
    {w : W} {run : Run W GetError} (hrun : executeGetSink op close getBytes sent request fuel w = some run)
    (hok : run.result = .ok ()) :
    ∃ w₁, ((request.ranges.get 0).isEmpty = true ∧ w₁ = w ∨
        op 0 request.hash (request.ranges.get 0) w = (.ok (), w₁)) ∧
      ((∀ i, 1 ≤ i → (request.ranges.get i).isEmpty = true) ∧ run.state = w₁ ∨
        ∃ seq : HashSeq, getBytes w₁ = .ok seq.bytes ∧
          Executes op (scheduleFrom (request.hash :: seq.iter) request.ranges 1) w₁ run.state) := by
  unfold executeGetSink at hrun
  cases sent with
  | error e =>
    cases hrun
    cases hok
  | ok u =>
    rcases connected_next request with ⟨h0, hnext⟩ | ⟨h0, hnext⟩
    · simp only [hnext] at hrun
      unfold readBlob Run.stepOpt at hrun
      split at hrun
      · rename_i w₁ hw
        obtain ⟨run', hrest, rfl⟩ := Option.map_eq_some_iff.mp hrun
        have hrest' : readRest op close getBytes fuel (AtEndBlob.next ⟨request.ranges.nonEmptyAt 1⟩) w₁ =
          some run' := hrest
        have hdone := executes_readRest request.hash request.ranges hrest' hok
        exact ⟨w₁, Or.inr hw, hdone⟩
      · cases hrun
        cases hok
    · refine ⟨w, Or.inl ⟨h0, rfl⟩, ?_⟩
      rw [hnext] at hrun
      have hrest : readRest op close getBytes fuel (AtEndBlob.next ⟨request.ranges.nonEmptyAt 1⟩) w = some run := by
        cases hend : AtEndBlob.next ⟨request.ranges.nonEmptyAt 1⟩ with
        | moreChildren s =>
          rw [hend] at hrun
          exact hrun
        | closing s =>
          rw [hend] at hrun
          exact hrun
      exact executes_readRest request.hash request.ranges hrest hok

/-- What handling a blob does to the state, `execute_get_sink` does as well, whether it succeeds or not. -/
theorem rel_executeGetSink {op : Op W GetError} {close : AtClosing → W → Except GetError Unit}
    {getBytes : W → Except GetError (List UInt8)} {sent : Except GetError Unit} {request : GetRequest Hash} {fuel : Nat}
    (rel : W → W → Prop) (hrefl : ∀ w, rel w w) (htrans : ∀ {w w' w''}, rel w w' → rel w' w'' → rel w w'')
    (hop : ∀ i h r w, rel w (op i h r w).2) {w : W} {run : Run W GetError}
    (hrun : executeGetSink op close getBytes sent request fuel w = some run) : rel w run.state := by
  have hchildren : ∀ (lookup : Nat → Option Hash) fuel next w run, readChildren op close lookup fuel next w = some run →
      rel w run.state := by
    intro lookup fuel
    induction fuel with
    | zero =>
      intro next w run hrun
      cases hrun
    | succ fuel ih =>
      intro next w run hrun
      unfold readChildren at hrun
      split at hrun
      · cases hrun
        exact hrefl w
      · split at hrun
        · cases hrun
          exact hrefl w
        · exact rel_stepOpt rel htrans hop hrun (fun w' run' h => ih _ w' run' h)
  have hrest : ∀ fuel next w run, readRest op close getBytes fuel next w = some run → rel w run.state := by
    intro fuel next w run hrun
    unfold readRest at hrun
    split at hrun
    · cases hrun
      exact hrefl w
    · split at hrun
      · cases hrun
        exact hrefl w
      · split at hrun
        · cases hrun
          exact hrefl w
        · exact hchildren _ _ _ _ _ hrun
  unfold executeGetSink at hrun
  split at hrun
  · cases hrun
    exact hrefl w
  · split at hrun
    · exact rel_stepOpt rel htrans hop hrun (fun w' run' h => hrest _ _ w' run' h)
    · exact hrest _ _ _ _ hrun
    · exact hrest _ _ _ _ hrun

/-- `execute_get_many_sink` follows the schedule of its hashes. -/
private theorem follows_executeGetManySink (op : Op W GetError) (close : AtClosing → W → Except GetError Unit)
    (sent : Except GetError Unit) (request : GetManyRequest Hash) {fuel : Nat}
    (hfuel : request.hashes.length + 1 ≤ fuel)
    (w : W) :
    ∃ run, executeGetManySink op close sent request fuel w = some run ∧
      Follows (Good op close sent) run (schedule request.hashes request.ranges) := by
  unfold executeGetManySink
  cases sent with
  | error e => exact ⟨_, rfl, List.nil_prefix, fun h => (by cases h), fun h => absurd h.2.2 (by simp)⟩
  | ok u =>
    rw [← scheduleFrom_zero]
    exact follows_readChildren request.ranges (n := 0) (fun i _ => HashSeq.get_ofHashes request.hashes i) hfuel
      (by omega) w

/-- `execute_push_sink` follows the schedule, if the root is a complete hash sequence when it is read. -/
private theorem follows_executePushSink {op : Op W ProviderError} {finish : W → Except ProviderError Unit}
    {getBytes : W → Except ProviderError (List UInt8)} {sent : Except ProviderError Unit} {request : PushRequest Hash}
    {seq : HashSeq} {w : W}
    (hbytes : ∀ w', (if (request.request.ranges.get 0).isEmpty then w' = w
      else op 0 request.request.hash (request.request.ranges.get 0) w = (.ok (), w')) → getBytes w' = .ok seq.bytes) :
    Follows (op.Succeeds ∧ (∀ w, finish w = .ok ()) ∧ sent = .ok ())
      (executePushSink op finish getBytes sent request w)
      (schedule (request.request.hash :: seq.iter) request.request.ranges) := by
  have h := follows_handlePush hbytes
  unfold executePushSink
  cases sent with
  | error e => exact ⟨List.nil_prefix, fun h => (by cases h), fun h => absurd h.2.2 (by simp)⟩
  | ok u =>
    simp only
    split
    · rename_i hr
      exact ⟨h.trace_prefix, fun _ => h.trace_of_ok hr, fun hg => hg.2.1 _⟩
    · exact ⟨h.trace_prefix, h.trace_of_ok, fun hg => h.ok_of_good hg.1⟩

end Drivers

/-- Sender and receiver follow the same schedule, for every sequence of ranges and every list of hashes, in get, get
many and push requests.  `getBytes` reads the root, whose content is the list of hashes, after it was handled. -/
theorem sides_agree (hashes : List Hash) :
    (∀ {V W : Type} (send : Op V ProviderError) (read : Op W GetError) (close : AtClosing → W → Except GetError Unit)
        (getBytes : W → Except GetError (List UInt8)) (sent : Except GetError Unit) (request : GetRequest Hash) (v : V)
        (w : W), (∀ w', (if (request.ranges.get 0).isEmpty then w' = w
          else read 0 request.hash (request.ranges.get 0) w = (.ok (), w')) →
            getBytes w' = .ok (HashSeq.ofHashes hashes).bytes) →
        ∃ rounds, ∀ fuel, rounds ≤ fuel → ∃ sender receiver,
          handleGet send (.ok (HashSeq.ofHashes hashes).bytes) request fuel v = some sender ∧
          executeGetSink read close getBytes sent request fuel w = some receiver ∧
          Agree send.Succeeds (Good read close sent) sender receiver ∧
          (sender.result = .ok () → sender.trace = schedule (request.hash :: hashes) request.ranges)) ∧
    (∀ {V W : Type} (send : Op V ProviderError) (read : Op W GetError) (close : AtClosing → W → Except GetError Unit)
        (sent : Except GetError Unit) (ranges : ChunkRangesSeq) (v : V) (w : W),
        ∃ rounds, ∀ fuel, rounds ≤ fuel → ∃ receiver,
          executeGetManySink read close sent ⟨hashes, ranges⟩ fuel w = some receiver ∧
          Agree send.Succeeds (Good read close sent) (handleGetMany send ⟨hashes, ranges⟩ v) receiver ∧
          ((handleGetMany send ⟨hashes, ranges⟩ v).result = .ok () →
            (handleGetMany send ⟨hashes, ranges⟩ v).trace = schedule hashes ranges)) ∧
    (∀ {V W : Type} (send : Op V ProviderError) (read : Op W ProviderError) (finish : V → Except ProviderError Unit)
        (getBytesS : V → Except ProviderError (List UInt8)) (getBytesR : W → Except ProviderError (List UInt8))
        (sent : Except ProviderError Unit) (request : PushRequest Hash) (v : V) (w : W),
        (∀ v', (if (request.request.ranges.get 0).isEmpty then v' = v
          else send 0 request.request.hash (request.request.ranges.get 0) v = (.ok (), v')) →
            getBytesS v' = .ok (HashSeq.ofHashes hashes).bytes) →
        (∀ w', (if (request.request.ranges.get 0).isEmpty then w' = w
          else read 0 request.request.hash (request.request.ranges.get 0) w = (.ok (), w')) →
            getBytesR w' = .ok (HashSeq.ofHashes hashes).bytes) →
        Agree (send.Succeeds ∧ (∀ v, finish v = .ok ()) ∧ sent = .ok ()) read.Succeeds
          (executePushSink send finish getBytesS sent request v) (handlePush read getBytesR request w) ∧
        ((handlePush read getBytesR request w).result = .ok () → (handlePush read getBytesR request w).trace =
          schedule (request.request.hash :: hashes) request.request.ranges)) := by
  have hiter : (HashSeq.ofHashes hashes).iter = hashes := HashSeq.iter_ofHashes hashes
  refine ⟨?_, ?_, ?_⟩
  · intro V W send read close getBytes sent request v w hbytes
    refine ⟨hashes.length + 2, fun fuel hfuel => ?_⟩
    have hfuel' : (HashSeq.ofHashes hashes).iter.length + 2 ≤ fuel := by rw [hiter]; exact hfuel
    obtain ⟨sender, hs, hfs⟩ := follows_handleGet send (HashSeq.ofHashes hashes) request hfuel' v
    obtain ⟨receiver, hr, hfr⟩ : ∃ run, executeGetSink read close getBytes sent request fuel w = some run ∧
        Follows (Good read close sent) run (schedule (request.hash :: (HashSeq.ofHashes hashes).iter) request.ranges) :=
      follows_executeGetSink hfuel' hbytes
    rw [hiter] at hfs hfr
    exact ⟨sender, receiver, hs, hr, agree_of_follows hfs hfr, hfs.trace_of_ok⟩
  · intro V W send read close sent ranges v w
    refine ⟨hashes.length + 1, fun fuel hfuel => ?_⟩
    have hfs := follows_handleGetMany send ⟨hashes, ranges⟩ v
    obtain ⟨receiver, hr, hfr⟩ := follows_executeGetManySink read close sent ⟨hashes, ranges⟩ hfuel w
    exact ⟨receiver, hr, agree_of_follows hfs hfr, hfs.trace_of_ok⟩
  · intro V W send read finish getBytesS getBytesR sent request v w hbytesS hbytesR
    have hfs : Follows (send.Succeeds ∧ (∀ v, finish v = .ok ()) ∧ sent = .ok ())
        (executePushSink send finish getBytesS sent request v) _ := follows_executePushSink hbytesS
    have hfr := follows_handlePush hbytesR
    rw [hiter] at hfs hfr
    exact ⟨agree_of_follows hfs hfr, hfr.trace_of_ok⟩

/-- A get request for everything, over a hash sequence of one child, when nothing goes wrong. -/
theorem sides_agree_all :
    ∃ rounds, ∀ fuel, rounds ≤ fuel → ∃ sender receiver,
      handleGet (fun _ _ _ w => (.ok (), w)) (.ok (HashSeq.ofHashes [Hash.replicate 2]).bytes)
        ⟨Hash.replicate 1, .all⟩ fuel () = some sender ∧
      executeGetSink (fun _ _ _ w => (.ok (), w)) (fun _ _ => .ok ())
        (fun _ => .ok (HashSeq.ofHashes [Hash.replicate 2]).bytes) (.ok ()) ⟨Hash.replicate 1, .all⟩ fuel () =
          some receiver ∧
      sender.trace = receiver.trace ∧
      sender.trace = [⟨0, Hash.replicate 1, RangeSet.all⟩, ⟨1, Hash.replicate 2, RangeSet.all⟩] := by
  obtain ⟨rounds, h⟩ := (sides_agree [Hash.replicate 2]).1 (fun _ _ _ w => (.ok (), w)) (fun _ _ _ w => (.ok (), w))
    (fun _ _ => .ok ()) (fun _ => .ok (HashSeq.ofHashes [Hash.replicate 2]).bytes) (.ok ())
      ⟨Hash.replicate 1, .all⟩ () ()
    (fun _ _ => rfl)
  refine ⟨rounds, fun fuel hfuel => ?_⟩
  obtain ⟨sender, receiver, hs, hr, hagree, htrace⟩ := h fuel hfuel
  have hok := hagree.sender_ok (fun _ _ _ _ => rfl)
  have hok' := hagree.receiver_ok ⟨fun _ _ _ _ => rfl, fun _ _ => rfl, rfl⟩
  refine ⟨sender, receiver, hs, hr, hagree.trace_eq hok hok', ?_⟩
  rw [htrace hok]
  decide

end Get

end IrohBlobs
