import IrohBlobs.Schedule
import IrohBlobs.ExportBao

/-!
# The provider

The request handlers of `provider.rs`.  They use the store through `StoreOps`: an export that only reads, and the import
of a blob from a stream, which can change the store also when it fails.  Each handler is a run of one operation per
blob, and follows the schedule of the request (`follows_handleGet`, `follows_handleGetMany`, `follows_handlePush`).
-/

namespace IrohBlobs

/-- The errors of the request handlers. -/
inductive ProviderError
  | exportBao (cause : ExportBaoError)
  | invalidHashSequence
  | importBao
  deriving DecidableEq

/-- What the provider uses of a store with states `σ`. -/
structure StoreOps (σ : Type) where
  exportBao : σ → Hash → ChunkRanges → ExportBaoProgress
  /-- Import ranges of a blob from a stream.  It returns whether the import succeeded, and the rest of the stream. -/
  importBaoQuinn : σ → Hash → ChunkRanges → List UInt8 → Except ProviderError Unit × σ × List UInt8

namespace StoreOps

variable {σ : Type}

def getBytes (store : StoreOps σ) (s : σ) (hash : Hash) : Except ProviderError (List UInt8) :=
  (dataToBytes (store.exportBao s hash RangeSet.all)).mapError .exportBao

end StoreOps

/-- `HashSeq::try_from` of the bytes of a blob. -/
def readHashSeq (bytes : Except ProviderError (List UInt8)) : Except ProviderError HashSeq :=
  match bytes with
  | .error e => .error e
  | .ok bytes =>
    match HashSeq.new bytes with
    | some seq => .ok seq
    | none => .error .invalidHashSequence

/-- Send a blob to the client.  If the send fails the stream is not used any more, and its state is not tracked. -/
def sendBlob {σ : Type} (store : StoreOps σ) (s : σ) (notify : Nat → Nat → Nat → Bool) :
    Op SendStream ProviderError := fun index hash ranges writer =>
  match writeQuinnWithProgress (store.exportBao s hash ranges) writer notify index with
  | .ok writer => (.ok (), writer)
  | .error e => (.error (.exportBao e), writer)

section Handlers

variable {W : Type}

/-! ### Get -/

/-- The loop of `handle_get`, for a bounded number of rounds.  The hash sequence is read when the first child is
selected. -/
def handleGetLoop (op : Op W ProviderError) (hash : Hash) (getBytes : Except ProviderError (List UInt8)) :
    Nat → ChunkRangesSeq.NonEmptyIter → Option HashSeq → W → Option (Run W ProviderError)
  | 0, _, _, _ => none
  | fuel + 1, it, hashSeq, w =>
    match it.next with
    | (none, _) => some (Run.stop (.ok ()) w)
    | (some (offset, ranges), it) =>
      if offset = 0 then
        Run.stepOpt op ⟨offset, hash, ranges⟩ w (fun w => handleGetLoop op hash getBytes fuel it hashSeq w)
      else
        match (match hashSeq with | some b => Except.ok b | none => readHashSeq getBytes) with
        | .error e => some (Run.stop (.error e) w)
        | .ok seq =>
          match seq.get (offset - 1) with
          | none => some (Run.stop (.ok ()) w)
          | some child =>
            Run.stepOpt op ⟨offset, child, ranges⟩ w (fun w => handleGetLoop op hash getBytes fuel it (some seq) w)

def handleGet (op : Op W ProviderError) (getBytes : Except ProviderError (List UInt8)) (request : GetRequest Hash)
    (fuel : Nat) (w : W) : Option (Run W ProviderError) :=
  handleGetLoop op request.hash getBytes fuel request.ranges.iterNonEmptyInfinite none w

private theorem readHashSeq_ok {seq : HashSeq} : readHashSeq (.ok seq.bytes) = .ok seq := by
  simp [readHashSeq, HashSeq.new_bytes]

/-- From every state of the iterator the loop handles the rest of the schedule.  The induction is on the number of
hashes that are still ahead. -/
private theorem follows_handleGetLoop (op : Op W ProviderError) (root : Hash) (seq : HashSeq)
    (ranges : ChunkRangesSeq) {fuel n : Nat} (hfuel : seq.iter.length + 2 ≤ fuel + n) (hpos : 0 < fuel)
    {cached : Option HashSeq} (hc : cached = none ∨ cached = some seq) (w : W) :
    ∃ run, handleGetLoop op root (.ok seq.bytes) fuel (ranges.nonEmptyAt n) cached w = some run ∧
      Follows op.Succeeds run (scheduleFrom (root :: seq.iter) ranges n) := by
  induction fuel generalizing n cached w with
  | zero => omega
  | succ fuel ih =>
    unfold handleGetLoop
    rcases ranges.next_cases n with ⟨i, hni, hi, hmin, hnext⟩ | ⟨hempty, m, -, hnext⟩
    · rw [hnext, scheduleFrom_skip_to hni hmin]
      simp only
      have hcached : (match cached with | some b => Except.ok b | none => readHashSeq (.ok seq.bytes)) = .ok seq := by
        rcases hc with rfl | rfl
        · exact readHashSeq_ok
        · rfl
      by_cases h0 : i = 0
      · subst h0
        rw [if_pos rfl, scheduleFrom_selected (h := root) rfl hi]
        exact follows_stepOpt id (fun w' _ => ih (by omega) (by omega) hc w')
      · rw [if_neg h0, hcached]
        obtain ⟨j, rfl⟩ : ∃ j, i = j + 1 := ⟨i - 1, by omega⟩
        simp only [Nat.add_sub_cancel]
        cases hget : seq.get j with
        | none =>
          rw [← HashSeq.getElem?_iter, List.getElem?_eq_none_iff] at hget
          rw [scheduleFrom_of_length_le (by simp only [List.length_cons]; omega)]
          exact ⟨_, rfl, follows_stop _ w⟩
        | some child =>
          rw [← HashSeq.getElem?_iter] at hget
          have hlt : j < seq.iter.length := (List.getElem?_eq_some_iff.mp hget).1
          rw [scheduleFrom_selected (h := child) (by simpa using hget) hi]
          exact follows_stepOpt id (fun w' _ => ih (by omega) (by omega) (Or.inr rfl) w')
    · rw [hnext, scheduleFrom_eq_nil hempty]
      exact ⟨_, rfl, follows_stop _ w⟩

/-- `handle_get` over a complete hash sequence follows the schedule. -/
theorem follows_handleGet (op : Op W ProviderError) (seq : HashSeq) (request : GetRequest Hash) {fuel : Nat}
    (hfuel : seq.iter.length + 2 ≤ fuel) (w : W) :
    ∃ run, handleGet op (.ok seq.bytes) request fuel w = some run ∧
      Follows op.Succeeds run (schedule (request.hash :: seq.iter) request.ranges) :=
  follows_handleGetLoop op request.hash seq request.ranges (n := 0) (by omega) (by omega) (Or.inl rfl) w

/-! ### Get many -/

/-- The loop of `handle_get_many`: the hashes zipped with the infinite iterator, enumerated. -/
def handleGetManyLoop (op : Op W ProviderError) : Nat → List Hash → ChunkRangesSeq.IterInfinite → W →
    Run W ProviderError
  | _, [], _, w => Run.stop (.ok ()) w
  | child, hash :: hashes, it, w =>
    let (ranges, it) := it.next
    if !ranges.isEmpty then Run.step op ⟨child, hash, ranges⟩ w (fun w => handleGetManyLoop op (child + 1) hashes it w)
    else handleGetManyLoop op (child + 1) hashes it w

def handleGetMany (op : Op W ProviderError) (request : GetManyRequest Hash) (w : W) : Run W ProviderError :=
  handleGetManyLoop op 0 request.hashes request.ranges.iterInfinite w

/-- A loop over the hashes zipped with the ranges follows the schedule, from every position. -/
private theorem follows_zip (op : Op W ProviderError) (all : List Hash) (ranges : ChunkRangesSeq) {n : Nat}
    {hashes : List Hash} (hdrop : all.drop n = hashes) (w : W) :
    Follows op.Succeeds (handleGetManyLoop op n hashes (ranges.iterAt n) w) (scheduleFrom all ranges n) := by
  induction hashes generalizing n w with
  | nil =>
    rw [scheduleFrom_of_length_le (List.drop_eq_nil_iff.mp hdrop)]
    exact follows_stop _ w
  | cons hash hashes ih =>
    have hget : all[n]? = some hash := by
      have := congrArg List.head? hdrop
      rwa [List.head?_drop, List.head?_cons] at this
    have hdrop' : all.drop (n + 1) = hashes := by
      rw [← List.tail_drop, hdrop, List.tail_cons]
    unfold handleGetManyLoop
    rw [ranges.next_iterAt]
    simp only
    by_cases he : (ranges.get n).isEmpty = true
    · simp only [he, Bool.not_true, Bool.false_eq_true, ↓reduceIte]
      rw [scheduleFrom_skip he]
      exact ih hdrop' w
    · have he' : (ranges.get n).isEmpty = false := by simpa using he
      simp only [he', Bool.not_false, ↓reduceIte]
      rw [scheduleFrom_selected hget he']
      exact follows_step id (fun w' _ => ih hdrop' w')

/-- `handle_get_many` follows the schedule of its hashes. -/
theorem follows_handleGetMany (op : Op W ProviderError) (request : GetManyRequest Hash) (w : W) :
    Follows op.Succeeds (handleGetMany op request w) (schedule request.hashes request.ranges) :=
  follows_zip op request.hashes request.ranges (n := 0) rfl w

/-! ### Push -/

/-- The children of a push, on both sides: the hashes zipped with the rest of the infinite iterator. -/
def pushChildren (op : Op W ProviderError) : Nat → List Hash → ChunkRangesSeq.IterInfinite → W → Run W ProviderError
  | _, [], _, w => Run.stop (.ok ()) w
  | child, hash :: hashes, it, w =>
    let (ranges, it) := it.next
    if ranges.isEmpty then pushChildren op (child + 1) hashes it w
    else Run.step op ⟨child + 1, hash, ranges⟩ w (fun w => pushChildren op (child + 1) hashes it w)

/-- What follows the root of a push: nothing for a blob request, and otherwise the children of the hash sequence. -/
def pushRest (op : Op W ProviderError) (getBytes : W → Except ProviderError (List UInt8)) (request : PushRequest Hash)
    (it : ChunkRangesSeq.IterInfinite) (w : W) : Run W ProviderError :=
  if request.request.ranges.isBlob then Run.stop (.ok ()) w
  else
    match readHashSeq (getBytes w) with
    | .error e => Run.stop (.error e) w
    | .ok hashSeq => pushChildren op 0 hashSeq.iter it w

/-- The receiving side of a push: `op` imports a blob from the stream, and `getBytes` reads the root from the store. -/
def handlePush (op : Op W ProviderError) (getBytes : W → Except ProviderError (List UInt8)) (request : PushRequest Hash)
    (w : W) : Run W ProviderError :=
  let (rootRanges, it) := request.request.ranges.iterInfinite.next
  if !rootRanges.isEmpty then
    Run.step op ⟨0, request.request.hash, rootRanges⟩ w (fun w => pushRest op getBytes request it w)
  else pushRest op getBytes request it w

/-- The children of a push follow the schedule behind the root. -/
private theorem follows_pushChildren (op : Op W ProviderError) (root : Hash) (all : List Hash)
    (ranges : ChunkRangesSeq) {n : Nat} {hashes : List Hash} (hdrop : all.drop n = hashes) (w : W) :
    Follows op.Succeeds (pushChildren op n hashes (ranges.iterAt (n + 1)) w)
      (scheduleFrom (root :: all) ranges (n + 1)) := by
  induction hashes generalizing n w with
  | nil =>
    rw [scheduleFrom_of_length_le (by simpa using List.drop_eq_nil_iff.mp hdrop)]
    exact follows_stop _ w
  | cons hash hashes ih =>
    have hget : (root :: all)[n + 1]? = some hash := by
      have := congrArg List.head? hdrop
      rwa [List.head?_drop, List.head?_cons] at this
    have hdrop' : all.drop (n + 1) = hashes := by
      rw [← List.tail_drop, hdrop, List.tail_cons]
    unfold pushChildren
    rw [ranges.next_iterAt]
    simp only
    split
    · rename_i he
      rw [scheduleFrom_skip he]
      exact ih hdrop' w
    · rename_i he
      rw [scheduleFrom_selected hget (by simpa using he)]
      exact follows_step id (fun w' _ => ih hdrop' w')

/-- A blob request selects nothing behind the root. -/
private theorem get_of_isBlob {seq : ChunkRangesSeq} (h : seq.isBlob = true) (j : Nat) :
    (seq.get (j + 1)).isEmpty = true := by
  obtain ⟨es⟩ := seq
  unfold ChunkRangesSeq.isBlob at h
  split at h
  · rename_i v hs
    unfold ChunkRangesSeq.asSingle at hs
    split at hs
    · rename_i o1 v1 o2 v2 hes
      simp only at hes
      subst hes
      split at hs
      · rename_i hcond
        simp only [Option.some.injEq, Prod.mk.injEq] at hs
        have h1 : o2 = 1 := by omega
        have h0 : o1 = 0 := hs.1
        subst h0 h1
        simpa [ChunkRangesSeq.get, ChunkRangesSeq.valueFrom] using hcond.2
      · cases hs
    · cases hs
  · cases h

private theorem follows_pushRest {op : Op W ProviderError} {getBytes : W → Except ProviderError (List UInt8)}
    {request : PushRequest Hash} {seq : HashSeq} {w : W} (hbytes : getBytes w = .ok seq.bytes) :
    Follows op.Succeeds (pushRest op getBytes request (request.request.ranges.iterAt 1) w)
      (scheduleFrom (request.request.hash :: seq.iter) request.request.ranges 1) := by
  unfold pushRest
  split
  · rename_i hblob
    rw [scheduleFrom_eq_nil]
    · exact follows_stop _ w
    · intro j hj
      obtain ⟨j, rfl⟩ : ∃ i, j = i + 1 := ⟨j - 1, by omega⟩
      exact get_of_isBlob hblob j
  · rw [hbytes, readHashSeq_ok]
    exact follows_pushChildren op request.request.hash seq.iter request.request.ranges rfl w

/-- `handle_push` follows the schedule, if the root is a complete hash sequence when it is read from the store. -/
theorem follows_handlePush {op : Op W ProviderError} {getBytes : W → Except ProviderError (List UInt8)}
    {request : PushRequest Hash} {seq : HashSeq} {w : W}
    (hbytes : ∀ w', (if (request.request.ranges.get 0).isEmpty then w' = w
      else op 0 request.request.hash (request.request.ranges.get 0) w = (.ok (), w')) → getBytes w' = .ok seq.bytes) :
    Follows op.Succeeds (handlePush op getBytes request w)
      (schedule (request.request.hash :: seq.iter) request.request.ranges) := by
  have hnext : request.request.ranges.iterInfinite.next =
      (request.request.ranges.get 0, request.request.ranges.iterAt 1) := request.request.ranges.next_iterAt 0
  rw [← scheduleFrom_zero]
  unfold handlePush
  rw [hnext]
  simp only
  by_cases he : (request.request.ranges.get 0).isEmpty = true
  · simp only [he, Bool.not_true, Bool.false_eq_true, ↓reduceIte] at hbytes ⊢
    rw [scheduleFrom_skip he]
    exact follows_pushRest (hbytes w rfl)
  · have he' : (request.request.ranges.get 0).isEmpty = false := by simpa using he
    simp only [he', Bool.not_false, Bool.false_eq_true, ↓reduceIte] at hbytes ⊢
    rw [scheduleFrom_selected (h := request.request.hash) rfl he']
    exact follows_step id (fun w' hw' => follows_pushRest (hbytes w' hw'))

end Handlers

end IrohBlobs
