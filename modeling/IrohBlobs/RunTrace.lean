import IrohBlobs.Provider
import IrohBlobs.Fuel

/-!
# The steps of a run

A run handles one blob after the other and stops at the first failure.  `Traced` describes it by what happens around
each blob, so that a property of runs follows by induction from a property of the operation.  The request handlers of
the provider are traced by whatever their operation does (`traced_handleGet` and the lemmas after it).
-/

namespace IrohBlobs

section

variable {W E : Type}

/-- The blobs are handled one after the other, between the two states.  `Q true` relates the states around a blob that
was handled with success, and `Q false` those around a failure, which is the last one. -/
inductive Traced (Q : Bool → BlobItem → W → W → Prop) : Except E Unit → List BlobItem → W → W → Prop
  | stop (result : Except E Unit) (w : W) : Traced Q result [] w w
  | failed (e : E) {item : BlobItem} {w w' : W} (head : Q false item w w') : Traced Q (.error e) [item] w w'
  | step {result : Except E Unit} {item : BlobItem} {items : List BlobItem} {w w₁ w' : W} (head : Q true item w w₁)
    (tail : Traced Q result items w₁ w') : Traced Q result (item :: items) w w'

/-- What the operation does to the state, depending on whether it succeeds. -/
def Op.Does (op : Op W E) (Q : Bool → BlobItem → W → W → Prop) : Prop :=
  ∀ (item : BlobItem) (w : W),
    Q (op item.index item.hash item.ranges w).1.isOk item w (op item.index item.hash item.ranges w).2

variable {Q : Bool → BlobItem → W → W → Prop} {op : Op W E}

theorem traced_stepOpt (hop : op.Does Q) {item : BlobItem} {w : W} {next : W → Option (Run W E)} {run : Run W E}
    (hnext : ∀ w' run', next w' = some run' → Traced Q run'.result run'.trace w' run'.state)
    (h : Run.stepOpt op item w next = some run) : Traced Q run.result run.trace w run.state := by
  have hdoes := hop item w
  unfold Run.stepOpt at h
  split at h
  · rename_i w' hw
    obtain ⟨run', hrun', rfl⟩ := Option.map_eq_some_iff.mp h
    rw [hw] at hdoes
    exact .step hdoes (hnext w' run' hrun')
  · rename_i e w' hw
    cases h
    rw [hw] at hdoes
    exact .failed e hdoes

end

section

variable {W : Type} {Q : Bool → BlobItem → W → W → Prop} {op : Op W ProviderError}

private theorem traced_handleGetLoop (hop : op.Does Q) {hash : Hash} {getBytes : Except ProviderError (List UInt8)}
    {fuel : Nat} {it : ChunkRangesSeq.NonEmptyIter} {hashSeq : Option HashSeq} {w : W} {run : Run W ProviderError}
    (h : handleGetLoop op hash getBytes fuel it hashSeq w = some run) : Traced Q run.result run.trace w run.state := by
  induction fuel generalizing it hashSeq w run with
  | zero => cases h
  | succ fuel ih =>
    unfold handleGetLoop at h
    split at h
    · cases h
      exact .stop _ _
    · split at h
      · exact traced_stepOpt hop (fun _ _ hr => ih hr) h
      · split at h
        · cases h
          exact .stop _ _
        · split at h
          · cases h
            exact .stop _ _
          · exact traced_stepOpt hop (fun _ _ hr => ih hr) h

theorem traced_handleGet (hop : op.Does Q) {getBytes : Except ProviderError (List UInt8)} {request : GetRequest Hash}
    {fuel : Nat} {w : W} {run : Run W ProviderError} (h : handleGet op getBytes request fuel w = some run) :
    Traced Q run.result run.trace w run.state :=
  traced_handleGetLoop hop h

theorem readHashSeq_eq_ok {getBytes : Except ProviderError (List UInt8)} {seq : HashSeq}
    (h : readHashSeq getBytes = .ok seq) : getBytes = .ok seq.bytes := by
  unfold readHashSeq at h
  split at h
  · cases h
  · split at h
    · rename_i bytes seq' hnew
      cases h
      rw [HashSeq.new_eq_some hnew]
    · cases h

end

end IrohBlobs
