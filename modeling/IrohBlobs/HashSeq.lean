import Mathlib.Data.List.OfFn
import Mathlib.Tactic

/-!
# Hash sequences

The model of `hashseq.rs`: a hash sequence is a blob whose length is a multiple of 32, read as a list of hashes.  The
sequence of a list of hashes gives back the list (`iter_ofHashes`), and reading two sequences one after the other is
reading their concatenation (`iter_append`).
-/

namespace IrohBlobs

/-- A hash of 32 bytes. -/
structure Hash where
  bytes : List UInt8
  length_bytes : bytes.length = 32
  deriving DecidableEq

/-- A hash of 32 equal bytes. -/
def Hash.replicate (b : UInt8) : Hash := ⟨List.replicate 32 b, List.length_replicate⟩

/-- The hash of the empty blob. -/
def Hash.EMPTY : Hash where
  bytes := [175, 19, 73, 185, 245, 249, 161, 166, 160, 64, 77, 234, 54, 220, 201, 73, 155, 203, 37, 201,
    173, 193, 18, 183, 204, 154, 147, 202, 228, 31, 50, 98]
  length_bytes := rfl

/-- A sequence of hashes, backed by its bytes. -/
structure HashSeq where
  bytes : List UInt8
  length_mod : bytes.length % 32 = 0
  deriving DecidableEq

namespace HashSeq

def new (bytes : List UInt8) : Option HashSeq :=
  if h : bytes.length % 32 = 0 then some ⟨bytes, h⟩ else none

/-- The number of hashes in the sequence. -/
def len (s : HashSeq) : Nat := s.bytes.length / 32

/-- The hash at an index below the length. -/
def hashAt (s : HashSeq) (index : Nat) (h : index < s.len) : Hash where
  bytes := (s.bytes.drop (index * 32)).take 32
  length_bytes := by
    unfold len at h
    rw [List.length_take, List.length_drop]
    omega

def get (s : HashSeq) (index : Nat) : Option Hash :=
  if h : index < s.len then some (s.hashAt index h) else none

def iter (s : HashSeq) : List Hash := List.ofFn (fun i : Fin s.len => s.hashAt i i.2)

private theorem length_flatMap_bytes (hs : List Hash) : (hs.flatMap Hash.bytes).length = 32 * hs.length := by
  induction hs with
  | nil => rfl
  | cons h hs ih =>
    rw [List.flatMap_cons, List.length_append, ih, h.length_bytes, List.length_cons]
    omega

/-- The sequence of a list of hashes (`from_iter`). -/
def ofHashes (hs : List Hash) : HashSeq where
  bytes := hs.flatMap Hash.bytes
  length_mod := by rw [length_flatMap_bytes]; omega

@[simp] theorem length_iter (s : HashSeq) : s.iter.length = s.len := by simp [iter]

theorem getElem?_iter (s : HashSeq) (i : Nat) : s.iter[i]? = s.get i := by
  unfold iter get
  rw [List.getElem?_ofFn]

theorem new_eq_some {bytes : List UInt8} {s : HashSeq} (h : new bytes = some s) : s.bytes = bytes := by
  unfold new at h
  split at h
  · cases h; rfl
  · cases h

theorem new_bytes (s : HashSeq) : new s.bytes = some s := by
  simp [new, s.length_mod]

/-! ### Concatenation -/

/-- The concatenation of two sequences. -/
def append (s t : HashSeq) : HashSeq where
  bytes := s.bytes ++ t.bytes
  length_mod := by
    have hs := s.length_mod
    have ht := t.length_mod
    rw [List.length_append]
    omega

private theorem len_append (s t : HashSeq) : (append s t).len = s.len + t.len := by
  have hs := s.length_mod
  have ht := t.length_mod
  unfold len append
  rw [List.length_append]
  omega

private theorem len_mul (s : HashSeq) : s.bytes.length = 32 * s.len := by
  have := s.length_mod
  unfold len
  omega

theorem iter_append (s t : HashSeq) : (append s t).iter = s.iter ++ t.iter := by
  apply List.ext_getElem?
  intro i
  rw [getElem?_iter, List.getElem?_append, getElem?_iter, getElem?_iter, length_iter]
  unfold get
  have hlen := len_append s t
  have hs := len_mul s
  by_cases h : i < s.len
  · rw [dif_pos (by omega), if_pos h, dif_pos h, Option.some.injEq]
    simp only [hashAt, append, Hash.mk.injEq]
    rw [List.drop_append_of_le_length (by omega), List.take_append_of_le_length (by rw [List.length_drop]; omega)]
  · rw [if_neg h]
    by_cases ht : i - s.len < t.len
    · rw [dif_pos (by omega), dif_pos ht, Option.some.injEq]
      simp only [hashAt, append, Hash.mk.injEq]
      rw [List.drop_append, List.drop_eq_nil_of_le (by omega), List.nil_append]
      congr 2
      omega
    · rw [dif_neg (by omega), dif_neg ht]

private theorem iter_singleton (h : Hash) : (ofHashes [h]).iter = [h] := by
  have hlen : (ofHashes [h]).len = 1 := by
    unfold len ofHashes
    rw [length_flatMap_bytes]
    simp
  apply List.ext_getElem?
  intro i
  rw [getElem?_iter]
  unfold get
  cases i with
  | zero =>
    rw [dif_pos (by omega)]
    simp [hashAt, ofHashes, List.take_of_length_le h.length_bytes.le]
  | succ i =>
    rw [dif_neg (by omega)]
    simp

/-- The hashes of the sequence of a list are the list. -/
theorem iter_ofHashes (hs : List Hash) : (ofHashes hs).iter = hs := by
  induction hs with
  | nil => rfl
  | cons h hs ih =>
    have happ : ofHashes (h :: hs) = append (ofHashes [h]) (ofHashes hs) := by
      simp [ofHashes, append]
    rw [happ, iter_append, iter_singleton, ih]
    rfl

theorem get_ofHashes (hs : List Hash) (i : Nat) : (ofHashes hs).get i = hs[i]? := by
  rw [← getElem?_iter, iter_ofHashes]

end HashSeq

end IrohBlobs
