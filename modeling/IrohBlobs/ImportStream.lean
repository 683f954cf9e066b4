import Mathlib.Tactic

/-!
# Importing a stream of bytes

`get_import_source` of `store/fs/import.rs`.  The function reads two items ahead: a stream with a single small chunk
needs no copy.  Otherwise the chunks are collected in memory, until their size exceeds the threshold for inlined data;
from then on they go to a temp file.

However the bytes are cut into chunks, the source has the same content and size, and it is in memory if and only if the
data is inlined (`getImportSource_chunks`).  Sizes are natural numbers here, since no file can have `2 ^ 64` bytes.
-/

namespace IrohBlobs

namespace ImportStream

inductive ImportSource
  | memory (data : List UInt8)
  /-- A file with its content. -/
  | tempFile (content : List UInt8) (size : Nat)

namespace ImportSource

def isMem : ImportSource → Bool
  | memory _ => true
  | tempFile _ _ => false

def content : ImportSource → List UInt8
  | memory data => data
  | tempFile content _ => content

def size : ImportSource → Nat
  | memory data => data.length
  | tempFile _ size => size

end ImportSource

inductive IoError
  | stream
  | file
  | progress

/-- What the environment does: whether the temp file can be created, and whether writing and reporting progress
succeed at a size. -/
structure Env where
  create : Bool
  write : Nat → Bool
  send : Nat → Bool

/-- Nothing fails. -/
def Env.working : Env := ⟨true, fun _ => true, fun _ => true⟩

section

variable (env : Env)

/-- The second loop: the rest of the stream goes to the file. -/
def copyToFile (file : List UInt8) (size : Nat) : List (Except IoError (List UInt8)) → Except IoError ImportSource
  | [] => .ok (.tempFile file size)
  | .error e :: _ => .error e
  | .ok chunk :: rest =>
    if env.write size then
      let size := size + chunk.length
      if env.send size then copyToFile (file ++ chunk) size rest else .error .progress
    else .error .file

/-- The first loop: chunks are collected until they exceed the threshold. -/
def collect (maxDataInlined : Nat) (data : List UInt8) (size : Nat) :
    List (Except IoError (List UInt8)) → Except IoError ImportSource
  | [] => .ok (.memory data)
  | .error e :: _ => .error e
  | .ok chunk :: rest =>
    let size := size + chunk.length
    if size > maxDataInlined then
      if env.create && env.write size then copyToFile env (data ++ chunk) size rest else .error .file
    else if env.send size then collect maxDataInlined (data ++ chunk) size rest
    else .error .progress

/-- `is_inlined_data`. -/
def isInlinedData (maxDataInlined dataSize : Nat) : Bool := decide (dataSize ≤ maxDataInlined)

def getImportSource (maxDataInlined : Nat) (stream : List (Except IoError (List UInt8))) :
    Except IoError ImportSource :=
  match stream with
  | [] => .ok (.memory [])
  | .error e :: _ => .error e
  | .ok first :: rest =>
    match rest with
    | .error e :: _ => .error e
    | .ok second :: rest => collect env maxDataInlined [] 0 (.ok first :: .ok second :: rest)
    | [] =>
      if isInlinedData maxDataInlined first.length then .ok (.memory first)
      else collect env maxDataInlined [] 0 [.ok first]

end

/-! ### The loops -/

/-- The source holds the bytes, and is in memory if they are inlined. -/
structure Holds (maxDataInlined : Nat) (bytes : List UInt8) (source : ImportSource) : Prop where
  content : source.content = bytes
  size : source.size = bytes.length
  isMem : source.isMem = isInlinedData maxDataInlined bytes.length

variable {env : Env} {maxDataInlined : Nat}

private theorem copyToFile_ok {file : List UInt8} (hfile : maxDataInlined < file.length) {chunks : List (List UInt8)}
    {source : ImportSource} (h : copyToFile env file file.length (chunks.map .ok) = .ok source) :
    Holds maxDataInlined (file ++ chunks.flatten) source := by
  induction chunks generalizing file with
  | nil =>
    cases h
    refine ⟨by simp [ImportSource.content], by simp [ImportSource.size], ?_⟩
    simp [ImportSource.isMem, isInlinedData, hfile]
  | cons chunk chunks ih =>
    simp only [List.map_cons, copyToFile] at h
    split at h
    · split at h
      · rw [List.flatten_cons, ← List.append_assoc]
        rw [← List.length_append] at h
        exact ih (by rw [List.length_append]; omega) h
      · cases h
    · cases h

private theorem collect_ok (data : List UInt8) (hdata : data.length ≤ maxDataInlined) {chunks : List (List UInt8)}
    {source : ImportSource} (h : collect env maxDataInlined data data.length (chunks.map .ok) = .ok source) :
    Holds maxDataInlined (data ++ chunks.flatten) source := by
  induction chunks generalizing data with
  | nil =>
    cases h
    refine ⟨by simp [ImportSource.content], by simp [ImportSource.size], ?_⟩
    simp [ImportSource.isMem, isInlinedData, hdata]
  | cons chunk chunks ih =>
    simp only [List.map_cons, collect] at h
    rw [List.flatten_cons, ← List.append_assoc]
    rw [← List.length_append] at h
    split at h
    · next hlt =>
      split at h
      · exact copyToFile_ok hlt h
      · cases h
    · next hle =>
      split at h
      · exact ih _ (by omega) h
      · cases h

private theorem copyToFile_working (file : List UInt8) (size : Nat) (chunks : List (List UInt8)) :
    ∃ source, copyToFile .working file size (chunks.map .ok) = .ok source := by
  induction chunks generalizing file size with
  | nil => exact ⟨_, rfl⟩
  | cons chunk chunks ih => exact ih (file ++ chunk) (size + chunk.length)

private theorem collect_working (data : List UInt8) (size : Nat) (chunks : List (List UInt8)) :
    ∃ source, collect .working maxDataInlined data size (chunks.map .ok) = .ok source := by
  induction chunks generalizing data size with
  | nil => exact ⟨_, rfl⟩
  | cons chunk chunks ih =>
    simp only [List.map_cons, collect]
    split
    · exact copyToFile_working (data ++ chunk) (size + chunk.length) chunks
    · exact ih (data ++ chunk) (size + chunk.length)

private theorem copyToFile_error (file : List UInt8) (size : Nat) (chunks : List (List UInt8)) (e : IoError)
    (rest : List (Except IoError (List UInt8))) :
    ∃ e', copyToFile env file size (chunks.map .ok ++ .error e :: rest) = .error e' := by
  induction chunks generalizing file size with
  | nil => exact ⟨e, rfl⟩
  | cons chunk chunks ih =>
    simp only [List.map_cons, List.cons_append, copyToFile]
    split
    · split
      · exact ih (file ++ chunk) (size + chunk.length)
      · exact ⟨_, rfl⟩
    · exact ⟨_, rfl⟩

private theorem collect_error (data : List UInt8) (size : Nat) (chunks : List (List UInt8)) (e : IoError)
    (rest : List (Except IoError (List UInt8))) :
    ∃ e', collect env maxDataInlined data size (chunks.map .ok ++ .error e :: rest) = .error e' := by
  induction chunks generalizing data size with
  | nil => exact ⟨e, rfl⟩
  | cons chunk chunks ih =>
    simp only [List.map_cons, List.cons_append, collect]
    split
    · split
      · exact copyToFile_error (data ++ chunk) (size + chunk.length) chunks e rest
      · exact ⟨_, rfl⟩
    · split
      · exact ih (data ++ chunk) (size + chunk.length)
      · exact ⟨_, rfl⟩

/-! ### All ways to cut a stream -/

/-- The chunks that are peeked are collected like all others: up to the shortcut for a single small chunk the function
is the first loop. -/
theorem getImportSource_map_ok (env : Env) (maxDataInlined : Nat) (chunks : List (List UInt8)) :
    getImportSource env maxDataInlined (chunks.map .ok) = collect env maxDataInlined [] 0 (chunks.map .ok) ∨
      ∃ first, chunks = [first] ∧ first.length ≤ maxDataInlined ∧
        getImportSource env maxDataInlined (chunks.map .ok) = .ok (.memory first) := by
  rcases chunks with _ | ⟨first, _ | ⟨second, rest⟩⟩
  · exact Or.inl rfl
  · by_cases h : first.length ≤ maxDataInlined
    · exact Or.inr ⟨first, rfl, h, by simp [getImportSource, isInlinedData, h]⟩
    · exact Or.inl (by simp [getImportSource, isInlinedData, h])
  · exact Or.inl rfl

theorem getImportSource_ok {chunks : List (List UInt8)} {source : ImportSource}
    (h : getImportSource env maxDataInlined (chunks.map .ok) = .ok source) :
    Holds maxDataInlined chunks.flatten source := by
  rcases getImportSource_map_ok env maxDataInlined chunks with hcollect | ⟨first, rfl, hle, hmem⟩
  · rw [hcollect] at h
    exact collect_ok [] (Nat.zero_le _) h
  · rw [hmem] at h
    cases h
    refine ⟨by simp [ImportSource.content], by simp [ImportSource.size], ?_⟩
    simp [ImportSource.isMem, isInlinedData, hle]

/-- The source depends only on the bytes of the stream: it holds them, in memory if and only if they are inlined.  The
function returns one unless the environment fails, and returns an error if the stream does. -/
theorem getImportSource_chunks (maxDataInlined : Nat) (chunks : List (List UInt8)) :
    (∃ source, getImportSource .working maxDataInlined (chunks.map .ok) = .ok source) ∧
    (∀ env source, getImportSource env maxDataInlined (chunks.map .ok) = .ok source →
      source.content = chunks.flatten ∧ source.size = chunks.flatten.length ∧
        (source.isMem = true ↔ chunks.flatten.length ≤ maxDataInlined)) ∧
    ∀ env e rest, ∃ e', getImportSource env maxDataInlined (chunks.map .ok ++ .error e :: rest) = .error e' := by
  refine ⟨?_, ?_, ?_⟩
  · rcases getImportSource_map_ok .working maxDataInlined chunks with h | ⟨first, -, -, h⟩
    · rw [h]
      exact collect_working [] 0 chunks
    · exact ⟨_, h⟩
  · intro env source h
    have hholds := getImportSource_ok h
    refine ⟨hholds.content, hholds.size, ?_⟩
    rw [hholds.isMem, isInlinedData, decide_eq_true_iff]
  · intro env e rest
    rcases chunks with _ | ⟨first, _ | ⟨second, chunks⟩⟩
    · exact ⟨e, rfl⟩
    · exact ⟨e, rfl⟩
    · exact collect_error [] 0 (first :: second :: chunks) e rest

/-- Three chunks that exceed the threshold with the last one. -/
example : getImportSource .working 3 [.ok [1, 2], .ok [], .ok [3, 4]] = .ok (.tempFile [1, 2, 3, 4] 4) := rfl

end ImportStream

end IrohBlobs
