import IrohBlobs.BitfieldWire
import IrohBlobs.Codec

/-!
# The bitfield file

`write_checksummed` and `read_checksummed_and_truncate` of `store/util.rs`, as the file store uses them for bitfields.
A checksummed file is a checksum and a payload.  The checksum has a fixed length and is at the start of the file, so
that a prefix of the file is too short or has the whole checksum.  It is a value of a type of its own here.

A crash may leave what was synced, what was written since then, or a torn file: the checksum of one of the two, or
none, and any payload (`Torn`).  With a collision free hash only payloads that were written can be read after that
(`MayRead`).
-/

namespace IrohBlobs

/-- The content of a checksummed file. -/
inductive Checksummed (C : Type)
  | empty
  /-- The file is not empty, but shorter than a checksum. -/
  | short
  | full (checksum : C) (payload : List UInt8)

/-- A checksummed file: what is synced, and what a reader sees. -/
structure ChecksummedFile (C : Type) where
  synced : Checksummed C
  current : Checksummed C

namespace Checksummed

variable {C : Type}

def checksum : Checksummed C → Option C
  | .full checksum _ => some checksum
  | .empty | .short => none

inductive ReadError
  | notFound
  | markedDirty
  | tooShort
  | hashMismatch
  | deserialize

/-- The numbers of a bitfield as bytes. -/
def numbers : Codec (List Nat) := .list .varint .varint

def serialize (bitfield : Bitfield) : List UInt8 := numbers.write bitfield.encode

def deserialize (payload : List UInt8) : Option Bitfield :=
  (numbers.fromBytes payload).bind fun numbers => (Bitfield.decode numbers).toOption

/-- What `read_checksummed_and_truncate` returns for the content that it has read. -/
def read [DecidableEq C] (hash : List UInt8 → C) (file : Option (ChecksummedFile C)) : Except ReadError Bitfield :=
  match file with
  | none => .error .notFound
  | some file =>
    match file.current with
    | .empty => .error .markedDirty
    | .short => .error .tooShort
    | .full checksum payload =>
      if hash payload = checksum then
        match deserialize payload with
        | some bitfield => .ok bitfield
        | none => .error .deserialize
      else .error .hashMismatch

/-- The operations on the path of the file. -/
inductive Op (C : Type)
  /-- `File::create`, which truncates an existing file. -/
  | create
  /-- `set_len(0)`. -/
  | truncate
  /-- The file has a content while it is written, or at the end of that. -/
  | write (content : Checksummed C)
  | sync

def apply (file : Option (ChecksummedFile C)) : Op C → Option (ChecksummedFile C)
  | .create =>
    match file with
    | some file => some { file with current := .empty }
    | none => some ⟨.empty, .empty⟩
  | .truncate => file.map fun file => { file with current := .empty }
  | .write content => file.map fun file => { file with current := content }
  | .sync => file.map fun file => { file with synced := file.current }

/-- The operations of `write_checksummed`.  The write may stop anywhere in the buffer. -/
def writeOps (hash : List UInt8 → C) (bitfield : Bitfield) : List (Op C) :=
  let payload := serialize bitfield
  .create :: .write .short :: payload.inits.map (fun written => .write (.full (hash payload) written)) ++ [.sync]

/-- The operations of `read_checksummed_and_truncate`. -/
def truncateOps : List (Op C) := [.truncate, .sync]

/-- What a crash may leave of a file. -/
def Torn (file : ChecksummedFile C) (content : Checksummed C) : Prop :=
  content.checksum = none ∨ content.checksum = file.synced.checksum ∨ content.checksum = file.current.checksum

instance [DecidableEq C] (file : ChecksummedFile C) (content : Checksummed C) : Decidable (Torn file content) :=
  inferInstanceAs (Decidable (_ ∨ _))

/-- The checksum of the payload is in the file, or was when it was synced last. -/
def MayRead (hash : List UInt8 → C) (file : Option (ChecksummedFile C)) (payload : List UInt8) : Prop :=
  ∃ f, file = some f ∧ (f.synced.checksum = some (hash payload) ∨ f.current.checksum = some (hash payload))

variable {hash : List UInt8 → C} {file : Option (ChecksummedFile C)} {payload : List UInt8} {bitfield : Bitfield}

theorem deserialize_serialize (bitfield : Bitfield) :
    deserialize (serialize bitfield) = some (.new bitfield.ranges bitfield.size) := by
  have hdecode : Bitfield.decode bitfield.encode = .ok (.new bitfield.ranges bitfield.size) :=
    Bitfield.decode_cons bitfield.size bitfield.ranges.sorted
  rw [deserialize, serialize, Codec.fromBytes_write, Option.bind_some, hdecode]
  rfl

private theorem foldl_write (f : ChecksummedFile C) (contents : List (Checksummed C)) :
    (contents.map Op.write).foldl apply (some f) = some { f with current := contents.getLast?.getD f.current } := by
  induction contents using List.reverseRecOn with
  | nil => rfl
  | append_singleton contents content ih =>
    rw [List.map_append, List.foldl_append, ih, List.getLast?_concat]
    rfl

private theorem getLast?_inits (payload : List UInt8) : payload.inits.getLast? = some payload := by
  have hlt : payload.length < payload.inits.length := by
    rw [List.length_inits]
    omega
  rw [List.getLast?_eq_getElem?, List.length_inits, Nat.add_sub_cancel, List.getElem?_eq_getElem hlt,
    List.getElem_inits, List.take_length]

/-- What is written is read, in canonical form. -/
theorem read_writeOps [DecidableEq C] (file : Option (ChecksummedFile C)) (bitfield : Bitfield) :
    read hash ((writeOps hash bitfield).foldl apply file) = .ok (.new bitfield.ranges bitfield.size) := by
  obtain ⟨f, hf⟩ : ∃ f, apply (apply file .create) (.write .short) = some f := by
    cases file with
    | none => exact ⟨_, rfl⟩
    | some file => exact ⟨_, rfl⟩
  have hmap : (serialize bitfield).inits.map (fun written => Op.write (.full (hash (serialize bitfield)) written)) =
      ((serialize bitfield).inits.map (Checksummed.full (hash (serialize bitfield)))).map Op.write := by
    rw [List.map_map]
    rfl
  have hwritten : (writeOps hash bitfield).foldl apply file =
      some ⟨.full (hash (serialize bitfield)) (serialize bitfield),
        .full (hash (serialize bitfield)) (serialize bitfield)⟩ := by
    simp only [writeOps, List.cons_append, List.foldl_cons, hf, List.foldl_append, hmap]
    rw [foldl_write, List.getLast?_map, getLast?_inits]
    rfl
  rw [hwritten]
  simp only [read, if_true, deserialize_serialize]

/-- What is read may be read. -/
theorem mayRead_of_read [DecidableEq C] (h : read hash file = .ok bitfield) :
    ∃ payload, MayRead hash file payload ∧ deserialize payload = some bitfield := by
  cases file with
  | none => cases h
  | some file =>
    simp only [read] at h
    split at h
    · cases h
    · cases h
    · rename_i checksum payload hcurrent
      by_cases hhash : hash payload = checksum
      · rw [if_pos hhash] at h
        refine ⟨payload, ⟨file, rfl, Or.inr (by rw [hcurrent, hhash]; rfl)⟩, ?_⟩
        cases hd : deserialize payload with
        | none =>
          rw [hd] at h
          cases h
        | some b =>
          rw [hd] at h
          cases h
          rfl
      · rw [if_neg hhash] at h
        cases h

/-- An operation lets nothing be read but what could be read before, or what it writes. -/
theorem mayRead_apply {op : Op C} (h : MayRead hash (apply file op) payload) :
    MayRead hash file payload ∨ ∃ content, op = .write content ∧ content.checksum = some (hash payload) := by
  obtain ⟨f', hf', hchecksum⟩ := h
  cases op with
  | create =>
    cases file with
    | none =>
      cases hf'
      rcases hchecksum with h | h <;> cases h
    | some f =>
      cases hf'
      rcases hchecksum with h | h
      · exact Or.inl ⟨f, rfl, Or.inl h⟩
      · cases h
  | truncate =>
    obtain ⟨f, rfl, rfl⟩ := Option.map_eq_some_iff.mp hf'
    rcases hchecksum with h | h
    · exact Or.inl ⟨f, rfl, Or.inl h⟩
    · cases h
  | write content =>
    obtain ⟨f, rfl, rfl⟩ := Option.map_eq_some_iff.mp hf'
    rcases hchecksum with h | h
    · exact Or.inl ⟨f, rfl, Or.inl h⟩
    · exact Or.inr ⟨content, rfl, h⟩
  | sync =>
    obtain ⟨f, rfl, rfl⟩ := Option.map_eq_some_iff.mp hf'
    exact Or.inl ⟨f, rfl, Or.inr (hchecksum.elim id id)⟩

/-- All that is written is the payload with its checksum, or a part of that. -/
theorem checksum_of_mem_writeOps {content : Checksummed C} (h : .write content ∈ writeOps hash bitfield) {c : C}
    (hc : content.checksum = some c) : c = hash (serialize bitfield) := by
  simp only [writeOps, List.cons_append, List.mem_cons, List.mem_append, List.mem_map, List.not_mem_nil, or_false,
    reduceCtorEq, false_or, Op.write.injEq] at h
  rcases h with rfl | ⟨written, -, rfl⟩
  · cases hc
  · cases hc
    rfl

/-- A crash lets nothing be read but what could be read before. -/
theorem mayRead_torn {f : ChecksummedFile C} {content : Checksummed C} (htorn : Torn f content)
    (h : MayRead hash (some ⟨content, content⟩) payload) : MayRead hash (some f) payload := by
  obtain ⟨f', hf', hchecksum⟩ := h
  cases hf'
  have hcontent : content.checksum = some (hash payload) := hchecksum.elim id id
  rcases htorn with h | h | h
  · rw [h] at hcontent
    cases hcontent
  · exact ⟨f, rfl, Or.inl (h.symm.trans hcontent)⟩
  · exact ⟨f, rfl, Or.inr (h.symm.trans hcontent)⟩

end Checksummed

end IrohBlobs
