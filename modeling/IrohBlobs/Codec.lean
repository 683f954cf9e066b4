import Mathlib.Tactic

/-!
# Codecs

A codec writes a value as bytes and reads a value from the front of a list of bytes.  The law is that it reads exactly
what it has written and leaves whatever follows, so codecs can be put one after the other: pairs (`pair`), lists behind
their number of elements (`list`), and other types with the same content (`map`).

Numbers are written with seven bits to a byte, the lowest bits first (`varint`).
-/

structure Codec (α : Type) where
  write : α → List UInt8
  /-- The value and the bytes after it. -/
  read : List UInt8 → Option (α × List UInt8)
  read_write : ∀ a rest, read (write a ++ rest) = some (a, rest)

namespace Codec

variable {α β : Type}

/-- The value at the front of the bytes.  What follows is not looked at. -/
def fromBytes (c : Codec α) (bytes : List UInt8) : Option α := (c.read bytes).map Prod.fst

theorem fromBytes_write (c : Codec α) (a : α) : c.fromBytes (c.write a) = some a := by
  have h := c.read_write a []
  rw [List.append_nil] at h
  rw [fromBytes, h, Option.map_some]

/-- Values of another type with the same content. -/
def map (c : Codec α) (f : α → β) (g : β → α) (h : ∀ b, f (g b) = b) : Codec β where
  write b := c.write (g b)
  read bytes := (c.read bytes).map (fun (a, rest) => (f a, rest))
  read_write b rest := by simp only [c.read_write, Option.map_some, h]

/-- One value after the other. -/
def pair (c : Codec α) (d : Codec β) : Codec (α × β) where
  write v := c.write v.1 ++ d.write v.2
  read bytes := (c.read bytes).bind fun (a, bytes) => (d.read bytes).map fun (b, rest) => ((a, b), rest)
  read_write v rest := by
    rw [List.append_assoc, c.read_write, Option.bind_some]
    simp only [d.read_write, Option.map_some]

/-- Read a number of values. -/
def readMany (c : Codec α) : Nat → List UInt8 → Option (List α × List UInt8)
  | 0, bytes => some ([], bytes)
  | n + 1, bytes => (c.read bytes).bind fun (a, bytes) => (c.readMany n bytes).map fun (as, rest) => (a :: as, rest)

private theorem readMany_write (c : Codec α) (as : List α) (rest : List UInt8) :
    c.readMany as.length (as.flatMap c.write ++ rest) = some (as, rest) := by
  induction as with
  | nil => rfl
  | cons a as ih =>
    rw [List.flatMap_cons, List.append_assoc, List.length_cons, readMany, c.read_write, Option.bind_some]
    simp only [ih, Option.map_some]

/-- A list behind its number of elements. -/
def list (len : Codec Nat) (c : Codec α) : Codec (List α) where
  write as := len.write as.length ++ as.flatMap c.write
  read bytes := (len.read bytes).bind fun (n, bytes) => c.readMany n bytes
  read_write as rest := by
    rw [List.append_assoc, len.read_write, Option.bind_some]
    exact readMany_write c as rest

theorem length_le_length_list (len : Codec Nat) (c : Codec α) (hc : ∀ a, 1 ≤ (c.write a).length) (as : List α) :
    as.length ≤ ((list len c).write as).length := by
  have h : as.length ≤ (as.flatMap c.write).length := by
    induction as with
    | nil => exact Nat.le_refl 0
    | cons a as ih =>
      have := hc a
      rw [List.flatMap_cons, List.length_append, List.length_cons]
      omega
  have hwrite : (list len c).write as = len.write as.length ++ as.flatMap c.write := rfl
  rw [hwrite, List.length_append]
  omega

/-- A fixed number of bytes. -/
def bytes (n : Nat) : Codec { l : List UInt8 // l.length = n } where
  write l := l.1
  read bytes := if h : n ≤ bytes.length then some (⟨bytes.take n, List.length_take_of_le h⟩, bytes.drop n) else none
  read_write l rest := by
    obtain ⟨l, rfl⟩ := l
    have hle : l.length ≤ (l ++ rest).length := by
      rw [List.length_append]
      exact Nat.le_add_right _ _
    rw [dif_pos hle]
    simp only [List.take_left, List.drop_left]

/-! ### Numbers -/

/-- The rounds of writing a number: at most as many as its value. -/
def writeVarint : Nat → Nat → List UInt8
  | 0, n => [UInt8.ofNat n]
  | fuel + 1, n => if n < 128 then [UInt8.ofNat n] else UInt8.ofNat (n % 128 + 128) :: writeVarint fuel (n / 128)

def readVarint : List UInt8 → Option (Nat × List UInt8)
  | [] => none
  | b :: bytes =>
    if b.toNat < 128 then some (b.toNat, bytes)
    else (readVarint bytes).map fun (n, rest) => (b.toNat - 128 + 128 * n, rest)

private theorem toNat_ofNat_byte {n : Nat} (h : n < 256) : (UInt8.ofNat n).toNat = n := UInt8.toNat_ofNat_of_lt' h

private theorem readVarint_write {fuel n : Nat} (h : n ≤ fuel) (rest : List UInt8) :
    readVarint (writeVarint fuel n ++ rest) = some (n, rest) := by
  have hsmall : ∀ m : Nat, m < 128 → readVarint ([UInt8.ofNat m] ++ rest) = some (m, rest) := by
    intro m hm
    have hbyte : (UInt8.ofNat m).toNat = m := toNat_ofNat_byte (by omega)
    rw [List.singleton_append, readVarint, hbyte, if_pos hm]
  induction fuel generalizing n with
  | zero => exact hsmall n (by omega)
  | succ fuel ih =>
    rw [writeVarint]
    split
    · rename_i hn
      exact hsmall n hn
    · rename_i hn
      have hbyte : (UInt8.ofNat (n % 128 + 128)).toNat = n % 128 + 128 := toNat_ofNat_byte (by omega)
      have hrest := @ih (n / 128) (by omega)
      rw [List.cons_append, readVarint, hbyte, if_neg (by omega), hrest, Option.map_some]
      have hn : n % 128 + 128 - 128 + 128 * (n / 128) = n := by omega
      simp only [hn]

/-- Numbers with seven bits to a byte. -/
def varint : Codec Nat where
  write n := writeVarint n n
  read := readVarint
  read_write n rest := readVarint_write (Nat.le_refl n) rest

theorem one_le_length_varint (n : Nat) : 1 ≤ (varint.write n).length := by
  have hwrite : varint.write n = writeVarint n n := rfl
  rw [hwrite]
  cases n with
  | zero => exact Nat.le_refl 1
  | succ n =>
    rw [writeVarint]
    split
    · exact Nat.le_refl 1
    · exact Nat.succ_le_succ (Nat.zero_le _)

end Codec
