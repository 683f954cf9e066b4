import Mathlib.Tactic

/-!
# Encodings to a base

Digits in a base with a fixed number of places, the most significant first, and the encodings of bytes by symbols that
carry a number of bits each.  An encoding reads the input as one sequence of bits, fills up the last symbol with zero
bits, and has no padding.  Decoding is strict: the length must be one that encoding gives, every symbol must be in the
alphabet, and the bits that fill up the last symbol must be zero.

The key fact is `decode_eq_some_iff`: the input decodes to some bytes if and only if it is what encodes them.
-/

namespace BaseEncoding

/-! ### Digits -/

/-- The value of digits, the most significant first. -/
def value (base : Nat) (digits : List Nat) : Nat := digits.foldl (fun n d => n * base + d) 0

/-- The last `count` digits of a number. -/
def digits (base n : Nat) : Nat → List Nat
  | 0 => []
  | count + 1 => digits base (n / base) count ++ [n % base]

variable {base : Nat}

theorem value_concat (l : List Nat) (d : Nat) : value base (l ++ [d]) = value base l * base + d := by
  simp [value, List.foldl_append]

theorem length_digits (n count : Nat) : (digits base n count).length = count := by
  induction count generalizing n with
  | zero => rfl
  | succ count ih => simp [digits, ih]

theorem lt_of_mem_digits (hbase : 0 < base) {n count d : Nat} (h : d ∈ digits base n count) : d < base := by
  induction count generalizing n with
  | zero => cases h
  | succ count ih =>
    rw [digits, List.mem_append, List.mem_singleton] at h
    rcases h with h | rfl
    · exact ih h
    · exact Nat.mod_lt n hbase

theorem value_lt {l : List Nat} (h : ∀ d ∈ l, d < base) : value base l < base ^ l.length := by
  induction l using List.reverseRecOn with
  | nil => simp [value]
  | append_singleton l d ih =>
    have hl := ih fun x hx => h x (by simp [hx])
    have hd := h d (by simp)
    rw [value_concat, List.length_append, List.length_singleton, pow_succ]
    calc value base l * base + d < value base l * base + base := by omega
      _ = (value base l + 1) * base := by ring
      _ ≤ base ^ l.length * base := Nat.mul_le_mul_right base hl

theorem value_digits {n count : Nat} (h : n < base ^ count) : value base (digits base n count) = n := by
  induction count generalizing n with
  | zero =>
    rw [pow_zero] at h
    rw [Nat.lt_one_iff.mp h]
    rfl
  | succ count ih =>
    have hdiv : n / base < base ^ count := by
      apply Nat.div_lt_of_lt_mul
      rwa [pow_succ, Nat.mul_comm] at h
    rw [digits, value_concat, ih hdiv, Nat.mul_comm]
    exact Nat.div_add_mod n base

theorem digits_value {l : List Nat} (h : ∀ d ∈ l, d < base) : digits base (value base l) l.length = l := by
  induction l using List.reverseRecOn with
  | nil => rfl
  | append_singleton l d ih =>
    have hd := h d (by simp)
    have hdiv : (value base l * base + d) / base = value base l := by
      rw [Nat.mul_comm, Nat.mul_add_div (by omega), Nat.div_eq_of_lt hd, Nat.add_zero]
    have hmod : (value base l * base + d) % base = d := by
      rw [Nat.mul_comm, Nat.mul_add_mod, Nat.mod_eq_of_lt hd]
    rw [value_concat, List.length_append, List.length_singleton, digits, hdiv, hmod, ih fun x hx => h x (by simp [hx])]

/-- Two digits in a base are one in its square. -/
theorem digits_mul_two (n count : Nat) :
    digits base n (2 * count) = (digits (base * base) n count).flatMap fun d => [d / base, d % base] := by
  induction count generalizing n with
  | zero => rfl
  | succ count ih =>
    have hdiv : n % (base * base) / base = n / base % base := Nat.mod_mul_right_div_self n base base
    have hmod : n % (base * base) % base = n % base := Nat.mod_mul_left_mod n base base
    rw [Nat.mul_succ, digits, digits, ih, digits, List.flatMap_append, Nat.div_div_eq_div_mul]
    simp [hdiv, hmod]

/-! ### Encodings -/

/-- An encoding with `2 ^ bit` symbols. -/
structure Encoding where
  bit : Nat
  symbols : List UInt8
  bit_pos : 0 < bit
  length_symbols : symbols.length = 2 ^ bit
  nodup_symbols : symbols.Nodup

namespace Encoding

variable (enc : Encoding)

/-- The number of bits that fill up the last symbol. -/
def trail (len : Nat) : Nat := enc.bit * len % 8

/-- The number of bytes of an input, if it is one that encoding gives: it has no symbol more than needed. -/
def decodeLen (len : Nat) : Option Nat :=
  if enc.trail len / enc.bit = 0 then some (enc.bit * len / 8) else none

/-- The value of a symbol. -/
def symbolValue (c : UInt8) : Option Nat := enc.symbols.idxOf? c

def symbol (d : Nat) : UInt8 := enc.symbols.getD d 0

/-- The bytes that an input of the right length stands for. -/
def decode (input : List UInt8) (len : Nat) : Option (List UInt8) :=
  match input.mapM enc.symbolValue with
  | some ds =>
    let n := value (2 ^ enc.bit) ds
    if n % 2 ^ enc.trail input.length = 0 then
      some ((digits 256 (n / 2 ^ enc.trail input.length) len).map UInt8.ofNat)
    else none
  | none => none

/-- The symbols of bytes, for a given number of symbols. -/
def encode (bytes : List UInt8) (count : Nat) : List UInt8 :=
  (digits (2 ^ enc.bit) (value 256 (bytes.map UInt8.toNat) * 2 ^ enc.trail count) count).map enc.symbol

variable {enc}

theorem symbolValue_eq_some_iff {c : UInt8} {d : Nat} :
    enc.symbolValue c = some d ↔ d < 2 ^ enc.bit ∧ c = enc.symbol d := by
  have hnodup := enc.nodup_symbols
  rw [symbolValue, List.idxOf?_eq_some_iff, enc.length_symbols.symm]
  constructor
  · rintro ⟨hd, hc, -⟩
    exact ⟨hd, by simpa [symbol, hd] using hc.symm⟩
  · rintro ⟨hd, hc⟩
    have hget : enc.symbols[d] = c := by simp [hc, symbol, hd]
    refine ⟨hd, hget, ?_⟩
    intro j hj heq
    have hjd := hnodup.getElem_inj_iff.mp (heq.trans hget.symm)
    omega

theorem symbolValue_isSome {c : UInt8} : (enc.symbolValue c).isSome ↔ c ∈ enc.symbols := by
  rw [symbolValue, List.isSome_idxOf?]

theorem mapM_symbolValue {input : List UInt8} {ds : List Nat} :
    input.mapM enc.symbolValue = some ds ↔ (∀ d ∈ ds, d < 2 ^ enc.bit) ∧ input = ds.map enc.symbol := by
  induction input generalizing ds with
  | nil => cases ds <;> simp
  | cons c input ih =>
    simp only [List.mapM_cons, Option.bind_eq_bind, Option.bind_eq_some_iff, Option.pure_def, Option.some.injEq,
      symbolValue_eq_some_iff, ih]
    constructor
    · rintro ⟨d, ⟨hd, rfl⟩, l, ⟨hl, rfl⟩, rfl⟩
      exact ⟨by simpa using ⟨hd, hl⟩, rfl⟩
    · rintro ⟨hlt, hmap⟩
      cases ds with
      | nil => cases hmap
      | cons d ds =>
        simp only [List.map_cons, List.cons.injEq] at hmap
        exact ⟨d, ⟨hlt d (by simp), hmap.1⟩, ds, ⟨fun x hx => hlt x (by simp [hx]), hmap.2⟩, rfl⟩

/-- The bits of an input: those of its bytes, and those that fill up. -/
theorem bits_of_decodeLen {count len : Nat} (h : enc.decodeLen count = some len) :
    enc.bit * count = 8 * len + enc.trail count ∧ enc.trail count < enc.bit := by
  unfold decodeLen at h
  split at h
  · next hzero =>
    simp only [Option.some.injEq] at h
    refine ⟨?_, ?_⟩
    · rw [← h, trail]
      omega
    · exact (Nat.div_eq_zero_iff_lt enc.bit_pos).mp hzero
  · cases h

private theorem toNat_map_ofNat {l : List Nat} (h : ∀ d ∈ l, d < 256) : (l.map UInt8.ofNat).map UInt8.toNat = l := by
  rw [List.map_map]
  conv_rhs => rw [← List.map_id l]
  apply List.map_congr_left
  intro d hd
  simp [Nat.mod_eq_of_lt (h d hd)]

private theorem ofNat_map_toNat (l : List UInt8) : (l.map UInt8.toNat).map UInt8.ofNat = l := by
  rw [List.map_map]
  conv_rhs => rw [← List.map_id l]
  apply List.map_congr_left
  intro b _
  exact UInt8.ofNat_toNat

private theorem toNat_lt (l : List UInt8) : ∀ d ∈ l.map UInt8.toNat, d < 256 := by
  intro d hd
  obtain ⟨b, -, rfl⟩ := List.mem_map.mp hd
  exact b.toNat_lt

/-- Decoding is the inverse of encoding. -/
theorem decode_eq_some_iff {input bytes : List UInt8} {len : Nat} (hlen : enc.decodeLen input.length = some len) :
    enc.decode input len = some bytes ↔ bytes.length = len ∧ input = enc.encode bytes input.length := by
  obtain ⟨hbits, -⟩ := bits_of_decodeLen hlen
  have hpow : (2 ^ enc.bit) ^ input.length = 256 ^ len * 2 ^ enc.trail input.length := by
    rw [← pow_mul, hbits, pow_add, pow_mul, show (2 : Nat) ^ 8 = 256 from rfl]
  have htpos : 0 < 2 ^ enc.trail input.length := Nat.two_pow_pos _
  constructor
  · intro h
    unfold decode at h
    split at h
    · next ds hds =>
      obtain ⟨hlt, hmap⟩ := mapM_symbolValue.mp hds
      have hcount : ds.length = input.length := by rw [hmap, List.length_map]
      simp only at h
      split at h
      · next hzero =>
        simp only [Option.some.injEq] at h
        subst h
        have hn : value (2 ^ enc.bit) ds < 256 ^ len * 2 ^ enc.trail input.length := by
          rw [← hpow, ← hcount]
          exact value_lt hlt
        have hdiv : value (2 ^ enc.bit) ds / 2 ^ enc.trail input.length < 256 ^ len :=
          (Nat.div_lt_iff_lt_mul htpos).mpr hn
        refine ⟨by rw [List.length_map, length_digits], ?_⟩
        rw [encode, toNat_map_ofNat fun d hd => lt_of_mem_digits (by decide) hd, value_digits hdiv,
          Nat.div_mul_cancel (Nat.dvd_of_mod_eq_zero hzero), ← hcount, digits_value hlt, ← hmap]
      · cases h
    · cases h
  · rintro ⟨hbytes, hinput⟩
    have hv : value 256 (bytes.map UInt8.toNat) < 256 ^ len := by
      have hlt := value_lt (toNat_lt bytes)
      rwa [List.length_map, hbytes] at hlt
    have hn : value 256 (bytes.map UInt8.toNat) * 2 ^ enc.trail input.length < (2 ^ enc.bit) ^ input.length := by
      rw [hpow]
      exact Nat.mul_lt_mul_of_pos_right hv htpos
    have hds : input.mapM enc.symbolValue =
        some (digits (2 ^ enc.bit) (value 256 (bytes.map UInt8.toNat) * 2 ^ enc.trail input.length) input.length) :=
      mapM_symbolValue.mpr ⟨fun d hd => lt_of_mem_digits (Nat.two_pow_pos _) hd, hinput⟩
    have hback : digits 256 (value 256 (bytes.map UInt8.toNat)) len = bytes.map UInt8.toNat := by
      have hdv := digits_value (toNat_lt bytes)
      rwa [List.length_map, hbytes] at hdv
    simp only [decode, hds, value_digits hn, Nat.mul_mod_left, if_true, Nat.mul_div_cancel _ htpos, hback,
      ofNat_map_toNat]

/-- An input can be decoded if its symbols are in the alphabet and the bits that fill up the last one are zero. -/
theorem decode_isSome_iff {input : List UInt8} {len : Nat} (hlen : enc.decodeLen input.length = some len) :
    (enc.decode input len).isSome ↔
      (∀ c ∈ input, c ∈ enc.symbols) ∧
        ∀ c d, input.getLast? = some c → enc.symbolValue c = some d → d % 2 ^ enc.trail input.length = 0 := by
  obtain ⟨-, htrail⟩ := bits_of_decodeLen hlen
  unfold decode
  cases hds : input.mapM enc.symbolValue with
  | none =>
    simp only [Option.isSome_none, Bool.false_eq_true, false_iff, not_and]
    intro hall
    exfalso
    have hsome : (input.mapM enc.symbolValue).isSome := by
      clear hlen hds htrail
      induction input with
      | nil => rfl
      | cons c input ih =>
        obtain ⟨d, hd⟩ := Option.isSome_iff_exists.mp (symbolValue_isSome.mpr (hall c (by simp)))
        obtain ⟨l, hl⟩ := Option.isSome_iff_exists.mp (ih fun x hx => hall x (by simp [hx]))
        simp [List.mapM_cons, hd, hl]
    rw [hds] at hsome
    cases hsome
  | some ds =>
    obtain ⟨hlt, hmap⟩ := mapM_symbolValue.mp hds
    have hall : ∀ c ∈ input, c ∈ enc.symbols := by
      intro c hc
      rw [hmap, List.mem_map] at hc
      obtain ⟨d, hd, rfl⟩ := hc
      rw [← symbolValue_isSome, symbolValue_eq_some_iff.mpr ⟨hlt d hd, rfl⟩]
      rfl
    have hlast : (∀ c d, input.getLast? = some c → enc.symbolValue c = some d → d % 2 ^ enc.trail input.length = 0) ↔
        value (2 ^ enc.bit) ds % 2 ^ enc.trail input.length = 0 := by
      generalize enc.trail input.length = t at htrail
      rcases List.eq_nil_or_concat ds with rfl | ⟨l, d, rfl⟩
      · simp [hmap, value]
      · have hvalue : value (2 ^ enc.bit) (l ++ [d]) % 2 ^ t = d % 2 ^ t := by
          have hdvd : 2 ^ t ∣ value (2 ^ enc.bit) l * 2 ^ enc.bit := Dvd.dvd.mul_left (pow_dvd_pow 2 htrail.le) _
          rw [value_concat, Nat.add_mod, Nat.mod_eq_zero_of_dvd hdvd, Nat.zero_add, Nat.mod_mod]
        have hsymbol := (@symbolValue_eq_some_iff enc _ _).mpr ⟨hlt d (by simp), rfl⟩
        rw [List.concat_eq_append] at hmap ⊢
        rw [hvalue, hmap]
        constructor
        · intro h
          exact h (enc.symbol d) d (by simp) hsymbol
        · intro h c d' hc hd'
          simp only [List.map_append, List.map_cons, List.map_nil, List.getLast?_append, List.getLast?_singleton,
            Option.some_or, Option.some.injEq] at hc
          subst hc
          rw [hsymbol, Option.some.injEq] at hd'
          exact hd' ▸ h
    simp only [hlast]
    split
    · next hzero => exact iff_of_true rfl ⟨hall, hzero⟩
    · next hzero => exact iff_of_false (by simp) fun h => hzero h.2

end Encoding

end BaseEncoding
