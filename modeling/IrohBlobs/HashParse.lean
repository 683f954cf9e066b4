import IrohBlobs.Gc
import IrohBlobs.BaseEncoding

/-!
# Parsing hashes

`FromStr` for `Hash` and for `HashAndFormat`, and what they display.  A hash is 64 lowercase hex digits or 52 symbols
of base32; the parser decodes into a buffer of 32 bytes, and all lengths other than 64 go to the base32 decoder.  That
decoder asserts that the buffer has the length of what it decodes, so the parser panics for every string of another
length (`hash_exact_iff`).  A hash with a format is told apart by its length before it is decoded, and is parsed
exactly.
-/

namespace IrohBlobs

namespace HashParse

open BaseEncoding

/-! ### Strings -/

/-- `as_bytes`: the bytes of a string in UTF-8. -/
def asBytes (s : String) : List UInt8 := s.toByteArray.data.toList

/-- The string of ASCII characters. -/
def ofAscii (bytes : List UInt8) : String := String.ofList (bytes.map fun b => Char.ofNat b.toNat)

def toAsciiUppercase (b : UInt8) : UInt8 := if 97 ≤ b ∧ b ≤ 122 then b - 32 else b

def toAsciiLowercase (b : UInt8) : UInt8 := if 65 ≤ b ∧ b ≤ 90 then b + 32 else b

/-! ### The encodings -/

def hexSymbols : List UInt8 := [48, 49, 50, 51, 52, 53, 54, 55, 56, 57, 97, 98, 99, 100, 101, 102]

def base32Symbols : List UInt8 :=
  [65, 66, 67, 68, 69, 70, 71, 72, 73, 74, 75, 76, 77, 78, 79, 80, 81, 82, 83, 84, 85, 86, 87, 88, 89, 90,
    50, 51, 52, 53, 54, 55]

private theorem nodup_hexSymbols : hexSymbols.Nodup := by decide

private theorem nodup_base32Symbols : base32Symbols.Nodup := by decide

/-- The digits and the lowercase letters from a to f. -/
def HEXLOWER : Encoding := ⟨4, hexSymbols, by omega, rfl, nodup_hexSymbols⟩

/-- The uppercase letters and the digits from 2 to 7. -/
def BASE32_NOPAD : Encoding := ⟨5, base32Symbols, by omega, rfl, nodup_base32Symbols⟩

/-- The result of a function that can panic. -/
inductive Outcome (ε α : Type)
  | ok (a : α)
  | error (e : ε)
  | panicked

/-- `decode_mut`: it asserts that the output has the length of the decoded input. -/
def decodeMut (enc : Encoding) (input : List UInt8) (output : Nat) : Outcome Unit (List UInt8) :=
  if enc.decodeLen input.length = some output then
    match enc.decode input output with
    | some bytes => .ok bytes
    | none => .error ()
  else .panicked

inductive FromHexError
  | invalidHexCharacter (c : UInt8) (index : Nat)
  | oddLength
  | invalidStringLength

/-- The value of a hex digit in either case. -/
def hexVal (c : UInt8) (index : Nat) : Except FromHexError UInt8 :=
  if 65 ≤ c ∧ c ≤ 70 then .ok (c - 65 + 10)
  else if 97 ≤ c ∧ c ≤ 102 then .ok (c - 97 + 10)
  else if 48 ≤ c ∧ c ≤ 57 then .ok (c - 48)
  else .error (.invalidHexCharacter c index)

def decodePairs (index : Nat) : List UInt8 → Except FromHexError (List UInt8)
  | high :: low :: rest => do
    let high ← hexVal high index
    let low ← hexVal low (index + 1)
    let rest ← decodePairs (index + 2) rest
    .ok ((high * 16 + low) :: rest)
  | _ => .ok []

/-- `hex::decode_to_slice` into a slice of the given length. -/
def decodeToSlice (data : List UInt8) (out : Nat) : Except FromHexError (List UInt8) :=
  if data.length % 2 ≠ 0 then .error .oddLength
  else if data.length / 2 ≠ out then .error .invalidStringLength
  else decodePairs 0 data

/-! ### Hashes -/

/-- The two lowercase hex digits of a byte. -/
def hexPair (b : UInt8) : List UInt8 := [HEXLOWER.symbol (b.toNat / 16), HEXLOWER.symbol (b.toNat % 16)]

def hexBytes (hash : Hash) : List UInt8 := hash.bytes.flatMap hexPair

/-- `Display` for `Hash` is `to_hex`. -/
def displayHash (hash : Hash) : String := ofAscii (hexBytes hash)

inductive HexOrBase32ParseError
  | decodeInvalidLength
  | decode

/-- `FromStr` for `Hash`. -/
def hashFromStr (s : String) : Outcome HexOrBase32ParseError Hash :=
  let res :=
    if (asBytes s).length = 64 then decodeMut HEXLOWER (asBytes s) 32
    else decodeMut BASE32_NOPAD ((asBytes s).map toAsciiUppercase) 32
  match res with
  | .ok bytes => if h : bytes.length = 32 then .ok ⟨bytes, h⟩ else .error .decodeInvalidLength
  | .error () => .error .decode
  | .panicked => .panicked

/-! ### Hashes with a format -/

/-- The bytes that `Display` for `HashAndFormat` writes. -/
def displayBytes (content : HashAndFormat) : List UInt8 :=
  match content.format with
  | .raw => hexBytes content.hash
  | .hashSeq => 115 :: hexBytes content.hash

def displayHashAndFormat (content : HashAndFormat) : String := ofAscii (displayBytes content)

inductive HashAndFormatError
  | hex (e : FromHexError)
  | invalid

/-- Decode a hash into a buffer of 32 bytes. -/
def hashFromHex (data : List UInt8) : Except HashAndFormatError Hash :=
  match decodeToSlice data 32 with
  | .ok bytes => if h : bytes.length = 32 then .ok ⟨bytes, h⟩ else .error .invalid
  | .error e => .error (.hex e)

/-- `FromStr` for `HashAndFormat`. -/
def hashAndFormatFromStr (s : String) : Except HashAndFormatError HashAndFormat :=
  match asBytes s with
  | [] => .error .invalid
  | c :: rest =>
    if rest.length + 1 = 64 then
      match hashFromHex (c :: rest) with
      | .ok hash => .ok ⟨hash, .raw⟩
      | .error e => .error e
    else if rest.length + 1 = 65 ∧ toAsciiLowercase c = 115 then
      match hashFromHex rest with
      | .ok hash => .ok ⟨hash, .hashSeq⟩
      | .error e => .error e
    else .error .invalid

/-! ### What is accepted -/

def IsHexLower (s : List UInt8) : Prop := s.length = 64 ∧ ∀ c ∈ s, c ∈ hexSymbols

def IsHex (s : List UInt8) : Prop := s.length = 64 ∧ ∀ c ∈ s, toAsciiLowercase c ∈ hexSymbols

/-- 52 symbols in either case, the last of which has four zero bits. -/
def IsBase32 (s : List UInt8) : Prop :=
  s.length = 52 ∧ (∀ c ∈ s, toAsciiUppercase c ∈ base32Symbols) ∧
    ∀ c d, s.getLast? = some c → BASE32_NOPAD.symbolValue (toAsciiUppercase c) = some d → d % 16 = 0

/-- The string is what encodes the hash, in lowercase hex or in base32. -/
def Encodes (s : List UInt8) (hash : Hash) : Prop :=
  s = hexBytes hash ∨ s.map toAsciiUppercase = BASE32_NOPAD.encode hash.bytes 52

/-- The parser of hashes does not panic, accepts what it should, and gives the hash that is encoded. -/
structure Exact (s : String) : Prop where
  total : hashFromStr s ≠ .panicked
  accepts : (∃ hash, hashFromStr s = .ok hash) ↔ IsHexLower (asBytes s) ∨ IsBase32 (asBytes s)
  encodes : ∀ hash, hashFromStr s = .ok hash → Encodes (asBytes s) hash

/-! ### Hashes are parsed exactly -/

private theorem decodeLen_hex : HEXLOWER.decodeLen 64 = some 32 := by decide

/-- 52 is the only length of base32 that gives 32 bytes. -/
theorem decodeLen_base32 {n : Nat} : BASE32_NOPAD.decodeLen n = some 32 ↔ n = 52 := by
  unfold Encoding.decodeLen Encoding.trail BASE32_NOPAD
  constructor
  · intro h
    split at h
    · simp only [Option.some.injEq] at h
      omega
    · cases h
  · rintro rfl
    decide

/-- The lowercase hex digits of a hash, byte by byte, are those of its number. -/
theorem encode_hex (hash : Hash) : HEXLOWER.encode hash.bytes 64 = hexBytes hash := by
  have hlt : ∀ d ∈ hash.bytes.map UInt8.toNat, d < 256 := by
    intro d hd
    obtain ⟨b, -, rfl⟩ := List.mem_map.mp hd
    exact b.toNat_lt
  have hdigits : digits (16 * 16) (value 256 (hash.bytes.map UInt8.toNat)) 32 = hash.bytes.map UInt8.toNat := by
    have h := digits_value hlt
    rwa [List.length_map, hash.length_bytes] at h
  have hencode : HEXLOWER.encode hash.bytes 64 =
      (digits 16 (value 256 (hash.bytes.map UInt8.toNat)) (2 * 32)).map HEXLOWER.symbol := by
    have htrail : HEXLOWER.trail 64 = 0 := rfl
    rw [Encoding.encode, htrail, pow_zero, Nat.mul_one]
    rfl
  rw [hencode, digits_mul_two, hdigits, hexBytes, List.flatMap_map, List.map_flatMap]
  rfl

private theorem length_hexBytes (hash : Hash) : (hexBytes hash).length = 64 := by
  rw [← encode_hex, Encoding.encode, List.length_map, length_digits]

/-- The parser, where the decoder does not panic. -/
private theorem hashFromStr_eq_ok (s : String) (hash : Hash) {enc : Encoding} {input : List UInt8}
    (hlen : enc.decodeLen input.length = some 32)
    (hres : (if (asBytes s).length = 64 then decodeMut HEXLOWER (asBytes s) 32
      else decodeMut BASE32_NOPAD ((asBytes s).map toAsciiUppercase) 32) = decodeMut enc input 32) :
    hashFromStr s ≠ .panicked ∧ (hashFromStr s = .ok hash ↔ input = enc.encode hash.bytes input.length) ∧
      ((∃ hash, hashFromStr s = .ok hash) ↔ (enc.decode input 32).isSome) := by
  have hmut : decodeMut enc input 32 =
      match enc.decode input 32 with | some bytes => .ok bytes | none => .error () := by
    rw [decodeMut, if_pos hlen]
  unfold hashFromStr
  simp only [hres, hmut]
  cases hdecode : enc.decode input 32 with
  | none =>
    refine ⟨by simp, ?_, by simp⟩
    simp only [reduceCtorEq, false_iff]
    intro hinput
    have hsome := (Encoding.decode_eq_some_iff hlen).mpr ⟨hash.length_bytes, hinput⟩
    rw [hdecode] at hsome
    cases hsome
  | some bytes =>
    have hbytes := (Encoding.decode_eq_some_iff hlen).mp hdecode
    simp only [hbytes.1, dif_pos]
    refine ⟨by simp, ?_, by simp⟩
    constructor
    · intro h
      cases h
      exact hbytes.2
    · intro hinput
      have hsome := (Encoding.decode_eq_some_iff hlen).mpr ⟨hash.length_bytes, hinput⟩
      rw [hdecode, Option.some.injEq] at hsome
      subst hsome
      rfl

private theorem exact_of_length_hex {s : String} (h : (asBytes s).length = 64) : Exact s := by
  have hlen : HEXLOWER.decodeLen (asBytes s).length = some 32 := by rw [h]; exact decodeLen_hex
  have hspec := fun hash => hashFromStr_eq_ok s hash hlen (if_pos h)
  refine ⟨(hspec .EMPTY).1, ?_, ?_⟩
  · rw [(hspec .EMPTY).2.2, Encoding.decode_isSome_iff hlen]
    have htrail : HEXLOWER.trail (asBytes s).length = 0 := by rw [h]; rfl
    constructor
    · rintro ⟨hall, -⟩
      exact Or.inl ⟨h, hall⟩
    · rintro (⟨-, hall⟩ | ⟨h52, -⟩)
      · exact ⟨hall, fun c d _ _ => by rw [htrail, pow_zero, Nat.mod_one]⟩
      · omega
  · intro hash hok
    left
    rw [((hspec hash).2.1).mp hok, h, encode_hex]

private theorem exact_of_length_base32 {s : String} (h : (asBytes s).length = 52) : Exact s := by
  have hlen : BASE32_NOPAD.decodeLen ((asBytes s).map toAsciiUppercase).length = some 32 := by
    rw [List.length_map]
    exact decodeLen_base32.mpr h
  have hspec := fun hash => hashFromStr_eq_ok s hash hlen (if_neg (by omega))
  refine ⟨(hspec .EMPTY).1, ?_, ?_⟩
  · rw [(hspec .EMPTY).2.2, Encoding.decode_isSome_iff hlen]
    have htrail : 2 ^ BASE32_NOPAD.trail ((asBytes s).map toAsciiUppercase).length = 16 := by
      rw [List.length_map, h]
      rfl
    rw [htrail]
    constructor
    · rintro ⟨hall, hlast⟩
      refine Or.inr ⟨h, fun c hc => hall _ (List.mem_map_of_mem hc), fun c d hc hd => hlast _ d ?_ hd⟩
      rw [List.getLast?_map, hc]
      rfl
    · rintro (⟨h64, -⟩ | ⟨-, hall, hlast⟩)
      · omega
      · refine ⟨?_, ?_⟩
        · intro c hc
          obtain ⟨c', hc', rfl⟩ := List.mem_map.mp hc
          exact hall c' hc'
        · intro c d hc hd
          rw [List.getLast?_map, Option.map_eq_some_iff] at hc
          obtain ⟨c, hc, rfl⟩ := hc
          exact hlast c d hc hd
  · intro hash hok
    right
    rw [((hspec hash).2.1).mp hok, List.length_map, h]

/-- The parser of hashes is exact for the strings of 64 and of 52 bytes only; it panics for all others. -/
theorem exact_iff {s : String} : Exact s ↔ (asBytes s).length = 64 ∨ (asBytes s).length = 52 := by
  constructor
  · intro hexact
    by_contra hne
    rw [not_or] at hne
    apply hexact.total
    have hlen : ¬ BASE32_NOPAD.decodeLen ((asBytes s).map toAsciiUppercase).length = some 32 := by
      rw [List.length_map, decodeLen_base32]
      exact hne.2
    unfold hashFromStr decodeMut
    simp only [if_neg hne.1, if_neg hlen]
  · rintro (h | h)
    · exact exact_of_length_hex h
    · exact exact_of_length_base32 h

/-! ### Hashes with a format are parsed exactly -/

private theorem hexVal_table : ∀ i : Fin 256, (hexVal (UInt8.ofNat i) 0).toOption =
    (HEXLOWER.symbolValue (toAsciiLowercase (UInt8.ofNat i))).map UInt8.ofNat := by
  decide +kernel

/-- A hex digit in either case has the value of the lowercase one. -/
theorem hexVal_eq_ok_iff {c v : UInt8} {index : Nat} :
    hexVal c index = .ok v ↔ v.toNat < 16 ∧ toAsciiLowercase c = HEXLOWER.symbol v.toNat := by
  have htable := hexVal_table ⟨c.toNat, c.toNat_lt⟩
  simp only [UInt8.ofNat_toNat] at htable
  have hindex : hexVal c index = .ok v ↔ (hexVal c 0).toOption = some v := by
    unfold hexVal
    split
    · simp [Except.toOption]
    · split
      · simp [Except.toOption]
      · split <;> simp [Except.toOption]
  rw [hindex, htable, Option.map_eq_some_iff]
  constructor
  · rintro ⟨d, hd, rfl⟩
    obtain ⟨hlt, hsymbol⟩ := Encoding.symbolValue_eq_some_iff.mp hd
    have hlt : d < 16 := hlt
    have hd : (UInt8.ofNat d).toNat = d := by
      rw [UInt8.toNat_ofNat']
      omega
    rw [hd]
    exact ⟨hlt, hsymbol⟩
  · rintro ⟨hlt, hsymbol⟩
    exact ⟨v.toNat, Encoding.symbolValue_eq_some_iff.mpr ⟨hlt, hsymbol⟩, UInt8.ofNat_toNat⟩

/-- What a pair of digits decodes to. -/
private theorem decodePairs_cons {high low : UInt8} {rest bytes : List UInt8} {index : Nat} :
    decodePairs index (high :: low :: rest) = .ok bytes ↔
      ∃ x y l, hexVal high index = .ok x ∧ hexVal low (index + 1) = .ok y ∧ decodePairs (index + 2) rest = .ok l ∧
        bytes = (x * 16 + y) :: l := by
  rw [decodePairs]
  cases hexVal high index with
  | error e => simp [bind, Except.bind]
  | ok x =>
    cases hexVal low (index + 1) with
    | error e => simp [bind, Except.bind]
    | ok y => cases decodePairs (index + 2) rest <;> simp [bind, Except.bind, eq_comm]

private theorem exists_hexVal {c : UInt8} (index : Nat) :
    (∃ v, hexVal c index = .ok v) ↔ toAsciiLowercase c ∈ hexSymbols := by
  have hmem : toAsciiLowercase c ∈ hexSymbols ↔ (HEXLOWER.symbolValue (toAsciiLowercase c)).isSome :=
    (@Encoding.symbolValue_isSome HEXLOWER _).symm
  rw [hmem, Option.isSome_iff_exists]
  simp only [hexVal_eq_ok_iff, Encoding.symbolValue_eq_some_iff]
  constructor
  · rintro ⟨v, hv, hc⟩
    exact ⟨v.toNat, hv, hc⟩
  · rintro ⟨d, hd, hc⟩
    have hd : d < 16 := hd
    refine ⟨UInt8.ofNat d, ?_⟩
    rw [UInt8.toNat_ofNat', Nat.mod_eq_of_lt (by omega)]
    exact ⟨hd, hc⟩

private theorem hexPair_add {h l : UInt8} (hh : h.toNat < 16) (hl : l.toNat < 16) :
    hexPair (h * 16 + l) = [HEXLOWER.symbol h.toNat, HEXLOWER.symbol l.toNat] := by
  have hval : (h * 16 + l).toNat = h.toNat * 16 + l.toNat := by
    rw [UInt8.toNat_add, UInt8.toNat_mul]
    have h16 : (16 : UInt8).toNat = 16 := rfl
    rw [h16]
    omega
  rw [hexPair, hval]
  congr 3 <;> omega

private theorem exists_pair {n : Nat} {data : List UInt8} (hn : data.length = 2 * (n + 1)) :
    ∃ high low rest, data = high :: low :: rest ∧ rest.length = 2 * n := by
  rcases data with _ | ⟨high, _ | ⟨low, rest⟩⟩
  · simp at hn
  · simp at hn
    omega
  · refine ⟨high, low, rest, rfl, ?_⟩
    simp only [List.length_cons] at hn
    omega

/-- Pairs of hex digits in either case decode to the bytes that the lowercase digits encode. -/
theorem decodePairs_eq_ok_iff {n : Nat} {data bytes : List UInt8} (index : Nat) (hn : data.length = 2 * n) :
    decodePairs index data = .ok bytes ↔ data.map toAsciiLowercase = bytes.flatMap hexPair := by
  induction n generalizing data bytes index with
  | zero =>
    rw [List.length_eq_zero_iff.mp hn]
    cases bytes <;> simp [decodePairs, hexPair]
  | succ n ih =>
    obtain ⟨high, low, rest, rfl, hrest⟩ := exists_pair hn
    simp only [List.map_cons]
    constructor
    · intro h
      obtain ⟨x, y, l, hx, hy, hl, rfl⟩ := decodePairs_cons.mp h
      obtain ⟨hxlt, hxc⟩ := hexVal_eq_ok_iff.mp hx
      obtain ⟨hylt, hyc⟩ := hexVal_eq_ok_iff.mp hy
      rw [List.flatMap_cons, hexPair_add hxlt hylt, (ih (index + 2) hrest).mp hl, hxc, hyc]
      rfl
    · intro h
      cases bytes with
      | nil => cases h
      | cons b bytes =>
        simp only [List.flatMap_cons, hexPair, List.cons_append, List.nil_append, List.cons.injEq] at h
        obtain ⟨hhigh, hlow, htail⟩ := h
        have hb := b.toNat_lt
        have hquot : (UInt8.ofNat (b.toNat / 16)).toNat = b.toNat / 16 := by
          rw [UInt8.toNat_ofNat']
          omega
        have hrem : (UInt8.ofNat (b.toNat % 16)).toNat = b.toNat % 16 := by
          rw [UInt8.toNat_ofNat']
          omega
        have hx : hexVal high index = .ok (UInt8.ofNat (b.toNat / 16)) := by
          rw [hexVal_eq_ok_iff, hquot]
          exact ⟨by omega, hhigh⟩
        have hy : hexVal low (index + 1) = .ok (UInt8.ofNat (b.toNat % 16)) := by
          rw [hexVal_eq_ok_iff, hrem]
          exact ⟨by omega, hlow⟩
        have hsum : UInt8.ofNat (b.toNat / 16) * 16 + UInt8.ofNat (b.toNat % 16) = b := by
          apply UInt8.toNat_inj.mp
          rw [UInt8.toNat_add, UInt8.toNat_mul, hquot, hrem]
          have h16 : (16 : UInt8).toNat = 16 := rfl
          rw [h16]
          omega
        rw [decodePairs_cons]
        exact ⟨_, _, bytes, hx, hy, (ih (index + 2) hrest).mpr htail, by rw [hsum]⟩

private theorem exists_decodePairs {n : Nat} {data : List UInt8} (index : Nat) (hn : data.length = 2 * n) :
    (∃ bytes, decodePairs index data = .ok bytes) ↔ ∀ c ∈ data, toAsciiLowercase c ∈ hexSymbols := by
  induction n generalizing data index with
  | zero =>
    rw [List.length_eq_zero_iff.mp hn]
    simp [decodePairs]
  | succ n ih =>
    obtain ⟨high, low, rest, rfl, hrest⟩ := exists_pair hn
    simp only [List.forall_mem_cons]
    rw [← ih (index + 2) hrest, ← exists_hexVal index, ← exists_hexVal (index + 1)]
    constructor
    · rintro ⟨bytes, h⟩
      obtain ⟨x, y, l, hx, hy, hl, -⟩ := decodePairs_cons.mp h
      exact ⟨⟨x, hx⟩, ⟨y, hy⟩, ⟨l, hl⟩⟩
    · rintro ⟨⟨x, hx⟩, ⟨y, hy⟩, ⟨l, hl⟩⟩
      exact ⟨(x * 16 + y) :: l, decodePairs_cons.mpr ⟨x, y, l, hx, hy, hl, rfl⟩⟩

private theorem length_flatMap_hexPair (bytes : List UInt8) : (bytes.flatMap hexPair).length = 2 * bytes.length := by
  induction bytes with
  | nil => rfl
  | cons b bytes ih =>
    rw [List.flatMap_cons, List.length_append, ih, List.length_cons]
    simp only [hexPair, List.length_cons, List.length_nil]
    omega

private theorem hashFromHex_eq_ok_iff {data : List UInt8} {hash : Hash} :
    hashFromHex data = .ok hash ↔ data.map toAsciiLowercase = hexBytes hash := by
  unfold hashFromHex decodeToSlice
  by_cases hlen : data.length = 64
  · rw [if_neg (by omega), if_neg (by omega)]
    cases hpairs : decodePairs 0 data with
    | error e =>
      simp only [reduceCtorEq, false_iff]
      intro hdata
      rw [(decodePairs_eq_ok_iff (n := 32) 0 hlen).mpr hdata] at hpairs
      cases hpairs
    | ok bytes =>
      have hdata := (decodePairs_eq_ok_iff (n := 32) 0 hlen).mp hpairs
      have hbytes : bytes.length = 32 := by
        have h := congrArg List.length hdata
        rw [List.length_map, length_flatMap_hexPair] at h
        omega
      simp only [hbytes, dif_pos]
      constructor
      · intro h
        cases h
        exact hdata
      · intro h
        have hpairs' := (decodePairs_eq_ok_iff (n := 32) 0 hlen).mpr h
        rw [hpairs, Except.ok.injEq] at hpairs'
        subst hpairs'
        rfl
  · refine iff_of_false ?_ ?_
    · split
      · next h =>
        split at h
        · cases h
        · split at h
          · cases h
          · omega
      · simp
    · intro h
      have hlength := congrArg List.length h
      rw [List.length_map, length_hexBytes] at hlength
      exact hlen hlength

private theorem exists_hashFromHex {data : List UInt8} : (∃ hash, hashFromHex data = .ok hash) ↔ IsHex data := by
  simp only [hashFromHex_eq_ok_iff]
  constructor
  · rintro ⟨hash, h⟩
    have hlength := congrArg List.length h
    rw [List.length_map, length_hexBytes] at hlength
    exact ⟨hlength, (exists_decodePairs (n := 32) 0 hlength).mp
      ⟨hash.bytes, (decodePairs_eq_ok_iff (n := 32) 0 hlength).mpr h⟩⟩
  · rintro ⟨hlength, hall⟩
    obtain ⟨bytes, hbytes⟩ := (exists_decodePairs (n := 32) 0 hlength).mpr hall
    have hdata := (decodePairs_eq_ok_iff (n := 32) 0 hlength).mp hbytes
    have h := congrArg List.length hdata
    rw [List.length_map, length_flatMap_hexPair] at h
    exact ⟨⟨bytes, by omega⟩, hdata⟩

/-- A hash with a format is parsed from the strings that differ only in case from what it displays. -/
theorem hashAndFormatFromStr_eq_ok_iff {s : String} {content : HashAndFormat} :
    hashAndFormatFromStr s = .ok content ↔ (asBytes s).map toAsciiLowercase = displayBytes content := by
  obtain ⟨hash, format⟩ := content
  unfold hashAndFormatFromStr displayBytes
  rcases hs : asBytes s with _ | ⟨c, rest⟩
  · refine iff_of_false (by simp) ?_
    intro h
    have hlength := congrArg List.length h
    cases format <;> simp [length_hexBytes] at hlength
  · simp only
    by_cases h64 : rest.length + 1 = 64
    · rw [if_pos h64]
      cases format with
      | raw =>
        rw [← hashFromHex_eq_ok_iff]
        cases hashFromHex (c :: rest) <;> simp
      | hashSeq =>
        refine iff_of_false (by cases hashFromHex (c :: rest) <;> simp) ?_
        intro h
        have hlength := congrArg List.length h
        simp [length_hexBytes] at hlength
        omega
    · rw [if_neg h64]
      by_cases h65 : rest.length + 1 = 65 ∧ toAsciiLowercase c = 115
      · rw [if_pos h65]
        cases format with
        | raw =>
          refine iff_of_false (by cases hashFromHex rest <;> simp) ?_
          intro h
          have hlength := congrArg List.length h
          simp only [List.length_map, List.length_cons, length_hexBytes] at hlength
          omega
        | hashSeq =>
          simp only [List.map_cons, h65.2, List.cons.injEq, true_and]
          rw [← hashFromHex_eq_ok_iff]
          cases hashFromHex rest <;> simp
      · rw [if_neg h65]
        refine iff_of_false (by simp) ?_
        intro h
        have hlength := congrArg List.length h
        cases format with
        | raw =>
          simp only [List.length_map, List.length_cons, length_hexBytes] at hlength
          exact h64 hlength
        | hashSeq =>
          simp only [List.length_map, List.length_cons, length_hexBytes] at hlength
          simp only [List.map_cons, List.cons.injEq] at h
          exact h65 ⟨hlength, h.1⟩

/-! ### What is displayed is parsed -/

private theorem utf8EncodeChar_table : ∀ i : Fin 128, String.utf8EncodeChar (Char.ofNat i) = [UInt8.ofNat i] := by
  decide +kernel

private theorem asBytes_ofAscii {bytes : List UInt8} (h : ∀ b ∈ bytes, b.toNat < 128) :
    asBytes (ofAscii bytes) = bytes := by
  have hchar : ∀ b : UInt8, b.toNat < 128 → String.utf8EncodeChar (Char.ofNat b.toNat) = [b] := by
    intro b hb
    have htable := utf8EncodeChar_table ⟨b.toNat, hb⟩
    simpa only [UInt8.ofNat_toNat] using htable
  unfold asBytes ofAscii
  rw [String.toByteArray_ofList, List.utf8Encode, List.toList_data_toByteArray]
  induction bytes with
  | nil => rfl
  | cons b bytes ih =>
    rw [List.map_cons, List.flatMap_cons, hchar b (h b (by simp)), ih fun x hx => h x (by simp [hx])]
    rfl

private theorem symbol_table : ∀ d : Fin 16, (HEXLOWER.symbol d).toNat < 128 ∧
    toAsciiLowercase (HEXLOWER.symbol d) = HEXLOWER.symbol d := by
  decide

/-- What is displayed is ASCII, and lowercase. -/
theorem mem_hexBytes {hash : Hash} {c : UInt8} (h : c ∈ hexBytes hash) : c.toNat < 128 ∧ toAsciiLowercase c = c := by
  obtain ⟨b, -, hb⟩ := List.mem_flatMap.mp h
  have hlt := b.toNat_lt
  simp only [hexPair, List.mem_cons, List.not_mem_nil, or_false] at hb
  rcases hb with rfl | rfl
  · exact symbol_table ⟨b.toNat / 16, by omega⟩
  · exact symbol_table ⟨b.toNat % 16, by omega⟩

private theorem asBytes_displayHash (hash : Hash) : asBytes (displayHash hash) = hexBytes hash :=
  asBytes_ofAscii fun _ hb => (mem_hexBytes hb).1

private theorem mem_displayBytes {content : HashAndFormat} {c : UInt8} (h : c ∈ displayBytes content) :
    c.toNat < 128 ∧ toAsciiLowercase c = c := by
  obtain ⟨hash, format⟩ := content
  cases format with
  | raw => exact mem_hexBytes h
  | hashSeq =>
    rcases List.mem_cons.mp h with rfl | h
    · decide
    · exact mem_hexBytes h

private theorem hashFromStr_displayHash (hash : Hash) : hashFromStr (displayHash hash) = .ok hash := by
  have hbytes := asBytes_displayHash hash
  have h64 : (asBytes (displayHash hash)).length = 64 := by rw [hbytes, length_hexBytes]
  have hlen : HEXLOWER.decodeLen (asBytes (displayHash hash)).length = some 32 := by
    rw [h64]
    exact decodeLen_hex
  rw [(hashFromStr_eq_ok _ _ hlen (if_pos h64)).2.1, h64, encode_hex, hbytes]

private theorem hashAndFormatFromStr_display (content : HashAndFormat) :
    hashAndFormatFromStr (displayHashAndFormat content) = .ok content := by
  rw [hashAndFormatFromStr_eq_ok_iff, displayHashAndFormat, asBytes_ofAscii fun _ hb => (mem_displayBytes hb).1]
  conv_rhs => rw [← List.map_id (displayBytes content)]
  apply List.map_congr_left
  intro c hc
  exact (mem_displayBytes hc).2

/-! ### All strings -/

/-- The parser of hashes with a format accepts 64 hex digits, and `s` or `S` followed by 64 hex digits; it gives the
value that displays the string in lowercase. -/
structure ExactWithFormat (s : String) : Prop where
  raw : (∃ hash, hashAndFormatFromStr s = .ok ⟨hash, .raw⟩) ↔ IsHex (asBytes s)
  hashSeq : (∃ hash, hashAndFormatFromStr s = .ok ⟨hash, .hashSeq⟩) ↔
    ∃ c rest, asBytes s = c :: rest ∧ (c = 115 ∨ c = 83) ∧ IsHex rest
  displays : ∀ content, hashAndFormatFromStr s = .ok content → (asBytes s).map toAsciiLowercase = displayBytes content

private theorem lowercase_table : ∀ i : Fin 256, toAsciiLowercase (UInt8.ofNat i) = 115 ↔
    UInt8.ofNat i = 115 ∨ UInt8.ofNat i = 83 := by
  decide +kernel

private theorem exactWithFormat (s : String) : ExactWithFormat s := by
  refine ⟨?_, ?_, fun content h => hashAndFormatFromStr_eq_ok_iff.mp h⟩
  · simp only [hashAndFormatFromStr_eq_ok_iff, displayBytes, ← hashFromHex_eq_ok_iff, exists_hashFromHex]
  · simp only [hashAndFormatFromStr_eq_ok_iff, displayBytes]
    constructor
    · rintro ⟨hash, h⟩
      cases hs : asBytes s with
      | nil =>
        rw [hs] at h
        cases h
      | cons c rest =>
        rw [hs, List.map_cons, List.cons.injEq] at h
        have htable := lowercase_table ⟨c.toNat, c.toNat_lt⟩
        simp only [UInt8.ofNat_toNat] at htable
        exact ⟨c, rest, rfl, htable.mp h.1, exists_hashFromHex.mp ⟨hash, hashFromHex_eq_ok_iff.mpr h.2⟩⟩
    · rintro ⟨c, rest, hs, hc, hrest⟩
      obtain ⟨hash, h⟩ := exists_hashFromHex.mpr hrest
      refine ⟨hash, ?_⟩
      have hlower : toAsciiLowercase c = 115 := by rcases hc with rfl | rfl <;> rfl
      rw [hs, List.map_cons, hlower, hashFromHex_eq_ok_iff.mp h]

/-- Hashes are parsed exactly for strings of 64 and of 52 bytes and for no others; hashes with a format are parsed
exactly; and what is displayed is parsed. -/
theorem parse_exact_iff (s : String) :
    (Exact s ↔ (asBytes s).length = 64 ∨ (asBytes s).length = 52) ∧ ExactWithFormat s ∧
    (∀ hash, hashFromStr (displayHash hash) = .ok hash) ∧
    ∀ content, hashAndFormatFromStr (displayHashAndFormat content) = .ok content :=
  ⟨exact_iff, exactWithFormat s, hashFromStr_displayHash, hashAndFormatFromStr_display⟩

/-- The empty string makes the parser of hashes panic. -/
theorem not_exact_empty : ¬ ∀ s : String, Exact s ∧ ExactWithFormat s := by
  intro hall
  have hempty := exact_iff.mp (hall "").1
  revert hempty
  decide

end HashParse

end IrohBlobs
