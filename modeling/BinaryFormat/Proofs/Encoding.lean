import BinaryFormat.Text.Encoding
import Mathlib

/-!
# Text read back

In each of the encodings, what a text is encoded to is decoded to that text.
The sequence of one character is read first, whatever follows it; whole texts
are lists of such sequences.
-/

namespace BinaryFormat

namespace Encoding

theorem toNat_lt (c : Char) : c.toNat < 0xd800 ∨ (0xdfff < c.toNat ∧ c.toNat < 0x110000) :=
  c.valid

theorem scalar?_toNat (c : Char) : scalar? c.toNat = some c := by
  rw [scalar?, if_pos (toNat_lt c), Char.ofNat_toNat]

theorem toNat_ofNat_of_lt {n : Nat} (h : n < 256) : (UInt8.ofNat n).toNat = n := by
  rw [UInt8.toNat_ofNat']
  omega

/-! ## UTF-8 -/

section Utf8

variable {a b d e : UInt8} {c : Char} {rest : List UInt8}

private theorem decodeUtf8_single (index : Nat) (h : a.toNat < 0x80) :
    decodeUtf8 index (a :: rest) =
      cons (Char.ofNat a.toNat) (decodeUtf8 (index + 1) rest) := by
  rw [decodeUtf8.eq_def]
  simp only [if_pos h]

private theorem decodeUtf8_pair (index : Nat) (h : ¬ a.toNat < 0x80) (found : pair? a b = some c) :
    decodeUtf8 index (a :: b :: rest) = cons c (decodeUtf8 (index + 2) rest) := by
  rw [decodeUtf8.eq_def]
  simp only [if_neg h, found]

private theorem decodeUtf8_triple (index : Nat) (h : ¬ a.toNat < 0x80) (shorter : pair? a b = none)
    (found : triple? a b d = some c) :
    decodeUtf8 index (a :: b :: d :: rest) = cons c (decodeUtf8 (index + 3) rest) := by
  rw [decodeUtf8.eq_def]
  simp only [if_neg h, shorter, found]

private theorem decodeUtf8_quadruple (index : Nat) (h : ¬ a.toNat < 0x80)
    (shorter : pair? a b = none) (short : triple? a b d = none)
    (found : quadruple? a b d e = some c) :
    decodeUtf8 index (a :: b :: d :: e :: rest) = cons c (decodeUtf8 (index + 4) rest) := by
  rw [decodeUtf8.eq_def]
  simp only [if_neg h, shorter, short, found]

private theorem pair?_eq_none (h : a.toNat / 32 ≠ 6) : pair? a b = none := by
  rw [pair?, if_neg (by simp [h])]

private theorem triple?_eq_none (h : a.toNat / 16 ≠ 14) : triple? a b d = none := by
  rw [triple?, if_neg (by simp [h])]

end Utf8

private theorem toNat_tail (k : Nat) : (UInt8.ofNat (0x80 + k % 64)).toNat = 0x80 + k % 64 :=
  toNat_ofNat_of_lt (by omega)

theorem isTail_tail (k : Nat) : isTail (UInt8.ofNat (0x80 + k % 64)) = true := by
  rw [isTail, toNat_tail, beq_iff_eq]
  omega

theorem decodeUtf8_utf8Char (c : Char) (index : Nat) (rest : List UInt8) :
    decodeUtf8 index (utf8Char c ++ rest) =
      cons c (decodeUtf8 (index + (utf8Char c).length) rest) := by
  have valid := toNat_lt c
  have point := scalar?_toNat c
  have back := Char.ofNat_toNat c
  unfold utf8Char
  generalize c.toNat = n at valid point back
  -- By the number of bytes: each has its share of the bits, and no shorter reading accepts them.
  by_cases one : n < 0x80
  · have byte : (UInt8.ofNat n).toNat = n := toNat_ofNat_of_lt (by omega)
    simp only [if_pos one, List.cons_append, List.nil_append]
    rw [decodeUtf8_single index (by omega), byte, back]
    rfl
  by_cases two : n < 0x800
  · have head : (UInt8.ofNat (0xc0 + n / 64)).toNat = 0xc0 + n / 64 :=
      toNat_ofNat_of_lt (by omega)
    have whole : (0xc0 + n / 64 - 0xc0) * 64 + (0x80 + n % 64 - 0x80) = n := by omega
    have found : pair? (UInt8.ofNat (0xc0 + n / 64)) (UInt8.ofNat (0x80 + n % 64)) =
        some c := by
      simp only [pair?, head, toNat_tail, isTail_tail, whole]
      rw [if_pos (by simp; omega), point]
    simp only [if_neg one, if_pos two, List.cons_append, List.nil_append]
    rw [decodeUtf8_pair index (by omega) found]
    rfl
  by_cases three : n < 0x10000
  · have head : (UInt8.ofNat (0xe0 + n / 4096)).toNat = 0xe0 + n / 4096 :=
      toNat_ofNat_of_lt (by omega)
    have whole : (0xe0 + n / 4096 - 0xe0) * 4096 + (0x80 + n / 64 % 64 - 0x80) * 64 +
        (0x80 + n % 64 - 0x80) = n := by omega
    have found : triple? (UInt8.ofNat (0xe0 + n / 4096)) (UInt8.ofNat (0x80 + n / 64 % 64))
        (UInt8.ofNat (0x80 + n % 64)) = some c := by
      simp only [triple?, head, toNat_tail, isTail_tail, whole]
      rw [if_pos (by simp; omega), point]
    simp only [if_neg one, if_neg two, if_pos three, List.cons_append, List.nil_append]
    rw [decodeUtf8_triple index (by omega) (pair?_eq_none (by omega)) found]
    rfl
  · have head : (UInt8.ofNat (0xf0 + n / 262144)).toNat = 0xf0 + n / 262144 :=
      toNat_ofNat_of_lt (by omega)
    have whole : (0xf0 + n / 262144 - 0xf0) * 262144 + (0x80 + n / 4096 % 64 - 0x80) * 4096 +
        (0x80 + n / 64 % 64 - 0x80) * 64 + (0x80 + n % 64 - 0x80) = n := by omega
    have found : quadruple? (UInt8.ofNat (0xf0 + n / 262144))
        (UInt8.ofNat (0x80 + n / 4096 % 64)) (UInt8.ofNat (0x80 + n / 64 % 64))
        (UInt8.ofNat (0x80 + n % 64)) = some c := by
      simp only [quadruple?, head, toNat_tail, isTail_tail, whole]
      rw [if_pos (by simp; omega), point]
    simp only [if_neg one, if_neg two, if_neg three, List.cons_append, List.nil_append]
    rw [decodeUtf8_quadruple index (by omega) (pair?_eq_none (by omega))
      (triple?_eq_none (by omega)) found]
    rfl

private theorem decodeUtf8_flatMap (chars : List Char) (index : Nat) :
    decodeUtf8 index (chars.flatMap utf8Char) = .ok chars := by
  induction chars generalizing index with
  | nil => rfl
  | cons c rest ih =>
      rw [List.flatMap_cons, decodeUtf8_utf8Char, ih]
      rfl

/-! ## UTF-16 -/

theorem length_unitBytes (little : Bool) (width n : Nat) :
    (unitBytes little width n).length = width := by
  unfold unitBytes
  split <;> simp [Bytes.length_ofNat]

theorem units16_unitBytes (little : Bool) {n : Nat} (h : n < 0x10000) (rest : List UInt8) :
    units16 little (unitBytes little 2 n ++ rest) = n :: units16 little rest := by
  have high : (UInt8.ofNat (n / 256 % 256)).toNat = n / 256 := by
    rw [toNat_ofNat_of_lt (by omega)]
    omega
  have low : (UInt8.ofNat (n % 256)).toNat = n % 256 := toNat_ofNat_of_lt (by omega)
  have whole : 256 * (n / 256) + n % 256 = n := by omega
  cases little <;> simp [unitBytes, Bytes.ofNat, units16, Bytes.toNat, high, low, whole]

private theorem units16_flatMap (little : Bool) {units : List Nat} (h : ∀ n ∈ units, n < 0x10000) :
    units16 little (units.flatMap (unitBytes little 2)) = units := by
  induction units with
  | nil => rfl
  | cons n rest ih =>
      have tail : ∀ k ∈ rest, k < 0x10000 := fun k hk => h k (List.mem_cons_of_mem n hk)
      rw [List.flatMap_cons, units16_unitBytes little (h n List.mem_cons_self), ih tail]

theorem utf16Char_lt (c : Char) : ∀ n ∈ utf16Char c, n < 0x10000 := by
  have valid := toNat_lt c
  intro n hn
  unfold utf16Char at hn
  by_cases one : c.toNat < 0x10000
  · simp only [if_pos one, List.mem_singleton] at hn
    omega
  · simp only [if_neg one, List.mem_cons, List.not_mem_nil, or_false] at hn
    omega

theorem decodeUtf16_utf16Char (c : Char) (rest : List Nat) :
    decodeUtf16 (utf16Char c ++ rest) = cons c (decodeUtf16 rest) := by
  have valid := toNat_lt c
  have back := Char.ofNat_toNat c
  unfold utf16Char
  generalize c.toNat = n at valid back
  by_cases one : n < 0x10000
  · have high : isHighSurrogate n = false := by
      rw [isHighSurrogate, beq_eq_false_iff_ne]
      omega
    have low : isLowSurrogate n = false := by
      rw [isLowSurrogate, beq_eq_false_iff_ne]
      omega
    simp only [if_pos one, List.cons_append, List.nil_append]
    rw [decodeUtf16.eq_def]
    simp only [high, low, Bool.false_eq_true, if_false, back]
  · have high : isHighSurrogate (0xd800 + (n - 0x10000) / 1024) = true := by
      rw [isHighSurrogate, beq_iff_eq]
      omega
    have low : isLowSurrogate (0xdc00 + (n - 0x10000) % 1024) = true := by
      rw [isLowSurrogate, beq_iff_eq]
      omega
    have whole : 0x10000 + (0xd800 + (n - 0x10000) / 1024 - 0xd800) * 1024 +
        (0xdc00 + (n - 0x10000) % 1024 - 0xdc00) = n := by omega
    simp only [if_neg one, List.cons_append, List.nil_append]
    rw [decodeUtf16.eq_def]
    simp only [high, low, if_true, whole, back]

private theorem decodeUtf16_flatMap (chars : List Char) :
    decodeUtf16 (chars.flatMap utf16Char) = .ok chars := by
  induction chars with
  | nil => rfl
  | cons c rest ih =>
      rw [List.flatMap_cons, decodeUtf16_utf16Char, ih]
      rfl

/-! ## UTF-32 -/

theorem units32_unitBytes (little : Bool) {n : Nat} (h : n < 0x100000000)
    (rest : List UInt8) :
    units32 little (unitBytes little 4 n ++ rest) = n :: units32 little rest := by
  have digit (k : Nat) : (UInt8.ofNat (k % 256)).toNat = k % 256 :=
    toNat_ofNat_of_lt (by omega)
  have whole : 256 * (256 * (256 * (n / 256 / 256 / 256 % 256) + n / 256 / 256 % 256) +
      n / 256 % 256) + n % 256 = n := by omega
  cases little <;>
    simp only [unitBytes, Bytes.ofNat, List.nil_append, List.cons_append, List.reverse_cons,
      List.reverse_nil, if_true, if_false, Bool.false_eq_true, units32, Bytes.toNat,
      List.foldl_cons, List.foldl_nil, digit, Nat.mul_zero, Nat.zero_add, whole]

private theorem units32_flatMap (little : Bool) (chars : List Char) :
    units32 little (chars.flatMap fun c => unitBytes little 4 c.toNat) =
      chars.map Char.toNat := by
  induction chars with
  | nil => rfl
  | cons c rest ih =>
      have valid := toNat_lt c
      rw [List.flatMap_cons, units32_unitBytes little (by omega), ih, List.map_cons]

private theorem decodeUtf32_map (chars : List Char) :
    decodeUtf32 (chars.map Char.toNat) = .ok chars := by
  induction chars with
  | nil => rfl
  | cons c rest ih =>
      rw [List.map_cons, decodeUtf32]
      simp only [scalar?_toNat, ih]
      rfl

/-! ## One byte a character -/

theorem encodeNarrow_cons {encoding : Encoding} {limit : Nat} {c : Char} {rest : List Char}
    {data : List UInt8} (h : encodeNarrow encoding limit (c :: rest) = .ok data) :
    c.toNat < limit ∧
      ∃ more, encodeNarrow encoding limit rest = .ok more ∧
        data = UInt8.ofNat c.toNat :: more := by
  rw [encodeNarrow] at h
  by_cases range : c.toNat < limit
  · rw [if_pos range] at h
    cases tail : encodeNarrow encoding limit rest with
    | error cause =>
        rw [tail] at h
        cases h
    | ok more =>
        rw [tail] at h
        cases h
        exact ⟨range, more, rfl, rfl⟩
  · rw [if_neg range] at h
    cases h

private theorem decodeAscii_encodeNarrow {encoding : Encoding} {chars : List Char}
    {data : List UInt8} (h : encodeNarrow encoding 0x80 chars = .ok data) (index : Nat) :
    decodeAscii index data = .ok chars := by
  induction chars generalizing data index with
  | nil =>
      cases h
      rfl
  | cons c rest ih =>
      obtain ⟨range, more, tail, rfl⟩ := encodeNarrow_cons h
      have byte : (UInt8.ofNat c.toNat).toNat = c.toNat := toNat_ofNat_of_lt (by omega)
      rw [decodeAscii, byte, if_pos range, ih tail, Char.ofNat_toNat]
      rfl

theorem map_encodeNarrow {encoding : Encoding} {chars : List Char} {data : List UInt8}
    (h : encodeNarrow encoding 0x100 chars = .ok data) :
    (data.map fun b => Char.ofNat b.toNat) = chars := by
  induction chars generalizing data with
  | nil =>
      cases h
      rfl
  | cons c rest ih =>
      obtain ⟨range, more, tail, rfl⟩ := encodeNarrow_cons h
      have byte : (UInt8.ofNat c.toNat).toNat = c.toNat := toNat_ofNat_of_lt range
      rw [List.map_cons, byte, ih tail, Char.ofNat_toNat]

/-! ## All encodings -/

private theorem length_flatMap_mod {α : Type} {f : α → List UInt8} {unit : Nat}
    (h : ∀ a, (f a).length = unit) (items : List α) : (items.flatMap f).length % unit = 0 := by
  induction items with
  | nil => simp
  | cons a rest ih => rw [List.flatMap_cons, List.length_append, h a, Nat.add_mod_left, ih]

theorem length_encode_mod {encoding : Encoding} {text : String} {data : List UInt8}
    (h : encoding.encode text = .ok data) : data.length % encoding.unit = 0 := by
  cases encoding with
  | utf8 | ascii | latin1 => exact Nat.mod_one data.length
  | utf16le =>
      cases h
      exact length_flatMap_mod (length_unitBytes true 2) _
  | utf16be =>
      cases h
      exact length_flatMap_mod (length_unitBytes false 2) _
  | utf32le =>
      have each (c : Char) : (unitBytes true 4 c.toNat).length = 4 :=
        length_unitBytes true 4 c.toNat
      cases h
      exact length_flatMap_mod each text.toList
  | utf32be =>
      have each (c : Char) : (unitBytes false 4 c.toNat).length = 4 :=
        length_unitBytes false 4 c.toNat
      cases h
      exact length_flatMap_mod each text.toList

theorem units16_lt (chars : List Char) : ∀ n ∈ chars.flatMap utf16Char, n < 0x10000 := by
  intro n hn
  obtain ⟨c, -, hc⟩ := List.mem_flatMap.mp hn
  exact utf16Char_lt c n hc

theorem decode_encode {encoding : Encoding} {text : String} {data : List UInt8}
    (h : encoding.encode text = .ok data) : encoding.decode data = .ok text := by
  have whole : encoding.decodeChars data = .ok text.toList := by
    have units := length_encode_mod h
    rw [decodeChars.eq_def, if_neg (by simp [units])]
    cases encoding with
    | utf8 =>
        cases h
        exact decodeUtf8_flatMap text.toList 0
    | ascii => exact decodeAscii_encodeNarrow h 0
    | latin1 => exact congrArg _ (map_encodeNarrow h)
    | utf16le =>
        cases h
        simp only [units16_flatMap true (units16_lt text.toList), decodeUtf16_flatMap]
    | utf16be =>
        cases h
        simp only [units16_flatMap false (units16_lt text.toList), decodeUtf16_flatMap]
    | utf32le =>
        cases h
        simp only [units32_flatMap, decodeUtf32_map]
    | utf32be =>
        cases h
        simp only [units32_flatMap, decodeUtf32_map]
  rw [decode, whole]
  simp [Except.map]

end Encoding

end BinaryFormat
