import BinaryFormat.Proofs.Encoding
import BinaryFormat.Proofs.Number

/-!
# Byte strings that are text

Decoding is the inverse of encoding: it accepts what some text is encoded to and
nothing else.  A decoder reads the units of one character after another and
refuses where none begins; what it has read by then is the longest part from the
front that it accepts.
-/

namespace BinaryFormat

/-- The index of the byte at which bytes were refused, where it is told. -/
def EncodingFault.index? : EncodingFault → Option Nat
  | invalidSequence index | notAscii _ index => some index
  | _ => none

namespace Encoding

/-! ## One character in front -/

section Cons

variable {c : Char} {rest : Except EncodingFault (List Char)} {chars : List Char}
  {fault : EncodingFault}

private theorem cons_eq_ok_iff :
    cons c rest = .ok chars ↔ ∃ behind, rest = .ok behind ∧ chars = c :: behind := by
  cases rest <;> simp [cons, Except.map, eq_comm]

private theorem cons_eq_error_iff : cons c rest = .error fault ↔ rest = .error fault := by
  cases rest <;> simp [cons, Except.map]

end Cons

private theorem toNat_ofNat_scalar {n : Nat} (valid : n < 0xd800 ∨ (0xdfff < n ∧ n < 0x110000)) :
    (Char.ofNat n).toNat = n := by
  rw [Char.ofNat, dif_pos valid]
  exact UInt32.toNat_ofNatLT

private theorem toNat_of_scalar? {n : Nat} {c : Char} (h : scalar? n = some c) : c.toNat = n := by
  unfold scalar? at h
  split at h
  · next valid =>
      cases h
      exact toNat_ofNat_scalar valid
  · cases h

/-! ## Decoders that go by characters -/

/-- A decoder that reads the units of one character after another.  It is told how many units were
read before, and refuses what begins with no character. -/
structure Reader (Unit : Type) where
  read : Nat → List Unit → Except EncodingFault (List Char)
  /-- The units of a character. -/
  spelling : Char → List Unit
  /-- The characters that have units. -/
  Admits : Char → Prop
  /-- The units that are read. -/
  Proper : Unit → Prop
  /-- Why units are refused that were reached at an index. -/
  refusal : Nat → List Unit → EncodingFault
  read_nil : ∀ index, read index [] = .ok []
  spelling_ne_nil : ∀ {c}, Admits c → spelling c ≠ []
  read_spelling : ∀ {c}, Admits c → ∀ index rest,
    read index (spelling c ++ rest) = cons c (read (index + (spelling c).length) rest)
  begins : ∀ index {units}, units ≠ [] → (∀ u ∈ units, Proper u) →
    (∃ c rest, Admits c ∧ units = spelling c ++ rest) ∨
      read index units = .error (refusal index units)

namespace Reader

variable {Unit : Type} (r : Reader Unit)

/-- The units of a text. -/
def spell (chars : List Char) : List Unit := chars.flatMap r.spelling

@[simp] theorem spell_nil : r.spell [] = [] := rfl

@[simp] theorem spell_cons (c : Char) (chars : List Char) :
    r.spell (c :: chars) = r.spelling c ++ r.spell chars := rfl

theorem read_append {chars : List Char} (admitted : ∀ c ∈ chars, r.Admits c) (index : Nat)
    (rest : List Unit) : r.read index (r.spell chars ++ rest) =
      (r.read (index + (r.spell chars).length) rest).map (chars ++ ·) := by
  induction chars generalizing index with
  | nil =>
      simp only [spell_nil, List.nil_append, List.length_nil, Nat.add_zero]
      cases r.read index rest <;> rfl
  | cons c chars ih =>
      obtain ⟨here, behind⟩ := List.forall_mem_cons.mp admitted
      rw [spell_cons, List.append_assoc, r.read_spelling here, ih behind, List.length_append,
        Nat.add_assoc]
      cases r.read (index + ((r.spelling c).length + (r.spell chars).length)) rest <;> rfl

/-- Units are those of a text, or of a text and then some that begin with no character. -/
private theorem read_cases (index : Nat) {units : List Unit} (proper : ∀ u ∈ units, r.Proper u) :
    ∃ chars rest, (∀ c ∈ chars, r.Admits c) ∧ units = r.spell chars ++ rest ∧
      (rest = [] ∧ r.read index units = .ok chars ∨
        rest ≠ [] ∧ r.read index units =
          .error (r.refusal (index + (r.spell chars).length) rest)) := by
  induction size : units.length using Nat.strong_induction_on generalizing index units with
  | h n ih =>
      by_cases none : units = []
      · subst none
        exact ⟨[], [], by simp, rfl, .inl ⟨rfl, r.read_nil index⟩⟩
      rcases r.begins index none proper with ⟨c, behind, admitted, rfl⟩ | refused
      · have shorter : behind.length < n := by
          have := List.length_pos_iff.mpr (r.spelling_ne_nil admitted)
          rw [List.length_append] at size
          omega
        obtain ⟨chars, rest, admitted', rfl, outcome⟩ :=
          ih _ shorter (index + (r.spelling c).length)
            (fun u mem => proper u (List.mem_append_right _ mem)) rfl
        refine ⟨c :: chars, rest, List.forall_mem_cons.mpr ⟨admitted, admitted'⟩,
          (List.append_assoc _ _ _).symm, ?_⟩
        rw [r.read_spelling admitted, cons_eq_error_iff, cons_eq_ok_iff, spell_cons,
          List.length_append, ← Nat.add_assoc]
        exact outcome.imp (fun ⟨last, read⟩ => ⟨last, chars, read, rfl⟩) id
      · exact ⟨[], units, by simp, rfl, .inr ⟨none, refused⟩⟩

private theorem of_ok (index : Nat) {units : List Unit} {chars : List Char}
    (proper : ∀ u ∈ units, r.Proper u) (h : r.read index units = .ok chars) :
    (∀ c ∈ chars, r.Admits c) ∧ units = r.spell chars := by
  obtain ⟨chars', rest, admitted, split, ⟨rfl, read⟩ | ⟨-, refused⟩⟩ := r.read_cases index proper
  · rw [h] at read
    cases read
    exact ⟨admitted, by simpa using split⟩
  · rw [h] at refused
    cases refused

private theorem longest_of_error {units : List Unit} {fault : EncodingFault}
    (proper : ∀ u ∈ units, r.Proper u)
    (told : ∀ index rest, rest ≠ [] → (r.refusal index rest).index? = some index)
    (h : r.read 0 units = .error fault) :
    ∃ front rest, units = front ++ rest ∧ rest ≠ [] ∧ fault = r.refusal front.length rest ∧
      IsGreatest {n | n ≤ units.length ∧ ∃ chars, r.read 0 (units.take n) = .ok chars}
        front.length := by
  obtain ⟨chars, rest, admitted, split, ⟨-, read⟩ | ⟨some, refused⟩⟩ := r.read_cases 0 proper
  · rw [h] at read
    cases read
  rw [h, Nat.zero_add, Except.error.injEq] at refused
  refine ⟨r.spell chars, rest, split, some, refused, ⟨?_, chars, ?_⟩, ?_⟩
  · rw [split, List.length_append]
    exact Nat.le_add_right _ _
  · have whole := r.read_append admitted 0 []
    rw [r.read_nil, List.append_nil] at whole
    rw [split, List.take_left, whole]
    simp [Except.map]
  · rintro n ⟨within, others, read⟩
    -- Reading goes on behind a part that is accepted, and is refused no earlier.
    obtain ⟨admitted', front⟩ :=
      r.of_ok 0 (fun u mem => proper u (List.mem_of_mem_take mem)) read
    have length : (r.spell others).length = n := by rw [← front, List.length_take_of_le within]
    have further := r.read_append admitted' 0 (units.drop n)
    rw [← front, List.take_append_drop, h, front, length, Nat.zero_add] at further
    have behind : r.read n (units.drop n) = .error fault := by
      cases later : r.read n (units.drop n) with
      | ok chars =>
          rw [later] at further
          cases further
      | error fault' =>
          rw [later] at further
          cases further
          rfl
    obtain ⟨more, rest', -, -, ⟨-, read'⟩ | ⟨some', refused'⟩⟩ :=
      r.read_cases n fun u mem => proper u (List.mem_of_mem_drop mem)
    · rw [behind] at read'
      cases read'
    · rw [behind, Except.error.injEq, refused] at refused'
      have index := congrArg EncodingFault.index? refused'
      rw [told _ _ some, told _ _ some', Option.some.injEq] at index
      omega

end Reader

/-! ## UTF-8 -/

private theorem ofNat_of_toNat {b : UInt8} {n : Nat} (h : n = b.toNat) : UInt8.ofNat n = b := by
  rw [h, UInt8.ofNat_toNat]

theorem isTail_iff {b : UInt8} : isTail b = true ↔ b.toNat / 64 = 2 := by
  rw [isTail, beq_iff_eq]

section Utf8

variable {a b d e : UInt8} {c : Char}

private theorem utf8Char_of_single (h : a.toNat < 0x80) : utf8Char (Char.ofNat a.toNat) = [a] := by
  have point : (Char.ofNat a.toNat).toNat = a.toNat := toNat_ofNat_scalar (by omega)
  simp only [utf8Char, point, if_pos h, ofNat_of_toNat rfl]

private theorem utf8Char_of_pair? (h : pair? a b = some c) : utf8Char c = [a, b] := by
  unfold pair? at h
  dsimp only at h
  split at h
  · next shape =>
      obtain ⟨head, tail, long⟩ := shape
      rw [isTail_iff] at tail
      simp only [utf8Char, toNat_of_scalar? h]
      rw [if_neg (by omega), if_pos (by omega), ofNat_of_toNat (b := a) (by omega),
        ofNat_of_toNat (b := b) (by omega)]
  · cases h

private theorem utf8Char_of_triple? (h : triple? a b d = some c) : utf8Char c = [a, b, d] := by
  unfold triple? at h
  dsimp only at h
  split at h
  · next shape =>
      obtain ⟨head, tail, tail', long⟩ := shape
      rw [isTail_iff] at tail tail'
      simp only [utf8Char, toNat_of_scalar? h]
      rw [if_neg (by omega), if_neg (by omega), if_pos (by omega),
        ofNat_of_toNat (b := a) (by omega), ofNat_of_toNat (b := b) (by omega),
        ofNat_of_toNat (b := d) (by omega)]
  · cases h

private theorem utf8Char_of_quadruple? (h : quadruple? a b d e = some c) :
    utf8Char c = [a, b, d, e] := by
  unfold quadruple? at h
  dsimp only at h
  split at h
  · next shape =>
      obtain ⟨head, tail, tail', tail'', long⟩ := shape
      rw [isTail_iff] at tail tail' tail''
      simp only [utf8Char, toNat_of_scalar? h]
      rw [if_neg (by omega), if_neg (by omega), if_neg (by omega),
        ofNat_of_toNat (b := a) (by omega), ofNat_of_toNat (b := b) (by omega),
        ofNat_of_toNat (b := d) (by omega), ofNat_of_toNat (b := e) (by omega)]
  · cases h

end Utf8

private theorem utf8Char_ne_nil (c : Char) : utf8Char c ≠ [] := by
  simp only [utf8Char]
  split_ifs <;> exact List.cons_ne_nil _ _

/-- Bytes begin with a sequence or are refused where they begin. -/
private theorem decodeUtf8_begins (index : Nat) {data : List UInt8} (some : data ≠ []) :
    (∃ c rest, data = utf8Char c ++ rest) ∨
      decodeUtf8 index data = .error (.invalidSequence index) := by
  obtain ⟨a, afterA, rfl⟩ := List.exists_cons_of_ne_nil some
  by_cases single : a.toNat < 0x80
  · exact .inl ⟨_, afterA, by rw [utf8Char_of_single single]; rfl⟩
  rw [decodeUtf8.eq_def]
  simp only [if_neg single]
  cases afterA with
  | nil => exact .inr rfl
  | cons b afterB =>
      dsimp only
      cases two : pair? a b with
      | some c => exact .inl ⟨c, afterB, by rw [utf8Char_of_pair? two]; rfl⟩
      | none =>
          cases afterB with
          | nil => exact .inr rfl
          | cons d afterC =>
              dsimp only
              cases three : triple? a b d with
              | some c => exact .inl ⟨c, afterC, by rw [utf8Char_of_triple? three]; rfl⟩
              | none =>
                  cases afterC with
                  | nil => exact .inr rfl
                  | cons e afterD =>
                      dsimp only
                      cases four : quadruple? a b d e with
                      | some c =>
                          exact .inl ⟨c, afterD, by rw [utf8Char_of_quadruple? four]; rfl⟩
                      | none => exact .inr rfl

def utf8Reader : Reader UInt8 where
  read := decodeUtf8
  spelling := utf8Char
  Admits _ := True
  Proper _ := True
  refusal index _ := .invalidSequence index
  read_nil _ := rfl
  spelling_ne_nil _ := utf8Char_ne_nil _
  read_spelling _ index rest := decodeUtf8_utf8Char _ index rest
  begins index _ some _ := (decodeUtf8_begins index some).imp_left
    fun ⟨c, rest, split⟩ => ⟨c, rest, trivial, split⟩

/-! ## UTF-16 -/

private theorem isHighSurrogate_iff {n : Nat} : isHighSurrogate n = true ↔ n / 1024 = 54 := by
  rw [isHighSurrogate, beq_iff_eq]

theorem isLowSurrogate_iff {n : Nat} : isLowSurrogate n = true ↔ n / 1024 = 55 := by
  rw [isLowSurrogate, beq_iff_eq]

private theorem utf16Char_ne_nil (c : Char) : utf16Char c ≠ [] := by
  simp only [utf16Char]
  split <;> exact List.cons_ne_nil _ _

private theorem utf16Char_of_pair {high low : Nat} (first : isHighSurrogate high = true)
    (second : isLowSurrogate low = true) :
    utf16Char (Char.ofNat (0x10000 + (high - 0xd800) * 1024 + (low - 0xdc00))) = [high, low] := by
  rw [isHighSurrogate_iff] at first
  rw [isLowSurrogate_iff] at second
  simp only [utf16Char, toNat_ofNat_scalar (n := 0x10000 + (high - 0xd800) * 1024 + (low - 0xdc00))
    (by omega)]
  rw [if_neg (by omega), List.cons.injEq, List.cons.injEq]
  exact ⟨by omega, by omega, rfl⟩

private theorem utf16Char_of_single {n : Nat} (small : n < 0x10000)
    (high : ¬ isHighSurrogate n = true)
    (low : ¬ isLowSurrogate n = true) : utf16Char (Char.ofNat n) = [n] := by
  rw [isHighSurrogate_iff] at high
  rw [isLowSurrogate_iff] at low
  simp only [utf16Char, toNat_ofNat_scalar (n := n) (by omega), if_pos small]

private theorem decodeUtf16_begins {unit : Nat} {rest : List Nat} (small : unit < 0x10000) :
    (∃ c behind, unit :: rest = utf16Char c ++ behind) ∨
      decodeUtf16 (unit :: rest) = .error (.unpairedSurrogate unit) := by
  rw [decodeUtf16.eq_def]
  dsimp only
  by_cases high : isHighSurrogate unit = true
  · rw [if_pos high]
    cases rest with
    | nil => exact .inr rfl
    | cons low rest =>
        by_cases second : isLowSurrogate low = true
        · exact .inl ⟨_, rest, by rw [utf16Char_of_pair high second]; rfl⟩
        · exact .inr (by simp only [second]; rfl)
  · rw [if_neg high]
    by_cases low : isLowSurrogate unit = true
    · exact .inr (by rw [if_pos low])
    · exact .inl ⟨_, rest, by rw [utf16Char_of_single small high low]; rfl⟩

def utf16Reader : Reader Nat where
  read _ := decodeUtf16
  spelling := utf16Char
  Admits _ := True
  Proper n := n < 0x10000
  refusal _ units := .unpairedSurrogate (units.headD 0)
  read_nil _ := rfl
  spelling_ne_nil _ := utf16Char_ne_nil _
  read_spelling _ _ rest := decodeUtf16_utf16Char _ rest
  begins _ units some proper := by
    obtain ⟨unit, rest, rfl⟩ := List.exists_cons_of_ne_nil some
    exact (decodeUtf16_begins (proper unit List.mem_cons_self)).imp_left
      fun ⟨c, rest, split⟩ => ⟨c, rest, trivial, split⟩

/-! ## UTF-32 -/

private theorem decodeUtf32_toNat (c : Char) (rest : List Nat) :
    decodeUtf32 (c.toNat :: rest) = cons c (decodeUtf32 rest) := by
  simp only [decodeUtf32, scalar?_toNat]

private theorem decodeUtf32_begins (n : Nat) (rest : List Nat) :
    (∃ c : Char, n = c.toNat) ∨ decodeUtf32 (n :: rest) = .error (.invalidCodePoint n) := by
  cases point : scalar? n with
  | none => exact .inr (by simp only [decodeUtf32, point])
  | some c => exact .inl ⟨c, (toNat_of_scalar? point).symm⟩

def utf32Reader : Reader Nat where
  read _ := decodeUtf32
  spelling c := [c.toNat]
  Admits _ := True
  Proper _ := True
  refusal _ units := .invalidCodePoint (units.headD 0)
  read_nil _ := rfl
  spelling_ne_nil _ := List.cons_ne_nil _ _
  read_spelling _ _ rest := decodeUtf32_toNat _ rest
  begins _ units some _ := by
    obtain ⟨n, rest, rfl⟩ := List.exists_cons_of_ne_nil some
    exact (decodeUtf32_begins n rest).imp_left
      fun ⟨c, point⟩ => ⟨c, rest, trivial, congrArg (· :: rest) point⟩

theorem spell_utf32Reader (chars : List Char) :
    utf32Reader.spell chars = chars.map Char.toNat :=
  List.map_eq_flatMap.symm

/-! ## One byte a character -/

theorem encodeNarrow_eq_ok_iff {encoding : Encoding} {limit : Nat} {chars : List Char}
    {data : List UInt8} : encodeNarrow encoding limit chars = .ok data ↔
      (∀ c ∈ chars, c.toNat < limit) ∧ data = chars.map fun c => UInt8.ofNat c.toNat := by
  induction chars generalizing data with
  | nil => simp [encodeNarrow, eq_comm]
  | cons c rest ih =>
      rw [List.forall_mem_cons, List.map_cons]
      constructor
      · intro h
        obtain ⟨range, more, tail, rfl⟩ := encodeNarrow_cons h
        obtain ⟨ranges, rfl⟩ := ih.mp tail
        exact ⟨⟨range, ranges⟩, rfl⟩
      · rintro ⟨⟨range, ranges⟩, rfl⟩
        rw [encodeNarrow, if_pos range, ih.mpr ⟨ranges, rfl⟩]
        rfl

private theorem decodeAscii_char {c : Char} (small : c.toNat < 0x80) (index : Nat)
    (rest : List UInt8) :
    decodeAscii index (UInt8.ofNat c.toNat :: rest) = cons c (decodeAscii (index + 1) rest) := by
  have byte : (UInt8.ofNat c.toNat).toNat = c.toNat := toNat_ofNat_of_lt (by omega)
  rw [decodeAscii, byte, if_pos small, Char.ofNat_toNat]

private theorem decodeAscii_begins (index : Nat) (b : UInt8) (rest : List UInt8) :
    (∃ c : Char, c.toNat < 0x80 ∧ b = UInt8.ofNat c.toNat) ∨
      decodeAscii index (b :: rest) = .error (.notAscii b index) := by
  by_cases small : b.toNat < 0x80
  · have point : (Char.ofNat b.toNat).toNat = b.toNat := toNat_ofNat_scalar (by omega)
    exact .inl ⟨Char.ofNat b.toNat, by rwa [point], by rw [point, ofNat_of_toNat rfl]⟩
  · exact .inr (by rw [decodeAscii, if_neg small])

def asciiReader : Reader UInt8 where
  read := decodeAscii
  spelling c := [UInt8.ofNat c.toNat]
  Admits c := c.toNat < 0x80
  Proper _ := True
  refusal index data := .notAscii (data.headD 0) index
  read_nil _ := rfl
  spelling_ne_nil _ := List.cons_ne_nil _ _
  read_spelling small index rest := decodeAscii_char small index rest
  begins index data some _ := by
    obtain ⟨b, rest, rfl⟩ := List.exists_cons_of_ne_nil some
    exact (decodeAscii_begins index b rest).imp_left
      fun ⟨c, small, byte⟩ => ⟨c, rest, small, congrArg (· :: rest) byte⟩

theorem spell_asciiReader (chars : List Char) :
    asciiReader.spell chars = chars.map fun c => UInt8.ofNat c.toNat :=
  List.map_eq_flatMap.symm

private theorem encodeNarrow_latin1 (data : List UInt8) :
    encodeNarrow .latin1 0x100 (data.map fun b => Char.ofNat b.toNat) = .ok data := by
  have point (b : UInt8) : (Char.ofNat b.toNat).toNat = b.toNat :=
    toNat_ofNat_scalar (by have := b.toNat_lt; omega)
  rw [encodeNarrow_eq_ok_iff]
  constructor
  · intro c mem
    obtain ⟨b, -, rfl⟩ := List.mem_map.mp mem
    rw [point]
    exact b.toNat_lt
  · simp [Function.comp_def, point]

/-! ## Bytes of code units -/

private theorem unitBytes_toNat (little : Bool) (group : List UInt8) :
    unitBytes little group.length (Bytes.toNat (if little then group.reverse else group)) =
      group := by
  cases little with
  | true =>
      have digits := Bytes.ofNat_toNat group.reverse
      rw [List.length_reverse] at digits
      simp [unitBytes, digits]
  | false => exact Bytes.ofNat_toNat group

private theorem flatMap_units16 (little : Bool) {data : List UInt8} (whole : data.length % 2 = 0) :
    (units16 little data).flatMap (unitBytes little 2) = data ∧
      ∀ n ∈ units16 little data, n < 0x10000 := by
  fun_induction units16 little data with
  | case1 a b rest ih =>
      obtain ⟨bytes, small⟩ := ih (by simp only [List.length_cons] at whole; omega)
      have group := unitBytes_toNat little [a, b]
      have below := Bytes.toNat_lt_pow (if little then [b, a] else [a, b])
      have length : (if little = true then [b, a] else [a, b]).length = 2 := by
        split <;> rfl
      rw [length] at below
      refine ⟨?_, List.forall_mem_cons.mpr ⟨below, small⟩⟩
      rw [List.flatMap_cons, bytes]
      exact congrArg (· ++ rest) group
  | case2 data short =>
      match data with
      | [] => simp
      | [a] => simp at whole
      | a :: b :: rest => exact (short a b rest rfl).elim

private theorem flatMap_units32 (little : Bool) {data : List UInt8} (whole : data.length % 4 = 0) :
    (units32 little data).flatMap (unitBytes little 4) = data := by
  fun_induction units32 little data with
  | case1 a b c d rest ih =>
      have bytes := ih (by simp only [List.length_cons] at whole; omega)
      have group := unitBytes_toNat little [a, b, c, d]
      rw [List.flatMap_cons, bytes]
      exact congrArg (· ++ rest) group
  | case2 data short =>
      match data with
      | [] => rfl
      | [a] | [a, b] | [a, b, c] => simp at whole
      | a :: b :: c :: d :: rest => exact (short a b c d rest rfl).elim

/-! ## All encodings -/

variable {encoding : Encoding} {text : String} {data : List UInt8}

theorem chars_of_decode (h : encoding.decode data = .ok text) :
    ∃ chars, encoding.decodeChars data = .ok chars ∧ String.ofList chars = text := by
  rw [decode] at h
  cases read : encoding.decodeChars data with
  | error fault =>
      rw [read] at h
      cases h
  | ok chars =>
      rw [read] at h
      exact ⟨chars, rfl, Except.ok.inj h⟩

/-- Only what a text is encoded to is decoded to that text. -/
theorem encode_of_decode (h : encoding.decode data = .ok text) :
    encoding.encode text = .ok data := by
  obtain ⟨chars, read, rfl⟩ := chars_of_decode h
  rw [decodeChars.eq_def] at read
  split at read
  · cases read
  next whole =>
    rw [ne_eq, not_not] at whole
    cases encoding with
    | utf8 =>
        obtain ⟨-, spelled⟩ := utf8Reader.of_ok 0 (fun _ _ => trivial) read
        simp only [encode, encodeUtf8, String.toList_ofList]
        exact congrArg Except.ok spelled.symm
    | ascii =>
        obtain ⟨small, spelled⟩ := asciiReader.of_ok 0 (fun _ _ => trivial) read
        simp only [encode, String.toList_ofList, encodeNarrow_eq_ok_iff]
        exact ⟨small, spelled.trans (spell_asciiReader chars)⟩
    | latin1 =>
        cases read
        simp only [encode, String.toList_ofList, encodeNarrow_latin1]
    | utf16le =>
        -- Whole code units are the bytes again; what the reader has read spells these units.
        obtain ⟨bytes, small⟩ := flatMap_units16 true whole
        obtain ⟨-, spelled⟩ := utf16Reader.of_ok 0 small read
        simp only [encode, String.toList_ofList]
        rw [← bytes, spelled]
        rfl
    | utf16be =>
        obtain ⟨bytes, small⟩ := flatMap_units16 false whole
        obtain ⟨-, spelled⟩ := utf16Reader.of_ok 0 small read
        simp only [encode, String.toList_ofList]
        rw [← bytes, spelled]
        rfl
    | utf32le =>
        have bytes := flatMap_units32 true whole
        obtain ⟨-, spelled⟩ := utf32Reader.of_ok 0 (fun _ _ => trivial) read
        simp only [encode, String.toList_ofList]
        rw [← bytes, spelled, spell_utf32Reader, List.flatMap_map]
    | utf32be =>
        have bytes := flatMap_units32 false whole
        obtain ⟨-, spelled⟩ := utf32Reader.of_ok 0 (fun _ _ => trivial) read
        simp only [encode, String.toList_ofList]
        rw [← bytes, spelled, spell_utf32Reader, List.flatMap_map]

private theorem utf8Char_eq (c : Char) : utf8Char c = String.utf8EncodeChar c := by
  have valid := toNat_lt c
  have point : c.val.toNat = c.toNat := rfl
  simp only [utf8Char, String.utf8EncodeChar, point, Nat.add_comm 0x80]
  generalize c.toNat = n at valid
  by_cases one : n < 0x80
  · rw [if_pos one, if_pos (by omega)]
  by_cases two : n < 0x800
  · have head : n / 64 % 32 = n / 64 := by omega
    rw [if_neg one, if_pos two, if_neg (by omega), if_pos (by omega), head, Nat.add_comm 0xc0]
  by_cases three : n < 0x10000
  · have head : n / 4096 % 16 = n / 4096 := by omega
    rw [if_neg one, if_neg two, if_pos three, if_neg (by omega), if_neg (by omega),
      if_pos (by omega), head, Nat.add_comm 0xe0]
  · have head : n / 262144 % 8 = n / 262144 := by omega
    rw [if_neg one, if_neg two, if_neg three, if_neg (by omega), if_neg (by omega),
      if_neg (by omega), head, Nat.add_comm 0xf0]

private theorem encode_utf8 (text : String) : utf8.encode text = .ok text.toUTF8.data.toList := by
  have bytes : text.toUTF8 = text.toList.utf8Encode := by
    rw [← String.toByteArray_ofList, String.ofList_toList]
    rfl
  have chars : utf8Char = String.utf8EncodeChar := funext utf8Char_eq
  rw [bytes, List.utf8Encode, List.toList_data_toByteArray, encode, encodeUtf8, chars]

/-! ### Refusals -/

/-- The lengths of the parts from the front that are decoded. -/
def accepted (encoding : Encoding) (data : List UInt8) : Set Nat :=
  {n | n ≤ data.length ∧ ∃ text, encoding.decode (data.take n) = .ok text}

private theorem decode_utf8 (data : List UInt8) :
    utf8.decode data = (decodeUtf8 0 data).map String.ofList := by
  simp [decode, decodeChars, unit, Nat.mod_one]

private theorem decode_ascii (data : List UInt8) :
    ascii.decode data = (decodeAscii 0 data).map String.ofList := by
  simp [decode, decodeChars, unit, Nat.mod_one]

/-- Where decoding goes by characters from the first byte on, a refusal stands behind the longest
part that is decoded. -/
private theorem isGreatest_accepted (r : Reader UInt8) (proper : ∀ u, r.Proper u)
    (told : ∀ index rest, rest ≠ [] → (r.refusal index rest).index? = some index)
    (reads : ∀ data, encoding.decode data = (r.read 0 data).map String.ofList)
    {fault : EncodingFault} (h : encoding.decode data = .error fault) :
    ∃ front rest, data = front ++ rest ∧ rest ≠ [] ∧ fault = r.refusal front.length rest ∧
      IsGreatest (encoding.accepted data) front.length := by
  have refused : r.read 0 data = .error fault := by
    rw [reads] at h
    cases read : r.read 0 data with
    | ok chars =>
        rw [read] at h
        cases h
    | error fault' =>
        rw [read] at h
        cases h
        rfl
  have same : encoding.accepted data =
      {n | n ≤ data.length ∧ ∃ chars, r.read 0 (data.take n) = .ok chars} := by
    ext n
    simp only [accepted, reads, Set.mem_ofPred_eq, and_congr_right_iff]
    intro _
    cases r.read 0 (data.take n) <;> simp [Except.map]
  rw [same]
  exact r.longest_of_error (fun u _ => proper u) told refused

/-- Encoding and decoding are inverse to each other, and what is encoded is a whole number of code
units. UTF-8 is that of strings. Where UTF-8 or ASCII is refused, it is at the byte behind the
longest part from the front that is decoded. -/
theorem encodings_invertible (encoding : Encoding) :
    (∀ text data, encoding.encode text = .ok data →
      encoding.unit ∣ data.length ∧ encoding.decode data = .ok text) ∧
    (∀ text data, encoding.decode data = .ok text → encoding.encode text = .ok data) ∧
    (encoding = utf8 → ∀ text, encoding.encode text = .ok text.toUTF8.data.toList) ∧
    ∀ data fault, encoding.decode data = .error fault →
      (encoding = utf8 → ∃ index, fault = .invalidSequence index ∧
        IsGreatest (encoding.accepted data) index) ∧
      (encoding = ascii → ∃ index byte, fault = .notAscii byte index ∧ data[index]? = some byte ∧
        IsGreatest (encoding.accepted data) index) := by
  refine ⟨fun text data h => ⟨Nat.dvd_of_mod_eq_zero (length_encode_mod h), decode_encode h⟩,
    fun text data => encode_of_decode, ?_, fun data fault refused => ⟨?_, ?_⟩⟩
  · rintro rfl
    exact encode_utf8
  · rintro rfl
    obtain ⟨front, rest, -, -, rfl, greatest⟩ := isGreatest_accepted utf8Reader
      (fun _ => trivial) (fun _ _ _ => rfl) decode_utf8 refused
    exact ⟨front.length, rfl, greatest⟩
  · rintro rfl
    obtain ⟨front, rest, rfl, some, rfl, greatest⟩ := isGreatest_accepted asciiReader
      (fun _ => trivial) (fun _ _ _ => rfl) decode_ascii refused
    obtain ⟨b, rest, rfl⟩ := List.exists_cons_of_ne_nil some
    exact ⟨front.length, b, rfl, by simp, greatest⟩

/-- A character of two code units, which are read in both directions; a surrogate in UTF-8, which
is refused behind two characters, the second of which ASCII refuses already. -/
theorem encodings_invertible_surrogates :
    (utf16le.unit ∣ 4 ∧ utf16le.decode [0x3d, 0xd8, 0x00, 0xde] = .ok "😀") ∧
    utf16le.encode "😀" = .ok [0x3d, 0xd8, 0x00, 0xde] ∧
    utf8.encode "é" = .ok "é".toUTF8.data.toList ∧
    (∃ index, EncodingFault.invalidSequence 3 = .invalidSequence index ∧
      IsGreatest (utf8.accepted [0x61, 0xc3, 0xa9, 0xed, 0xa0, 0x80]) index) ∧
    ∃ index byte, EncodingFault.notAscii 0xc3 1 = .notAscii byte index ∧
      ([0x61, 0xc3, 0xa9, 0xed, 0xa0, 0x80] : List UInt8)[index]? = some byte ∧
      IsGreatest (ascii.accepted [0x61, 0xc3, 0xa9, 0xed, 0xa0, 0x80]) index := by
  obtain ⟨decodes, encodes, -, -⟩ := encodings_invertible utf16le
  obtain ⟨-, -, bytes, refuses⟩ := encodings_invertible utf8
  obtain ⟨-, -, -, refuses'⟩ := encodings_invertible ascii
  exact ⟨decodes "😀" [0x3d, 0xd8, 0x00, 0xde] (by decide), encodes _ _ (by decide), bytes rfl "é",
    (refuses _ _ (by decide)).1 rfl, (refuses' _ _ (by decide)).2 rfl⟩

end Encoding

end BinaryFormat
