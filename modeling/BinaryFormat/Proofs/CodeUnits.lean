import BinaryFormat.Proofs.Decoding

/-!
# Texts as code units

A text is encoded to the code units of its characters, all of one width.  A unit
tells whether a character begins with it, and no character begins as another one
does; so a row of units that is cut out of a text is a text itself only where it
is cut between characters, and then it is that part of the text.
-/

namespace BinaryFormat

namespace Encoding

/-! ## The units of a character -/

/-- The characters that an encoding has. -/
def Admits : Encoding → Char → Prop
  | ascii, c => c.toNat < 0x80
  | latin1, c => c.toNat < 0x100
  | _, _ => True

/-- The code units of a character. -/
def codeUnits : Encoding → Char → List (List UInt8)
  | utf8, c => (utf8Char c).map fun b => [b]
  | utf16le, c => (utf16Char c).map (unitBytes true 2)
  | utf16be, c => (utf16Char c).map (unitBytes false 2)
  | utf32le, c => [unitBytes true 4 c.toNat]
  | utf32be, c => [unitBytes false 4 c.toNat]
  | ascii, c | latin1, c => [[UInt8.ofNat c.toNat]]

/-- Whether a code unit goes on with a character that another one began. -/
def continues : Encoding → List UInt8 → Bool
  | utf8, unit => unit.all isTail
  | utf16le, unit => isLowSurrogate (Bytes.toNat unit.reverse)
  | utf16be, unit => isLowSurrogate (Bytes.toNat unit)
  | _, _ => false

/-- The code units of a text. -/
def textUnits (encoding : Encoding) (chars : List Char) : List (List UInt8) :=
  chars.flatMap encoding.codeUnits

variable {encoding : Encoding} {c c' : Char} {unit : List UInt8}

theorem unit_pos (encoding : Encoding) : 0 < encoding.unit := by
  cases encoding <;> decide

@[simp] theorem textUnits_nil (encoding : Encoding) : encoding.textUnits [] = [] := rfl

@[simp] theorem textUnits_cons (encoding : Encoding) (c : Char) (chars : List Char) :
    encoding.textUnits (c :: chars) = encoding.codeUnits c ++ encoding.textUnits chars := rfl

@[simp] theorem textUnits_append (encoding : Encoding) (first second : List Char) :
    encoding.textUnits (first ++ second) =
      encoding.textUnits first ++ encoding.textUnits second :=
  List.flatMap_append

theorem length_of_mem_codeUnits (mem : unit ∈ encoding.codeUnits c) :
    unit.length = encoding.unit := by
  cases encoding <;>
    simp only [codeUnits, List.mem_map, List.mem_singleton] at mem
  case utf8 =>
    obtain ⟨b, -, rfl⟩ := mem
    rfl
  case utf16le | utf16be =>
    obtain ⟨n, -, rfl⟩ := mem
    exact length_unitBytes _ 2 n
  case utf32le | utf32be =>
    rw [mem]
    exact length_unitBytes _ 4 c.toNat
  case ascii | latin1 =>
    rw [mem]
    rfl

theorem length_of_mem_textUnits {chars : List Char} (mem : unit ∈ encoding.textUnits chars) :
    unit.length = encoding.unit := by
  obtain ⟨c, -, here⟩ := List.mem_flatMap.mp mem
  exact length_of_mem_codeUnits here

private theorem flatten_textUnits (encoding : Encoding) (chars : List Char) :
    (encoding.textUnits chars).flatten = chars.flatMap fun c => (encoding.codeUnits c).flatten := by
  induction chars with
  | nil => rfl
  | cons c chars ih => rw [textUnits_cons, List.flatten_append, ih, List.flatMap_cons]

/-- A text is encoded if the encoding has all its characters, to their code units. -/
theorem encode_eq_ok_iff {text : String} {data : List UInt8} :
    encoding.encode text = .ok data ↔
      (∀ c ∈ text.toList, encoding.Admits c) ∧ data = (encoding.textUnits text.toList).flatten := by
  have total {bytes : List UInt8} (encoded : encoding.encode text = .ok bytes)
      (all : ∀ c, encoding.Admits c) : encoding.encode text = .ok data ↔
        (∀ c ∈ text.toList, encoding.Admits c) ∧ data = bytes := by
    simp [encoded, all, eq_comm]
  rw [flatten_textUnits]
  cases encoding with
  | utf8 =>
      have each (c : Char) : (utf8.codeUnits c).flatten = utf8Char c := List.flatMap_singleton' _
      simp only [each]
      exact total rfl fun _ => trivial
  | utf16le | utf16be => exact total (congrArg _ List.flatMap_assoc) fun _ => trivial
  | utf32le | utf32be =>
      simp only [codeUnits, List.flatten_singleton]
      exact total rfl fun _ => trivial
  | ascii | latin1 =>
      simp only [codeUnits, List.flatten_singleton, ← List.map_eq_flatMap]
      exact encodeNarrow_eq_ok_iff

/-! ## Where characters begin -/

private theorem utf8Char_shape (c : Char) : ∃ lead tail, utf8Char c = lead :: tail ∧
    isTail lead = false ∧ ∀ b ∈ tail, isTail b = true := by
  have valid := toNat_lt c
  have leads {n : Nat} (small : n < 256) (other : n / 64 ≠ 2) :
      isTail (UInt8.ofNat n) = false := by
    rw [← Bool.not_eq_true, isTail_iff, toNat_ofNat_of_lt small]
    exact other
  unfold utf8Char
  generalize c.toNat = n at valid
  dsimp only
  split_ifs <;> refine ⟨_, _, rfl, leads (by omega) (by omega), ?_⟩ <;>
    simp only [List.forall_mem_cons, isTail_tail, List.not_mem_nil, false_imp_iff, implies_true,
      and_true]

private theorem utf16Char_shape (c : Char) : ∃ lead tail, utf16Char c = lead :: tail ∧
    isLowSurrogate lead = false ∧ ∀ n ∈ tail, isLowSurrogate n = true := by
  have valid := toNat_lt c
  unfold utf16Char
  generalize c.toNat = n at valid
  dsimp only
  split
  · exact ⟨_, _, rfl, by rw [← Bool.not_eq_true, isLowSurrogate_iff]; omega, by simp⟩
  · exact ⟨_, _, rfl, by rw [← Bool.not_eq_true, isLowSurrogate_iff]; omega,
      by simp only [List.mem_singleton, forall_eq, isLowSurrogate_iff]; omega⟩

private theorem toNat_unitBytes (little : Bool) {n : Nat} (small : n < 0x10000) :
    Bytes.toNat (if little then (unitBytes little 2 n).reverse else unitBytes little 2 n) = n := by
  have number : Bytes.toNat (Bytes.ofNat 2 n) = n :=
    (Bytes.toNat_ofNat 2 n).trans (Nat.mod_eq_of_lt small)
  cases little <;> simpa [unitBytes] using number

/-- The first unit of a character begins it and the others continue it. -/
theorem codeUnits_shape (encoding : Encoding) (c : Char) :
    ∃ lead trail, encoding.codeUnits c = lead :: trail ∧ encoding.continues lead = false ∧
      ∀ unit ∈ trail, encoding.continues unit = true := by
  have surrogates (little : Bool) : ∃ lead trail,
      (utf16Char c).map (unitBytes little 2) = lead :: trail ∧
        isLowSurrogate (Bytes.toNat (if little then lead.reverse else lead)) = false ∧
        ∀ unit ∈ trail,
          isLowSurrogate (Bytes.toNat (if little then unit.reverse else unit)) = true := by
    obtain ⟨lead, tail, split, first, others⟩ := utf16Char_shape c
    have small := utf16Char_lt c
    rw [split] at small ⊢
    obtain ⟨small, smaller⟩ := List.forall_mem_cons.mp small
    refine ⟨_, _, rfl, by rwa [toNat_unitBytes little small], ?_⟩
    intro unit mem
    obtain ⟨n, here, rfl⟩ := List.mem_map.mp mem
    rw [toNat_unitBytes little (smaller n here)]
    exact others n here
  cases encoding with
  | utf8 =>
      obtain ⟨lead, tail, split, first, others⟩ := utf8Char_shape c
      refine ⟨[lead], tail.map fun b => [b], by simp [codeUnits, split], by
        simp [continues, first], ?_⟩
      intro unit mem
      obtain ⟨b, here, rfl⟩ := List.mem_map.mp mem
      simp [continues, others b here]
  | utf16le => exact surrogates true
  | utf16be => exact surrogates false
  | utf32le | utf32be | ascii | latin1 => exact ⟨_, [], rfl, rfl, by simp⟩

/-! ## Parts of a text -/

private theorem units16_append (little : Bool) {units : List Nat} (small : ∀ n ∈ units, n < 0x10000)
    (rest : List UInt8) : units16 little (units.flatMap (unitBytes little 2) ++ rest) =
      units ++ units16 little rest := by
  induction units with
  | nil => rfl
  | cons n units ih =>
      obtain ⟨here, behind⟩ := List.forall_mem_cons.mp small
      rw [List.flatMap_cons, List.append_assoc, units16_unitBytes little here, ih behind]
      rfl

private theorem units32_append (little : Bool) (chars : List Char) (rest : List UInt8) :
    units32 little ((chars.flatMap fun c => unitBytes little 4 c.toNat) ++ rest) =
      chars.map Char.toNat ++ units32 little rest := by
  induction chars with
  | nil => rfl
  | cons c chars ih =>
      have valid := toNat_lt c
      rw [List.flatMap_cons, List.append_assoc, units32_unitBytes little (by omega), ih]
      rfl

private theorem Reader.prefix_of_ok {Unit : Type} (r : Reader Unit) (index : Nat)
    {chars all : List Char} {rest : List Unit} (admitted : ∀ c ∈ chars, r.Admits c)
    (h : r.read index (r.spell chars ++ rest) = .ok all) : chars <+: all := by
  rw [r.read_append admitted] at h
  cases later : r.read (index + (r.spell chars).length) rest with
  | error fault =>
      rw [later] at h
      cases h
  | ok behind =>
      rw [later] at h
      cases h
      exact List.prefix_append chars behind

/-- What begins like an encoded text is decoded to what begins like the text. -/
theorem prefix_of_decode {part whole : String} {data rest : List UInt8}
    (encoded : encoding.encode part = .ok data) (h : encoding.decode (data ++ rest) = .ok whole) :
    part.toList <+: whole.toList := by
  obtain ⟨chars, read, rfl⟩ := chars_of_decode h
  rw [String.toList_ofList]
  rw [decodeChars.eq_def] at read
  split at read
  · cases read
  cases encoding with
  | utf8 =>
      cases encoded
      exact utf8Reader.prefix_of_ok 0 (fun _ _ => trivial) read
  | ascii =>
      obtain ⟨small, rfl⟩ := encodeNarrow_eq_ok_iff.mp encoded
      rw [← spell_asciiReader] at read
      exact asciiReader.prefix_of_ok 0 small read
  | latin1 =>
      cases read
      rw [List.map_append, map_encodeNarrow encoded]
      exact List.prefix_append _ _
  | utf16le | utf16be =>
      cases encoded
      dsimp only at read
      rw [units16_append _ (units16_lt part.toList)] at read
      exact utf16Reader.prefix_of_ok 0 (fun _ _ => trivial) read
  | utf32le | utf32be =>
      cases encoded
      dsimp only at read
      rw [units32_append, ← spell_utf32Reader] at read
      exact utf32Reader.prefix_of_ok 0 (fun _ _ => trivial) read

private theorem encode_singleton (admitted : encoding.Admits c) :
    encoding.encode (String.singleton c) = .ok (encoding.codeUnits c).flatten := by
  rw [encode_eq_ok_iff]
  simp [admitted]

/-- No character begins with the units of another. -/
private theorem eq_of_codeUnits_front (admitted : encoding.Admits c)
    (admitted' : encoding.Admits c')
    (h : encoding.codeUnits c <+: encoding.codeUnits c') : c = c' := by
  obtain ⟨rest, whole⟩ := h
  have decoded := decode_encode (encode_singleton admitted')
  rw [← whole, List.flatten_append] at decoded
  have part := prefix_of_decode (encode_singleton admitted) decoded
  simpa using part

/-- Nor does one end with the units of another. -/
private theorem eq_of_codeUnits_back (admitted : encoding.Admits c) (admitted' : encoding.Admits c')
    (h : encoding.codeUnits c <:+ encoding.codeUnits c') : c = c' := by
  obtain ⟨front, whole⟩ := h
  cases front with
  | nil => exact eq_of_codeUnits_front admitted admitted' (whole ▸ List.prefix_rfl)
  | cons first front =>
      -- The unit that begins the one character would continue the other.
      obtain ⟨lead, trail, units, begins, -⟩ := encoding.codeUnits_shape c
      obtain ⟨lead', trail', units', -, others⟩ := encoding.codeUnits_shape c'
      rw [units', units, List.cons_append, List.cons.injEq] at whole
      have continued := others lead (whole.2 ▸ List.mem_append_right front List.mem_cons_self)
      rw [begins] at continued
      cases continued

theorem eq_of_mem_codeUnits (admitted : encoding.Admits c) (admitted' : encoding.Admits c')
    (single : encoding.codeUnits c = [unit]) (mem : unit ∈ encoding.codeUnits c') : c' = c := by
  obtain ⟨lead, trail, units, begins, -⟩ := encoding.codeUnits_shape c
  obtain ⟨lead', trail', units', -, others⟩ := encoding.codeUnits_shape c'
  rw [single, List.cons.injEq] at units
  rw [units', List.mem_cons] at mem
  rcases mem with first | later
  · refine (eq_of_codeUnits_front admitted admitted' ?_).symm
    rw [single, units', first]
    exact ⟨trail', rfl⟩
  · have continued := others unit later
    rw [units.1, begins] at continued
    cases continued

theorem suffix_of_textUnits {part whole : List Char} (admitted : ∀ c ∈ part, encoding.Admits c)
    (admitted' : ∀ c ∈ whole, encoding.Admits c)
    (h : encoding.textUnits part <:+ encoding.textUnits whole) : part <:+ whole := by
  induction part using List.reverseRecOn generalizing whole with
  | nil => exact List.nil_suffix
  | append_singleton part c ih =>
      obtain ⟨lead, trail, units, -⟩ := encoding.codeUnits_shape c
      rcases List.eq_nil_or_concat whole with rfl | ⟨whole, c', rfl⟩
      · simp [units] at h
      · obtain ⟨front, same⟩ := h
        simp only [List.concat_eq_append, textUnits_append, textUnits_cons, textUnits_nil,
          List.append_nil, ← List.append_assoc] at same
        have last := admitted c (by simp)
        have last' := admitted' c' (by simp)
        obtain rfl : c = c' := by
          rcases List.suffix_or_suffix_of_suffix (List.suffix_append _ _)
            (same ▸ List.suffix_append _ (encoding.codeUnits c')) with shorter | longer
          · exact eq_of_codeUnits_back last last' shorter
          · exact (eq_of_codeUnits_back last' last longer).symm
        have before : encoding.textUnits part <:+ encoding.textUnits whole :=
          ⟨front, List.append_cancel_right same⟩
        obtain ⟨others, rfl⟩ := ih (fun d mem => admitted d (by simp [mem]))
          (fun d mem => admitted' d (by simp [mem])) before
        exact ⟨others, by simp⟩

end Encoding

end BinaryFormat
