import BinaryFormat.Proofs.Bits.Packing
import BinaryFormat.Proofs.Number

/-!
# Numbers of bits

Units are the binary digits of a number, first unit highest, and a word of 128 bits holds the
last of them.  As two's complement the low bits of a word stand for the one integer in range
that has the same residue.
-/

namespace BinaryFormat

namespace Bits

variable {units : List UInt8} {v n : Nat}

/-! ## Units as digits -/

/-- The number whose binary digits the units are, first unit highest. -/
def value : List UInt8 → Nat
  | [] => 0
  | u :: rest => (if u = 0 then 0 else 1) * 2 ^ rest.length + value rest

theorem value_append (first second : List UInt8) :
    value (first ++ second) = value first * 2 ^ second.length + value second := by
  induction first with
  | nil => simp [value]
  | cons u rest ih =>
      rw [List.cons_append, value, value, ih, List.length_append, Nat.pow_add]
      ring

theorem value_lt (units : List UInt8) : value units < 2 ^ units.length := by
  induction units with
  | nil => decide
  | cons u rest ih =>
      have digit : (if u = 0 then 0 else 1) ≤ 1 := by split <;> decide
      have high := Nat.mul_le_mul_right (2 ^ rest.length) digit
      rw [value, List.length_cons, Nat.pow_succ]
      omega

private theorem ofNat_succ (n count : Nat) :
    ofNat n (count + 1) = unit (n.testBit count) :: ofNat n count := by
  simp [ofNat, List.range_succ]

theorem value_ofNat (n count : Nat) : value (ofNat n count) = n % 2 ^ count := by
  induction count with
  | zero => simp [ofNat, value, Nat.mod_one]
  | succ count ih =>
      have digit : (if unit (n.testBit count) = 0 then 0 else 1) = n / 2 ^ count % 2 := by
        rw [Nat.testBit_eq_decide_div_mod_eq]
        rcases Nat.mod_two_eq_zero_or_one (n / 2 ^ count) with low | low <;> simp [low, unit]
      rw [ofNat_succ, value, ih, length_ofNat, digit, Nat.mod_pow_succ]
      ring

/-- Bytes and the bits that they are spread into are digits of one number. -/
theorem value_expand (data : List UInt8) : value (expand .msbFirst data) = Bytes.toNat data := by
  induction data using List.reverseRecOn with
  | nil => rfl
  | append_singleton data b ih =>
      have single : expand .msbFirst [b] = ofNat b.toNat 8 := by simp [expand]; rfl
      have bound : b.toNat < 2 ^ 8 := b.toNat_lt
      rw [expand_append, value_append, ih, Bytes.toNat_append_singleton, single, value_ofNat,
        length_ofNat, Nat.mod_eq_of_lt bound]
      ring

theorem place_inj {a b c d unit : Nat} (hb : b < unit) (hd : d < unit)
    (same : a * unit + b = c * unit + d) : a = c ∧ b = d := by
  have positive : 0 < unit := by omega
  have high : ∀ x y, y < unit → (x * unit + y) / unit = x := by
    intro x y small
    rw [Nat.mul_comm, Nat.mul_add_div positive, Nat.div_eq_of_lt small, Nat.add_zero]
  have first : a = c := by rw [← high a b hb, same, high c d hd]
  subst first
  exact ⟨rfl, Nat.add_left_cancel same⟩

theorem areBits_ofNat (n count : Nat) : AreBits (ofNat n count) := by
  intro u mem
  obtain ⟨i, -, rfl⟩ := List.mem_map.mp mem
  cases n.testBit i
  · exact .inl rfl
  · exact .inr rfl

private theorem eq_of_value {first second : List UInt8} (hf : AreBits first) (hs : AreBits second)
    (length : first.length = second.length) (same : value first = value second) :
    first = second := by
  induction first generalizing second with
  | nil => exact (List.length_eq_zero_iff.mp length.symm).symm
  | cons u rest ih =>
      cases second with
      | nil => simp at length
      | cons w others =>
          rw [List.length_cons, List.length_cons, Nat.succ_inj] at length
          have below := value_lt others
          rw [value, value, length] at same
          obtain ⟨here, behind⟩ := place_inj (length ▸ value_lt rest) below same
          have digit : u = w := by
            rcases hf u List.mem_cons_self with rfl | rfl <;>
              rcases hs w List.mem_cons_self with rfl | rfl <;> simp_all
          rw [digit, ih (fun v mem => hf v (List.mem_cons_of_mem u mem))
            (fun v mem => hs v (List.mem_cons_of_mem w mem)) length behind]

theorem ofNat_value {units : List UInt8} (h : AreBits units) :
    ofNat (value units) units.length = units :=
  eq_of_value (areBits_ofNat _ _) h (length_ofNat _ _)
    (by rw [value_ofNat, Nat.mod_eq_of_lt (value_lt units)])

theorem ofNat_eq_expand (n width : Nat) :
    ofNat n (width * 8) = expand .msbFirst (Bytes.ofNat width n) := by
  have digits : 256 ^ width = 2 ^ (width * 8) := by rw [Nat.mul_comm, Nat.pow_mul]
  refine eq_of_value (areBits_ofNat _ _) (areBits_expand _) ?_ ?_
  · rw [length_ofNat, length_expand_eq, Bytes.length_ofNat]
  · rw [value_ofNat, value_expand, Bytes.toNat_ofNat, digits]

/-! ## Words of 128 bits -/

/-- Beyond 128 units the number is lost at the top. -/
private theorem toNat_eq_mod (units : List UInt8) : toNat units = value units % 2 ^ 128 := by
  have fold : ∀ (units : List UInt8) (acc : Nat), acc < 2 ^ 128 →
      units.foldl (fun acc u => (2 * acc + if u = 0 then 0 else 1) % Nat.pow 2 128) acc =
        (acc * 2 ^ units.length + value units) % 2 ^ 128 := by
    intro units
    induction units with
    | nil =>
        intro acc small
        rw [List.foldl_nil, List.length_nil, Nat.pow_zero, Nat.mul_one, value, Nat.add_zero,
          Nat.mod_eq_of_lt small]
    | cons u rest ih =>
        intro acc _
        have shift : acc * 2 ^ (u :: rest).length + value (u :: rest) =
            (2 * acc + if u = 0 then 0 else 1) * 2 ^ rest.length + value rest := by
          rw [List.length_cons, Nat.pow_succ, value]
          ring
        rw [List.foldl_cons, Nat.pow_eq, ih _ (Nat.mod_lt _ (by decide)), shift]
        exact ((Nat.mod_modEq _ _).mul_right _).add_right _
  have start := fold units 0 (by decide)
  rwa [Nat.zero_mul, Nat.zero_add] at start

theorem toNat_eq_value (narrow : units.length ≤ 128) : toNat units = value units := by
  have bound := (value_lt units).trans_le (Nat.pow_le_pow_right (by decide) narrow)
  rw [toNat_eq_mod, Nat.mod_eq_of_lt bound]

private theorem toNat_ofNat (v n : Nat) : toNat (ofNat v n) = v % 2 ^ min n 128 := by
  rw [toNat_eq_mod, value_ofNat]
  by_cases narrow : n ≤ 128
  · have small : v % 2 ^ n < 2 ^ 128 :=
      (Nat.mod_lt _ (Nat.two_pow_pos n)).trans_le (Nat.pow_le_pow_right (by decide) narrow)
    rw [Nat.min_eq_left narrow, Nat.mod_eq_of_lt small]
  · have wide : 128 ≤ n := by omega
    rw [Nat.min_eq_right wide, Nat.mod_mod_of_dvd v (Nat.pow_dvd_pow 2 wide)]

/-- What a unit counts as: a set bit unless it is zero. -/
def digit (u : UInt8) : UInt8 := if u = 0 then 0 else 1

private theorem digit_eq_zero_iff {u : UInt8} : digit u = 0 ↔ u = 0 := by
  unfold digit
  split <;> simp_all

private theorem areBits_map_digit (units : List UInt8) : AreBits (units.map digit) := by
  intro u mem
  obtain ⟨w, -, rfl⟩ := List.mem_map.mp mem
  unfold digit
  split
  · exact .inl rfl
  · exact .inr rfl

private theorem value_map_digit (units : List UInt8) : value (units.map digit) = value units := by
  induction units with
  | nil => rfl
  | cons u rest ih =>
      rw [List.map_cons, value, value, ih, List.length_map, if_congr digit_eq_zero_iff rfl rfl]

private theorem ofNat_toNat (narrow : units.length ≤ 128) :
    ofNat (toNat units) units.length = units.map digit := by
  have digits := ofNat_value (areBits_map_digit units)
  rwa [value_map_digit, List.length_map, ← toNat_eq_value narrow] at digits

private theorem toNat_eq_value_drop (units : List UInt8) :
    toNat units = value (units.drop (units.length - 128)) := by
  by_cases narrow : units.length ≤ 128
  · rw [toNat_eq_value narrow, Nat.sub_eq_zero_of_le narrow, List.drop_zero]
  · have last : (units.drop (units.length - 128)).length = 128 := by
      rw [List.length_drop]
      omega
    have split := value_append (units.take (units.length - 128)) (units.drop (units.length - 128))
    have below := value_lt (units.drop (units.length - 128))
    rw [last] at split below
    rw [List.take_append_drop] at split
    rw [toNat_eq_mod, split, Nat.mul_add_mod_self_right, Nat.mod_eq_of_lt below]

/-- Moves a word up and sets its lowest bit where the unit is not zero. -/
def shiftIn (word : BitVec 128) (u : UInt8) : BitVec 128 :=
  word <<< 1 ||| if u = 0 then 0 else 1

private theorem toNat_shiftIn (word : BitVec 128) (u : UInt8) :
    (shiftIn word u).toNat = (2 * word.toNat + if u = 0 then 0 else 1) % 2 ^ 128 := by
  have apart : word <<< 1 &&& (if u = 0 then 0 else 1) = 0 := by
    split
    · exact BitVec.and_zero
    · rw [BitVec.ofNat_eq_ofNat, BitVec.and_one_eq_setWidth_ofBool_getLsbD,
        BitVec.getLsbD_shiftLeft]
      rfl
  rw [shiftIn, ← BitVec.add_eq_or_of_and_eq_zero _ _ apart, BitVec.toNat_add,
    BitVec.toNat_shiftLeft,
    Nat.mod_add_mod, Nat.shiftLeft_eq, Nat.pow_one, Nat.mul_comm]
  split <;> rfl

private theorem toNat_eq_foldl (units : List UInt8) :
    toNat units = (units.foldl shiftIn 0).toNat := by
  have step : ∀ (units : List UInt8) (word : BitVec 128),
      units.foldl (fun acc u => (2 * acc + if u = 0 then 0 else 1) % Nat.pow 2 128) word.toNat =
        (units.foldl shiftIn word).toNat := by
    intro units
    induction units with
    | nil => exact fun _ => rfl
    | cons u rest ih =>
        intro word
        rw [List.foldl_cons, List.foldl_cons, ← ih, toNat_shiftIn, Nat.pow_eq]
  exact step units 0

/-! ## Two's complement -/

private theorem ofPattern_eq_signExtend (positive : 1 ≤ n) (narrow : n ≤ 128) (v : Nat) :
    Integer.ofPattern (v % 2 ^ n) n true = .ok (signExtend v n) := by
  rw [Integer.ofPattern, if_pos rfl, signExtend_eq positive narrow, signExtend_eq positive narrow,
    Nat.mod_mod]

/-- The integers of so many bits are told apart by their residues, and a number is extended to
that with its own. -/
private theorem eq_signExtend_iff (positive : 1 ≤ n) (narrow : n ≤ 128) (v : Nat) (w : Int) :
    w = signExtend v n ↔ (-2 ^ (n - 1) ≤ w ∧ w < 2 ^ (n - 1)) ∧ w ≡ v [ZMOD 2 ^ n] := by
  have below : v % 2 ^ n < 2 ^ n := Nat.mod_lt v (Nat.two_pow_pos n)
  obtain ⟨fits, pattern⟩ := Integer.toPattern_ofPattern positive narrow below
    (ofPattern_eq_signExtend positive narrow v)
  have inRange (w : Int) : Integer.fits w n true = true ↔ -2 ^ (n - 1) ≤ w ∧ w < 2 ^ (n - 1) := by
    simp [Integer.fits]
  have residue (w : Int) : Integer.toPattern w n = v % 2 ^ n ↔ w ≡ v [ZMOD 2 ^ n] := by
    have nonneg : 0 ≤ w % 2 ^ n := Int.emod_nonneg w (by positivity)
    rw [Integer.toPattern, Nat.pow_eq, Int.ModEq]
    push_cast
    rw [← Int.toNat_natCast (v % 2 ^ n)]
    push_cast
    exact ⟨fun h => by omega, fun h => by omega⟩
  rw [← inRange, ← residue]
  constructor
  · rintro rfl
    exact ⟨fits, pattern⟩
  · rintro ⟨fits', pattern'⟩
    exact Integer.eq_of_toPattern positive fits' fits (pattern'.trans pattern.symm)

/-- What a word that was moved up adds to the word is whole turns of the bits that are left. -/
private theorem exists_toInt_shiftLeft (word : BitVec 128) {k : Nat} (within : k ≤ 128) :
    ∃ turns : Int, (word <<< k).toInt = (word.toNat + turns * 2 ^ (128 - k)) * 2 ^ k := by
  have whole : (2 : Int) ^ 128 = 2 ^ (128 - k) * 2 ^ k := by
    rw [← pow_add, Nat.sub_add_cancel within]
  have residue : (word <<< k).toInt ≡ word.toNat * 2 ^ k [ZMOD 2 ^ 128] := by
    rw [BitVec.toInt_shiftLeft, Nat.shiftLeft_eq]
    push_cast
    exact Int.bmod_emod
  obtain ⟨turns, multiple⟩ := residue.symm.dvd
  refine ⟨turns, ?_⟩
  linear_combination multiple + turns * whole

private theorem signExtend_eq_shifted (positive : 1 ≤ n) (narrow : n ≤ 128) (word : BitVec 128) :
    signExtend word.toNat n = ((word <<< (128 - n)).sshiftRight (128 - n)).toInt := by
  obtain ⟨turns, shifted⟩ := exists_toInt_shiftLeft word (Nat.sub_le 128 n)
  have low := BitVec.le_toInt (word <<< (128 - n))
  have high := BitVec.toInt_lt (x := word <<< (128 - n))
  have place : (0 : Int) < 2 ^ (128 - n) := by positivity
  have half : (2 : Int) ^ 127 = 2 ^ (n - 1) * 2 ^ (128 - n) := by
    rw [← pow_add]
    congr 1
    omega
  rw [Nat.sub_sub_self narrow] at shifted
  rw [shifted, half] at high
  rw [shifted, half, ← neg_mul] at low
  have back : ((word <<< (128 - n)).sshiftRight (128 - n)).toInt =
      word.toNat + turns * 2 ^ n := by
    rw [BitVec.toInt_sshiftRight, shifted, Int.shiftRight_eq_div_pow, Nat.cast_pow, Nat.cast_ofNat,
      Int.mul_ediv_cancel _ place.ne']
  refine ((eq_signExtend_iff positive narrow _ _).mpr ⟨⟨?_, ?_⟩, ?_⟩).symm <;> rw [back]
  · exact le_of_mul_le_mul_right low place
  · exact lt_of_mul_lt_mul_right high place.le
  · exact Int.modEq_iff_dvd.mpr ⟨-turns, by ring⟩

/-! ## Units, words and integers -/

/-- A word is written as so many units and read from them as its low bits; units that a word can
hold are written back with every set bit as one, and of more units the word holds the last, as
if they were shifted in one by one.  The extension of the low bits is the one integer of so many
bits with their residue, which is the word shifted up to its sign and back. -/
theorem words_of_units (word : BitVec 128) (n : Nat) (units : List UInt8) :
    (ofNat word.toNat n).length = n ∧
    toNat (ofNat word.toNat n) = word.toNat % 2 ^ min n 128 ∧
    (units.length ≤ 128 → ofNat (toNat units) units.length = units.map digit) ∧
    toNat units = value (units.drop (units.length - 128)) ∧
    toNat units = (units.foldl shiftIn 0).toNat ∧
    (1 ≤ n → n ≤ 128 →
      (∀ i : Int, i = signExtend word.toNat n ↔
        (-2 ^ (n - 1) ≤ i ∧ i < 2 ^ (n - 1)) ∧ i ≡ word.toNat [ZMOD 2 ^ n]) ∧
      signExtend word.toNat n = ((word <<< (128 - n)).sshiftRight (128 - n)).toInt) :=
  ⟨length_ofNat _ _, toNat_ofNat _ _, ofNat_toNat, toNat_eq_value_drop units,
    toNat_eq_foldl units, fun positive narrow =>
      ⟨eq_signExtend_iff positive narrow _, signExtend_eq_shifted positive narrow word⟩⟩

/-- All bits of a byte set are minus one, and any unit but zero is one. -/
theorem words_of_units_byte :
    signExtend 255 8 = -1 ∧ ofNat (toNat [1, 0, 7]) 3 = [1, 0, 1] := by
  obtain ⟨-, -, written, -, -, extended⟩ := words_of_units 255 8 [1, 0, 7]
  obtain ⟨unique, -⟩ := extended (by decide) (by decide)
  have minusOne := (unique (-1)).mpr ⟨by decide, by decide⟩
  exact ⟨minusOne.symm, written (by decide)⟩

end Bits

end BinaryFormat
