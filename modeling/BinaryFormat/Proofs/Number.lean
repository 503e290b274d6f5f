import BinaryFormat.Codec.Number
import BinaryFormat.Proofs.Run

/-!
# Numbers read back

A two's complement pattern determines the integer that it was made from, and a
base 128 numeral is read back as its number, whatever follows it.
-/

namespace BinaryFormat

namespace Bytes

theorem toNat_append_singleton (data : List UInt8) (b : UInt8) :
    toNat (data ++ [b]) = 256 * toNat data + b.toNat := by
  simp [toNat]

theorem toNat_ofNat (width value : Nat) : toNat (ofNat width value) = value % 256 ^ width := by
  induction width generalizing value with
  | zero => simp [ofNat, toNat, Nat.mod_one]
  | succ width ih =>
      have digit : (UInt8.ofNat (value % 256)).toNat = value % 256 := by simp
      rw [ofNat, toNat_append_singleton, ih, digit, Nat.pow_succ, Nat.mul_comm (256 ^ width),
        Nat.mod_mul]
      omega

theorem toNat_lt_pow (data : List UInt8) : toNat data < 256 ^ data.length := by
  induction data using List.reverseRecOn with
  | nil => decide
  | append_singleton data b ih =>
      rw [toNat_append_singleton, List.length_append, List.length_singleton, Nat.pow_succ]
      have := b.toNat_lt
      omega

theorem ofNat_toNat (data : List UInt8) : ofNat data.length (toNat data) = data := by
  induction data using List.reverseRecOn with
  | nil => rfl
  | append_singleton data b ih =>
      have digit := b.toNat_lt
      have high : (256 * toNat data + b.toNat) / 256 = toNat data := by omega
      have low : (256 * toNat data + b.toNat) % 256 = b.toNat := by omega
      rw [List.length_append, List.length_singleton, ofNat, toNat_append_singleton, high, low, ih,
        UInt8.ofNat_toNat]

end Bytes

namespace Bits

/-- For widths of words the rule for zero and for more bits plays no part. -/
theorem signExtend_eq {value width : Nat} (positive : 1 ≤ width) (narrow : width ≤ 128) :
    signExtend value width =
      if value % 2 ^ width < 2 ^ (width - 1) then ((value % 2 ^ width : Nat) : Int)
      else (value % 2 ^ width : Nat) - (2 ^ width : Nat) := by
  have proper : (if width = 0 ∨ 128 ≤ width then 128 else width) = width := by
    split <;> omega
  simp only [signExtend, proper, Nat.pow_eq]

end Bits

namespace Integer

private theorem two_pow_eq {bits : Nat} (positive : 1 ≤ bits) : 2 ^ bits = 2 * 2 ^ (bits - 1) := by
  rw [← Nat.pow_succ', Nat.succ_eq_add_one, Nat.sub_add_cancel positive]

theorem inOrder_inOrder (endian : Endian) (data : List UInt8) :
    inOrder endian (inOrder endian data) = data := by
  unfold inOrder
  split <;> simp

theorem length_inOrder (endian : Endian) (data : List UInt8) :
    (inOrder endian data).length = data.length := by
  unfold inOrder
  split <;> simp

theorem toPattern_lt (v : Int) (bits : Nat) : toPattern v bits < 2 ^ bits := by
  have positive : (0 : Int) < (2 ^ bits : Nat) := by
    have := Nat.two_pow_pos bits
    omega
  have upper := Int.emod_lt_of_pos v positive
  rw [toPattern, Nat.pow_eq]
  have lower := Int.emod_nonneg v (Int.ne_of_gt positive)
  omega

private theorem toPattern_of_nonneg {v : Int} {bits : Nat} (low : 0 ≤ v)
    (high : v < (2 ^ bits : Nat)) :
    toPattern v bits = v.toNat := by
  rw [toPattern, Nat.pow_eq, Int.emod_eq_of_lt low high]

private theorem toPattern_of_neg {v : Int} {bits : Nat} (low : -(2 ^ bits : Nat) ≤ v)
    (high : v < 0) :
    toPattern v bits = (v + (2 ^ bits : Nat)).toNat := by
  have wrapped : v % (2 ^ bits : Nat) = (v + (2 ^ bits : Nat)) % (2 ^ bits : Nat) := by
    rw [Int.add_emod_right]
  rw [toPattern, Nat.pow_eq, wrapped, Int.emod_eq_of_lt (by omega) (by omega)]

theorem ofPattern_unsigned {v : Int} {bits : Nat} (fits : fits v bits false = true)
    (proper : Value.fitsInt v = true) : ofPattern (toPattern v bits) bits false = .ok v := by
  simp only [Integer.fits, Bool.false_eq_true, if_false, Bool.and_eq_true, decide_eq_true_eq,
    Nat.pow_eq] at fits
  simp only [Value.fitsInt, Value.maxInt, Bool.and_eq_true] at proper
  obtain ⟨low, high⟩ := fits
  have small : ¬ Nat.pow 2 127 ≤ v.toNat := by
    have bound := of_decide_eq_true proper.2
    generalize Nat.pow 2 127 = limit at bound ⊢
    omega
  rw [toPattern_of_nonneg low high, ofPattern, if_neg (by simp), if_neg small]
  rw [Int.toNat_of_nonneg low]

theorem ofPattern_signed {v : Int} {bits : Nat} (positive : 0 < bits) (narrow : bits ≤ 128)
    (fits : fits v bits true = true) : ofPattern (toPattern v bits) bits true = .ok v := by
  simp only [Integer.fits, if_true, Bool.and_eq_true, decide_eq_true_eq, Nat.pow_eq] at fits
  obtain ⟨low, high⟩ := fits
  have halves := two_pow_eq positive
  have below := toPattern_lt v bits
  rw [ofPattern, if_pos rfl, Bits.signExtend_eq positive narrow, Nat.mod_eq_of_lt below]
  by_cases sign : 0 ≤ v
  · have pattern : toPattern v bits = v.toNat := toPattern_of_nonneg sign (by omega)
    rw [if_pos (by omega)]
    congr 1
    omega
  · have pattern : toPattern v bits = (v + (2 ^ bits : Nat)).toNat :=
      toPattern_of_neg (by omega) (by omega)
    rw [if_neg (by omega)]
    congr 1
    omega

/-- An integer is read back from the bytes that it is written as. -/
theorem ofPattern_toPattern {v : Int} {width : Nat} {signed : Bool} (positive : 1 ≤ width)
    (narrow : width ≤ 16) (fits : fits v (width * 8) signed = true)
    (proper : Value.fitsInt v = true) :
    ofPattern (toPattern v (width * 8)) (width * 8) signed = .ok v := by
  cases signed with
  | false => exact ofPattern_unsigned fits proper
  | true => exact ofPattern_signed (by omega) (by omega) fits

/-- An integer fits into the pattern that it was read from, and is written as it. -/
theorem toPattern_ofPattern {pattern bits : Nat} {signed : Bool} {v : Int} (positive : 1 ≤ bits)
    (narrow : bits ≤ 128) (within : pattern < 2 ^ bits)
    (read : ofPattern pattern bits signed = .ok v) :
    fits v bits signed = true ∧ toPattern v bits = pattern := by
  cases signed with
  | false =>
      simp only [ofPattern, Bool.false_eq_true, if_false] at read
      split at read
      · cases read
      · cases read
        refine ⟨?_, by rw [toPattern_of_nonneg (by omega) (by omega), Int.toNat_natCast]⟩
        simp only [fits, Bool.false_eq_true, if_false, Bool.and_eq_true, decide_eq_true_eq,
          Nat.pow_eq]
        omega
  | true =>
      have halves := two_pow_eq positive
      rw [ofPattern, if_pos rfl, Bits.signExtend_eq positive narrow, Nat.mod_eq_of_lt within,
        Except.ok.injEq] at read
      simp only [fits, if_true, Bool.and_eq_true, decide_eq_true_eq, Nat.pow_eq]
      split at read
      · subst read
        refine ⟨by omega, ?_⟩
        rw [toPattern_of_nonneg (by omega) (by omega), Int.toNat_natCast]
      · subst read
        refine ⟨by omega, ?_⟩
        rw [toPattern_of_neg (by omega) (by omega)]
        omega

section Residues

variable {v w : Int} {bits pattern : Nat} {signed : Bool}

theorem eq_of_toPattern (positive : 1 ≤ bits) (hv : fits v bits signed = true)
    (hw : fits w bits signed = true) (same : toPattern v bits = toPattern w bits) : v = w := by
  have halves := two_pow_eq positive
  have nonzero : ((2 ^ bits : Nat) : Int) ≠ 0 := by
    have := Nat.two_pow_pos bits
    omega
  have near : |v - w| < ((2 ^ bits : Nat) : Int) := by
    rw [abs_lt]
    cases signed <;>
      simp only [fits, Bool.false_eq_true, if_false, if_true, Bool.and_eq_true, decide_eq_true_eq,
        Nat.pow_eq] at hv hw <;> omega
  have residues : v % (2 ^ bits : Nat) = w % (2 ^ bits : Nat) := by
    have low := Int.emod_nonneg v nonzero
    have low' := Int.emod_nonneg w nonzero
    simp only [toPattern, Nat.pow_eq] at same
    omega
  exact Int.sub_eq_zero.mp
    (Int.eq_zero_of_abs_lt_dvd
      (Int.dvd_of_emod_eq_zero (Int.emod_eq_emod_iff_emod_sub_eq_zero.mp residues)) near)

theorem exists_toPattern (signed : Bool) (positive : 1 ≤ bits) (within : pattern < 2 ^ bits) :
    ∃ v, fits v bits signed = true ∧ toPattern v bits = pattern := by
  have halves := two_pow_eq positive
  by_cases low : signed = false ∨ pattern < 2 ^ (bits - 1)
  · refine ⟨pattern, ?_, ?_⟩
    · cases signed <;>
        simp only [fits, Bool.false_eq_true, if_false, if_true, Bool.and_eq_true,
          decide_eq_true_eq, Nat.pow_eq, false_or, reduceCtorEq] at low ⊢ <;> omega
    · rw [toPattern_of_nonneg (by omega) (by omega), Int.toNat_natCast]
  · obtain ⟨isSigned, high⟩ := not_or.mp low
    obtain rfl : signed = true := by simpa using isSigned
    refine ⟨(pattern : Int) - (2 ^ bits : Nat), ?_, ?_⟩
    · simp only [fits, if_true, Bool.and_eq_true, decide_eq_true_eq, Nat.pow_eq]
      omega
    · rw [toPattern_of_neg (by omega) (by omega)]
      omega

/-- Integers are of 128 bits: a pattern stands for one unless it is unsigned and has the highest
of them set. -/
theorem ofPattern_eq (positive : 1 ≤ bits) (narrow : bits ≤ 128) (hv : fits v bits signed = true) :
    ofPattern (toPattern v bits) bits signed =
      if bits = 128 ∧ signed = false ∧ (toPattern v bits).testBit 127 = true then
        .error (.misfit (.pattern (toPattern v bits)))
      else .ok v := by
  cases signed with
  | true => rw [ofPattern_signed positive narrow hv, if_neg (by simp)]
  | false =>
      have within := toPattern_lt v bits
      have small : bits < 128 → toPattern v bits < 2 ^ 127 := fun below =>
        within.trans_le (Nat.pow_le_pow_right (by decide) (by omega))
      have self : ((toPattern v bits : Nat) : Int) = v := by
        simp only [fits, Bool.false_eq_true, if_false, Bool.and_eq_true, decide_eq_true_eq,
          Nat.pow_eq] at hv
        rw [toPattern_of_nonneg hv.1 hv.2, Int.toNat_of_nonneg hv.1]
      have top : (bits = 128 ∧ false = false ∧ (toPattern v bits).testBit 127 = true) ↔
          2 ^ 127 ≤ toPattern v bits := by
        constructor
        · exact fun set => Nat.ge_two_pow_of_testBit set.2.2
        · intro high
          have full : bits = 128 := by
            by_contra other
            exact absurd (small (by omega)) (Nat.not_lt.mpr high)
          subst full
          have one : toPattern v 128 / 2 ^ 127 = 1 :=
            Nat.div_eq_of_lt_le (by rwa [Nat.one_mul]) within
          refine ⟨rfl, rfl, ?_⟩
          rw [Nat.testBit_eq_decide_div_mod_eq, one]
          rfl
      rw [if_congr top rfl rfl]
      simp only [ofPattern, Bool.false_eq_true, if_false, Nat.pow_eq, self]

end Residues

theorem toNat_inOrder_ofNat (endian : Endian) (width : Nat) (v : Int) :
    Bytes.toNat (inOrder endian (inOrder endian (Bytes.ofNat width (toPattern v (width * 8))))) =
      toPattern v (width * 8) := by
  have digits : 256 ^ width = 2 ^ (width * 8) := by
    rw [Nat.mul_comm, Nat.pow_mul]
  rw [inOrder_inOrder, Bytes.toNat_ofNat, digits]
  exact Nat.mod_eq_of_lt (toPattern_lt v (width * 8))

end Integer

namespace Varint

theorem numeral_of_large {n : Nat} (h : ¬ n < 128) :
    numeral n = UInt8.ofNat (n % 128 + 128) :: numeral (n / 128) := by
  rw [numeral, if_neg h]

theorem numeral_of_small {n : Nat} (h : n < 128) : numeral n = [UInt8.ofNat n] := by
  rw [numeral, if_pos h]

theorem numeral_ne_nil (n : Nat) : numeral n ≠ [] := by
  by_cases h : n < 128
  · simp [numeral_of_small h]
  · simp [numeral_of_large h]

private theorem group_in_range {n maxBits shift : Nat} (small : n < 2 ^ (maxBits - shift)) :
    ¬ (n % 128 ≠ 0 ∧
      (maxBits ≤ shift ∨ (n % 128) >>> min (maxBits - shift) 7 ≠ 0)) := by
  rintro ⟨nonzero, beyond | lost⟩
  · rw [Nat.sub_eq_zero_of_le beyond] at small
    omega
  · apply lost
    rw [Nat.shiftRight_eq_div_pow]
    apply Nat.div_eq_of_lt
    by_cases h : maxBits - shift ≤ 7
    · rw [Nat.min_eq_left h]
      exact Nat.lt_of_le_of_lt (Nat.mod_le n 128) small
    · rw [Nat.min_eq_right (by omega)]
      exact Nat.mod_lt n (by omega)

private theorem quotient_in_range {n maxBits shift : Nat} (small : n < 2 ^ (maxBits - shift)) :
    n / 128 < 2 ^ (maxBits - (shift + 7)) := by
  rw [Nat.div_lt_iff_lt_mul (by omega)]
  have le : 2 ^ (maxBits - shift) ≤ 2 ^ (maxBits - (shift + 7)) * 2 ^ 7 := by
    rw [← Nat.pow_add]
    exact Nat.pow_le_pow_right (by omega) (by omega)
  omega

private theorem readFrom_cons {maxBits : Nat} {path : Path} {ctx : Context} {store : LazyStore}
    {b : UInt8} {rest seen : List UInt8} {m : Medium} (next : m.rest = b :: rest)
    (more acc : Nat) {shift : Nat}
    (range : ¬ (b.toNat % 128 ≠ 0 ∧
      (maxBits ≤ shift ∨ (b.toNat % 128) >>> min (maxBits - shift) 7 ≠ 0))) :
    readFrom maxBits path (more + 1) acc shift seen ⟨.medium m, ctx, store⟩ =
      (if b.toNat < 128 then pure (acc + b.toNat % 128 * 2 ^ shift)
        else readFrom maxBits path more (acc + b.toNat % 128 * 2 ^ shift) (shift + 7)
          (seen ++ [b])) ⟨.medium (m.skip 1), ctx, store⟩ := by
  have first : m.rest = [b] ++ rest := next
  have step : Run.read 1 path ⟨.medium m, ctx, store⟩ =
      .ok [b] ⟨.medium (m.skip [b].length), ctx, store⟩ := Run.read_of_rest first
  rw [readFrom, Run.bind_of_ok step]
  exact congrFun (if_neg range) _

/-- A numeral is read as its number, whatever follows it. -/
private theorem readFrom_numeral {maxBits : Nat} {path : Path} {ctx : Context} {store : LazyStore}
    {rest : List UInt8} {n more acc shift : Nat} {seen : List UInt8} {m : Medium}
    (next : m.rest = numeral n ++ rest) (small : n < 2 ^ (maxBits - shift))
    (enough : (numeral n).length ≤ more) :
    readFrom maxBits path more acc shift seen ⟨.medium m, ctx, store⟩ =
      .ok (acc + n * 2 ^ shift) ⟨.medium (m.skip (numeral n).length), ctx, store⟩ := by
  induction more generalizing n acc shift seen m with
  | zero =>
      have positive := List.length_pos_iff.mpr (numeral_ne_nil n)
      omega
  | succ more ih =>
      have range := group_in_range small
      by_cases h : n < 128
      · rw [numeral_of_small h] at next ⊢
        have byte : (UInt8.ofNat n).toNat = n := by
          rw [UInt8.toNat_ofNat']
          omega
        have group : n % 128 = n := Nat.mod_eq_of_lt h
        rw [readFrom_cons next more acc (by rwa [byte]), byte, if_pos h, group]
        rfl
      · rw [numeral_of_large h] at next enough ⊢
        have byte : (UInt8.ofNat (n % 128 + 128)).toNat = n % 128 + 128 := by
          rw [UInt8.toNat_ofNat']
          omega
        have group : (n % 128 + 128) % 128 = n % 128 := by omega
        have first : m.rest = [UInt8.ofNat (n % 128 + 128)] ++ (numeral (n / 128) ++ rest) := next
        have later : (m.skip 1).rest = numeral (n / 128) ++ rest := Medium.rest_skip first
        have shorter : (numeral (n / 128)).length ≤ more := by simpa using enough
        have whole : n % 128 + n / 128 * 2 ^ 7 = n := by omega
        have value : acc + n % 128 * 2 ^ shift + n / 128 * 2 ^ (shift + 7) =
            acc + n * 2 ^ shift := by
          rw [Nat.add_assoc, Nat.pow_add, Nat.mul_comm (2 ^ shift), ← Nat.mul_assoc,
            ← Nat.add_mul, whole]
        rw [readFrom_cons next more acc (by rwa [byte, group]), byte, group,
          if_neg (by omega), ih later (quotient_in_range small) shorter, value,
          Medium.skip_skip, List.length_cons, Nat.add_comm 1]

theorem available_medium (m : Medium) (ctx : Context) (store : LazyStore) :
    Run.available ⟨.medium m, ctx, store⟩ = .ok m.rest.length ⟨.medium m, ctx, store⟩ := rfl

theorem read_numeral {maxBits : Nat} {path : Path} {ctx : Context} {store : LazyStore}
    {rest : List UInt8} {n : Nat} {m : Medium} (next : m.rest = numeral n ++ rest)
    (small : n < 2 ^ maxBits) :
    read maxBits path ⟨.medium m, ctx, store⟩ =
      .ok n ⟨.medium (m.skip (numeral n).length), ctx, store⟩ := by
  have enough : (numeral n).length ≤ m.rest.length + 1 := by
    rw [next, List.length_append]
    omega
  rw [read, Run.bind_of_ok (available_medium m ctx store)]
  rw [readFrom_numeral next (by simpa using small) enough]
  simp

theorem unzigzag_zigzag (v : Int) : unzigzag (zigzag v) = v := by
  unfold zigzag unzigzag
  by_cases h : 0 ≤ v
  · rw [if_pos h, if_pos (by omega)]
    omega
  · rw [if_neg h, if_neg (by omega)]
    omega

theorem zigzag_lt {v : Int} (proper : Value.fitsInt v = true) : zigzag v < 2 ^ 128 := by
  simp only [Value.fitsInt, Value.minInt, Value.maxInt, Bool.and_eq_true] at proper
  have low := of_decide_eq_true proper.1
  have high := of_decide_eq_true proper.2
  have twice : 2 ^ 128 = 2 * Nat.pow 2 127 := rfl
  rw [twice]
  generalize Nat.pow 2 127 = limit at low high ⊢
  unfold zigzag
  split <;> omega

end Varint

namespace Codec

theorem checkWidth_of_le {width limit : Nat} {unit : String} (positive : 1 ≤ width)
    (narrow : width ≤ limit) : Integer.checkWidth width limit unit = .ok () := by
  rw [Integer.checkWidth, if_neg (by omega)]

end Codec

end BinaryFormat
