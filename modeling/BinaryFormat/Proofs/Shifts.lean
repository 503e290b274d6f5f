import BinaryFormat.Proofs.IntegerArithmetic

/-!
# Shifts

A shift to the right divides by a power of two and rounds down.  A shift to the left
multiplies by one, but only the low 128 bits of the product are kept: what comes out is the
product where that is a word, and another word elsewhere.  Distances that are negative or not
below the length of a word are refused.
-/

namespace BinaryFormat

namespace Arithmetic

variable {x y : Int}

/-! ## Words -/

private theorem fitsInt_bmod (n : Int) : Value.fitsInt (n.bmod (2 ^ 128)) := by
  have low := Int.le_bmod (x := n) (m := 2 ^ 128) (by decide)
  have high := Int.bmod_lt (x := n) (m := 2 ^ 128) (by decide)
  rw [Value.fitsInt_iff, Value.minInt_eq, Value.maxInt_eq]
  omega

/-- The low bits of an integer are that integer for words alone. -/
private theorem bmod_eq_self_iff {n : Int} : n.bmod (2 ^ 128) = n ↔ Value.fitsInt n := by
  constructor
  · intro kept
    rw [← kept]
    exact fitsInt_bmod n
  · intro fits
    rw [Value.fitsInt_iff, Value.minInt_eq, Value.maxInt_eq] at fits
    apply Int.bmod_eq_of_le <;> omega

private theorem toInt_ofInt (xFits : Value.fitsInt x) : (BitVec.ofInt 128 x).toInt = x := by
  rw [BitVec.toInt_ofInt]
  exact bmod_eq_self_iff.mpr xFits

private theorem ofInt_two_pow (n : Nat) : BitVec.ofInt 128 (2 ^ n) = BitVec.twoPow 128 n := by
  have natural : (2 : Int) ^ n = (2 ^ n : Nat) := by push_cast; rfl
  rw [natural, BitVec.ofInt_natCast]
  apply BitVec.eq_of_toNat_eq
  rw [BitVec.toNat_ofNat, BitVec.toNat_twoPow]

/-! ## Shifts of words -/

private theorem toInt_shiftLeft (x : Int) (n : Nat) :
    (BitVec.ofInt 128 x <<< n).toInt = (x * 2 ^ n).bmod (2 ^ 128) := by
  rw [BitVec.shiftLeft_eq_mul_twoPow, ← ofInt_two_pow, ← BitVec.ofInt_mul, BitVec.toInt_ofInt]

private theorem toInt_sshiftRight (xFits : Value.fitsInt x) (n : Nat) :
    ((BitVec.ofInt 128 x).sshiftRight n).toInt = x.fdiv (2 ^ n) := by
  have nonneg : (0 : Int) ≤ 2 ^ n := by positivity
  rw [BitVec.toInt_sshiftRight, toInt_ofInt xFits, Int.shiftRight_eq_div_pow,
    Int.fdiv_eq_ediv_of_nonneg x nonneg]
  push_cast
  rfl

private theorem fitsInt_fdiv_pow (xFits : Value.fitsInt x) (n : Nat) :
    Value.fitsInt (x.fdiv (2 ^ n)) := by
  have positive : (0 : Int) < 2 ^ n := by positivity
  exact (fitsInt_fdiv_iff xFits positive.ne').mpr (by omega)

private theorem floor_div_pow (x : Int) (n : Nat) : ⌊(x : ℚ) / 2 ^ n⌋ = x.fdiv (2 ^ n) := by
  have nonzero : (2 : Int) ^ n ≠ 0 := by positivity
  rw [← floor_div x nonzero]
  push_cast
  rfl

/-! ## Distances -/

private theorem onInts_shl {n : Nat} (near : n < 128) :
    onInts .shl x n = .ok ((x * 2 ^ n).bmod (2 ^ 128)) := by
  simp [onInts, shift, near]

private theorem onInts_shr {n : Nat} (near : n < 128) : onInts .shr x n = .ok (x.fdiv (2 ^ n)) := by
  simp [onInts, shift, near]

private theorem onInts_of_far (far : y < 0 ∨ 128 ≤ y) :
    onInts .shl x y = .error (.overflow x "<<" y) ∧
      onInts .shr x y = .error (.overflow x ">>" y) := by
  have outside : ¬(0 ≤ y ∧ y < 128) := by omega
  simp [onInts, shift, outside, BinaryOp.symbol]

end Arithmetic

namespace Expr

open Arithmetic

/-- A shift to the right is the rounded quotient.  A shift to the left is the word with the low
bits of the product: the product itself if that is a word, and never otherwise.  Only a distance
outside of the word is refused. -/
theorem shifts_of_words (r : Resolver) (scope : Scope) (path : Path) {x y : Int}
    (xFits : Value.fitsInt x) {left right : Expr} {a b : Denoted}
    {store between after : LazyStore}
    (leftHas : left.denote r scope store = .ok a between) (first : a.toValue.int? = some x)
    (rightHas : right.denote r scope between = .ok b after) (second : b.toValue.int? = some y) :
    let outcome op := (binary op left right).evaluate r scope path store
    (y < 0 ∨ 128 ≤ y →
      outcome .shl = .error ((Fault.unevaluable (.overflow x "<<" y)).atPath path) after ∧
      outcome .shr = .error ((Fault.unevaluable (.overflow x ">>" y)).atPath path) after) ∧
    ∀ n : Nat, y = n → n < 128 → ∃ product quotient : Int,
      outcome .shl = .ok (.int product) after ∧ Value.fitsInt product ∧
      product ≡ x * 2 ^ n [ZMOD 2 ^ 128] ∧
      product = (BitVec.ofInt 128 x <<< n).toInt ∧
      (product = x * 2 ^ n ↔ Value.fitsInt (x * 2 ^ n)) ∧
      outcome .shr = .ok (.int quotient) after ∧ Value.fitsInt quotient ∧
      quotient = ((BitVec.ofInt 128 x).sshiftRight n).toInt ∧
      quotient = ⌊(x : ℚ) / 2 ^ n⌋ := by
  intro outcome
  have shiftedLeft : outcome .shl = _ :=
    evaluate_numeric (by decide) leftHas first rightHas second
  have shiftedRight : outcome .shr = _ :=
    evaluate_numeric (by decide) leftHas first rightHas second
  constructor
  · intro far
    obtain ⟨refusedLeft, refusedRight⟩ := onInts_of_far (x := x) far
    rw [refusedLeft] at shiftedLeft
    rw [refusedRight] at shiftedRight
    exact ⟨shiftedLeft, shiftedRight⟩
  · rintro n rfl near
    rw [onInts_shl near] at shiftedLeft
    rw [onInts_shr near] at shiftedRight
    have low : (x * 2 ^ n).bmod (2 ^ 128) ≡ x * 2 ^ n [ZMOD 2 ^ 128] := Int.bmod_emod
    exact ⟨_, _, shiftedLeft, fitsInt_bmod _, low, (toInt_shiftLeft x n).symm, bmod_eq_self_iff,
      shiftedRight, fitsInt_fdiv_pow xFits n, (toInt_sshiftRight xFits n).symm,
      (floor_div_pow x n).symm⟩

/-- Minus one can be moved up to the sign, and the sign down to minus one. -/
theorem shifts_of_words_sign :
    let r := (Engine.ofDefinitions []).resolver
    let outcome (op : BinaryOp) (x : Int) :=
      (binary op (const (.int x)) (const (.int 127))).evaluate
      r ⟨[[]], none, none⟩ .this .empty
    outcome .shl (-1) = .ok (.int Value.minInt) .empty ∧
      outcome .shr Value.minInt = .ok (.int (-1)) .empty := by
  intro r outcome
  have has (x : Int) : (const (.int x)).denote r ⟨[[]], none, none⟩ .empty =
      .ok (.value (.int x)) .empty := rfl
  obtain ⟨-, left⟩ := shifts_of_words r ⟨[[]], none, none⟩ .this (x := -1) (y := 127) (by decide)
    (has _) rfl (has _) rfl
  obtain ⟨-, right⟩ := shifts_of_words r ⟨[[]], none, none⟩ .this (x := Value.minInt) (y := 127)
    (by decide) (has _) rfl (has _) rfl
  obtain ⟨product, -, shiftedLeft, -, -, -, exact, -⟩ := left 127 rfl (by decide)
  obtain ⟨-, quotient, -, -, -, -, -, shiftedRight, -, -, floor⟩ := right 127 rfl (by decide)
  have lowest : product = Value.minInt := by
    rw [exact.mpr (by decide)]
    rfl
  have highest : quotient = -1 := by
    rw [floor, floor_div_pow]
    rfl
  rw [lowest] at shiftedLeft
  rw [highest] at shiftedRight
  exact ⟨shiftedLeft, shiftedRight⟩

/-- One moved up to the sign is the least word, not the product, and is not refused. -/
theorem shift_into_sign :
    (binary .shl (const (.int 1)) (const (.int 127))).evaluate (Engine.ofDefinitions []).resolver
      ⟨[[]], none, none⟩ .this .empty = .ok (.int Value.minInt) .empty ∧
    Value.minInt ≠ 1 * 2 ^ 127 ∧ Value.fitsInt (1 * 2 ^ 127) = false := by
  refine ⟨rfl, ?_, ?_⟩ <;> decide

end Expr

end BinaryFormat
