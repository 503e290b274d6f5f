import BinaryFormat.Format.Meaning
import BinaryFormat.Proofs.Run
import Mathlib

/-!
# Integer arithmetic

The five operations on two integers, the opposite and the absolute value are
exact, or they are refused.  A machine reaches the rounded quotient and its
remainder by truncating first and correcting afterwards; none of its steps
leaves the words of 128 bits.
-/

namespace BinaryFormat

namespace Value

theorem minInt_eq : minInt = -2 ^ 127 := rfl

theorem maxInt_eq : maxInt = 2 ^ 127 - 1 := rfl

theorem fitsInt_iff {n : Int} : fitsInt n ↔ minInt ≤ n ∧ n ≤ maxInt := by
  simp [fitsInt]

/-- A quotient of two words is a word, however it is rounded, but for the least word and minus
one. -/
private theorem fitsInt_quotient {x y q r : Int} (fits : fitsInt x) (parts : r + y * q = x)
    (small : r.natAbs < y.natAbs) (others : ¬(x = minInt ∧ y = -1)) : fitsInt q := by
  rw [fitsInt_iff, minInt_eq, maxInt_eq] at *
  by_contra outside
  rcases Int.lt_or_gt_of_ne (show y ≠ 0 by omega) with neg | pos
  · by_cases large : 2 ^ 127 ≤ q
    · have : (y + 1) * (q - 1) ≤ 0 := mul_nonpos_of_nonpos_of_nonneg (by omega) (by omega)
      have : (y + 2) * (q - 1) ≤ 0 ∨ y = -1 := by
        by_cases last : y = -1
        · exact .inr last
        · exact .inl (mul_nonpos_of_nonpos_of_nonneg (by omega) (by omega))
      grind
    · have : 0 ≤ (y + 1) * (q + 1) := mul_nonneg_of_nonpos_of_nonpos (by omega) (by omega)
      grind
  · by_cases large : 2 ^ 127 ≤ q
    · have : 0 ≤ (y - 1) * (q - 1) := mul_nonneg (by omega) (by omega)
      grind
    · have : (y - 1) * (q + 1) ≤ 0 := mul_nonpos_of_nonneg_of_nonpos (by omega) (by omega)
      grind

end Value

namespace Arithmetic

variable {x y : Int}

/-! ## Rounding down -/

private theorem fmod_of_neg (x : Int) (neg : y < 0) : y < x.fmod y ∧ x.fmod y ≤ 0 :=
  ((Int.fdiv_fmod_unique' neg).mp ⟨rfl, rfl⟩).2

private theorem natAbs_fmod_lt (x : Int) (nonzero : y ≠ 0) : (x.fmod y).natAbs < y.natAbs := by
  rcases Int.lt_or_gt_of_ne nonzero with neg | pos
  · have := fmod_of_neg x neg
    omega
  · have := Int.fmod_nonneg_of_pos x pos
    have := Int.fmod_lt_of_pos x pos
    omega

private theorem sign_fmod (x : Int) (nonzero : y ≠ 0) :
    x.fmod y = 0 ∨ (x.fmod y).sign = y.sign := by
  rcases Int.lt_or_gt_of_ne nonzero with neg | pos
  · have := fmod_of_neg x neg
    rcases Int.lt_or_eq_of_le this.2 with below | none
    · exact .inr (by rw [Int.sign_eq_neg_one_of_neg below, Int.sign_eq_neg_one_of_neg neg])
    · exact .inl none
  · rcases Int.lt_or_eq_of_le (Int.fmod_nonneg_of_pos x pos) with above | none
    · exact .inr (by rw [Int.sign_eq_one_of_pos above, Int.sign_eq_one_of_pos pos])
    · exact .inl none.symm

private theorem fdiv_mul_add_fmod (x y : Int) : x.fdiv y * y + x.fmod y = x := by
  rw [Int.mul_comm, Int.add_comm, Int.fmod_add_mul_fdiv]

theorem floor_div (x : Int) (nonzero : y ≠ 0) : ⌊(x : ℚ) / y⌋ = x.fdiv y := by
  have whole : (y : ℚ) ≠ 0 := by exact_mod_cast nonzero
  have split : (x : ℚ) / y = x.fdiv y + (x.fmod y : ℚ) / y := by
    rw [← mul_div_cancel_right₀ (x.fdiv y : ℚ) whole, ← add_div]
    exact_mod_cast congrArg (fun n : Int => (n : ℚ) / y) (fdiv_mul_add_fmod x y).symm
  rw [split, Int.floor_intCast_add, Int.floor_eq_zero_iff.mpr, add_zero]
  rcases Int.lt_or_gt_of_ne nonzero with neg | pos
  · have bounds := fmod_of_neg x neg
    have below : (y : ℚ) < 0 := by exact_mod_cast neg
    constructor
    · exact div_nonneg_of_nonpos (by exact_mod_cast bounds.2) below.le
    · rw [div_lt_one_of_neg below]
      exact_mod_cast bounds.1
  · have above : (0 : ℚ) < y := by exact_mod_cast pos
    constructor
    · exact div_nonneg (by exact_mod_cast Int.fmod_nonneg_of_pos x pos) above.le
    · rw [div_lt_one above]
      exact_mod_cast Int.fmod_lt_of_pos x pos

/-! ## The steps of a machine -/

/-- An operation of a machine, which stops where the result is no word. -/
def step (n : Int) : Option Int := if Value.fitsInt n then some n else none

/-- A remainder of the dividend's sign, which a machine takes along with the truncated
quotient. -/
def remainderStep (x y : Int) : Option Int := (step (x.tdiv y)).map fun _ => x.tmod y

/-- Whether truncation has rounded up. -/
def Rounded (x y remainder : Int) : Prop := remainder ≠ 0 ∧ ¬(x < 0 ↔ y < 0)

instance : Decidable (Rounded x y n) := inferInstanceAs (Decidable (_ ∧ _))

/-- The quotient, if there is one: the truncated one is asked for, then corrected. -/
def quotientSteps (x y : Int) : Option (Option Int) :=
  match step (x.tdiv y) with
  | none => some none
  | some q => do
    let r ← remainderStep x y
    if Rounded x y r then return some (← step (q - 1))
    return some q

/-- The remainder: that of the truncated quotient, without regard to whether that is a word,
then corrected. -/
def remainderSteps (x y : Int) : Option Int :=
  let r := x.tmod y
  if r ≠ 0 ∧ ¬(r < 0 ↔ y < 0) then step (r + y) else some r

private theorem natAbs_tmod_lt (x : Int) (nonzero : y ≠ 0) : (x.tmod y).natAbs < y.natAbs := by
  rw [Int.natAbs_tmod]
  exact Nat.mod_lt _ (by omega)

private theorem sign_tmod_iff (inexact : x.tmod y ≠ 0) : x.tmod y < 0 ↔ x < 0 := by
  rcases Int.lt_or_le x 0 with neg | nonneg
  · have := Int.tmod_nonneg y (Int.neg_nonneg_of_nonpos neg.le)
    rw [Int.neg_tmod] at this
    omega
  · have := Int.tmod_nonneg y nonneg
    omega

private theorem fdiv_fmod_eq {q r : Int} (parts : r + y * q = x) (small : r.natAbs < y.natAbs)
    (sign : r = 0 ∨ (r < 0 ↔ y < 0)) : x.fdiv y = q ∧ x.fmod y = r := by
  rcases Int.lt_or_gt_of_ne (show y ≠ 0 by omega) with neg | pos
  · rw [Int.fdiv_fmod_unique' neg]
    exact ⟨parts, by omega, by omega⟩
  · rw [Int.fdiv_fmod_unique pos]
    exact ⟨parts, by omega, by omega⟩

/-- Rounding down corrects what truncation has rounded up. -/
private theorem fdiv_fmod_of_truncated (x : Int) (nonzero : y ≠ 0) :
    x.fdiv y = (if Rounded x y (x.tmod y) then x.tdiv y - 1 else x.tdiv y) ∧
    x.fmod y = (if Rounded x y (x.tmod y) then x.tmod y + y else x.tmod y) := by
  have parts := Int.tmod_add_mul_tdiv x y
  have small := natAbs_tmod_lt x nonzero
  have signs := @sign_tmod_iff x y
  by_cases rounded : Rounded x y (x.tmod y)
  · simp only [if_pos rounded]
    obtain ⟨inexact, apart⟩ := rounded
    have := signs inexact
    apply fdiv_fmod_eq
    · rw [Int.mul_sub]
      omega
    · omega
    · omega
  · simp only [if_neg rounded]
    apply fdiv_fmod_eq parts small
    by_cases whole : x.tmod y = 0
    · exact .inl whole
    · have := signs whole
      have together : x < 0 ↔ y < 0 := not_not.mp fun apart => rounded ⟨whole, apart⟩
      exact .inr (by omega)

private theorem fitsInt_tdiv (xFits : Value.fitsInt x) (nonzero : y ≠ 0)
    (others : ¬(x = Value.minInt ∧ y = -1)) : Value.fitsInt (x.tdiv y) :=
  Value.fitsInt_quotient xFits (Int.tmod_add_mul_tdiv x y) (natAbs_tmod_lt x nonzero) others

theorem fitsInt_fdiv_iff (xFits : Value.fitsInt x) (nonzero : y ≠ 0) :
    Value.fitsInt (x.fdiv y) ↔ ¬(x = Value.minInt ∧ y = -1) := by
  constructor
  · rintro fits ⟨rfl, rfl⟩
    revert fits
    decide
  · exact Value.fitsInt_quotient xFits (Int.fmod_add_mul_fdiv x y) (natAbs_fmod_lt x nonzero)

private theorem onInts_div (nonzero : y ≠ 0) : onInts .div x y = checked .div x y (x.fdiv y) :=
  if_neg nonzero

private theorem onInts_rem (nonzero : y ≠ 0) : onInts .rem x y = .ok (x.fmod y) :=
  if_neg nonzero

private theorem fitsInt_fmod (yFits : Value.fitsInt y) (nonzero : y ≠ 0) :
    Value.fitsInt (x.fmod y) := by
  have small := natAbs_fmod_lt x nonzero
  rw [Value.fitsInt_iff, Value.minInt_eq, Value.maxInt_eq] at *
  omega

/-- No step towards the quotient is stopped: where the truncated quotient is no word there is
none, and elsewhere both the remainder and the corrected quotient are words. -/
private theorem quotientSteps_eq (xFits : Value.fitsInt x) (nonzero : y ≠ 0) :
    quotientSteps x y = some (onInts .div x y).toOption := by
  have rounding := (fdiv_fmod_of_truncated x nonzero).1
  by_cases least : x = Value.minInt ∧ y = -1
  · obtain ⟨rfl, rfl⟩ := least
    decide
  · have truncated := fitsInt_tdiv xFits nonzero least
    have fits := (fitsInt_fdiv_iff xFits nonzero).mpr least
    rw [quotientSteps, remainderStep, step, if_pos truncated, onInts_div nonzero, checked,
      if_pos fits]
    by_cases rounded : Rounded x y (x.tmod y)
    · rw [if_pos rounded] at rounding
      rw [rounding] at fits ⊢
      simp [rounded, step, fits, Except.toOption]
    · rw [if_neg rounded] at rounding
      simp [rounded, rounding, Except.toOption]

private theorem remainderSteps_eq (yFits : Value.fitsInt y) (nonzero : y ≠ 0) :
    remainderSteps x y = (onInts .rem x y).toOption := by
  have rounding := (fdiv_fmod_of_truncated x nonzero).2
  have fits := fitsInt_fmod (x := x) yFits nonzero
  have rounded : (x.tmod y ≠ 0 ∧ ¬(x.tmod y < 0 ↔ y < 0)) ↔ Rounded x y (x.tmod y) :=
    and_congr_right fun inexact => by rw [sign_tmod_iff inexact]
  rw [onInts_rem nonzero, Except.toOption, remainderSteps]
  by_cases apart : Rounded x y (x.tmod y)
  · rw [if_pos apart] at rounding
    rw [if_pos (rounded.mpr apart), rounding, step, if_pos (rounding ▸ fits)]
  · rw [if_neg apart] at rounding
    rw [if_neg (mt rounded.mp apart), rounding]

/-! ## Expressions -/

/-- The operations of arithmetic. -/
def arithmetic : List BinaryOp := [.add, .sub, .mul, .div, .rem]

/-- The operations that two integers or booleans reach as integers. -/
def numeric : List BinaryOp := arithmetic ++ [.shl, .shr]

private theorem apply_of_ints {op : BinaryOp} {a b : Value} (known : op ∈ numeric)
    (left : a.int? = some x) (right : b.int? = some y) :
    apply op a b = (onInts op x y).map .int := by
  have ordered : isComparison op = false := by
    revert op
    decide
  have logical : onBools op = fun _ _ => none := by
    funext p q
    revert op p q
    decide
  have operands : numbers op a b = (onInts op x y).map .int := by
    cases a <;> cases b <;> simp_all [Value.int?, numbers]
  cases a <;> cases b <;> simp_all [Value.int?, apply]

end Arithmetic

@[simp] theorem Denoted.toValue_value (v : Value) : (Denoted.value v).toValue = v := rfl

namespace Expr

open Arithmetic

/-- An integer where it is a word, and a refusal elsewhere. -/
def exactOr (cause : Unevaluable) (path : Path) (n : Int) (store : LazyStore) :
    EStateM.Result Failure LazyStore Value :=
  if Value.fitsInt n then .ok (.int n) store
  else .error ((Fault.unevaluable cause).atPath path) store

variable {r : Resolver} {scope : Scope} {path : Path} {store between after : LazyStore}
variable {left right operand : Expr} {a b : Denoted} {x y : Int}

private theorem denote_numeric {op : BinaryOp} (known : op ∈ numeric)
    (leftHas : left.denote r scope store = .ok a between) (first : a.toValue.int? = some x)
    (rightHas : right.denote r scope between = .ok b after) (second : b.toValue.int? = some y) :
    (binary op left right).denote r scope store =
      match onInts op x y with
      | .ok n => .ok (.value (.int n)) after
      | .error cause => .error (.unevaluable cause) after := by
  have applied := apply_of_ints known first second
  simp only [numeric, arithmetic, List.mem_append, List.mem_cons, List.not_mem_nil, or_false]
    at known
  rcases known with (rfl | rfl | rfl | rfl | rfl) | rfl | rfl <;>
    · cases outcome : onInts _ x y <;>
        simp [denote, bind, EStateM.bind, pure, EStateM.pure, leftHas, rightHas, applyBinary,
          applied, outcome, pureResult, Except.map, throw, throwThe, MonadExceptOf.throw,
          EStateM.throw]

theorem evaluate_numeric {op : BinaryOp} (known : op ∈ numeric)
    (leftHas : left.denote r scope store = .ok a between) (first : a.toValue.int? = some x)
    (rightHas : right.denote r scope between = .ok b after) (second : b.toValue.int? = some y) :
    (binary op left right).evaluate r scope path store =
      match onInts op x y with
      | .ok n => .ok (.int n) after
      | .error cause => .error ((Fault.unevaluable cause).atPath path) after := by
  have denoted := denote_numeric known leftHas first rightHas second
  cases outcome : onInts op x y <;>
    · rw [outcome] at denoted
      simp [evaluate, Lookup.atPath, bind, EStateM.bind, pure, EStateM.pure, denoted]

private theorem evaluate_arithmetic {op : BinaryOp} (known : op ∈ arithmetic)
    (leftHas : left.denote r scope store = .ok a between) (first : a.toValue.int? = some x)
    (rightHas : right.denote r scope between = .ok b after) (second : b.toValue.int? = some y) :
    (binary op left right).evaluate r scope path store =
      match onInts op x y with
      | .ok n => .ok (.int n) after
      | .error cause => .error ((Fault.unevaluable cause).atPath path) after :=
  evaluate_numeric (List.mem_append_left _ known) leftHas first rightHas second

private theorem evaluate_checked {op : BinaryOp} {n : Int} (known : op ∈ arithmetic)
    (computed : onInts op x y = checked op x y n)
    (leftHas : left.denote r scope store = .ok a between) (first : a.toValue.int? = some x)
    (rightHas : right.denote r scope between = .ok b after) (second : b.toValue.int? = some y) :
    (binary op left right).evaluate r scope path store =
      exactOr (.overflow x op.symbol y) path n after := by
  rw [evaluate_arithmetic known leftHas first rightHas second, computed, checked, exactOr]
  by_cases fits : Value.fitsInt n <;> simp [fits]

private theorem evaluate_neg (has : operand.denote r scope store = .ok a after)
    (int : a.toValue = .int x) :
    (unary .neg operand).evaluate r scope path store =
      exactOr (.negOverflow x) path (-x) after := by
  by_cases fits : Value.fitsInt (-x) <;>
    simp [evaluate, denote, Lookup.atPath, bind, EStateM.bind, pure, EStateM.pure, has, int,
      Arithmetic.unary, pureResult, exactOr, fits, throw, throwThe, MonadExceptOf.throw,
      EStateM.throw]

private theorem evaluate_abs (has : operand.denote r scope store = .ok a after)
    (int : a.toValue = .int x) :
    (call .abs [operand]).evaluate r scope path store =
      exactOr (.absOverflow x) path |x| after := by
  by_cases fits : Value.fitsInt |x| <;>
    simp [evaluate, denote, denoteAll, Lookup.atPath, bind, EStateM.bind, pure, EStateM.pure, has,
      int, applyHelper, onlyArgument, Arithmetic.abs, pureResult, exactOr, fits, throw, throwThe,
      MonadExceptOf.throw, EStateM.throw]

/-- Arithmetic on two words is exact, or it is refused where the result is no word; only a
division by zero has no result.  Division rounds down, and none of its steps is stopped. -/
theorem integers_exact_or_refused (r : Resolver) (scope : Scope) (path : Path) {x y : Int}
    (xFits : Value.fitsInt x) (yFits : Value.fitsInt y) :
    (∀ {left right : Expr} {a b : Denoted} {store between after : LazyStore},
      left.denote r scope store = .ok a between → a.toValue.int? = some x →
      right.denote r scope between = .ok b after → b.toValue.int? = some y →
      let outcome op := (binary op left right).evaluate r scope path store
      outcome .add = exactOr (.overflow x "+" y) path (x + y) after ∧
      outcome .sub = exactOr (.overflow x "-" y) path (x - y) after ∧
      outcome .mul = exactOr (.overflow x "*" y) path (x * y) after ∧
      (y = 0 → ∀ op ∈ [BinaryOp.div, .rem],
        outcome op = .error ((Fault.unevaluable .divisionByZero).atPath path) after) ∧
      (y ≠ 0 → ∃ q m : Int,
        outcome .div = exactOr (.overflow x "//" y) path q after ∧ q = ⌊(x : ℚ) / y⌋ ∧
        (Value.fitsInt q ↔ ¬(x = Value.minInt ∧ y = -1)) ∧
        outcome .rem = .ok (.int m) after ∧ Value.fitsInt m ∧
        (m = 0 ∨ m.sign = y.sign) ∧ |m| < |y| ∧ x = q * y + m ∧
        quotientSteps x y = some (if Value.fitsInt q then some q else none) ∧
        remainderSteps x y = some m)) ∧
    (∀ {operand : Expr} {a : Denoted} {store after : LazyStore},
      operand.denote r scope store = .ok a after → a.toValue = .int x →
      (unary .neg operand).evaluate r scope path store =
        exactOr (.negOverflow x) path (-x) after ∧
      (call .abs [operand]).evaluate r scope path store =
        exactOr (.absOverflow x) path |x| after) := by
  constructor
  · intro left right a b store between after leftHas first rightHas second outcome
    have settled {op : BinaryOp} {n : Int} (known : op ∈ arithmetic)
        (computed : onInts op x y = checked op x y n) :
        outcome op = exactOr (.overflow x op.symbol y) path n after :=
      evaluate_checked known computed leftHas first rightHas second
    refine ⟨settled (by decide) rfl, settled (by decide) rfl, settled (by decide) rfl, ?_, ?_⟩
    · intro zero op known
      have divides : onInts op x y = .error .divisionByZero := by
        simp only [List.mem_cons, List.not_mem_nil, or_false] at known
        rcases known with rfl | rfl <;> simp [onInts, zero]
      have evaluated : outcome op = _ := evaluate_arithmetic
        (List.mem_of_mem_drop (i := 3) known) leftHas first rightHas second
      rw [divides] at evaluated
      exact evaluated
    · intro nonzero
      have remainder : outcome .rem = _ :=
        evaluate_arithmetic (by decide) leftHas first rightHas second
      have steps := quotientSteps_eq xFits nonzero
      have correction := remainderSteps_eq (x := x) yFits nonzero
      rw [onInts_rem nonzero] at remainder correction
      rw [onInts_div nonzero] at steps
      -- The quotient rounds down and the remainder goes with it; the machine gets there by
      -- correcting truncation.
      refine ⟨x.fdiv y, x.fmod y, settled (by decide) (onInts_div nonzero),
        (floor_div x nonzero).symm, fitsInt_fdiv_iff xFits nonzero, remainder,
        fitsInt_fmod yFits nonzero, sign_fmod x nonzero, ?_, (fdiv_mul_add_fmod x y).symm, ?_,
        correction⟩
      · rw [Int.abs_eq_natAbs, Int.abs_eq_natAbs]
        exact_mod_cast natAbs_fmod_lt x nonzero
      · rw [steps, checked]
        split <;> rfl
  · intro operand a store after has int
    exact ⟨evaluate_neg has int, evaluate_abs has int⟩

/-- The least word has no opposite and no quotient by minus one, and yet a remainder. -/
theorem integers_exact_or_refused_least :
    let r := (Engine.ofDefinitions []).resolver
    let least := const (.int Value.minInt)
    let outcome (e : Expr) := e.evaluate r ⟨[[]], none, none⟩ .this .empty
    outcome (binary .div least (const (.int (-1)))) =
      .error ((Fault.unevaluable (.overflow Value.minInt "//" (-1))).atPath .this) .empty ∧
    outcome (binary .rem least (const (.int (-1)))) = .ok (.int 0) .empty ∧
    outcome (unary .neg least) =
      .error ((Fault.unevaluable (.negOverflow Value.minInt)).atPath .this) .empty ∧
    quotientSteps Value.minInt (-1) = some none := by
  intro r least outcome
  obtain ⟨binary, single⟩ := integers_exact_or_refused r ⟨[[]], none, none⟩ .this
    (x := Value.minInt) (y := -1) (by decide) (by decide)
  have leftHas : least.denote r ⟨[[]], none, none⟩ .empty =
      .ok (.value (.int Value.minInt)) .empty := rfl
  have rightHas : (const (.int (-1))).denote r ⟨[[]], none, none⟩ .empty =
      .ok (.value (.int (-1))) .empty := rfl
  obtain ⟨-, -, -, -, division⟩ := binary leftHas rfl rightHas rfl
  obtain ⟨q, m, quotient, -, fits, remainder, -, -, small, parts, steps, -⟩ :=
    division (by decide)
  have refused : Value.fitsInt q = false := by
    rw [← Bool.not_eq_true, fits]
    exact not_not.mpr ⟨rfl, rfl⟩
  have none : m = 0 := by
    simpa using small
  refine ⟨?_, ?_, (single leftHas rfl).1, ?_⟩
  · simpa [exactOr, refused] using quotient
  · rw [← none]
    exact remainder
  · simpa [refused] using steps

end Expr

end BinaryFormat
