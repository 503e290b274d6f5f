import BinaryFormat.Expr.Basic

/-!
# Arithmetic on values

Integers are exact within 128 signed bits: a result outside is refused, and
division rounds down.  An operand may be a boolean, counting as 0 or 1.  Where
one operand is a float the other is converted, and only the five operations of
real arithmetic apply.
-/

namespace BinaryFormat

namespace Arithmetic

/-! ## Order -/

def compareLists : List Nat → List Nat → Ordering
  | [], [] => .eq
  | [], _ :: _ => .lt
  | _ :: _, [] => .gt
  | a :: as, b :: bs =>
    match compare a b with
    | .eq => compareLists as bs
    | other => other

/-- The order of two numbers, two texts or two byte strings; none between others. -/
def compareValues? : Value → Value → Option Ordering
  | .str a, .str b =>
      some (compareLists (a.toList.map Char.toNat) (b.toList.map Char.toNat))
  | .bytes a, .bytes b =>
      some (compareLists (a.map UInt8.toNat) (b.map UInt8.toNat))
  | .float a, b => b.float?.bind a.compare?
  | a, .float b => a.float?.bind fun a => a.compare? b
  | a, b => do some (compare (← a.int?) (← b.int?))

/-- Whether an order makes a comparison true. -/
def decides : BinaryOp → Ordering → Bool
  | .lt, order => order == .lt
  | .le, order => order != .gt
  | .gt, order => order == .gt
  | .ge, order => order != .lt
  | _, _ => false

/-! ## Integers -/

/-- A result, or the refusal of one that does not fit. -/
def checked (op : BinaryOp) (x y result : Int) : Except Unevaluable Int :=
  if Value.fitsInt result then .ok result else .error (.overflow x op.symbol y)

/-- An operation on the 128 bits of two's complement. -/
def bitwise (op : BitVec 128 → BitVec 128 → BitVec 128) (x y : Int) : Int :=
  (op (BitVec.ofInt 128 x) (BitVec.ofInt 128 y)).toInt

/-- A shift distance below the width. -/
def shift (op : BinaryOp) (x y : Int) (result : Nat → Int) : Except Unevaluable Int :=
  if 0 ≤ y ∧ y < 128 then .ok (result y.toNat) else .error (.overflow x op.symbol y)

def onInts (op : BinaryOp) (x y : Int) : Except Unevaluable Int :=
  match op with
  | .add => checked op x y (x + y)
  | .sub => checked op x y (x - y)
  | .mul => checked op x y (x * y)
  | .div => if y = 0 then .error .divisionByZero else checked op x y (x.fdiv y)
  | .rem => if y = 0 then .error .divisionByZero else .ok (x.fmod y)
  | .bitAnd => .ok (bitwise (· &&& ·) x y)
  | .bitOr => .ok (bitwise (· ||| ·) x y)
  | .bitXor => .ok (bitwise (· ^^^ ·) x y)
  | .shl => shift op x y fun n => (x * Nat.pow 2 n).bmod (Nat.pow 2 128)
  | .shr => shift op x y fun n => x.fdiv (Nat.pow 2 n)
  | _ => .error (.notArithmetic op.symbol)

/-! ## All values -/

def onFloats : BinaryOp → Double → Double → Option Double
  | .add, x, y => some (x.add y)
  | .sub, x, y => some (x.sub y)
  | .mul, x, y => some (x.mul y)
  | .div, x, y => some (x.div y)
  | .rem, x, y => some (x.rem y)
  | _, _, _ => none

def onBools : BinaryOp → Bool → Bool → Option Bool
  | .bitAnd, x, y => some (x && y)
  | .bitOr, x, y => some (x || y)
  | .bitXor, x, y => some (x ^^ y)
  | _, _, _ => none

def isComparison : BinaryOp → Bool
  | .lt | .le | .gt | .ge => true
  | _ => false

def mismatch (op : BinaryOp) (a b : Value) : Unevaluable :=
  .operands op.symbol a.typeName b.typeName

/-- An operation on two numbers, of which one may be a float. -/
def numbers (op : BinaryOp) (a b : Value) : Except Unevaluable Value :=
  let isFloat : Value → Bool
    | .float _ => true
    | _ => false
  if isFloat a || isFloat b then
    match a.float?, b.float? with
    | some x, some y =>
      match onFloats op x y with
      | some z => .ok (.float z)
      | none => .error (mismatch op a b)
    | _, _ => .error (mismatch op a b)
  else
    match a.int?, b.int? with
    | some x, some y => (onInts op x y).map .int
    | _, _ => .error (mismatch op a b)

/-- Any operation but equality and the logical ones. -/
def apply (op : BinaryOp) (a b : Value) : Except Unevaluable Value :=
  if isComparison op then
    match compareValues? a b with
    | some order => .ok (.bool (decides op order))
    | none => .error (mismatch op a b)
  else
    match a, b with
    | .bytes x, .bytes y => if op = .add then .ok (.bytes (x ++ y)) else numbers op a b
    | .str x, .str y => if op = .add then .ok (.str (x ++ y)) else numbers op a b
    | .bool x, .bool y =>
      match onBools op x y with
      | some z => .ok (.bool z)
      | none => numbers op a b
    | _, _ => numbers op a b

def unary : UnaryOp → Value → Except Unevaluable Value
  | .neg, .int n => if Value.fitsInt (-n) then .ok (.int (-n)) else .error (.negOverflow n)
  | .neg, .float x => .ok (.float x.neg)
  | .neg, v => .error (.negate v.typeName)
  | .not, .int n => .ok (.int (-n - 1))
  | .not, v => .ok (.bool !v.holds)

def abs : Value → Except Unevaluable Value
  | .int n =>
      if Value.fitsInt n.natAbs then .ok (.int n.natAbs) else .error (.absOverflow n)
  | .float x => .ok (.float x.abs)
  | v => .error (.absOf v.typeName)

def sum (items : List Value) : Except Unevaluable Value :=
  items.foldlM (apply .add) (.int 0)

/-- The first of the elements that no later one is beyond, in the direction `wanted`. -/
def extreme (name : String) (wanted : Ordering) : List Value → Except Unevaluable Value
  | [] => .error (.emptyExtreme name)
  | first :: rest =>
      rest.foldlM (fun best v =>
        match compareValues? v best with
        | some order => .ok (if order = wanted then v else best)
        | none => .error (.incomparable name)) first

end Arithmetic

end BinaryFormat
