/-!
# Double-precision numbers

A number is kept as its 64 bits, so that every pattern, also that of a number
that is none (NaN), survives being read and written.  Rounding from integers
and from single precision is to nearest, ties to even.
-/

namespace BinaryFormat

/-- An IEEE 754 binary64 number, as its bits. -/
structure Double where
  bits : UInt64
  deriving DecidableEq, Repr, Inhabited

namespace Double

def isNegative (x : Double) : Bool := x.bits.toNat.testBit 63

def exponentBits (x : Double) : Nat := x.bits.toNat / Nat.pow 2 52 % Nat.pow 2 11

def fractionBits (x : Double) : Nat := x.bits.toNat % Nat.pow 2 52

def isNaN (x : Double) : Bool := x.exponentBits == 2047 && x.fractionBits != 0

def isInfinite (x : Double) : Bool := x.exponentBits == 2047 && x.fractionBits == 0

def isFinite (x : Double) : Bool := x.exponentBits != 2047

def isZero (x : Double) : Bool := x.exponentBits == 0 && x.fractionBits == 0

/-- The size of a finite number as `mantissa * 2 ^ exponent`. -/
def mantissa (x : Double) : Nat :=
  if x.exponentBits = 0 then x.fractionBits else Nat.pow 2 52 + x.fractionBits

def exponent (x : Double) : Int :=
  if x.exponentBits = 0 then -1074 else (x.exponentBits : Int) - 1075

def ofFields (negative : Bool) (exponent fraction : Nat) : Double :=
  ⟨UInt64.ofNat ((if negative then Nat.pow 2 63 else 0) + exponent * Nat.pow 2 52 + fraction)⟩

/-- The number `± mantissa * 2 ^ exponent`, for arguments that it represents exactly. -/
def ofScaled (negative : Bool) (mantissa : Nat) (exponent : Int) : Double :=
  if mantissa = 0 then ofFields negative 0 0
  else
    let top := mantissa.log2
    let full := if top ≤ 52 then mantissa <<< (52 - top) else mantissa >>> (top - 52)
    let biased := exponent + top + 1023
    if 1 ≤ biased then ofFields negative biased.toNat (full - Nat.pow 2 52)
    else ofFields negative 0 (full >>> (1 - biased).toNat)

/-- The nearest number to a natural number, ties to even. -/
def ofNat (n : Nat) : Double :=
  let shift := n.log2 - 52
  let kept := n >>> shift
  let lost := n % Nat.pow 2 shift
  let up := Nat.pow 2 shift < 2 * lost ∨ (Nat.pow 2 shift = 2 * lost ∧ kept % 2 = 1)
  ofScaled false (if up then kept + 1 else kept) shift

def neg (x : Double) : Double := ⟨x.bits ^^^ 0x8000000000000000⟩

def abs (x : Double) : Double := ⟨x.bits &&& 0x7fffffffffffffff⟩

/-- The nearest number to an integer, ties to even. -/
def ofInt (n : Int) : Double := if n < 0 then (ofNat n.natAbs).neg else ofNat n.natAbs

/-! ## Order -/

/-- Where a number that is not NaN stands on the line of all numbers; both zeros stand
at zero. -/
def rank (x : Double) : Int :=
  let size : Int := (x.bits.toNat % Nat.pow 2 63 : Nat)
  if x.isNegative then -size else size

/-- The order of two numbers; none if one of them is NaN. -/
def compare? (x y : Double) : Option Ordering :=
  if x.isNaN || y.isNaN then none else some (compare x.rank y.rank)

/-- Numeric equality: NaN differs from itself, and both zeros are equal. -/
def same (x y : Double) : Bool := x.compare? y == some .eq

/-! ## Arithmetic -/

def quiet (x : Double) : Double := ⟨x.bits ||| 0x0008000000000000⟩

/-- The result of an operation that has none. -/
def invalid : Double := ⟨0xfff8000000000000⟩

/-- Applies an operation of IEEE 754; the first operand that is NaN is passed on. -/
def lift (op : Float → Float → Float) (x y : Double) : Double :=
  if x.isNaN then x.quiet
  else if y.isNaN then y.quiet
  else
    let result := op (Float.ofBits x.bits) (Float.ofBits y.bits)
    if result.isNaN then invalid else ⟨result.toBits⟩

def add : Double → Double → Double := lift (· + ·)

def sub : Double → Double → Double := lift (· - ·)

def mul : Double → Double → Double := lift (· * ·)

def div : Double → Double → Double := lift (· / ·)

/-- The remainder of the division toward zero, which is always exact and has the sign
of the dividend. -/
def rem (x y : Double) : Double :=
  if x.isNaN then x.quiet
  else if y.isNaN then y.quiet
  else if x.isInfinite || y.isZero then invalid
  else if y.isInfinite then x
  else
    let low := min x.exponent y.exponent
    let dividend := x.mantissa <<< (x.exponent - low).toNat
    let divisor := y.mantissa <<< (y.exponent - low).toNat
    ofScaled x.isNegative (dividend % divisor) low

/-! ## Single precision -/

/-- Widens the bits of a binary32 number; a NaN keeps its payload and becomes quiet. -/
def ofSingle (single : UInt32) : Double :=
  let n := single.toNat
  if n / Nat.pow 2 23 % Nat.pow 2 8 = 255 then
    if n % Nat.pow 2 23 = 0 then ofFields (n.testBit 31) 2047 0
    else (ofFields (n.testBit 31) 2047 (n % Nat.pow 2 23 * Nat.pow 2 29)).quiet
  else ⟨(Float32.ofBits single).toFloat.toBits⟩

/-- The bits of the nearest binary32 number; a NaN keeps the top of its payload and
becomes quiet. -/
def toSingle (x : Double) : UInt32 :=
  if x.isNaN then
    UInt32.ofNat ((if x.isNegative then Nat.pow 2 31 else 0) + 255 * Nat.pow 2 23 +
      x.quiet.fractionBits / Nat.pow 2 29)
  else (Float.ofBits x.bits).toFloat32.toBits

/-- Whether the bits are those of an infinite binary32 number. -/
def isInfiniteSingle (single : UInt32) : Bool := single.toNat % Nat.pow 2 31 == 255 * Nat.pow 2 23

end Double

end BinaryFormat
