import BinaryFormat.Data.Double

/-!
# Shortest decimal text

The decimal text of a number is written with the fewest digits that read back
as the same number, and of those the nearest.  `shortest` finds the digits in
exact arithmetic on naturals; a `Layout` says how they are written.
-/

namespace BinaryFormat

namespace Decimal

/-- How two equally near digit strings are decided between. -/
inductive Tie where
  | up
  | even
  deriving DecidableEq, Repr

/-- A value on a grid: `digits * 10 ^ scale`. -/
structure Digits where
  digits : Nat
  scale : Int
  deriving DecidableEq, Repr

/-- A positive fraction. -/
private structure Ratio where
  num : Nat
  den : Nat

private def pow10 (base : Ratio) (e : Int) : Ratio :=
  if 0 ≤ e then ⟨base.num * Nat.pow 10 e.toNat, base.den⟩
  else ⟨base.num, base.den * Nat.pow 10 (-e).toNat⟩

/-- The number of decimal digits of a natural number. -/
def length (n : Nat) : Nat := (Nat.toDigits 10 n).length

/-- The exponent of the highest decimal digit of a positive fraction. -/
private def topExponent (v : Ratio) : Int :=
  let guess : Int := (length v.num : Int) - length v.den
  let scaled := pow10 v (-guess)
  if scaled.den ≤ scaled.num then guess else guess - 1

/-- The numbers that round to the one at hand lie between `low` and `high`, in quarters
of its last place; the ends belong to it when its mantissa is even. -/
private structure Target where
  low : Nat
  value : Nat
  high : Nat
  closed : Bool
  /-- A quarter of the last place. -/
  unit : Ratio

private def target (mantissa : Nat) (exponent : Int) : Target where
  low := 4 * mantissa - if mantissa = Nat.pow 2 52 ∧ -1074 < exponent then 1 else 2
  value := 4 * mantissa
  high := 4 * mantissa + 2
  closed := mantissa % 2 = 0
  unit :=
    if 2 ≤ exponent then ⟨Nat.pow 2 (exponent - 2).toNat, 1⟩
    else ⟨1, Nat.pow 2 (2 - exponent).toNat⟩

/-- The nearest grid point that rounds to the target, if one of the two neighbours of the
value on the grid of `10 ^ scale` does. -/
private def onGrid (t : Target) (tie : Tie) (scale : Int) : Option Nat :=
  let unit := pow10 t.unit (-scale)
  let value := t.value * unit.num
  let below := value / unit.den
  let inside (point : Nat) : Bool :=
    if t.closed then t.low * unit.num ≤ point * unit.den && point * unit.den ≤ t.high * unit.num
    else t.low * unit.num < point * unit.den && point * unit.den < t.high * unit.num
  let lost := value - below * unit.den
  let nearerAbove :=
    unit.den < 2 * lost ||
      (unit.den = 2 * lost && (tie = .up || below % 2 = 1))
  if inside below && inside (below + 1) then some (if nearerAbove then below + 1 else below)
  else if inside below then some below
  else if inside (below + 1) then some (below + 1)
  else none

private def search (t : Target) (tie : Tie) (top : Int) : Nat → Int → Digits
  | 0, scale => ⟨(onGrid t tie scale).getD 0, scale⟩
  | more + 1, scale =>
      match onGrid t tie scale with
      | some digits => ⟨digits, scale⟩
      | none => search t tie top more (scale - 1)

/-- The fewest digits that read back as `mantissa * 2 ^ exponent`, the nearest of those. -/
def shortest (tie : Tie) (mantissa : Nat) (exponent : Int) : Digits :=
  let t := target mantissa exponent
  let top := topExponent ⟨t.value * t.unit.num, t.unit.den⟩
  search t tie top 17 top

/-! ## Layouts -/

/-- How the digits of a number are laid out. -/
structure Layout where
  /-- Positional notation is used when the exponent of the first digit is at least this. -/
  lowest : Option Int
  /-- Positional notation is used when the exponent of the first digit is less than this. -/
  limit : Option Int
  /-- Whether a whole number in positional notation ends in `.0`. -/
  point : Bool
  /-- Whether a positive exponent has a sign. -/
  plus : Bool
  tie : Tie

/-- Sixteen whole and four fractional places are positional, and `.0` marks a float. -/
def Layout.plain : Layout := ⟨some (-4), some 16, true, false, .up⟩

/-- All places are written out. -/
def Layout.positional : Layout := ⟨none, none, false, false, .up⟩

/-- The layout of JSON text: sixteen whole and five fractional places. -/
def Layout.json : Layout := ⟨some (-5), some 16, true, true, .even⟩

private def zeros (n : Nat) : String := String.ofList (List.replicate n '0')

/-- The digits with `scale` in positional notation. -/
private def positionalText (digits : List Char) (scale : Int) (point : Bool) : String :=
  if 0 ≤ scale then
    String.ofList digits ++ zeros scale.toNat ++ if point then ".0" else ""
  else
    let places := (-scale).toNat
    if digits.length ≤ places then
      "0." ++ zeros (places - digits.length) ++ String.ofList digits
    else
      String.ofList (digits.take (digits.length - places)) ++ "." ++
        String.ofList (digits.drop (digits.length - places))

private def exponentText (digits : List Char) (exponent : Int) (plus : Bool) : String :=
  String.ofList (digits.take 1) ++
    (if digits.length ≤ 1 then "" else "." ++ String.ofList (digits.drop 1)) ++
    "e" ++ (if plus && 0 ≤ exponent then "+" else "") ++ toString exponent

/-- Drops trailing zeros of a grid point. -/
private def trim (d : Digits) : List Char × Int :=
  let text := Nat.toDigits 10 d.digits
  let kept := (text.reverse.dropWhile (· == '0')).reverse
  (kept, d.scale + (text.length - kept.length : Nat))

/-- The text of a number. -/
def text (layout : Layout) (x : Double) : String :=
  if x.isNaN then "NaN"
  else
    let sign := if x.isNegative then "-" else ""
    if x.isInfinite then sign ++ "inf"
    else if x.isZero then sign ++ if layout.point then "0.0" else "0"
    else
      let (digits, scale) := trim (shortest layout.tie x.mantissa x.exponent)
      let exponent := scale + digits.length - 1
      let positional :=
        layout.lowest.all (· ≤ exponent) && layout.limit.all (exponent < ·)
      sign ++ if positional then positionalText digits scale layout.point
        else exponentText digits exponent layout.plus

end Decimal

end BinaryFormat
