/-!
# Bit units

Inside a bit view every bit travels as one unit, a byte that is `0` or `1`.
`expand` spreads bytes into units and `pack` gathers units into bytes, for
either order of the bits in a byte.  Units also read as a number, first unit
highest.
-/

namespace BinaryFormat

/-- Which bit of a byte comes first in a bit view. -/
inductive BitOrder where
  | msbFirst
  | lsbFirst
  deriving DecidableEq, Repr, Inhabited

namespace Bits

/-- The bit positions of a byte, in the order of their units. -/
def positions : BitOrder → List Nat
  | .msbFirst => [7, 6, 5, 4, 3, 2, 1, 0]
  | .lsbFirst => [0, 1, 2, 3, 4, 5, 6, 7]

def unit (bit : Bool) : UInt8 := if bit then 1 else 0

def expandByte (order : BitOrder) (byte : UInt8) : List UInt8 :=
  (positions order).map fun i => unit (byte.toNat.testBit i)

/-- Eight units for every byte. -/
def expand (order : BitOrder) (data : List UInt8) : List UInt8 :=
  data.flatMap (expandByte order)

theorem length_expandByte (order : BitOrder) (byte : UInt8) :
    (expandByte order byte).length = 8 := by
  cases order <;> rfl

theorem length_expand (order : BitOrder) (data : List UInt8) :
    (expand order data).length = 8 * data.length := by
  induction data with
  | nil => rfl
  | cons byte rest ih =>
      have split : expand order (byte :: rest) = expandByte order byte ++ expand order rest := rfl
      rw [split, List.length_append, length_expandByte, ih, List.length_cons]
      omega

/-- One byte from at most eight units; only the low bit of a unit counts. -/
def packByte (order : BitOrder) (units : List UInt8) : UInt8 :=
  let weights := ((positions order).zip units).map fun (i, u) => u.toNat % 2 * Nat.pow 2 i
  UInt8.ofNat (weights.foldl (· + ·) 0)

/-- Gathers units in groups of eight; a trailing partial group is filled with zeros. -/
def pack (order : BitOrder) : List UInt8 → List UInt8
  | a :: b :: c :: d :: e :: f :: g :: h :: rest =>
      packByte order [a, b, c, d, e, f, g, h] :: pack order rest
  | [] => []
  | partialGroup => [packByte order partialGroup]

/-- The units as a number of at most 128 bits, first unit highest.  Any unit other
than zero counts as a set bit, and bits beyond the 128th are lost at the top. -/
def toNat (units : List UInt8) : Nat :=
  units.foldl (fun acc u => (2 * acc + if u = 0 then 0 else 1) % Nat.pow 2 128) 0

/-- The low `count` bits of a number, highest first. -/
def ofNat (value count : Nat) : List UInt8 :=
  (List.range count).reverse.map fun i => unit (value.testBit i)

theorem length_ofNat (value count : Nat) : (ofNat value count).length = count := by
  simp [ofNat]

/-- The number in `[-2^(width-1), 2^(width-1))` that agrees with `value` in its low
`width` bits.  A width of zero or beyond 128 stands for 128. -/
def signExtend (value width : Nat) : Int :=
  let width := if width = 0 ∨ 128 ≤ width then 128 else width
  let low := value % Nat.pow 2 width
  if low < Nat.pow 2 (width - 1) then low else low - Nat.pow 2 width

/-- Reverses the order of the bits inside every byte. -/
def reverseEach (data : List UInt8) : List UInt8 :=
  data.map fun byte => packByte .lsbFirst (expandByte .msbFirst byte)

end Bits

end BinaryFormat
