import BinaryFormat.Codec.Basic
import BinaryFormat.Data.Bytes

/-!
# Numbers

Two's complement integers of a fixed width in bytes or in bit units, single
bits, integers of variable length in base 128, and IEEE 754 numbers.
-/

namespace BinaryFormat

namespace Integer

/-- Whether an integer has a pattern of so many bits. -/
def fits (v : Int) (bits : Nat) (signed : Bool) : Bool :=
  if signed then -Nat.pow 2 (bits - 1) ≤ v && v < Nat.pow 2 (bits - 1)
  else 0 ≤ v && v < Nat.pow 2 bits

/-- The bits of an integer as a natural number. -/
def toPattern (v : Int) (bits : Nat) : Nat := (v % Nat.pow 2 bits).toNat

/-- The integer with the given bits; an unsigned one has to be within the range of
values. -/
def ofPattern (pattern bits : Nat) (signed : Bool) : Except Fault Int :=
  if signed then .ok (Bits.signExtend pattern bits)
  else if Nat.pow 2 127 ≤ pattern then .error (.misfit (.pattern pattern))
  else .ok pattern

/-- The pattern of an integer that has to fit. -/
def checkedPattern (v : Int) (bits : Nat) (signed : Bool) : Except Fault Nat :=
  if fits v bits signed then .ok (toPattern v bits) else .error (.misfit (.integer v bits signed))

/-- The width of a number has to be between one and a limit. -/
def checkWidth (width limit : Nat) (unit : String) : Except Fault Unit :=
  if width = 0 ∨ limit < width then .error (.misfit (.width limit unit width)) else .ok ()

def ofValue (v : Value) : Except Fault Int :=
  match v.int? with
  | some n => .ok n
  | none => .error (.misfit (.notInteger v.typeName))

/-- The bytes of a number in the order of the stream, and back. -/
def inOrder (endian : Endian) (data : List UInt8) : List UInt8 :=
  if endian.isLittle then data.reverse else data

/-- Reverses the order of whole groups of eight units. -/
def swapGroups (units : List UInt8) : Except Fault (List UInt8) :=
  if units.length % 8 ≠ 0 then .error (.misfit (.byteSwap units.length))
  else .ok (Bytes.chunks 8 units).reverse.flatten

end Integer

/-! ## Integers of variable length -/

namespace Varint

/-- The shortest numeral in base 128: low groups first, every byte but the last with its
high bit set. -/
def numeral (n : Nat) : List UInt8 :=
  if n < 128 then [UInt8.ofNat n] else UInt8.ofNat (n % 128 + 128) :: numeral (n / 128)
termination_by n

/-- The natural number that stands for an integer: 0, -1, 1, -2, ... count as 0, 1, 2, 3. -/
def zigzag (v : Int) : Nat := if 0 ≤ v then (2 * v).toNat else (-2 * v - 1).toNat

def unzigzag (n : Nat) : Int := if n % 2 = 0 then (n / 2 : Nat) else -(n / 2 : Nat) - 1

/-- Reads a numeral of which the bytes `seen` were read before, with value `acc`.  At most
`more` bytes can follow. -/
def readFrom (maxBits : Nat) (path : Path) : Nat → Nat → Nat → List UInt8 → Run Nat
  | 0, _, _, _ => Run.fail (.shortage (.read 1 0)) path
  | more + 1, acc, shift, seen => do
    let byte := (← Run.read 1 path).headD 0
    let seen := seen ++ [byte]
    let group := byte.toNat % 128
    if group ≠ 0 ∧ (maxBits ≤ shift ∨ group >>> min (maxBits - shift) 7 ≠ 0) then
      Run.fail (.excess (.numeral seen maxBits)) path
    let acc := acc + group * Nat.pow 2 shift
    if byte.toNat < 128 then return acc
    readFrom maxBits path more acc (shift + 7) seen

/-- Reads a numeral of at most `maxBits` bits. -/
def read (maxBits : Nat) (path : Path) : Run Nat := do
  readFrom maxBits path ((← Run.available) + 1) 0 0 []

end Varint

/-! ## Codecs -/

namespace Codec

/-- Two's complement integer of `width` bytes. -/
def integer (e : Engine) (width : Expr) (signed : Bool) (endian : Endian) : Codec where
  parse path := do
    let width ← e.evalSize width path
    Run.ofExcept path (Integer.checkWidth width 16 "bytes")
    let data ← Run.read width path
    let pattern := Bytes.toNat (Integer.inOrder endian data)
    return .int (← Run.ofExcept path (Integer.ofPattern pattern (width * 8) signed))
  build v path := do
    let width ← e.evalSize width path
    Run.ofExcept path (Integer.checkWidth width 16 "bytes")
    let n ← Run.ofExcept path (Integer.ofValue v)
    let pattern ← Run.ofExcept path (Integer.checkedPattern n (width * 8) signed)
    Run.write (Integer.inOrder endian (Bytes.ofNat width pattern)) path
    return .int n
  size ctx path := e.staticSize width ctx path

/-- Two's complement integer of `width` bit units; `swapped` reverses its bytes. -/
def bitInteger (e : Engine) (width : Expr) (signed swapped : Bool) : Codec where
  parse path := do
    let width ← e.evalSize width path
    Run.ofExcept path (Integer.checkWidth width 128 "bits")
    let units ← Run.read width path
    let units ← if swapped then Run.ofExcept path (Integer.swapGroups units) else pure units
    let pattern := Bits.toNat units
    return .int (← Run.ofExcept path (Integer.ofPattern pattern width signed))
  build v path := do
    let width ← e.evalSize width path
    Run.ofExcept path (Integer.checkWidth width 128 "bits")
    let n ← Run.ofExcept path (Integer.ofValue v)
    let pattern ← Run.ofExcept path (Integer.checkedPattern n width signed)
    let units := Bits.ofNat pattern width
    let units ← if swapped then Run.ofExcept path (Integer.swapGroups units) else pure units
    Run.write units path
    return .int n
  size ctx path := e.staticSize width ctx path

/-- One unit as a boolean. -/
def flag : Codec where
  parse path := do
    let unit := (← Run.read 1 path).headD 0
    return .bool (unit != 0)
  build v path := do
    let bit ←
      match v with
      | .bool b => pure b
      | .int n => pure (n != 0)
      | _ => Run.fail (.misshapen (.expected "a bool" v.typeName)) path
    Run.write [Bits.unit bit] path
    return .bool bit
  size _ _ := return 1

/-- Natural number of at most `maxBits` bits in base 128. -/
def varint (maxBits : Nat) : Codec where
  parse path := do return .ofNat (← Varint.read maxBits path)
  build v path := do
    let n ← Run.ofExcept path (Integer.ofValue v)
    if n < 0 then Run.fail (.excess (.negative n)) path
    if Nat.pow 2 maxBits ≤ n then Run.fail (.excess (.value n.toNat maxBits)) path
    Run.write (Varint.numeral n.toNat) path
    return .int n
  size := sizeless "varint length depends on the value"

/-- Integer in base 128 by its zigzag number. -/
def zigzag : Codec where
  parse path := do return .int (Varint.unzigzag (← Varint.read 128 path))
  build v path := do
    let n ← Run.ofExcept path (Integer.ofValue v)
    Run.write (Varint.numeral (Varint.zigzag n)) path
    return .int n
  size := sizeless "varint length depends on the value"

/-- The bits of a number at a width, if it does not become infinite. -/
def realBits (width : RealWidth) (x : Double) : Except Fault Nat :=
  match width with
  | .double => .ok x.bits.toNat
  | .single =>
    let narrow := x.toSingle
    if x.isFinite && Double.isInfiniteSingle narrow then
      .error (.misfit (.single (Decimal.text .positional x)))
    else .ok narrow.toNat

def realOfBits (width : RealWidth) (bits : Nat) : Double :=
  match width with
  | .double => ⟨UInt64.ofNat bits⟩
  | .single => Double.ofSingle (UInt32.ofNat bits)

/-- IEEE 754 number. -/
def real (width : RealWidth) (endian : Endian) : Codec where
  parse path := do
    let data ← Run.read width.bytes path
    return .float (realOfBits width (Bytes.toNat (Integer.inOrder endian data)))
  build v path := do
    match v.float? with
    | none => Run.fail (.misfit (.notNumber v.typeName)) path
    | some x =>
      let bits ← Run.ofExcept path (realBits width x)
      Run.write (Integer.inOrder endian (Bytes.ofNat width.bytes bits)) path
      return .float x
  size _ _ := return width.bytes

end Codec

end BinaryFormat
