import BinaryFormat.Codec.Basic
import BinaryFormat.Data.Bytes

/-!
# Text

Text fields: of a fixed number of bytes with padding, behind a length, up to a
terminator, or up to the end of the stream.
-/

namespace BinaryFormat

namespace TextField

def decode (encoding : Encoding) (data : List UInt8) : Except Fault Value :=
  match encoding.decode data with
  | .ok text => .ok (.str text)
  | .error cause => .error (.encoding cause)

def encode (encoding : Encoding) (v : Value) : Except Fault (List UInt8) :=
  match v with
  | .str text =>
    match encoding.encode text with
    | .ok data => .ok data
    | .error cause => .error (.encoding cause)
  | _ => .error (.misshapen (.expected "a str" v.typeName))

/-! ## Padding and trimming -/

/-- The one code unit of a padding character. -/
def padUnit (encoding : Encoding) (pad : Char) : Except Fault (List UInt8) :=
  match encoding.encode (String.singleton pad) with
  | .error cause => .error (.encoding cause)
  | .ok unit =>
    if unit.length = encoding.unit then .ok unit else .error (.encoding (.padNotUnit pad))

/-- Drops padding where the side allows it. -/
def strip (unit : List UInt8) (side : PadSide) (data : List UInt8) : List UInt8 :=
  match side with
  | .left => Bytes.dropLeading unit data
  | .right => Bytes.dropTrailing unit data
  | .center => Bytes.dropLeading unit (Bytes.dropTrailing unit data)

/-- Cuts encoded text that is longer than its room to whole code units. -/
def cut (unit room : Nat) (trim : Option TrimEnd) (data : List UInt8) :
    Except Fault (List UInt8) :=
  if data.length ≤ room then .ok data
  else
    let keep := room - room % unit
    match trim with
    | some .right => .ok (data.take keep)
    | some .left => .ok (data.drop (data.length - keep))
    | none => .error (.encoding (.tooLong data.length room))

/-- How many units of padding go before and after. -/
def shares (side : PadSide) (missing : Nat) : Nat × Nat :=
  match side with
  | .left => (missing, 0)
  | .right => (0, missing)
  | .center => (missing / 2, missing - missing / 2)

/-- Encoded text padded to its room; what is less than a unit is filled with zeros. -/
def padTo (unit : List UInt8) (room : Nat) (side : PadSide) (data : List UInt8) :
    List UInt8 :=
  let missing := (room - data.length) / unit.length
  let (before, after) := shares side missing
  let padded := (List.replicate before unit).flatten ++ data ++ (List.replicate after unit).flatten
  padded.take room ++ List.replicate (room - padded.length) 0

end TextField

namespace Codec

/-- Text in exactly `length` bytes. -/
def fixedText (e : Engine) (length : Expr) (encoding : Encoding) (pad : Char) (side : PadSide)
    (trim : Option TrimEnd) : Codec where
  parse path := do
    let n ← e.evalSize length path
    let data ← Run.read n path
    let unit ← Run.ofExcept path (TextField.padUnit encoding pad)
    Run.ofExcept path (TextField.decode encoding (TextField.strip unit side data))
  build v path := do
    let n ← e.evalSize length path
    let unit ← Run.ofExcept path (TextField.padUnit encoding pad)
    let data ← Run.ofExcept path (TextField.encode encoding v)
    let data ← Run.ofExcept path (TextField.cut unit.length n trim data)
    Run.write (TextField.padTo unit n side data) path
    return v
  size ctx path := e.staticSize length ctx path

/-- Text behind its length in bytes. -/
def prefixedText (length : Part) (encoding : Encoding) : Codec where
  parse path := do
    let stored ← length.parse path
    match stored.int? with
    | some n =>
      if n < 0 then Run.fail (.misfit (.stringLength (← Run.dump stored))) path
      let data ← Run.read (n.toNat % Nat.pow 2 64) path
      Run.ofExcept path (TextField.decode encoding data)
    | none => Run.fail (.misfit (.stringLength (← Run.dump stored))) path
  build v path := do
    let data ← Run.ofExcept path (TextField.encode encoding v)
    let _ ← length.build (.ofNat data.length) path
    Run.write data path
    return v
  size := sizeless "prefixed string length depends on the value"

/-- Reads code units up to a terminator.  At most `more` units can follow. -/
def readTerminated (unit : Nat) (terminators : List (List UInt8)) (path : Path) :
    Nat → List UInt8 → Run (List UInt8)
  | 0, data => Run.fail (.unterminated data.length) path
  | more + 1, data => do
    match ← Run.outcome (Run.read unit path) with
    | .error failure =>
      match failure.fault with
      | .shortage _ => Run.fail (.unterminated data.length) path
      | _ => throw failure
    | .ok chunk =>
      if terminators.contains chunk then return data
      readTerminated unit terminators path more (data ++ chunk)

/-- Text up to the first code unit that is a terminator. -/
def terminatedText (terminators : List (List UInt8)) (encoding : Encoding) : Codec where
  parse path := do
    let data ← readTerminated encoding.unit terminators path ((← Run.available) + 1) []
    Run.ofExcept path (TextField.decode encoding data)
  build v path := do
    let data ← Run.ofExcept path (TextField.encode encoding v)
    if (Bytes.chunks encoding.unit data).any terminators.contains then
      Run.fail (.encoding (.containsTerminator (← Run.dump v))) path
    match terminators with
    | [] => Run.fail (.misshapen .noTerminators) path
    | first :: _ =>
      Run.write (data ++ first) path
      return v
  size := sizeless "terminated string length depends on the value"

/-- The rest of the stream as text. -/
def greedyText (encoding : Encoding) : Codec where
  parse path := do
    let data ← Run.readAll
    Run.ofExcept path (TextField.decode encoding data)
  build v path := do
    let data ← Run.ofExcept path (TextField.encode encoding v)
    Run.write data path
    return v
  size := sizeless "greedy string runs to end of stream"

end Codec

end BinaryFormat
