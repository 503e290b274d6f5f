import BinaryFormat.Codec.BackPatch

/-!
# Envelopes

Components that see a stream of their own: a payload of a stored or fixed
length, the bytes up to a delimiter or without trailing padding, the result of
a transformation, or a view of other granularity.  Offsets that the component
observes in a payload are relative to the payload.
-/

namespace BinaryFormat

namespace Codec

/-! ## Payloads of known length -/

/-- How much of a stored length is the length field itself. -/
def overhead (length : Part) (inclusive : Bool) (path : Path) : Run Nat :=
  if inclusive then length.codec.sizeNow path else return 0

/-- A length and a payload of so many bytes.  An `inclusive` length counts its own field; a
`lenient` payload may be read in part. -/
def prefixed (length : Part) (of : Codec) (inclusive lenient : Bool) : Codec where
  parse path := do
    let stored ← length.parse path
    match stored.int? with
    | none => Run.fail (.misshapen (.length stored.typeName)) path
    | some stored =>
      let n := stored - (← overhead length inclusive path)
      if n < 0 ∨ Value.maxSize < n then Run.fail (.misfit (.storedLength stored)) path
      let data ← Run.read n.toNat path
      let (v, consumed) ← of.parseSlice data path
      if !lenient && consumed < n then
        Run.fail (.leftover (.payload consumed n.toNat)) path
      return v
  build v path := do
    let mark ← Run.mark
    let (built, data) ← of.buildScratch v path
    let stored := Size.add data.length (← overhead length inclusive path)
    let _ ← length.build (.ofNat stored) path
    Run.splice data mark path
    return built
  size ctx path := do
    let n ← length.codec.size ctx path
    return Size.add n (← of.size ctx path)

/-- Exactly `length` bytes, of which the component uses the first. -/
def fixedSized (e : Engine) (length : Expr) (of : Codec) : Codec where
  parse path := do
    let n ← e.evalSize length path
    let data ← Run.read n path
    return (← of.parseSlice data path).1
  build v path := do
    let n ← e.evalSize length path
    let mark ← Run.mark
    let (built, data) ← of.buildScratch v path
    if n < data.length then
      Run.modifyContext (·.discardSince mark)
      Run.fail (.misfit (.block data.length n)) path
    Run.splice (data ++ List.replicate (n - data.length) 0) mark path
    return built
  size ctx path := e.staticSize length ctx path

/-! ## Payloads up to a delimiter or padding -/

/-- Reads units up to the delimiter.  At most `more` units can follow. -/
def readDelimited (d : Delimiter) (path : Path) : Nat → List UInt8 → Run (List UInt8)
  | 0, data => Run.fail (.unterminated data.length) path
  | more + 1, data => do
    let remaining := (← Run.size) - (← Run.tell)
    if remaining < d.unit.length && d.optional then return data ++ (← Run.readAll)
    match ← Run.outcome (Run.read d.unit.length path) with
    | .error failure =>
      match failure.fault with
      | .shortage _ => Run.fail (.unterminated data.length) path
      | _ => throw failure
    | .ok chunk =>
      if chunk = d.unit then
        if d.kept then
          let _ ← Run.seek (.current (-d.unit.length)) path
        return if d.included then data ++ chunk else data
      readDelimited d path more (data ++ chunk)

/-- The bytes up to a delimiter, which is looked for at multiples of its length. -/
def delimited (of : Codec) (d : Delimiter) : Codec where
  parse path := do
    if d.unit.isEmpty then Run.fail (.misshapen .emptyTerminator) path
    let data ← readDelimited d path ((← Run.available) + 1) []
    return (← of.parseSlice data path).1
  build v path := do
    let built ← of.build v path
    Run.write d.unit path
    return built
  size := sizeless "terminated data has no fixed size"

/-- Drops trailing padding from data that is a whole number of padding units. -/
def stripPadding (pad data : List UInt8) : List UInt8 :=
  if pad.isEmpty || data.length % pad.length != 0 then data else Bytes.dropTrailing pad data

/-- The rest of the stream without trailing padding. -/
def stripped (of : Codec) (pad : List UInt8) : Codec where
  parse path := do
    let data := stripPadding pad (← Run.readAll)
    return (← of.parseSlice data path).1
  build v path := of.build v path
  size := sizeless "stripped data extends to the end of the stream"

/-! ## Raw copies -/

/-- A value with the bytes that it occupies. -/
def rawRecord (data : List UInt8) (v : Value) (offset1 offset2 : Nat) : Value :=
  .container [("length", .ofNat data.length), ("data", .bytes data), ("value", v),
    ("offset1", .ofNat offset1), ("offset2", .ofNat offset2)]

/-- The bytes from an offset up to the position, to which the stream returns. -/
def copySince (offset : Nat) (path : Path) : Run (List UInt8) := do
  let reached ← Run.tell
  Run.goTo offset
  Run.read (Size.sub reached offset) path

/-- A component with the bytes that it occupies.  It is built from its `value`, or from its
`data`, which are parsed for the value. -/
def rawCopy (e : Engine) (of : Part) : Codec where
  parse path := do
    let offset1 ← Run.tell
    let v ← of.parse path
    let offset2 ← Run.tell
    let data ← copySince offset1 path
    return rawRecord data v offset1 offset2
  build v path := do
    let input ← e.containerInput v path
    let offset1 ← Run.tell
    let inner := (input.get? "value").getD .none
    if !inner.isNone then
      let built ← of.build inner path
      let offset2 ← Run.tell
      let data ← copySince offset1 path
      return rawRecord data built offset1 offset2
    match (input.get? "data").bind Value.bytes? with
    | some data =>
      Run.write data path
      let offset2 ← Run.tell
      let (parsed, _) ← of.codec.parseSlice data path
      return rawRecord data parsed offset1 offset2
    | none => Run.fail (.missing "value or data") path
  size := of.codec.size

/-! ## Transformations -/

/-- Combines bytes with a repeated key; `ahead` is what is left of its current round. -/
def xorWith (key : List UInt8) : List UInt8 → List UInt8 → List UInt8
  | [], _ => []
  | b :: rest, k :: ahead => (b ^^^ k) :: xorWith key rest ahead
  | b :: rest, [] =>
    match key with
    | k :: ahead => (b ^^^ k) :: xorWith key rest ahead
    | [] => b :: xorWith key rest []

/-- Rotates the bits of every group of bytes to the left. -/
def rotateGroups (group amount : Nat) (data : List UInt8) : List UInt8 :=
  (Bytes.chunks group data).flatMap fun chunk =>
    let bits := Bits.expand .msbFirst chunk
    Bits.pack .msbFirst (bits.drop amount ++ bits.take amount)

def evalXorKey (e : Engine) (key : Expr) (path : Path) : Run (List UInt8) := do
  match ← e.eval key path with
  | .int k =>
    if 0 ≤ k ∧ k < 256 then return [UInt8.ofNat k.toNat]
    else Run.fail (.misfit (.xorKey k)) path
  | .bytes k => if k.isEmpty then Run.fail (.misshapen .emptyXorKey) path else return k
  | v => Run.fail (.misshapen (.xorKey v.typeName)) path

/-- Applies a transformation, or its inverse. -/
def applyTransform (e : Engine) (inverse : Bool) (data : List UInt8) (path : Path) :
    Transform → Run (List UInt8)
  | .reverseBytes => return data.reverse
  | .reverseBits => return Bits.reverseEach data.reverse
  | .xor key => do
    let key ← evalXorKey e key path
    return xorWith key data key
  | .rotateLeft amount group => do
    if group = 0 || data.length % group != 0 then
      Run.fail (.misfit (.groups data.length group)) path
    let width := group * 8
    let amount := (← e.evalSize amount path) % width
    return rotateGroups group (if inverse then width - amount else amount) data

/-- How many bytes a transformed component takes, unless it takes all. -/
def evalExtent (e : Engine) (extent : Extent) (of : Codec) (path : Path) : Run (Option Nat) :=
  match extent with
  | .ofChild => do return some (← of.sizeNow path)
  | .toEnd => return none
  | .fixed n => do return some (← e.evalSize n path)

/-- A component whose bytes are stored transformed.  Offsets do not survive, so patches are
resolved before the transformation. -/
def transformed (e : Engine) (of : Codec) (transform : Transform) (extent : Extent) :
    Codec where
  parse path := do
    let data ←
      match ← evalExtent e extent of path with
      | some n => Run.read n path
      | none => Run.readAll
    let decoded ← applyTransform e false data path transform
    return (← of.parseSlice decoded path).1
  build v path := do
    let mark ← Run.mark
    let (built, scratch) ← Run.onStream (.memory []) do
      let built ← of.build v path
      e.resolveSince mark true
      return built
    let encoded ← applyTransform e true scratch.data path transform
    match ← evalExtent e extent of path with
    | some n =>
      if encoded.length ≠ n then Run.fail (.misfit (.transformed encoded.length n)) path
    | none => pure ()
    Run.write encoded path
    return built
  size ctx path :=
    match extent with
    | .ofChild => of.size ctx path
    | .toEnd =>
        unsized (.because "transformed payload extends to the end of the stream") path
    | .fixed n => e.staticSize n ctx path

/-! ## Views -/

/-- Runs over a view of the stream and leaves it; a failure leaves the position where it
was. -/
def inView {α : Type} (recoding : Recoding) (path : Path) (x : Run α) : Run α := fun s =>
  let start := s.stream.pos
  match x { s with stream := s.stream.viewed recoding } with
  | .ok a s =>
    match s.stream.finish with
    | (none, outer) => .ok a { s with stream := outer }
    | (some fault, outer) =>
        .error (fault.atPath path) { s with stream := outer.setPos start }
  | .error failure s => .error failure { s with stream := s.stream.abandon.setPos start }

/-- The position has to be at the border of a chunk. -/
def checkEntry (recoding : Recoding) (path : Path) : Run Unit := do
  let pos ← Run.tell
  if pos % recoding.outer ≠ 0 then
    Run.fail (.misaligned (.entered pos recoding.outer)) path

/-- A component over a view of other granularity. -/
def recoded (e : Engine) (of : Codec) (recoding : Recoding) (checked : Bool) : Codec where
  parse path := do
    if checked then checkEntry recoding path
    inView recoding path (of.parse path)
  build v path := do
    if checked then checkEntry recoding path
    let mark ← Run.mark
    inView recoding path do
      let built ← of.build v path
      e.resolveSince mark true
      return built
  size ctx path := do
    let units ← of.size ctx path
    if units % recoding.inner ≠ 0 then
      throw ((Fault.misaligned (.childSize units recoding.inner)).atPath path)
    return Size.mul (units / recoding.inner) recoding.outer

end Codec

end BinaryFormat
