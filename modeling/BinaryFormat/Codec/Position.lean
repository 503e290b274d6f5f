import BinaryFormat.Codec.Basic

/-!
# Position

Components elsewhere in the stream, look-ahead, seeks, and padding to a size
or to a multiple of one.
-/

namespace BinaryFormat

/-- Where a seek by an integer leads, if the stream can express it.  A negative offset from
the start counts back from the end. -/
def Whence.target (whence : Whence) (offset : Int) : Except Fault SeekTo :=
  let isDistance := -Nat.pow 2 63 ≤ offset ∧ offset < Nat.pow 2 63
  match whence with
  | .start =>
    if offset < 0 then
      if isDistance then .ok (.fromEnd offset) else .error (.misfit (.offset offset))
    else if offset < Nat.pow 2 64 then .ok (.start offset.toNat)
    else .error (.misfit (.offset offset))
  | .current => if isDistance then .ok (.current offset) else .error (.misfit (.offset offset))
  | .fromEnd => if isDistance then .ok (.fromEnd offset) else .error (.misfit (.offset offset))

namespace Codec

/-- Runs at an offset and comes back, whatever happens there. -/
def atOffset {α : Type} (e : Engine) (offset : Expr) (path : Path) (x : Run α) : Run α := do
  let offset ← e.evalInt offset path
  let back ← Run.tell
  let dest ← Run.ofExcept path (Whence.target .start offset)
  let _ ← Run.seek dest path
  let result ← Run.outcome x
  Run.goTo back
  Run.settle result

/-- A component at an absolute offset. -/
def pointer (e : Engine) (offset : Expr) (of : Part) : Codec where
  parse path := atOffset e offset path (of.parse path)
  build v path := atOffset e offset path (of.build v path)
  size _ _ := return 0

/-- A component that is read without being consumed; nothing is built. -/
def peek (of : Part) : Codec where
  parse path := do
    let start ← Run.tell
    let result ← Run.outcome (of.parse path)
    Run.goTo start
    match result with
    | .ok v => return v
    | .error failure => if failure.fault.isExplicit then throw failure else return .none
  build v _ := return v
  size _ _ := return 0

def applySeek (e : Engine) (target : Expr) (whence : Whence) (path : Path) : Run Value := do
  let offset ← e.evalInt target path
  let dest ← Run.ofExcept path (whence.target offset)
  return .ofNat (← Run.seek dest path)

/-- Moves the position; the value is the new one. -/
def seek (e : Engine) (target : Expr) (whence : Whence) : Codec where
  parse path := applySeek e target whence path
  build _ path := applySeek e target whence path
  size := sizeless "seek moves the stream arbitrarily"

/-- The position. -/
def tell : Codec where
  parse _ := do return .ofNat (← Run.tell)
  build _ _ := do return .ofNat (← Run.tell)
  size _ _ := return 0

/-! ## Padding -/

/-- The first byte that is not the pattern, with its index from `i` on. -/
def firstOther (pattern : UInt8) : Nat → List UInt8 → Option (Nat × UInt8)
  | _, [] => none
  | i, b :: rest => if b = pattern then firstOther pattern (i + 1) rest else some (i, b)

/-- Reads filling bytes. -/
def skipFill (fill : Fill) (count : Nat) (path : Path) : Run Unit := do
  let data ← Run.read count path
  if fill.strict then
    match firstOther fill.pattern 0 data with
    | some (i, b) => Run.fail (.mispadded (.pattern fill.pattern b i)) path
    | none => return ()

def writeFill (fill : Fill) (count : Nat) (path : Path) : Run Unit :=
  Run.write (List.replicate count fill.pattern) path

/-- Filling bytes alone. -/
def padding (e : Engine) (length : Expr) (fill : Fill) : Codec where
  parse path := do
    skipFill fill (← e.evalSize length path) path
    return .none
  build _ path := do
    writeFill fill (← e.evalSize length path) path
    return .none
  size ctx path := e.staticSize length ctx path

/-- What is left of a block. -/
def remainder (total used : Nat) (path : Path) : Run Nat :=
  if used ≤ total then return total - used else Run.fail (.mispadded (.overrun used total)) path

/-- A component filled up to a size. -/
def padded (e : Engine) (length : Expr) (of : Codec) (fill : Fill) : Codec where
  parse path := do
    let n ← e.evalSize length path
    let start ← Run.tell
    let v ← of.parse path
    let used := Size.sub (← Run.tell) start
    skipFill fill (← remainder n used path) path
    return v
  build v path := do
    let n ← e.evalSize length path
    let start ← Run.tell
    let built ← of.build v path
    let used := Size.sub (← Run.tell) start
    writeFill fill (← remainder n used path) path
    return built
  size ctx path := e.staticSize length ctx path

/-- How far it is to the next multiple. -/
def toMultiple (used modulus : Nat) : Nat := (modulus - used % modulus) % modulus

def evalModulus (e : Engine) (modulus : Expr) (path : Path) : Run Nat := do
  let m ← e.evalSize modulus path
  if m = 0 then Run.fail (.mispadded .modulus) path
  return m

/-- A component filled up to a multiple, counted from its start. -/
def aligned (e : Engine) (modulus : Expr) (of : Codec) (fill : Fill) : Codec where
  parse path := do
    let m ← evalModulus e modulus path
    let start ← Run.tell
    let v ← of.parse path
    let used := Size.sub (← Run.tell) start
    skipFill fill (toMultiple used m) path
    return v
  build v path := do
    let m ← evalModulus e modulus path
    let start ← Run.tell
    let built ← of.build v path
    let used := Size.sub (← Run.tell) start
    writeFill fill (toMultiple used m) path
    return built
  size ctx path := do
    let m := max (← e.staticSize modulus ctx path) 1
    let used ← of.size ctx path
    return Size.add used (toMultiple used m)

end Codec

end BinaryFormat
