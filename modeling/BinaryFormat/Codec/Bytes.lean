import BinaryFormat.Codec.Basic

/-!
# Byte strings and markers

Raw bytes of a given length or up to the end, and the components that take no
bytes and yield nothing: `pass` and the assertion that the stream has ended.
-/

namespace BinaryFormat

namespace Codec

/-- Exactly `length` bytes. -/
def bytes (e : Engine) (length : Expr) : Codec where
  parse path := do
    let n ← e.evalSize length path
    return .bytes (← Run.read n path)
  build v path := do
    let n ← e.evalSize length path
    match v with
    | .bytes data =>
      if data.length ≠ n then Run.fail (.misfit (.bytes n data)) path
      Run.write data path
      return v
    | _ => Run.fail (.misshapen (.expected "bytes" v.typeName)) path
  size ctx path := e.staticSize length ctx path

/-- Everything up to the end of the stream. -/
def greedyBytes : Codec where
  parse _ := do return .bytes (← Run.readAll)
  build v path := do
    match v with
    | .bytes data =>
      Run.write data path
      return v
    | _ => Run.fail (.misshapen (.expected "bytes" v.typeName)) path
  size := sizeless "greedy bytes run to end of stream"

/-- Nothing. -/
def pass : Codec where
  parse _ := return .none
  build _ _ := return .none
  size _ _ := return 0

/-- The end of the stream. -/
def terminated : Codec where
  parse path := do
    let pos ← Run.tell
    let limit ← Run.size
    if pos < limit then Run.fail (.leftover (.stream (limit - pos))) path
    return .none
  build _ _ := return .none
  size _ _ := return 0

end Codec

end BinaryFormat
