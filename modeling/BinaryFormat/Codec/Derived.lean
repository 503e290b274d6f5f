import BinaryFormat.Codec.Basic

/-!
# Fixed, computed and checked values

Constants, values computed from the context, values that stand in for missing
ones, and conditions.
-/

namespace BinaryFormat

namespace Codec

/-- A fixed value, verified when parsed and written whatever the input. -/
def constant (e : Engine) (of : Codec) (value : Value) : Codec where
  parse path := do
    let found ← of.parse path
    if !(← e.equal found value) then
      Run.fail (.constMismatch (← Run.dump value) (← Run.dump found)) path
    return found
  build _ path := of.build value path
  size := of.size

/-- The value of an expression; it takes no bytes. -/
def computed (e : Engine) (expr : Expr) : Codec where
  parse path := e.eval expr path
  build _ path := e.eval expr path
  size _ _ := return 0

/-- A component that is built from `value` where the input has none. -/
def fallback (of : Codec) (value : Value) : Codec where
  parse path := of.parse path
  build v path := of.build (if v.isNone then value else v) path
  size := of.size

/-- Fails unless the condition holds. -/
def check (e : Engine) (condition : Expr) : Codec :=
  let run (path : Path) : Run Value := do
    if ← e.evalHolds condition path then return .none
    Run.fail (.rejected (.check condition.text)) path
  { parse := run
    build := fun _ => run
    size := fun _ _ => return 0 }

/-- Always fails, and is never passed over. -/
def explicit (message : String) : Codec where
  parse path := Run.fail (.explicit message) path
  build _ path := Run.fail (.explicit message) path
  size := sizeless ("fails unconditionally: " ++ message)

end Codec

end BinaryFormat
