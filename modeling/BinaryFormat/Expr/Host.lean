import BinaryFormat.Expr.Basic

/-!
# Ready-made functions of the scope

What an expression can ask about its scope as a whole, and functions that fail
on purpose, each with another cause.
-/

namespace BinaryFormat

namespace Host

/-- The number of frames. -/
def depth (scope : Scope) : Except Failure Value := .ok (.ofNat scope.frames.length)

/-- The number of entries of the innermost frame. -/
def innermostLength (scope : Scope) : Except Failure Value :=
  .ok (.ofNat scope.innermost.length)

/-- The number of the caller's parameters. -/
def parametersLength (scope : Scope) : Except Failure Value :=
  .ok (.ofNat scope.parameters.length)

/-- The number of elements so far, inside predicates. -/
def listLength (scope : Scope) : Except Failure Value :=
  .ok ((scope.list.map fun items => Value.ofNat items.length).getD .none)

/-- The kind of the element under inspection, inside predicates. -/
def objectKind (scope : Scope) : Except Failure Value :=
  .ok ((scope.object.map fun v => Value.str v.typeName).getD .none)

private def refuse (fault : Fault) : Except Failure Value :=
  .error (fault.atPath (.root "host"))

def failUnevaluable (_ : Scope) : Except Failure Value := refuse (.unevaluable (.other "host"))

def failMissing (_ : Scope) : Except Failure Value := refuse (.missing "host")

def failExplicit (_ : Scope) : Except Failure Value := refuse (.explicit "host")

end Host

end BinaryFormat
