import BinaryFormat.Expr.Arithmetic
import BinaryFormat.Expr.Text
import BinaryFormat.Lazy.Access

/-!
# The value of an expression

An expression denotes a frame or a value.  A frame is kept as the stack from
that frame down, so that its parent is the rest of the stack; read as a value
it is the container of its entries.
-/

namespace BinaryFormat

/-- What an expression denotes. -/
inductive Denoted where
  /-- A frame, with the frames below it. -/
  | frame (stack : List (Record Value))
  | value (v : Value)

namespace Denoted

def toValue : Denoted → Value
  | frame stack => .container (stack.headD [])
  | value v => v

/-- The frame of the outermost structure, or the parameters outside of all structures. -/
def root (frames : List (Record Value)) : Denoted := frame (frames.drop (frames.length - 2))

def parameters (frames : List (Record Value)) : Denoted :=
  frame (frames.drop (frames.length - 1))

/-- Follows a name from a frame.  The index of an element is recorded on the frame around
its repeater, so it is looked for further down as well. -/
def ofFrame (frames stack : List (Record Value)) (name : String) : Except Fault Denoted :=
  if name = "_" then
    match stack with
    | _ :: parent :: rest => .ok (frame (parent :: rest))
    | _ => .error (.unevaluable .noParent)
  else if name = "_root" then .ok (root frames)
  else if name = "_params" then .ok (parameters frames)
  else if name = "_index" then
    match stack.findSome? fun f => Record.get? f name with
    | some v => .ok (value v)
    | none => .error (.unevaluable .noIndex)
  else
    match Record.get? (stack.headD []) name with
    | some v => .ok (value v)
    | none => .error (.unevaluable (.noVariable name))

end Denoted

namespace Expr

variable (r : Resolver)

/-- Follows a name. -/
def member (scope : Scope) (base : Denoted) (name : String) : Lookup Fault Denoted :=
  match base with
  | .frame stack => Lookup.ofExcept (Denoted.ofFrame scope.frames stack name)
  | .value v => do return .value (← r.attr v name)

/-- Follows a key, a name or a position. -/
def atKey (scope : Scope) (base : Denoted) (key : Value) : Lookup Fault Denoted :=
  match key with
  | .str name => member r scope base name
  | .int i =>
    match base with
    | .value v => do return .value (← r.item v i)
    | .frame _ => throw (.unevaluable .frameByPosition)
  | _ => throw (.unevaluable (.indexKind key.typeName))

/-- The elements of a list or of a byte string. -/
def elements (v : Value) : Lookup Fault (List Value) := do
  match ← (r.force v).unplaced with
  | .list items => return items
  | .bytes data => return Value.ofBytes data
  | other => throw (.unevaluable (.notList other.typeName))

/-- The outcome of an operation on values. -/
def pureResult (x : Except Unevaluable Value) : Lookup Fault Value :=
  match x with
  | .ok v => pure v
  | .error cause => throw (.unevaluable cause)

/-- Applies an operation to the values of its operands. -/
def applyBinary (op : BinaryOp) (a b : Value) : Lookup Fault Value :=
  match op with
  | .eq => do return .bool (← (r.equal a b).unplaced)
  | .ne => do return .bool !(← (r.equal a b).unplaced)
  | _ => pureResult (Arithmetic.apply op a b)

/-- The one argument of a helper. -/
def onlyArgument (helper : Helper) : List Value → Lookup Fault Value
  | [] => throw (.unevaluable (.noArgument helper.name))
  | v :: _ => pure v

/-- The values among which a helper chooses: its arguments, or the elements of a single
one. -/
def candidates : List Value → Lookup Fault (List Value)
  | [v] => elements r v
  | values => pure values

def applyHelper (helper : Helper) (values : List Value) : Lookup Fault Value :=
  match helper with
  | .len => do
    let v ← onlyArgument helper values
    match v.length? with
    | some n => return .ofNat n
    | none => throw (.unevaluable (.noLength v.typeName))
  | .abs => do pureResult (Arithmetic.abs (← onlyArgument helper values))
  | .sum => do
    let v ← onlyArgument helper values
    pureResult (Arithmetic.sum (← elements r v))
  | .min => do pureResult (Arithmetic.extreme helper.name .lt (← candidates r values))
  | .max => do pureResult (Arithmetic.extreme helper.name .gt (← candidates r values))

mutual

/-- What an expression denotes in a scope. -/
def denote (scope : Scope) : Expr → Lookup Fault Denoted
  | const v => pure (.value v)
  | this => pure (.frame scope.frames)
  | object =>
    match scope.object with
    | some v => pure (.value v)
    | none => throw (.unevaluable .objectUnbound)
  | list =>
    match scope.list with
    | some items => pure (.value (.list items))
    | none => throw (.unevaluable .listUnbound)
  | attr base name => do member r scope (← denote scope base) name
  | index base key => do
    let base ← denote scope base
    atKey r scope base (← denote scope key).toValue
  | binary .and left right => do
    if (← denote scope left).toValue.holds then
      return .value (.bool (← denote scope right).toValue.holds)
    return .value (.bool false)
  | binary .or left right => do
    if (← denote scope left).toValue.holds then return .value (.bool true)
    return .value (.bool (← denote scope right).toValue.holds)
  | binary op left right => do
    let a := (← denote scope left).toValue
    let b := (← denote scope right).toValue
    return .value (← applyBinary r op a b)
  | unary op operand => do
    return .value (← pureResult (Arithmetic.unary op (← denote scope operand).toValue))
  | call helper args => do return .value (← applyHelper r helper (← denoteAll scope args))
  | host run => do
    match run scope with
    | .ok v => return .value v
    | .error failure => throw failure.fault

def denoteAll (scope : Scope) : List Expr → Lookup Fault (List Value)
  | [] => pure []
  | e :: rest => do
    let v := (← denote scope e).toValue
    return v :: (← denoteAll scope rest)

end

/-! ## Evaluation -/

/-- The value of an expression.  A function of the caller that stands alone fails in its
own name. -/
def evaluate (scope : Scope) (path : Path) : Expr → Lookup Failure Value
  | host run => Lookup.ofExcept (run scope)
  | e => do return (← (denote r scope e).atPath path).toValue

/-- The value of an expression as an integer. -/
def evaluateInt (scope : Scope) (path : Path) (e : Expr) : Lookup Failure Int := do
  let v ← evaluate r scope path e
  match v.int? with
  | some n => return n
  | none => throw ((Fault.misshapen (.evaluated e.text v.typeName)).atPath path)

/-- The value of an expression as a size or count. -/
def evaluateSize (scope : Scope) (path : Path) (e : Expr) : Lookup Failure Nat := do
  let n ← evaluateInt r scope path e
  if 0 ≤ n ∧ n ≤ Value.maxSize then return n.toNat
  throw ((Fault.miscount (.evaluated e.text n)).atPath path)

/-- Whether the value of an expression holds. -/
def evaluateHolds (scope : Scope) (path : Path) (e : Expr) : Lookup Failure Bool := do
  return (← evaluate r scope path e).holds

end Expr

end BinaryFormat
