import BinaryFormat.Run
import BinaryFormat.Value.Equality

/-!
# Reading values that may be lazy

Members are read by name or by position, values are forced, and values are
compared; each may resolve lazy members on the way.  How a member is resolved
and how a value is forced is given by a `Resolver`, so that what reads values
does not depend on what parses them.
-/

namespace BinaryFormat

structure Resolver where
  /-- The value of a member of a lazy value. -/
  resolve : Handle → Nat → Lookup Failure Value
  /-- The value with every lazy part parsed. -/
  force : Value → Lookup Failure Value

namespace Resolver

variable (r : Resolver)

/-! ## Members -/

/-- The slot of the first member with a name. -/
def slotOf? (handle : Handle) (name : String) : Lookup Failure (Option Nat) := fun store =>
  let slots := ((store.members? handle).map Members.slots).getD []
  .ok (slots.findIdx? fun s => s.name == some name) store

/-- The member of a lazy container, if it has one of that name. -/
def member? (handle : Handle) (name : String) : Lookup Failure (Option Value) := do
  match ← slotOf? handle name with
  | some i => return some (← r.resolve handle i)
  | none => return none

/-- The path of a lazy list, for failures that are not those of an element. -/
def listPath (handle : Handle) : Lookup Failure Path := fun store =>
  let slots := ((store.members? handle).map Members.slots).getD []
  .ok ((slots.head?.map fun s => s.path.ofElement).getD .this) store

/-- The element of a lazy list. -/
def element (handle : Handle) (length index : Nat) : Lookup Failure Value := do
  if length ≤ index then
    throw ((Fault.unevaluable (.elementRange index length)).atPath (← listPath handle))
  r.resolve handle index

/-- Reads a member by name. -/
def attr (v : Value) (name : String) : Lookup Fault Value := do
  let found ←
    match v with
    | .container fields | .flags fields => pure (Record.get? fields name)
    | .lazyContainer handle _ => (r.member? handle name).unplaced
    | _ => throw (.unevaluable (.fieldOf name v.typeName))
  match found with
  | some value => pure value
  | none => throw (.unevaluable (.noField name))

/-- The position that an index stands for; negative ones count from the end. -/
def position (index : Int) (length : Nat) : Except Fault Nat :=
  let i := if index < 0 then length + index else index
  if i < 0 ∨ length ≤ i then .error (.unevaluable (.indexRange index length)) else .ok i.toNat

/-- Reads an element, or a byte as an integer. -/
def item (v : Value) (index : Int) : Lookup Fault Value := do
  match v with
  | .list items => return items.getD (← Lookup.ofExcept (position index items.length)) .none
  | .bytes data =>
      return .int (data.getD (← Lookup.ofExcept (position index data.length)) 0).toNat
  | .lazyList handle length =>
      (r.element handle length (← Lookup.ofExcept (position index length))).unplaced
  | _ => throw (.unevaluable (.indexInto v.typeName))

/-! ## Equality -/

/-- Forces both values, `b` first if `flipped`, and compares them; values that cannot be
forced differ. -/
def compareForced (flipped : Bool) (a b : Value) : Lookup Failure Bool := do
  let first ← (r.force (if flipped then b else a)).outcome
  let second ← (r.force (if flipped then a else b)).outcome
  match first, second with
  | .ok x, .ok y => return x.same y
  | _, _ => return false

/-- Whether all tests hold; those after the first that does not are not run. -/
def allOf {ε : Type} : List (Lookup ε Bool) → Lookup ε Bool
  | [] => pure true
  | test :: rest => do if ← test then allOf rest else return false

/-- Compares two records, given the test of every entry of the first one. -/
def compareEntries (flipped : Bool) (tests : Record (Value → Lookup Failure Bool))
    (others : Record Value) : Lookup Failure Bool :=
  if (Record.visible tests).length ≠ (Record.visible others).length then pure false
  else if flipped then
    allOf ((Record.visible others).map fun (key, b) =>
      match Record.get? tests key with
      | some test => test b
      | none => pure false)
  else
    allOf ((Record.visible tests).map fun (key, test) =>
      match Record.get? others key with
      | some b => test b
      | none => pure false)

mutual

/-- Compares `a` with `b`, or `b` with `a` if `flipped`: the answer is the same, and the
members that are forced on the way are forced in the order of the side that comes first. -/
def compare (flipped : Bool) : Value → Value → Lookup Failure Bool
  | .list as, .list bs =>
      if as.length = bs.length then compareItems flipped as bs else pure false
  | .container as, .container bs => compareEntries flipped (comparers (!flipped) as) bs
  | .container as, .flags bs => compareEntries flipped (comparers (!flipped) as) bs
  | .flags as, .container bs => compareEntries flipped (comparers (!flipped) as) bs
  | .flags as, .flags bs => compareEntries flipped (comparers (!flipped) as) bs
  | a, b => if a.isLazy || b.isLazy then r.compareForced flipped a b else pure (a.same b)

def compareItems (flipped : Bool) : List Value → List Value → Lookup Failure Bool
  | a :: as, b :: bs => do
    if ← compare flipped a b then compareItems flipped as bs else return false
  | _, _ => pure true

/-- For every entry of a record, the comparison of its value with another. -/
def comparers (flipped : Bool) :
    List (String × Value) → List (String × (Value → Lookup Failure Bool))
  | [] => []
  | (key, value) :: rest => (key, fun b => compare flipped value b) :: comparers flipped rest

end

/-- Whether two values have the same public content. -/
def equal (a b : Value) : Lookup Failure Bool := r.compare false a b

end Resolver

end BinaryFormat
