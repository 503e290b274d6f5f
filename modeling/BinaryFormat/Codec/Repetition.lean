import BinaryFormat.Codec.Basic

/-!
# Repetition

Lists of one component: counted, as many as parse, up to an element that
satisfies a predicate, or behind a stored count.  The index of the element at
hand is noted as `_index` in the frame around the repeater.
-/

namespace BinaryFormat

namespace Codec

def noteIndex (i : Nat) : Run Unit := Run.insert "_index" (.ofNat i)

/-- Parses `count` elements from index `i` on. -/
def parseCounted (of : Part) (path : Path) : Nat → Nat → Run (List Value)
  | 0, _ => return []
  | count + 1, i => do
    noteIndex i
    let v ← of.parse (path.element i)
    return v :: (← parseCounted of path count (i + 1))

def buildElements (of : Part) (path : Path) : Nat → List Value → Run (List Value)
  | _, [] => return []
  | i, v :: rest => do
    noteIndex i
    let built ← of.build v (path.element i)
    return built :: (← buildElements of path (i + 1) rest)

def kept (discard : Bool) (items : List Value) : Value := .list (if discard then [] else items)

/-- The size of so many elements, which has to be a size. -/
def productSize (of : Part) (count : Nat) (ctx : Context) (path : Path) :
    Lookup Failure Nat := do
  let n ← of.codec.size ctx (path.element 0)
  if count * n ≤ Value.maxSize then return count * n
  unsized (.product count n) path

/-- Exactly `count` elements. -/
def array (e : Engine) (count : Expr) (of : Part) (discard : Bool) : Codec where
  parse path := do
    let count ← e.evalSize count path
    return kept discard (← parseCounted of path count 0)
  build v path := do
    let count ← e.evalSize count path
    let items ← e.listInput v path
    if items.length ≠ count then Run.fail (.miscount (.elements count items.length)) path
    return .list (← buildElements of path 0 items)
  size ctx path := do productSize of (← e.staticSize count ctx path) ctx path

/-! ## As many as parse -/

/-- Parses elements from index `i` on, at most `most`, until one fails or takes nothing.
The stream is left at the end of the last accepted element. -/
def parseGreedy (of : Part) (path : Path) : Nat → Nat → Run (List Value)
  | 0, _ => return []
  | most + 1, i => do
    let start ← Run.tell
    noteIndex i
    match ← Run.outcome (of.parse (path.element i)) with
    | .ok v =>
      if (← Run.tell) = start then return []
      return v :: (← parseGreedy of path most (i + 1))
    | .error failure =>
      if failure.fault.isExplicit then throw failure
      Run.goTo start
      return []

/-- The bounds of a range, in order; without an upper one the largest size bounds it. -/
def bounds (e : Engine) (least : Expr) (most : Option Expr) (path : Path) :
    Run (Nat × Nat) := do
  let least ← e.evalSize least path
  let most ←
    match most with
    | some most => e.evalSize most path
    | none => pure Value.maxSize
  if most < least then Run.fail (.miscount (.bounds least most)) path
  return (least, most)

def parseRange (e : Engine) (least : Expr) (most : Option Expr) (of : Part) (discard : Bool)
    (path : Path) : Run Value := do
  let (least, most) ← bounds e least most path
  let items ← parseGreedy of path most 0
  if items.length < least then Run.fail (.miscount (.tooFew least items.length)) path
  return kept discard items

def buildRange (e : Engine) (least : Expr) (most : Option Expr) (of : Part) (v : Value)
    (path : Path) : Run Value := do
  let (least, most) ← bounds e least most path
  let items ← e.listInput v path
  if items.length < least ∨ most < items.length then
    Run.fail (.miscount (.outside least most items.length)) path
  return .list (← buildElements of path 0 items)

/-- Between `least` and `most` elements. -/
def range (e : Engine) (least most : Expr) (of : Part) (discard : Bool) : Codec where
  parse := parseRange e least (some most) of discard
  build := buildRange e least (some most) of
  size ctx path := do
    let least ← e.staticSize least ctx path
    let most ← e.staticSize most ctx path
    if least ≠ most then unsized (.varies least most) path
    else return Size.mul least (← of.codec.size ctx (path.element 0))

private def zero : Expr := .const (.int 0)

/-- As many elements as there are. -/
def greedyRange (e : Engine) (of : Part) (discard : Bool) : Codec where
  parse := parseRange e zero none of discard
  build := buildRange e zero none of
  size := sizeless "greedy range length depends on the data"

/-! ## Up to a last element -/

/-- Whether an element is the last one; `items` are all so far, last first. -/
def isLast (e : Engine) (last : Expr) (v : Value) (items : List Value) (path : Path) :
    Run Bool := do
  let scope := { (← Run.scope) with object := some v, list := some items.reverse }
  Run.lookup (last.evaluateHolds e.resolver scope path)

/-- Parses elements up to the last one; an index is a size, so there are at most
`more`. -/
def parseUntil (e : Engine) (last : Expr) (of : Part) (path : Path) :
    Nat → Nat → List Value → Run (List Value)
  | 0, _, _ => Run.fail (.miscount .endless) path
  | more + 1, i, items => do
    noteIndex i
    let v ← of.parse (path.element i)
    let items := v :: items
    if ← isLast e last v items path then return items.reverse
    parseUntil e last of path more (i + 1) items

def buildUntil (e : Engine) (last : Expr) (of : Part) (path : Path) :
    Nat → List Value → List Value → Run (List Value)
  | _, [], _ => Run.fail (.miscount .endless) path
  | i, v :: rest, items => do
    noteIndex i
    let built ← of.build v (path.element i)
    let items := built :: items
    if ← isLast e last built items path then return items.reverse
    buildUntil e last of path (i + 1) rest items

/-- Elements up to one that satisfies a predicate, which is included. -/
def repeatUntil (e : Engine) (last : Expr) (of : Part) (discard : Bool) : Codec where
  parse path := do return kept discard (← parseUntil e last of path Value.maxSize 0 [])
  build v path := do
    let items ← e.listInput v path
    return .list (← buildUntil e last of path 0 items [])
  size := sizeless "repeat-until length depends on the data"

/-- A stored count and so many elements. -/
def prefixedArray (e : Engine) (count of : Part) : Codec where
  parse path := do
    let stored ← count.parse path
    match stored.int? with
    | some n =>
      if n < 0 then Run.fail (.miscount (.stored (← Run.dump stored))) path
      return .list (← parseCounted of path (n.toNat % Nat.pow 2 64) 0)
    | none => Run.fail (.miscount (.stored (← Run.dump stored))) path
  build v path := do
    let items ← e.listInput v path
    let _ ← count.build (.ofNat items.length) path
    return .list (← buildElements of path 0 items)
  size := sizeless "prefixed array length depends on the data"

end Codec

end BinaryFormat
