import BinaryFormat.Lazy.Access

/-!
# Search by key

The members whose key a pattern matches, depth first.  Containers, flags and
lists are searched and are not found themselves.  What patterns mean is up to
the engine that reads them.
-/

namespace BinaryFormat

namespace Search

/-- Whether a value is searched rather than found. -/
def isSearched : Value → Bool
  | .container _ | .flags _ | .list _ => true
  | _ => false

/-- Whether a search has what it wants. -/
def isDone (firstOnly : Bool) (found : List Value) : Bool := firstOnly && !found.isEmpty

variable (isMatch : String → Bool) (firstOnly : Bool)

mutual

/-- Walks through a value in depth-first order and puts every member with a matching key
behind those found before.  Between one member and the next, a search for the first one
stops if there is one. -/
def walk : Value → List Value → List Value
  | .container fields, found => walkFields fields found
  | .flags fields, found => walkFields fields found
  | .list items, found => walkItems items found
  | _, found => found

def walkItems : List Value → List Value → List Value
  | [], found => found
  | v :: rest, found =>
    if isDone firstOnly found then found else walkItems rest (walk v found)

def walkFields : List (String × Value) → List Value → List Value
  | [], found => found
  | (key, v) :: rest, found =>
    if isDone firstOnly found then found
    else if isSearched v then walkFields rest (walk v found)
    else if isMatch key then walkFields rest (found ++ [v])
    else walkFields rest found

end

/-- An engine for patterns: whether the one that a text describes matches the beginning of a
key, or why the text describes none. -/
abbrev Patterns := String → Except String (String → Bool)

/-- The pattern of a text, which has to be well formed. -/
def compile (patterns : Patterns) (pattern : String) : Lookup Failure (String → Bool) :=
  match patterns pattern with
  | .ok isMatch => return isMatch
  | .error reason =>
      throw ((Fault.unevaluable (.pattern (Text.quote pattern) reason)).atPath .this)

end Search

namespace Value

variable (patterns : Search.Patterns) (r : Resolver)

/-- What a walk finds, once all lazy parts are forced. -/
def found (isMatch : String → Bool) (firstOnly : Bool) (v : Value) :
    Lookup Failure (List Value) := do
  return Search.walk isMatch firstOnly (← r.force v) []

/-- The first member whose key matches. -/
def search (pattern : String) (v : Value) : Lookup Failure (Option Value) := do
  let isMatch ← Search.compile patterns pattern
  return (← v.found r isMatch true).head?

/-- Every member whose key matches. -/
def searchAll (pattern : String) (v : Value) : Lookup Failure (List Value) := do
  let isMatch ← Search.compile patterns pattern
  v.found r isMatch false

end Value

end BinaryFormat
