import BinaryFormat.Data.Decimal
import BinaryFormat.Text.Quoted
import BinaryFormat.Value.Basic

/-!
# The full text of a value

Messages show a value with the name of its kind before its content.  Of a lazy
value they show its names or its length and how many members are resolved, so
the text depends on that count.
-/

namespace BinaryFormat

namespace Value

private def commas (parts : List String) : String := ", ".intercalate parts

mutual

def dump (resolved : Handle → Nat) : Value → String
  | none => "None"
  | bool b => "Bool(" ++ toString b ++ ")"
  | int n => "Int(" ++ toString n ++ ")"
  | float x => "Float(" ++ Decimal.text .plain x ++ ")"
  | bytes data => "Bytes([" ++ commas (data.map fun b => toString b.toNat) ++ "])"
  | str text => "Str(" ++ Text.quote text ++ ")"
  | list items => "List([" ++ commas (dumpItems resolved items) ++ "])"
  | container fields => "Container(\x7b" ++ commas (dumpFields resolved fields) ++ "\x7d)"
  | flags fields => "Flags(\x7b" ++ commas (dumpFields resolved fields) ++ "\x7d)"
  | lazyContainer handle keys =>
      "LazyContainer(LazyContainer \x7b keys: [" ++ commas (keys.map Text.quote) ++
        "], resolved: " ++ toString (resolved handle) ++ " \x7d)"
  | lazyList handle length =>
      "LazyList(LazyList \x7b len: " ++ toString length ++ ", resolved: " ++
        toString (resolved handle) ++ " \x7d)"

def dumpItems (resolved : Handle → Nat) : List Value → List String
  | [] => []
  | item :: rest => dump resolved item :: dumpItems resolved rest

def dumpFields (resolved : Handle → Nat) : List (String × Value) → List String
  | [] => []
  | (key, value) :: rest =>
      (Text.quote key ++ ": " ++ dump resolved value) :: dumpFields resolved rest

end

/-- The text of a value without lazy parts. -/
def dumpPlain (v : Value) : String := dump (fun _ => 0) v

/-- The text of values in brackets. -/
def dumpAll (vs : List Value) : String := "[" ++ commas (vs.map dumpPlain) ++ "]"

end Value

end BinaryFormat
