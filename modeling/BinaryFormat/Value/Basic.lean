import BinaryFormat.Data.Double
import BinaryFormat.Data.Record

/-!
# Values

What parsing yields and building consumes.  A lazy value is a handle: its
members are kept elsewhere, by the store that the handle points into, while
its names and its length are known at once.
-/

namespace BinaryFormat

/-- Names the lazy members behind a value. -/
abbrev Handle : Type := Nat

inductive Value where
  /-- Absence. -/
  | none
  | bool (b : Bool)
  | int (n : Int)
  | float (x : Double)
  | bytes (data : List UInt8)
  | str (text : String)
  | list (items : List Value)
  | container (fields : List (String × Value))
  /-- One entry for every declared flag. -/
  | flags (fields : List (String × Value))
  /-- A structure whose members are parsed when they are first read. -/
  | lazyContainer (handle : Handle) (keys : List String)
  /-- A list whose elements are parsed when they are first read. -/
  | lazyList (handle : Handle) (length : Nat)
  deriving Inhabited

namespace Value

/-- The integers that a value holds have 128 bits, signed. -/
def minInt : Int := -Nat.pow 2 127

def maxInt : Int := Nat.pow 2 127 - 1

def fitsInt (n : Int) : Bool := minInt ≤ n && n ≤ maxInt

/-- The largest size, count or position. -/
def maxSize : Nat := Nat.pow 2 64 - 1

def typeName : Value → String
  | none => "none"
  | bool _ => "bool"
  | int _ => "int"
  | float _ => "float"
  | bytes _ => "bytes"
  | str _ => "str"
  | list _ => "list"
  | container _ => "container"
  | flags _ => "flags"
  | lazyContainer _ _ => "lazy container"
  | lazyList _ _ => "lazy list"

def isNone : Value → Bool
  | none => true
  | _ => false

def isLazy : Value → Bool
  | lazyContainer _ _ | lazyList _ _ => true
  | _ => false

/-- The integer of an integer or a boolean. -/
def int? : Value → Option Int
  | int n => some n
  | bool b => some (if b then 1 else 0)
  | _ => .none

/-- The number of a float or an integer. -/
def float? : Value → Option Double
  | float x => some x
  | int n => some (Double.ofInt n)
  | _ => .none

def bool? : Value → Option Bool
  | bool b => some b
  | _ => .none

def bytes? : Value → Option (List UInt8)
  | bytes data => some data
  | _ => .none

def str? : Value → Option String
  | str text => some text
  | _ => .none

def list? : Value → Option (List Value)
  | list items => some items
  | _ => .none

/-- The entries of a container or of flags. -/
def fields? : Value → Option (Record Value)
  | container fields | flags fields => some fields
  | _ => .none

/-- Absence, zero, false and empty values do not hold. -/
def holds : Value → Bool
  | none => false
  | bool b => b
  | int n => n != 0
  | float x => !x.same ⟨0⟩
  | bytes data => !data.isEmpty
  | str text => !text.isEmpty
  | list items => !items.isEmpty
  | container fields | flags fields => !fields.isEmpty
  | lazyContainer _ keys => !keys.isEmpty
  | lazyList _ length => length != 0

/-- The number of elements, bytes, characters or entries. -/
def length? : Value → Option Nat
  | bytes data => some data.length
  | str text => some text.length
  | list items => some items.length
  | container fields | flags fields => some fields.length
  | lazyContainer _ keys => some keys.length
  | lazyList _ length => some length
  | _ => .none

def ofNat (n : Nat) : Value := int n

/-- The values of the bytes, one integer each. -/
def ofBytes (data : List UInt8) : List Value := data.map fun b => int b.toNat

end Value

end BinaryFormat
