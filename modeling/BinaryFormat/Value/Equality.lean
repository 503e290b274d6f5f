import BinaryFormat.Value.Basic

/-!
# Equality of values

Two values are the same when their public content is: private entries and the
order of entries do not count, flags count as containers, and an integer may
equal a float.  A lazy value has to be forced before it can be compared.
-/

namespace BinaryFormat

namespace Value

mutual

def same : Value → Value → Bool
  | none, none => true
  | bool a, bool b => a == b
  | int a, int b => a == b
  | float a, float b => a.same b
  | int a, float b => (Double.ofInt a).same b
  | float a, int b => a.same (Double.ofInt b)
  | bytes a, bytes b => a == b
  | str a, str b => a == b
  | list a, list b => sameItems a b
  | container a, container b => (Record.visible a).length == (Record.visible b).length && within a b
  | container a, flags b => (Record.visible a).length == (Record.visible b).length && within a b
  | flags a, container b => (Record.visible a).length == (Record.visible b).length && within a b
  | flags a, flags b => (Record.visible a).length == (Record.visible b).length && within a b
  | _, _ => false

def sameItems : List Value → List Value → Bool
  | [], [] => true
  | a :: as, b :: bs => same a b && sameItems as bs
  | _, _ => false

/-- Every public entry is the same in the other record. -/
def within : List (String × Value) → List (String × Value) → Bool
  | [], _ => true
  | (key, value) :: rest, other =>
      (Record.isPrivate key ||
        match Record.get? other key with
        | some found => same value found
        | .none => false) && within rest other

end

end Value

end BinaryFormat
