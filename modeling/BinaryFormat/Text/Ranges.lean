/-!
# Character classes

A class of characters is the list of the code points at which membership
changes, in ascending order and beginning with a point that is inside.
-/

namespace BinaryFormat

namespace Text

/-- Whether a code point lies inside a class: an odd number of changes precede it. -/
def within (changes : List Nat) (point : Nat) : Bool :=
  changes.countP (· ≤ point) % 2 == 1

end Text

end BinaryFormat
