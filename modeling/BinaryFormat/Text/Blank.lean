import BinaryFormat.Text.Ranges

/-!
# Blank characters

The characters with the Unicode property of white space, and the trimming of
text by them.
-/

namespace BinaryFormat

namespace Text

private def blankChanges : List Nat := [
    9, 0xe, 0x20, 0x21, 0x85, 0x86, 0xa0, 0xa1, 0x1680, 0x1681, 0x2000, 0x200b, 0x2028,
    0x202a, 0x202f, 0x2030, 0x205f, 0x2060, 0x3000, 0x3001]

def isBlank (c : Char) : Bool := within blankChanges c.toNat

/-- Drops the blanks at both ends. -/
def trimBlank (text : List Char) : List Char :=
  ((text.dropWhile isBlank).reverse.dropWhile isBlank).reverse

end Text

end BinaryFormat
