import BinaryFormat.Data.Bytes
import BinaryFormat.Text.Printable

/-!
# Quoted text

Text between quotes, with an escape for every character that would not be
seen as itself: the quote in use, the backslash, controls, characters that are
unprintable and those that combine with the one before.
-/

namespace BinaryFormat

namespace Text

/-- A character by its code point, as `\u` with the digits in braces. -/
def codePointEscape (c : Char) : List Char :=
  '\\' :: 'u' :: '\x7b' :: (Hex.number 1 c.toNat).toList ++ ['\x7d']

def escapeChar (quote c : Char) : List Char :=
  if c = '\x00' then ['\\', '0']
  else if c = '\t' then ['\\', 't']
  else if c = '\r' then ['\\', 'r']
  else if c = '\n' then ['\\', 'n']
  else if c = quote || c = '\\' then ['\\', c]
  else if isCombining c || !isPrintable c then codePointEscape c
  else [c]

/-- Text in double quotes. -/
def quote (text : String) : String :=
  String.ofList ('"' :: text.toList.flatMap (escapeChar '"') ++ ['"'])

/-- A character in single quotes. -/
def quoteChar (c : Char) : String :=
  String.ofList ('\'' :: escapeChar '\'' c ++ ['\''])

end Text

end BinaryFormat
