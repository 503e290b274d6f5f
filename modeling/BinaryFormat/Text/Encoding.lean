import BinaryFormat.Data.Bytes
import BinaryFormat.Text.Quoted

/-!
# Character encodings

Seven encodings between text and byte strings.  Decoding accepts exactly the
byte strings that encoding produces: no overlong forms, no lone surrogates, no
code points outside Unicode and no partial code units.
-/

namespace BinaryFormat

/-- Character encoding of a text field. -/
inductive Encoding where
  | utf8
  | utf16le
  | utf16be
  | utf32le
  | utf32be
  /-- Bytes below 128. -/
  | ascii
  /-- Bytes stand for the first 256 code points. -/
  | latin1
  deriving DecidableEq, Repr, Inhabited

/-- Why text could not be encoded, or bytes not decoded. -/
inductive EncodingFault where
  | partialUnit (length unit : Nat)
  | invalidSequence (index : Nat)
  | notAscii (byte : UInt8) (index : Nat)
  | unpairedSurrogate (unit : Nat)
  | invalidCodePoint (point : Nat)
  | unencodable (c : Char) (encoding : Encoding)
  | padNotUnit (pad : Char)
  | tooLong (bytes room : Nat)
  | containsTerminator (shown : String)
  deriving DecidableEq, Repr

namespace Encoding

/-- The name that messages use. -/
def label : Encoding → String
  | .utf8 => "Utf8"
  | .utf16le => "Utf16Le"
  | .utf16be => "Utf16Be"
  | .utf32le => "Utf32Le"
  | .utf32be => "Utf32Be"
  | .ascii => "Ascii"
  | .latin1 => "Latin1"

/-- Width of a code unit in bytes. -/
def unit : Encoding → Nat
  | .utf16le | .utf16be => 2
  | .utf32le | .utf32be => 4
  | _ => 1

/-- The code unit that is all zeros. -/
def null (encoding : Encoding) : List UInt8 := List.replicate encoding.unit 0

/-- The character of a code point, if it is one. -/
def scalar? (n : Nat) : Option Char :=
  if n < 0xd800 ∨ (0xdfff < n ∧ n < 0x110000) then some (Char.ofNat n) else none

/-! ## UTF-8 -/

def utf8Char (c : Char) : List UInt8 :=
  let n := c.toNat
  if n < 0x80 then [UInt8.ofNat n]
  else if n < 0x800 then [UInt8.ofNat (0xc0 + n / 64), UInt8.ofNat (0x80 + n % 64)]
  else if n < 0x10000 then
    [UInt8.ofNat (0xe0 + n / 4096), UInt8.ofNat (0x80 + n / 64 % 64),
      UInt8.ofNat (0x80 + n % 64)]
  else
    [UInt8.ofNat (0xf0 + n / 262144), UInt8.ofNat (0x80 + n / 4096 % 64),
      UInt8.ofNat (0x80 + n / 64 % 64), UInt8.ofNat (0x80 + n % 64)]

def encodeUtf8 (text : String) : List UInt8 := text.toList.flatMap utf8Char

/-- Whether a byte continues a sequence. -/
def isTail (b : UInt8) : Bool := b.toNat / 64 == 2

/-- The code point of a two-byte sequence. -/
def pair? (a b : UInt8) : Option Char :=
  let n := (a.toNat - 0xc0) * 64 + (b.toNat - 0x80)
  if a.toNat / 32 = 6 ∧ isTail b ∧ 0x80 ≤ n then scalar? n else none

/-- The code point of a three-byte sequence. -/
def triple? (a b c : UInt8) : Option Char :=
  let n := (a.toNat - 0xe0) * 4096 + (b.toNat - 0x80) * 64 + (c.toNat - 0x80)
  if a.toNat / 16 = 14 ∧ isTail b ∧ isTail c ∧ 0x800 ≤ n then scalar? n else none

/-- The code point of a four-byte sequence. -/
def quadruple? (a b c d : UInt8) : Option Char :=
  let n := (a.toNat - 0xf0) * 262144 + (b.toNat - 0x80) * 4096 + (c.toNat - 0x80) * 64 +
    (d.toNat - 0x80)
  if a.toNat / 8 = 30 ∧ isTail b ∧ isTail c ∧ isTail d ∧ 0x10000 ≤ n then scalar? n else none

/-- Puts a character in front of the ones that were read behind it. -/
def cons (c : Char) (rest : Except EncodingFault (List Char)) :
    Except EncodingFault (List Char) :=
  rest.map (c :: ·)

/-- Reads sequences from a byte string of which `index` bytes were read before; the
first one that is no sequence is refused with its index. -/
def decodeUtf8 (index : Nat) : List UInt8 → Except EncodingFault (List Char)
  | [] => .ok []
  | a :: afterA =>
    if a.toNat < 0x80 then cons (Char.ofNat a.toNat) (decodeUtf8 (index + 1) afterA)
    else
      match afterA with
      | [] => .error (.invalidSequence index)
      | b :: afterB =>
        match pair? a b with
        | some c => cons c (decodeUtf8 (index + 2) afterB)
        | none =>
          match afterB with
          | [] => .error (.invalidSequence index)
          | c :: afterC =>
            match triple? a b c with
            | some ch => cons ch (decodeUtf8 (index + 3) afterC)
            | none =>
              match afterC with
              | [] => .error (.invalidSequence index)
              | d :: afterD =>
                match quadruple? a b c d with
                | some ch => cons ch (decodeUtf8 (index + 4) afterD)
                | none => .error (.invalidSequence index)

/-! ## UTF-16 and UTF-32 -/

/-- A code unit of `width` bytes in either byte order. -/
def unitBytes (little : Bool) (width n : Nat) : List UInt8 :=
  let bytes := Bytes.ofNat width n
  if little then bytes.reverse else bytes

def utf16Char (c : Char) : List Nat :=
  let n := c.toNat
  if n < 0x10000 then [n]
  else [0xd800 + (n - 0x10000) / 1024, 0xdc00 + (n - 0x10000) % 1024]

def isHighSurrogate (n : Nat) : Bool := n / 1024 == 54

def isLowSurrogate (n : Nat) : Bool := n / 1024 == 55

def decodeUtf16 : List Nat → Except EncodingFault (List Char)
  | [] => .ok []
  | high :: rest =>
    if isHighSurrogate high then
      match rest with
      | [] => .error (.unpairedSurrogate high)
      | low :: rest =>
        if isLowSurrogate low then
          cons (Char.ofNat (0x10000 + (high - 0xd800) * 1024 + (low - 0xdc00)))
            (decodeUtf16 rest)
        else .error (.unpairedSurrogate high)
    else if isLowSurrogate high then .error (.unpairedSurrogate high)
    else cons (Char.ofNat high) (decodeUtf16 rest)

def units16 (little : Bool) : List UInt8 → List Nat
  | a :: b :: rest => Bytes.toNat (if little then [b, a] else [a, b]) :: units16 little rest
  | _ => []

def units32 (little : Bool) : List UInt8 → List Nat
  | a :: b :: c :: d :: rest =>
      Bytes.toNat (if little then [d, c, b, a] else [a, b, c, d]) :: units32 little rest
  | _ => []

def decodeUtf32 : List Nat → Except EncodingFault (List Char)
  | [] => .ok []
  | n :: rest =>
    match scalar? n with
    | some c => cons c (decodeUtf32 rest)
    | none => .error (.invalidCodePoint n)

/-! ## All encodings -/

/-- One byte for every character, all of them below `limit`. -/
def encodeNarrow (encoding : Encoding) (limit : Nat) :
    List Char → Except EncodingFault (List UInt8)
  | [] => .ok []
  | c :: rest =>
    if c.toNat < limit then
      (encodeNarrow encoding limit rest).map (UInt8.ofNat c.toNat :: ·)
    else .error (.unencodable c encoding)

def encode (encoding : Encoding) (text : String) : Except EncodingFault (List UInt8) :=
  match encoding with
  | .utf8 => .ok (encodeUtf8 text)
  | .ascii => encodeNarrow .ascii 0x80 text.toList
  | .latin1 => encodeNarrow .latin1 0x100 text.toList
  | .utf16le => .ok ((text.toList.flatMap utf16Char).flatMap (unitBytes true 2))
  | .utf16be => .ok ((text.toList.flatMap utf16Char).flatMap (unitBytes false 2))
  | .utf32le => .ok (text.toList.flatMap fun c => unitBytes true 4 c.toNat)
  | .utf32be => .ok (text.toList.flatMap fun c => unitBytes false 4 c.toNat)

/-- Reads one-byte characters below 128; the first other byte is refused with its index. -/
def decodeAscii (index : Nat) : List UInt8 → Except EncodingFault (List Char)
  | [] => .ok []
  | b :: rest =>
    if b.toNat < 0x80 then cons (Char.ofNat b.toNat) (decodeAscii (index + 1) rest)
    else .error (.notAscii b index)

def decodeChars (encoding : Encoding) (data : List UInt8) :
    Except EncodingFault (List Char) :=
  if data.length % encoding.unit ≠ 0 then .error (.partialUnit data.length encoding.unit)
  else
    match encoding with
    | .utf8 => decodeUtf8 0 data
    | .ascii => decodeAscii 0 data
    | .latin1 => .ok (data.map fun b => Char.ofNat b.toNat)
    | .utf16le => decodeUtf16 (units16 true data)
    | .utf16be => decodeUtf16 (units16 false data)
    | .utf32le => decodeUtf32 (units32 true data)
    | .utf32be => decodeUtf32 (units32 false data)

def decode (encoding : Encoding) (data : List UInt8) : Except EncodingFault String :=
  (decodeChars encoding data).map String.ofList

end Encoding

namespace EncodingFault

def text : EncodingFault → String
  | partialUnit length unit => s!"{length} bytes is not a whole number of {unit}-byte units"
  | invalidSequence index => s!"invalid utf-8 at byte {index}"
  | notAscii byte index => s!"non-ascii byte 0x{Hex.byte byte} at {index}"
  | unpairedSurrogate unit => s!"unpaired surrogate 0x{Hex.number 4 unit}"
  | invalidCodePoint point => s!"invalid code point 0x{Hex.number 1 point}"
  | unencodable c encoding => s!"{Text.quoteChar c} cannot be encoded as {encoding.label}"
  | padNotUnit pad => s!"pad character {Text.quoteChar pad} is not a single code unit"
  | tooLong bytes room => s!"encoded string is {bytes} bytes, field holds {room}"
  | containsTerminator shown => s!"{shown} contains a terminator"

end EncodingFault

end BinaryFormat
