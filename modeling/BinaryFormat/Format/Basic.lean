import BinaryFormat.Data.Bits
import BinaryFormat.Expr.Basic

/-!
# Formats

A format is a tree of components: numbers, text, structures, repetitions,
choices, envelopes and derived fields.  The same tree says how bytes are
parsed into a value, how a value is built into bytes, and how many bytes that
takes when the number does not depend on data.
-/

namespace BinaryFormat

/-! ## Parts of components -/

/-- Byte order of a number. -/
inductive Endian where
  | big
  | little
  /-- The order of the machine, which is little. -/
  | native
  deriving DecidableEq, Repr, Inhabited

def Endian.isLittle : Endian → Bool
  | big => false
  | little | native => true

/-- The two widths of a real number. -/
inductive RealWidth where
  | single
  | double
  deriving DecidableEq, Repr

def RealWidth.bytes : RealWidth → Nat
  | single => 4
  | double => 8

/-- Where padding goes when text is shorter than its field. -/
inductive PadSide where
  | left
  | right
  | center
  deriving DecidableEq, Repr, Inhabited

/-- Which end is cut when text is longer than its field. -/
inductive TrimEnd where
  | left
  | right
  deriving DecidableEq, Repr

/-- Reference point of a seek. -/
inductive Whence where
  | start
  | current
  | fromEnd
  deriving DecidableEq, Repr, Inhabited

/-- A member chosen by position or by name. -/
inductive Selector where
  | position (index : Nat)
  | name (name : String)
  deriving DecidableEq, Repr

/-- Filling bytes, checked when parsed if `strict`. -/
structure Fill where
  pattern : UInt8 := 0
  strict : Bool := false
  deriving DecidableEq, Repr, Inhabited

/-- A delimiter and what becomes of it. -/
structure Delimiter where
  unit : List UInt8 := [0]
  /-- The payload includes the delimiter. -/
  included : Bool := false
  /-- The delimiter stays in the stream. -/
  kept : Bool := false
  /-- The end of the stream may stand for the delimiter. -/
  optional : Bool := false
  deriving DecidableEq, Repr, Inhabited

/-- An invertible transformation of bytes. -/
inductive Transform where
  /-- Reverses the bytes. -/
  | reverseBytes
  /-- Reverses all bits. -/
  | reverseBits
  /-- Combines with a repeated key, a byte or a byte string. -/
  | xor (key : Expr)
  /-- Rotates the bits of every group of bytes to the left. -/
  | rotateLeft (amount : Expr) (group : Nat)

/-- How much of the stream a transformed component takes. -/
inductive Extent where
  /-- As much as the component's own size. -/
  | ofChild
  /-- Everything up to the end. -/
  | toEnd
  | fixed (size : Expr)

/-- The recoding of a view: bytes seen as bits, or bits seen as bytes. -/
inductive Granularity where
  | bits
  | bytes
  deriving DecidableEq, Repr

structure Recoding where
  granularity : Granularity
  order : BitOrder
  deriving DecidableEq, Repr

/-- A digest is stored as an integer or as bytes. -/
inductive Digest where
  | number (n : UInt64)
  | bytes (data : List UInt8)
  deriving DecidableEq, Repr

def Digest.value : Digest → Value
  | number n => .int n.toNat
  | bytes data => .bytes data

abbrev Hash : Type := List UInt8 → Digest

/-- A pair of conversions between the stored and the shown value. -/
structure Conversion where
  decode : Value → Except Fault Value
  encode : Value → Except Fault Value

/-- A pair of conversions that see the frames and the path. -/
structure ScopedConversion where
  decode : Scope → Path → Value → Except Failure Value
  encode : Scope → Path → Value → Except Failure Value

/-- How a value is judged. -/
inductive Rule where
  | satisfies (predicate : Expr)
  | oneOf (allowed : List Value)
  | noneOf (denied : List Value)

/-- What stands for an integer without a label. -/
inductive Unlabelled where
  /-- The integer itself. -/
  | raw
  | label (text : String)
  | refused
  deriving DecidableEq, Repr, Inhabited

/-! ## Components -/

inductive Format where
  -- bytes and numbers
  | bytes (length : Expr)
  | greedyBytes
  | integer (width : Expr) (signed : Bool) (endian : Endian)
  | bitInteger (width : Expr) (signed swapped : Bool)
  | flag
  | varint (maxBits : Nat)
  | zigzag
  | real (width : RealWidth) (endian : Endian)
  -- text
  | fixedText (length : Expr) (encoding : Encoding) (pad : Char) (side : PadSide)
      (trim : Option TrimEnd)
  | prefixedText (length : Format) (encoding : Encoding)
  | terminatedText (terminators : List (List UInt8)) (encoding : Encoding)
  | greedyText (encoding : Encoding)
  -- names and structures
  | named (name : String) (of : Format)
  | documented (docs : String) (of : Format)
  | struct (fields : List Format) (overwrite : Bool)
  | sequence (items : List Format)
  | embedded (of : Format)
  | focused (focus : Selector) (items : List Format)
  -- repetition
  | array (count : Expr) (of : Format) (discard : Bool)
  | range (least most : Expr) (of : Format) (discard : Bool)
  | greedyRange (of : Format) (discard : Bool)
  | repeatUntil (last : Expr) (of : Format) (discard : Bool)
  | prefixedArray (count of : Format)
  -- choice
  | select (alternatives : List Format) (tagged : Bool)
  | union (key : Option Selector) (alternatives : List Format)
  | branch (condition : Expr) (yes no : Format)
  | switch (key : Expr) (cases : List (Value × Format)) (fallback : Option Format)
  -- position
  | pass
  | terminated
  | tell
  | seek (target : Expr) (whence : Whence)
  | pointer (offset : Expr) (of : Format)
  | peek (of : Format)
  | padding (length : Expr) (fill : Fill)
  | padded (length : Expr) (of : Format) (fill : Fill)
  | aligned (modulus : Expr) (of : Format) (fill : Fill)
  -- envelopes
  | prefixed (length of : Format) (inclusive lenient : Bool)
  | fixedSized (length : Expr) (of : Format)
  | delimited (of : Format) (delimiter : Delimiter)
  | stripped (of : Format) (pad : List UInt8)
  | rawCopy (of : Format)
  | transformed (of : Format) (transform : Transform) (extent : Extent)
  | recoded (of : Format) (recoding : Recoding) (checkEntry : Bool)
  -- derived values
  | constant (of : Format) (value : Value)
  | computed (expr : Expr)
  | rebuild (of : Format) (expr : Expr)
  | fallback (of : Format) (value : Value)
  | check (condition : Expr)
  | fail (message : String)
  | checksum (of : Format) (hash : Hash) (data : Expr)
  -- conversions
  | converted (of : Format) (conversion : Conversion)
  | convertedIn (of : Format) (conversion : ScopedConversion)
  | convertedBy (of : Format) (decode encode : Expr)
  | validated (of : Format) (rule : Rule)
  | labelled (of : Format) (labels : List (String × Int)) (unlabelled : Unlabelled)
  | mapped (of : Format) (table : List (Value × Value))
  | flagSet (of : Format) (flags : List (String × Nat)) (strict : Bool)
  -- lazy members
  | lazyStruct (fields : List Format)
  | lazySequence (items : List Format)
  | lazyArray (count : Expr) (of : Format)
  | lazyRange (least most : Expr) (of : Format)
  /-- A format that is defined elsewhere under a name, perhaps around this one. -/
  | reference (name : String)

namespace Format

instance : Inhabited Format := ⟨pass⟩

/-! ## Properties known without data -/

/-- The name under which the value is stored. -/
def name? : Format → Option String
  | named name _ => some name
  | documented _ of => of.name?
  | _ => none

def docs? : Format → Option String
  | named _ of => of.docs?
  | documented docs _ => some docs
  | _ => none

/-- Whether the enclosing structure takes over this one's members. -/
def isEmbedded : Format → Bool
  | embedded _ => true
  | named _ of | documented _ of => of.isEmbedded
  | _ => false

/-- Formats of a kind that goes through names and comments and has no embedded ones in it are
not taken over. -/
theorem isEmbedded_eq_false_of {P : Format → Prop} (inlined : ∀ {of}, ¬ P (embedded of))
    (ofNamed : ∀ {name of}, P (named name of) → P of)
    (ofDocumented : ∀ {docs of}, P (documented docs of) → P of) :
    ∀ {f : Format}, P f → f.isEmbedded = false := by
  intro f h
  cases f with
  | named name of => exact isEmbedded_eq_false_of (f := of) inlined ofNamed ofDocumented (ofNamed h)
  | documented docs of =>
      exact isEmbedded_eq_false_of (f := of) inlined ofNamed ofDocumented (ofDocumented h)
  | embedded of => exact absurd h inlined
  | _ => rfl

mutual

/-- Whether building needs no value from the caller. -/
def isSelfSupplying : Format → Bool
  | pass | terminated | tell | seek _ _ | peek _ | padding _ _ => true
  | constant _ _ | computed _ | rebuild _ _ | fallback _ _ => true
  | check _ | fail _ | checksum _ _ _ => true
  | named _ of | documented _ of => isSelfSupplying of
  | select alternatives _ => anySelfSupplying alternatives
  | branch _ yes no => isSelfSupplying yes || isSelfSupplying no
  | pointer _ of | padded _ of _ | aligned _ of _ => isSelfSupplying of
  | prefixed _ of _ _ | fixedSized _ of | delimited of _ | stripped of _ => isSelfSupplying of
  | transformed of _ _ | recoded of _ _ => isSelfSupplying of
  | converted of _ | convertedIn of _ | validated of _ => isSelfSupplying of
  | _ => false

def anySelfSupplying : List Format → Bool
  | [] => false
  | f :: rest => isSelfSupplying f || anySelfSupplying rest

end

/-! ## Shorthands -/

private def width (n : Nat) : Expr := .const (.int n)

/-- Unsigned integer of so many bytes. -/
def unsigned (bytes : Nat) (endian : Endian) : Format := integer (width bytes) false endian

/-- Two's complement integer of so many bytes. -/
def signed (bytes : Nat) (endian : Endian) : Format := integer (width bytes) true endian

/-- Unsigned integer of so many bits, inside a bit view. -/
def bits (count : Expr) : Format := bitInteger count false false

def nibble : Format := bits (width 4)

def octet : Format := bits (width 8)

/-- A variable-length integer of at most `bits` bits, between 1 and 127. -/
def varintWithin (bits : Nat) : Format := varint (max 1 (min bits 127))

/-- A literal byte string. -/
def literal (data : List UInt8) : Format := constant (bytes (width data.length)) (.bytes data)

/-- Text that ends with a zero code unit. -/
def zeroTerminated (encoding : Encoding) : Format := terminatedText [encoding.null] encoding

/-- The component, or absence where it fails. -/
def optional (of : Format) : Format := select [of, pass] false

/-- The component where the condition holds, else absence. -/
def when (condition : Expr) (of : Format) : Format := branch condition of pass

/-- Two components, one after the other. -/
def followedBy (first second : Format) : Format := sequence [first, second]

/-- The component over the bits of the bytes. -/
def bitwise (of : Format) : Format := recoded of ⟨.bits, .msbFirst⟩ false

/-- The component over whole bytes regained from a bit view, from a byte boundary. -/
def bytewise (of : Format) : Format := recoded of ⟨.bytes, .msbFirst⟩ true

end Format

end BinaryFormat
