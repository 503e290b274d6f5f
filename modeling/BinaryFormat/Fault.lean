import BinaryFormat.Path
import BinaryFormat.Text.Encoding

/-!
# Faults and failures

A fault says what went wrong, by its cause; a failure is a fault with the path
and, once known, the stream offset at which it happened.  The wording of every
message is in the functions `text`; values and expressions that a message
shows are kept as the text they had at the time.
-/

namespace BinaryFormat

/-! ## Causes by class -/

/-- A read came up short, or the stream refused a write. -/
inductive Shortage where
  | read (wanted found : Nat)
  | refused
  | member (size : Nat)
  | elements (count size available : Nat)
  deriving DecidableEq, Repr

/-- A view was entered or left in the middle of a unit of the other granularity. -/
inductive Misalignment where
  | written (units chunk : Nat)
  | consumed (units chunk : Nat)
  | entered (position chunk : Nat)
  | childSize (size chunk : Nat)
  deriving DecidableEq, Repr

/-- A number or a block does not fit the space that the format gives it. -/
inductive Misfit where
  | notInteger (found : String)
  | notNumber (found : String)
  | width (limit : Nat) (unit : String) (found : Nat)
  | integer (value : Int) (bits : Nat) (signed : Bool)
  | pattern (units : Nat)
  | byteSwap (bits : Nat)
  | single (shown : String)
  | bytes (wanted : Nat) (found : List UInt8)
  | offset (n : Int)
  | storedLength (stored : Int)
  | stringLength (shown : String)
  | block (built room : Nat)
  | xorKey (key : Int)
  | groups (length group : Nat)
  | transformed (length wanted : Nat)
  | patch (written reserved : Nat)
  | negativeFlags (value : Int)
  | flagBits (bits : Nat)
  deriving DecidableEq, Repr

/-- An array or range has the wrong number of elements. -/
inductive Miscount where
  | evaluated (expr : String) (value : Int)
  | elements (wanted found : Nat)
  | bounds (least most : Nat)
  | tooFew (least found : Nat)
  | outside (least most found : Nat)
  | endless
  | stored (shown : String)
  | items (wanted found : Nat)
  deriving DecidableEq, Repr

/-- No alternative of a selection fits. -/
inductive NoAlternative where
  | parsed (count : Nat)
  | built (count : Nat) (shown : String)
  deriving DecidableEq, Repr

/-- A check, a validator or a checksum rejected the value. -/
inductive Rejection where
  | check (expr : String)
  | checksum (stored computed : String)
  | predicate (shown expr : String)
  | notOneOf (shown allowed : String)
  | oneOf (shown denied : String)
  | other (reason : String)
  deriving DecidableEq, Repr

/-- A table has no entry. -/
inductive Unmapped where
  | label (number : Int)
  | value (name : String)
  | raw (shown : String)
  | decoded (shown : String)
  | flag (name : String)
  | bits (n : Nat)
  deriving DecidableEq, Repr

/-- A variable-length integer is out of its range. -/
inductive Excess where
  | numeral (bytes : List UInt8) (bits : Nat)
  | value (n bits : Nat)
  | negative (n : Int)
  deriving DecidableEq, Repr

/-- A value has the wrong shape for its component. -/
inductive Misshape where
  /-- Another kind of value was wanted. -/
  | expected (wanted found : String)
  | evaluated (expr found : String)
  | length (found : String)
  | embedding
  | collision (name : String)
  | focus (shown : String)
  | union (shown : String)
  | emptyTerminator
  | noTerminators
  | xorKey (found : String)
  | emptyXorKey
  | checksumItems
  | checksum (found : String)
  | enumOver (found : String)
  | enumInput (found : String)
  | flagsOver (found : String)
  | flagsInput (found : String)
  | other (reason : String)
  deriving DecidableEq, Repr

/-- Padding does not fit or does not match. -/
inductive Mispadding where
  | pattern (wanted found : UInt8) (index : Nat)
  | overrun (used : Nat) (total : Nat)
  | modulus
  deriving DecidableEq, Repr

/-- Bytes are left over. -/
inductive Leftover where
  | stream (count : Nat)
  | payload (read size : Nat)
  deriving DecidableEq, Repr

/-- An expression has no value. -/
inductive Unevaluable where
  | objectUnbound
  | listUnbound
  | frameByPosition
  | indexKind (found : String)
  | noParent
  | noIndex
  | noVariable (name : String)
  | noField (name : String)
  | fieldOf (name found : String)
  | indexInto (found : String)
  | indexRange (index : Int) (length : Nat)
  | elementRange (index count : Nat)
  | operands (symbol left right : String)
  | overflow (left : Int) (symbol : String) (right : Int)
  | negOverflow (value : Int)
  | absOverflow (value : Int)
  | divisionByZero
  | notArithmetic (symbol : String)
  | negate (found : String)
  | noArgument (name : String)
  | noLength (found : String)
  | absOf (found : String)
  | emptyExtreme (name : String)
  | incomparable (name : String)
  | notList (found : String)
  | pattern (shown reason : String)
  | depth
  | other (reason : String)
  deriving DecidableEq, Repr

/-- The stream itself failed. -/
inductive StreamFault where
  | outside
  | beforeView
  | beforeSnapshot
  | readOnly
  deriving DecidableEq, Repr

mutual

/-- Why a size is not known without data. -/
inductive Unsized where
  | because (reason : String)
  | count (expr : String) (cause : Fault)
  | condition (expr : String) (cause : Fault)
  | product (count size : Nat)
  | varies (least most : Nat)
  | switch (key : String)
  deriving Repr

/-- What went wrong. -/
inductive Fault where
  | shortage (cause : Shortage)
  | misaligned (cause : Misalignment)
  | misfit (cause : Misfit)
  | constMismatch (wanted found : String)
  | miscount (cause : Miscount)
  | noCase (key : String)
  | noAlternative (cause : NoAlternative)
  | encoding (cause : EncodingFault)
  | rejected (cause : Rejection)
  | unmapped (cause : Unmapped)
  /-- The stream ended after so many bytes without a terminator. -/
  | unterminated (bytes : Nat)
  /-- Raised on purpose; never swallowed by a speculative component. -/
  | explicit (message : String)
  | unsized (cause : Unsized)
  | excess (cause : Excess)
  | missing (name : String)
  | misshapen (cause : Misshape)
  | mispadded (cause : Mispadding)
  | leftover (cause : Leftover)
  | unevaluable (cause : Unevaluable)
  | stream (cause : StreamFault)
  deriving Repr

end

instance : Inhabited Fault := ⟨.unterminated 0⟩

/-! ## Wording -/

def Shortage.text : Shortage → String
  | read wanted found => s!"expected {wanted} bytes, found {found}"
  | refused => "failed to write whole buffer"
  | member size => s!"member of {size} bytes"
  | elements count size available =>
      s!"{count} elements of {size} bytes do not fit in {available} bytes"

def Misalignment.text : Misalignment → String
  | written units chunk => s!"{units} units written, not a multiple of {chunk}"
  | consumed units chunk => s!"{units} units consumed, not a multiple of {chunk}"
  | entered position chunk => s!"entered at unit {position}, not a multiple of {chunk}"
  | childSize size chunk => s!"child size {size} is not a multiple of {chunk}"

def Misfit.text : Misfit → String
  | notInteger found => s!"expected an integer, found a {found}"
  | notNumber found => s!"expected a number, found a {found}"
  | width limit unit found => s!"integer width must be 1..={limit} {unit}, got {found}"
  | integer value bits signed =>
      s!"{value} does not fit a {bits}-bit " ++ (if signed then "signed" else "unsigned") ++
        " integer"
  | pattern units => s!"{units} exceeds the integer value range"
  | byteSwap bits => s!"cannot byte-swap {bits} bits"
  | single shown => s!"{shown} does not fit in a 32-bit float"
  | bytes wanted found =>
      s!"expected {wanted} bytes, found {found.length} ({Hex.spaced found})"
  | offset n => s!"offset {n} is out of range"
  | storedLength stored => s!"stored length {stored} is smaller than its own field"
  | stringLength shown => s!"invalid string length {shown}"
  | block built room => s!"child built {built} bytes into a {room}-byte block"
  | xorKey key => s!"xor key {key} does not fit a byte"
  | groups length group => s!"{length} bytes do not divide into groups of {group}"
  | transformed length wanted => s!"transformed payload is {length} bytes, expected {wanted}"
  | patch written reserved =>
      s!"back-patch wrote {written} bytes into a {reserved}-byte reservation"
  | negativeFlags value => s!"negative flags {value}"
  | flagBits bits => s!"flag bits 0x{Hex.number 1 bits} are out of range"

def Miscount.text : Miscount → String
  | evaluated expr value => s!"{expr} evaluated to {value}"
  | elements wanted found => s!"expected {wanted} elements, found {found}"
  | bounds least most => s!"min {least} exceeds max {most}"
  | tooFew least found => s!"expected at least {least} elements, found {found}"
  | outside least most found => s!"expected {least}..={most} elements, found {found}"
  | endless => "no element satisfies the terminating predicate"
  | stored shown => s!"invalid element count {shown}"
  | items wanted found => s!"sequence has {wanted} items, got {found}"

def NoAlternative.text : NoAlternative → String
  | parsed count => s!"none of {count} alternatives parsed"
  | built count shown => s!"none of {count} alternatives could build {shown}"

def Rejection.text : Rejection → String
  | check expr => s!"check {expr} failed"
  | checksum stored computed => s!"checksum mismatch: stored {stored}, computed {computed}"
  | predicate shown expr => s!"{shown} does not satisfy {expr}"
  | notOneOf shown allowed => s!"{shown} is not one of {allowed}"
  | oneOf shown denied => s!"{shown} is one of {denied}"
  | other reason => reason

def Unmapped.text : Unmapped → String
  | label number => s!"no label for {number}"
  | value name => s!"no value for label `{name}`"
  | raw shown => s!"no entry for raw {shown}"
  | decoded shown => s!"no entry for {shown}"
  | flag name => s!"no flag `{name}`"
  | bits n => s!"undeclared flag bits 0x{Hex.number 1 n}"

def Excess.text : Excess → String
  | numeral bytes bits => s!"varint {Hex.spaced bytes} exceeds {bits} bits"
  | value n bits => s!"{n} exceeds {bits} bits"
  | negative n => s!"varint cannot encode negative value {n}"

def Misshape.text : Misshape → String
  | expected wanted found => s!"expected {wanted}, found a {found}"
  | evaluated expr found => s!"{expr} evaluated to a {found}, expected an integer"
  | length found => s!"length field yielded a {found}"
  | embedding => "<construct> cannot be embedded"
  | collision name => s!"embedded field `{name}` collides with an existing field"
  | focus shown => s!"focus {shown} names no child"
  | union shown => s!"union key {shown} names no alternative"
  | emptyTerminator => "terminator must not be empty"
  | noTerminators => "terminated string without terminators"
  | xorKey found => s!"xor key must be an integer or bytes, found a {found}"
  | emptyXorKey => "xor key is empty"
  | checksumItems => "checksum over a list of non-bytes"
  | checksum found => s!"cannot checksum a {found}"
  | enumOver found => s!"enum over a {found}"
  | enumInput found => s!"enum expects a label or an integer, found a {found}"
  | flagsOver found => s!"flags over a {found}"
  | flagsInput found =>
      s!"flags expect a container, a name list or an integer, found a {found}"
  | other reason => reason

def Mispadding.text : Mispadding → String
  | pattern wanted found index =>
      s!"expected 0x{Hex.byte wanted} padding, found 0x{Hex.byte found} at byte {index}"
  | overrun used total => s!"child used {used} bytes of a {total}-byte block"
  | modulus => "alignment modulus must be positive"

def Leftover.text : Leftover → String
  | stream count => s!"expected end of stream, {count} bytes remain"
  | payload read size => s!"child read {read} of {size} prefixed bytes"

def Unevaluable.text : Unevaluable → String
  | objectUnbound => "obj_ is only bound inside predicates"
  | listUnbound => "list_ is only bound inside predicates"
  | frameByPosition => "cannot index a context frame by position"
  | indexKind found => s!"cannot index with a {found}"
  | noParent => "the parameter frame has no parent"
  | noIndex => "`_index` outside of a repeater"
  | noVariable name => s!"no field `{name}` in context"
  | noField name => s!"no field `{name}`"
  | fieldOf name found => s!"cannot read field `{name}` of a {found}"
  | indexInto found => s!"cannot index into a {found}"
  | indexRange index length => s!"index {index} out of range for length {length}"
  | elementRange index count => s!"index {index} out of range for {count} elements"
  | operands symbol left right => s!"unsupported operands for {symbol}: {left} and {right}"
  | overflow left symbol right => s!"integer overflow in {left} {symbol} {right}"
  | negOverflow value => s!"integer overflow in -({value})"
  | absOverflow value => s!"integer overflow in abs_({value})"
  | divisionByZero => "division by zero"
  | notArithmetic symbol => s!"`{symbol}` is not an arithmetic operator"
  | negate found => s!"cannot negate a {found}"
  | noArgument name => s!"{name} needs an argument"
  | noLength found => s!"a {found} has no length"
  | absOf found => s!"abs_ of a {found}"
  | emptyExtreme name => s!"{name} of an empty list"
  | incomparable name => s!"{name} over incomparable values"
  | notList found => s!"expected a list, found a {found}"
  | pattern shown reason => s!"invalid search pattern {shown}: {reason}"
  | depth => "formats nest too deeply"
  | other reason => reason

def StreamFault.text : StreamFault → String
  | outside => "invalid seek to a negative or overflowing position"
  | beforeView => "seek before start of restreamed view"
  | beforeSnapshot => "seek before start of snapshot"
  | readOnly => "lazy snapshots are read-only"

mutual

def Unsized.text : Unsized → String
  | .because reason => reason
  | .count expr cause => expr ++ " is not known: " ++ Fault.text cause
  | .condition expr cause => "condition " ++ expr ++ " is not known: " ++ Fault.text cause
  | .product count size => s!"{count} elements of {size} bytes overflow"
  | .varies least most => s!"element count varies between {least} and {most}"
  | .switch key => s!"switch key {key} is not known and cases differ in size"

def Fault.text : Fault → String
  | .shortage cause => "stream underflow: " ++ cause.text
  | .misaligned cause => "stream unaligned: " ++ cause.text
  | .misfit cause => "field size: " ++ cause.text
  | .constMismatch wanted found => s!"const mismatch: expected {wanted}, found {found}"
  | .miscount cause => "range count: " ++ cause.text
  | .noCase key => "switch has no match: no case for key " ++ key
  | .noAlternative cause => "select has no match: " ++ cause.text
  | .encoding cause => "string encoding: " ++ cause.text
  | .rejected cause => "validation failed: " ++ cause.text
  | .unmapped cause => "unknown mapping: " ++ cause.text
  | .unterminated bytes => s!"terminator not found: end of stream after {bytes} bytes"
  | .explicit message => "explicit error: " ++ message
  | .unsized cause => "size is not statically known: " ++ Unsized.text cause
  | .excess cause => "integer overflow: " ++ cause.text
  | .missing name => s!"missing field `{name}`"
  | .misshapen cause => "type mismatch: " ++ cause.text
  | .mispadded cause => "padding: " ++ cause.text
  | .leftover cause => "unconsumed bytes: " ++ cause.text
  | .unevaluable cause => "expression: " ++ cause.text
  | .stream cause => "io: " ++ cause.text

end

/-! ## Failures -/

/-- A fault with its place. -/
structure Failure where
  fault : Fault
  path : Path
  /-- Where the innermost failing component started in its stream. -/
  offset : Option Nat := none
  deriving Repr, Inhabited

namespace Fault

/-- Gives a fault its place. -/
def atPath (fault : Fault) (path : Path) : Failure := ⟨fault, path, none⟩

def isExplicit : Fault → Bool
  | explicit _ => true
  | _ => false

/-- Whether the fault may clear up once later fields are built. -/
def isPending : Fault → Bool
  | unevaluable _ | missing _ => true
  | _ => false

end Fault

namespace Failure

/-- Records the offset unless an inner component did. -/
def withOffset (failure : Failure) (offset : Nat) : Failure :=
  { failure with offset := failure.offset.or (some offset) }

def text (failure : Failure) : String :=
  failure.fault.text ++ " at " ++ failure.path.text ++
    match failure.offset with
    | some offset => s!" (offset {offset})"
    | none => ""

end Failure

end BinaryFormat
