import BinaryFormat.Lazy.Access

/-!
# The tree of a value

An indented tree with one member per line.  Long text and byte strings are cut
short, private members and flags that are not set are left out, unless asked
for.  Lazy values are forced first; one that cannot be forced shows why.
-/

namespace BinaryFormat

namespace Tree

structure Options where
  /-- Long text and byte strings in full. -/
  full : Bool := false
  /-- Private members. -/
  hidden : Bool := false
  /-- Flags that are not set. -/
  falseFlags : Bool := false

/-- Longer text and byte strings are cut short. -/
def previewLength : Nat := 32

def byteText (b : UInt8) : List Char :=
  let c := Char.ofNat b.toNat
  if c = '\\' || c = '\'' then ['\\', c]
  else if 0x20 ≤ b.toNat ∧ b.toNat ≤ 0x7e then [c]
  else '\\' :: 'x' :: (Hex.byte b).toList

private def total (n : Nat) : String := " (total " ++ toString n ++ ")"

def bytesText (opts : Options) (data : List UInt8) : String :=
  let shown := if opts.full then data else data.take previewLength
  "b'" ++ String.ofList (shown.flatMap byteText) ++ "'" ++
    (if shown.length < data.length then "..." else "") ++ total data.length

def strText (opts : Options) (text : String) : String :=
  let shown := if opts.full then text.toList else text.toList.take previewLength
  Text.quote (String.ofList shown) ++
    (if shown.length < text.length then "..." else "") ++ total text.length

/-- The start of a line at a depth. -/
def newLine (depth : Nat) : String := "\n" ++ String.ofList (List.replicate (4 * depth) ' ')

/-- Whether an entry is left out. -/
def isOmitted (opts : Options) (isFlags : Bool) (name : String) (v : Value) : Bool :=
  (Record.isPrivate name && !opts.hidden) ||
    (isFlags && !opts.falseFlags &&
      match v with
      | .bool false => true
      | _ => false)

variable {ε : Type}

mutual

/-- The text of a value at a depth, given the text of its lazy parts. -/
def text (opts : Options) (lazyText : Nat → Value → Lookup ε String) (depth : Nat) :
    Value → Lookup ε String
  | .none => return "None"
  | .bool b => return toString b
  | .int n => return toString n
  | .float x => return Decimal.text .plain x
  | .bytes data => return bytesText opts data
  | .str s => return strText opts s
  | .list items => do
    return "ListContainer:" ++ (← itemsText opts lazyText (depth + 1) items)
  | .container fields => do
    return "Container:" ++ (← fieldsText opts lazyText false (depth + 1) fields)
  | .flags fields => do
    return "Flags:" ++ (← fieldsText opts lazyText true (depth + 1) fields)
  | v => lazyText depth v

def itemsText (opts : Options) (lazyText : Nat → Value → Lookup ε String) (depth : Nat) :
    List Value → Lookup ε String
  | [] => return ""
  | v :: rest => do
    let line := newLine depth ++ (← text opts lazyText depth v)
    return line ++ (← itemsText opts lazyText depth rest)

def fieldsText (opts : Options) (lazyText : Nat → Value → Lookup ε String) (isFlags : Bool)
    (depth : Nat) : List (String × Value) → Lookup ε String
  | [] => return ""
  | (name, v) :: rest => do
    if isOmitted opts isFlags name v then fieldsText opts lazyText isFlags depth rest
    else
      let line := newLine depth ++ name ++ " = " ++ (← text opts lazyText depth v)
      return line ++ (← fieldsText opts lazyText isFlags depth rest)

end

/-- The text of a lazy value at a depth. -/
def forcedText (r : Resolver) (opts : Options) (depth : Nat) (v : Value) :
    Lookup Failure String := do
  match ← (r.force v).outcome with
  | .ok forced => text opts (fun _ _ => return "") depth forced
  | .error failure => return "<unresolved: " ++ failure.text ++ ">"

end Tree

/-- The tree of a value. -/
def Value.tree (r : Resolver) (opts : Tree.Options) (v : Value) : Lookup Failure String :=
  Tree.text opts (Tree.forcedText r opts) 0 v

end BinaryFormat
