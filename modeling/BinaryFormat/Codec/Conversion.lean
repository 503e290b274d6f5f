import BinaryFormat.Codec.Basic
import BinaryFormat.Text.Blank

/-!
# Conversions

Components whose value is shown in another form than it is stored in: through
functions or expressions, with labels for integers, by a table, or as named
flags; and components whose value has to satisfy a rule.  Building yields the
value as it was given.
-/

namespace BinaryFormat

namespace Codec

/-- A component seen through two functions. -/
def converted (of : Codec) (conversion : Conversion) : Codec where
  parse path := do
    let raw ← of.parse path
    Run.ofExcept path (conversion.decode raw)
  build v path := do
    let raw ← Run.ofExcept path (conversion.encode v)
    let _ ← of.build raw path
    return v
  size := of.size

/-- A component seen through two functions of the context. -/
def convertedIn (of : Codec) (conversion : ScopedConversion) : Codec where
  parse path := do
    let raw ← of.parse path
    Run.settle (conversion.decode (← Run.scope) path raw)
  build v path := do
    let raw ← Run.settle (conversion.encode (← Run.scope) path v)
    let _ ← of.build raw path
    return v
  size := of.size

/-- A component seen through two expressions over its value. -/
def convertedBy (e : Engine) (of : Codec) (decode encode : Expr) : Codec where
  parse path := do
    let raw ← of.parse path
    e.evalOver decode raw path
  build v path := do
    let raw ← e.evalOver encode v path
    let _ ← of.build raw path
    return v
  size := of.size

/-! ## Rules -/

def isAmong (e : Engine) (v : Value) : List Value → Run Bool
  | [] => return false
  | other :: rest => do if ← e.equal other v then return true else isAmong e v rest

/-- Refuses a value that breaks a rule. -/
def validate (e : Engine) (rule : Rule) (v : Value) (path : Path) : Run Unit := do
  match rule with
  | .satisfies predicate =>
    if !(← e.evalOver predicate v path).holds then
      Run.fail (.rejected (.predicate (← Run.dump v) predicate.text)) path
  | .oneOf allowed =>
    if !(← isAmong e v allowed) then
      Run.fail (.rejected (.notOneOf (← Run.dump v) (Value.dumpAll allowed))) path
  | .noneOf denied =>
    if ← isAmong e v denied then
      Run.fail (.rejected (.oneOf (← Run.dump v) (Value.dumpAll denied))) path

def validated (e : Engine) (of : Codec) (rule : Rule) : Codec where
  parse path := do
    let v ← of.parse path
    validate e rule v path
    return v
  build v path := do
    validate e rule v path
    of.build v path
  size := of.size

/-! ## Labels and tables -/

def labelOf? (labels : List (String × Int)) (n : Int) : Option String :=
  (labels.find? fun l => l.2 == n).map Prod.fst

def numberOf? (labels : List (String × Int)) (label : String) : Option Int :=
  (labels.find? fun l => l.1 == label).map Prod.snd

/-- Integers shown as labels; a label or an integer is built. -/
def labelled (of : Codec) (labels : List (String × Int)) (unlabelled : Unlabelled) : Codec where
  parse path := do
    let raw ← of.parse path
    match raw.int? with
    | none => Run.fail (.misshapen (.enumOver raw.typeName)) path
    | some n =>
      match labelOf? labels n, unlabelled with
      | some label, _ => return .str label
      | none, .raw => return raw
      | none, .label label => return .str label
      | none, .refused => Run.fail (.unmapped (.label n)) path
  build v path := do
    let n ←
      match v with
      | .str label =>
        match numberOf? labels label with
        | some n => pure n
        | none => Run.fail (.unmapped (.value label)) path
      | .int n => pure n
      | _ => Run.fail (.misshapen (.enumInput v.typeName)) path
    let _ ← of.build (.int n) path
    return v
  size := of.size

/-- The first pair whose second component is the same as a value. -/
def findPair (e : Engine) (v : Value) : List (Value × Value) → Run (Option Value)
  | [] => return none
  | (shown, key) :: rest => do
    if ← e.equal key v then return some shown else findPair e v rest

/-- Values shown by a table of pairs, each the decoded and the stored value. -/
def mapped (e : Engine) (of : Codec) (table : List (Value × Value)) : Codec where
  parse path := do
    let raw ← of.parse path
    match ← findPair e raw table with
    | some shown => return shown
    | none => Run.fail (.unmapped (.raw (← Run.dump raw))) path
  build v path := do
    match ← findPair e v (table.map fun (shown, raw) => (raw, shown)) with
    | some raw =>
      let _ ← of.build raw path
      return v
    | none => Run.fail (.unmapped (.decoded (← Run.dump v))) path
  size := of.size

/-! ## Flags -/

/-- The name under which bits without a flag are kept. -/
def unknownFlags : String := "unknown"

def maskOf (flags : List (String × Nat)) (name : String) : Except Fault Nat :=
  match flags.find? fun f => f.1 == name with
  | some (_, mask) => .ok mask
  | none => .error (.unmapped (.flag name))

/-- The parts of a text between its bars, without blanks around them. -/
def flagNames (text : String) : List String :=
  let parts := text.toList.foldr
    (fun c parts =>
      match c, parts with
      | '|', _ => [] :: parts
      | _, first :: rest => (c :: first) :: rest
      | _, [] => [[c]])
    [[]]
  (parts.map Text.trimBlank).filterMap fun part =>
    if part.isEmpty then none else some (String.ofList part)

/-- The bits that an entry of a flags record sets. -/
def entryBits (flags : List (String × Nat)) (name : String) (v : Value) : Except Fault Nat :=
  if name = unknownFlags then
    .ok (match v.int? with
      | some n => n.toNat
      | none => 0)
  else if v.holds then maskOf flags name
  else .ok 0

/-- The bits of a flags record, a list of names, or an integer. -/
def flagBits (flags : List (String × Nat)) (v : Value) : Except Fault Nat :=
  match v with
  | .int n => if n < 0 then .error (.misfit (.negativeFlags n)) else .ok n.toNat
  | .str names =>
      (flagNames names).foldlM (fun acc name => (maskOf flags name).map (acc ||| ·)) 0
  | .container fields | .flags fields =>
      (Record.visible fields).foldlM
        (fun acc (name, v) => (entryBits flags name v).map (acc ||| ·)) 0
  | _ => .error (.misshapen (.flagsInput v.typeName))

/-- The bits that flags lay claim to. -/
def claimed (flags : List (String × Nat)) : Nat := flags.foldl (fun acc f => acc ||| f.2) 0

/-- The bits of a number that no flag lays claim to. -/
def unclaimed (flags : List (String × Nat)) (raw : Nat) : Nat := raw ^^^ (raw &&& claimed flags)

/-- An entry for every flag, true if all its bits are set. -/
def flagRecord (flags : List (String × Nat)) (raw : Nat) : Record Value :=
  Record.ofList (flags.map fun (name, mask) => (name, .bool (raw &&& mask == mask)))

/-- An integer shown as named flags.  Bits without a flag are kept, or refused if
`strict`. -/
def flagSet (of : Codec) (flags : List (String × Nat)) (strict : Bool) : Codec where
  parse path := do
    let v ← of.parse path
    match v.int? with
    | some n =>
      if n < 0 then Run.fail (.misshapen (.flagsOver v.typeName)) path
      let raw := n.toNat
      let fields := flagRecord flags raw
      let rest := unclaimed flags raw
      if rest = 0 then return .flags fields
      if strict then Run.fail (.unmapped (.bits rest)) path
      return .flags (fields.insert unknownFlags (.ofNat rest))
    | none => Run.fail (.misshapen (.flagsOver v.typeName)) path
  build v path := do
    let raw ← Run.ofExcept path (flagBits flags v)
    if Nat.pow 2 127 ≤ raw then Run.fail (.misfit (.flagBits raw)) path
    let _ ← of.build (.ofNat raw) path
    return v
  size := of.size

end Codec

end BinaryFormat
