import BinaryFormat.Codec.BackPatch

/-!
# Structures

Named fields in a record, positional items in a list, and sequences of which
one item is the value.  Each of them has a frame of its own, in which every
member sees the ones before it.
-/

namespace BinaryFormat

/-- Notes an inlined member in the innermost frame, which may have to be new there. -/
def Run.insertInline (name : String) (value : Value) (overwrite : Bool) (path : Path) :
    Run Unit := do
  if !overwrite && (← Run.context).innermost.contains name then
    Run.fail (.misshapen (.collision name)) path
  Run.insert name value

namespace Codec

/-! ## Fields -/

/-- Parses fields into the innermost frame.  When they are `inlined` into another
structure, its policy on overwriting holds for them. -/
def parseFields (overwrite inlined : Bool) (path : Path) : List Part → Run Unit
  | [] => return ()
  | field :: rest => do
    if field.format.isEmbedded then field.codec.parseInline path overwrite
    else
      match field.name? with
      | some name =>
        let place := path.member name
        let value ← field.parse place
        if inlined then Run.insertInline name value overwrite place
        else Run.insert name value
      | none => let _ ← field.parse path
    parseFields overwrite inlined path rest

/-- What a named field is built from; a field that supplies itself may be left out. -/
def fieldInput (input : Record Value) (field : Part) (name : String) (path : Path) :
    Run Value :=
  match input.get? name with
  | some v => return v
  | none => if field.format.isSelfSupplying then return .none else Run.fail (.missing name) path

/-- Builds fields from a record and notes what was built in the innermost frame. -/
def buildFields (input : Record Value) (path : Path) : List Part → Run Unit
  | [] => return ()
  | field :: rest => do
    if field.format.isEmbedded then field.codec.buildInline input path
    else
      match field.name? with
      | some name =>
        let place := path.member name
        let value ← fieldInput input field name place
        let built ← field.build value place
        Run.insert name built
      | none => let _ ← field.build .none path
    buildFields input path rest

def fieldsSize (ctx : Context) (path : Path) : List Part → Lookup Failure Nat
  | [] => return 0
  | field :: rest => do
    let n ← field.codec.size ctx (path.memberIf field.name?)
    return Size.add n (← fieldsSize ctx path rest)

/-- A record of named fields. -/
def struct (e : Engine) (fields : List Part) (overwrite : Bool) : Codec where
  parse path := do
    let (_, frame) ← Run.inFrame [] (parseFields overwrite false path fields)
    return .container frame
  build v path := do
    let input ← e.containerInput v path
    let (_, frame) ← Run.inFrame input do
      buildFields input path fields
      e.resolvePending
    return .container frame
  size ctx path := fieldsSize (ctx.push []) path fields
  parseInline path overwrite := parseFields overwrite true path fields
  buildInline input path := buildFields input path fields

/-- A component whose fields the enclosing structure takes over. -/
def embedded (of : Codec) : Codec := of

/-! ## Items -/

/-- Notes an item in the innermost frame if it has a name. -/
def noteItem (item : Part) (value : Value) : Run Unit :=
  match item.name? with
  | some name => Run.insert name value
  | none => return ()

def parseItems (path : Path) : Nat → List Part → Run (List Value)
  | _, [] => return []
  | i, item :: rest => do
    let value ← item.parse (path.item item.name? i)
    noteItem item value
    return value :: (← parseItems path (i + 1) rest)

def buildItems (path : Path) : Nat → List (Part × Value) → Run (List Value)
  | _, [] => return []
  | i, (item, value) :: rest => do
    let built ← item.build value (path.item item.name? i)
    noteItem item built
    return built :: (← buildItems path (i + 1) rest)

def itemsSize (ctx : Context) (path : Path) : Nat → List Part → Lookup Failure Nat
  | _, [] => return 0
  | i, item :: rest => do
    let n ← item.codec.size ctx (path.item item.name? i)
    return Size.add n (← itemsSize ctx path (i + 1) rest)

/-- The values of named items, by name. -/
def preload (pairs : List (Part × Value)) : Record Value :=
  Record.ofList (pairs.filterMap fun (item, v) => item.name?.map fun name => (name, v))

/-- A list of items; named ones are seen by those after them. -/
def sequence (e : Engine) (items : List Part) : Codec where
  parse path := do
    let (values, _) ← Run.inFrame [] (parseItems path 0 items)
    return .list values
  build v path := do
    let input ← e.listInput v path
    if input.length ≠ items.length then
      Run.fail (.miscount (.items items.length input.length)) path
    let pairs := items.zip input
    let (values, _) ← Run.inFrame (preload pairs) do
      let values ← buildItems path 0 pairs
      e.resolvePending
      return values
    return .list values
  size ctx path := itemsSize (ctx.push []) path 0 items

/-! ## One item of several -/

namespace Select

/-- The text of a selector in messages. -/
def shown : Selector → String
  | .position i => s!"Index({i})"
  | .name name => "Name(" ++ Text.quote name ++ ")"

/-- The position of the chosen component. -/
def index? (selector : Selector) (parts : List Part) : Option Nat :=
  match selector with
  | .position i => if i < parts.length then some i else none
  | .name name => parts.findIdx? fun p => p.name? == some name

end Select

def focusIndex (focus : Selector) (items : List Part) (path : Path) : Run Nat :=
  match Select.index? focus items with
  | some i => return i
  | none => Run.fail (.misshapen (.focus (Select.shown focus))) path

/-- All items are parsed and built, and one of them is the value. -/
def focused (e : Engine) (focus : Selector) (items : List Part) : Codec where
  parse path := do
    let i ← focusIndex focus items path
    let (values, _) ← Run.inFrame [] (parseItems path 0 items)
    return values.getD i .none
  build v path := do
    let i ← focusIndex focus items path
    let inputs := items.zipIdx.map fun (item, j) => (item, if j = i then v else .none)
    let (values, _) ← Run.inFrame (preload ((inputs.drop i).take 1)) do
      let values ← buildItems path 0 inputs
      e.resolvePending
      return values
    return values.getD i .none
  size ctx path := itemsSize (ctx.push []) path 0 items

end Codec

end BinaryFormat
