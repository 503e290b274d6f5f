import BinaryFormat.Codec.Structure

/-!
# Choice

The first alternative that fits, alternatives laid over the same bytes, two
branches of a condition, and cases by key.  A failed attempt of a selection
leaves the stream and the queue of patches as they were; an explicit failure
ends it.
-/

namespace BinaryFormat

namespace Codec

/-! ## Selection -/

/-- A value with the name of its alternative. -/
def tag (tagged : Bool) (alternative : Part) (v : Value) : Value :=
  if tagged then
    .container [("name", (alternative.name?.map Value.str).getD .none), ("value", v)]
  else v

def parseFirst (tagged : Bool) (start : Nat) (path : Path) : List Part → Run (Option Value)
  | [] => return none
  | alternative :: rest => do
    match ← Run.outcome (alternative.parse path) with
    | .ok v => return some (tag tagged alternative v)
    | .error failure =>
      if failure.fault.isExplicit then throw failure
      Run.goTo start
      parseFirst tagged start path rest

/-- Builds an alternative beside the stream and copies it over if that succeeds. -/
def tryBuild (tagged : Bool) (alternative : Part) (v : Value) (path : Path) : Run Value := do
  let mark ← Run.mark
  match ← Run.outcome (alternative.codec.buildScratch v path) with
  | .ok (built, data) =>
    Run.splice data mark path
    return tag tagged alternative built
  | .error failure =>
    Run.modifyContext (·.discardSince mark)
    throw failure

def buildFirst (tagged : Bool) (v : Value) (path : Path) : List Part → Run (Option Value)
  | [] => return none
  | alternative :: rest => do
    match ← Run.outcome (tryBuild tagged alternative v path) with
    | .ok built => return some built
    | .error failure =>
      if failure.fault.isExplicit then throw failure
      buildFirst tagged v path rest

/-- The alternative that a tagged value names, and the value in it. -/
def namedAlternative? (alternatives : List Part) (v : Value) : Option (Part × Value) := do
  let fields ← v.fields?
  let name ← (← fields.get? "name").str?
  let alternative ← alternatives.find? fun a => a.name? == some name
  return (alternative, (fields.get? "value").getD .none)

/-- The first alternative that succeeds; `tagged` values name theirs. -/
def select (alternatives : List Part) (tagged : Bool) : Codec where
  parse path := do
    let start ← Run.tell
    match ← parseFirst tagged start path alternatives with
    | some v => return v
    | none => Run.fail (.noAlternative (.parsed alternatives.length)) path
  build v path := do
    match if tagged then namedAlternative? alternatives v else none with
    | some (alternative, inner) => tryBuild tagged alternative inner path
    | none =>
      match ← buildFirst tagged v path alternatives with
      | some built => return built
      | none =>
        Run.fail (.noAlternative (.built alternatives.length (← Run.dump v))) path
  size ctx path := do
    match commonSize (← Part.sizes ctx path alternatives) with
    | some n => return n
    | none => unsized (.because "select alternatives differ in size") path

/-! ## Union -/

/-- The position of the alternative that a key chooses. -/
def unionKey {ε : Type} (refuse : Fault → EStateM Failure ε (Option Nat))
    (key : Option Selector) (alternatives : List Part) : EStateM Failure ε (Option Nat) :=
  match key with
  | none => return none
  | some selector =>
    match Select.index? selector alternatives with
    | some i => return some i
    | none => refuse (.misshapen (.union (Select.shown selector)))

/-- The largest known size among the alternatives. -/
def fixedAdvance (ctx : Context) (path : Path) : List Part → Lookup Failure Nat
  | [] => return 0
  | a :: rest => do
    match ← (a.codec.size ctx path).outcome with
    | .ok n => return max n (← fixedAdvance ctx path rest)
    | .error _ => fixedAdvance ctx path rest

/-- Parses every alternative from `start`; yields where the one at `key` ended.  When they
are inlined, `policy` says whether they may overwrite. -/
def parseOverlaid (policy : Option Bool) (key : Option Nat) (start : Nat) (path : Path) :
    Nat → List Part → Run (Option Nat)
  | _, [] => return none
  | i, a :: rest => do
    Run.goTo start
    let place := path.memberIf a.name?
    let v ← a.parse place
    let reached ← Run.tell
    match a.name?, policy with
    | some name, some overwrite => Run.insertInline name v overwrite place
    | some name, none => Run.insert name v
    | none, _ => pure ()
    let later ← parseOverlaid policy key start path (i + 1) rest
    return if key = some i then some reached else later

def parseUnion (key : Option Selector) (alternatives : List Part) (path : Path)
    (policy : Option Bool) : Run Unit := do
  let chosen ← unionKey (Run.fail · path) key alternatives
  let start ← Run.tell
  match ← parseOverlaid policy chosen start path 0 alternatives with
  | some reached => Run.goTo reached
  | none =>
    let ctx ← Run.context
    Run.goTo (start + (← Run.lookup (fixedAdvance ctx path alternatives)))

def buildUnion (key : Option Selector) (alternatives : List Part) (input : Record Value)
    (path : Path) : Run Unit := do
  let isSupplied (a : Part) : Bool := a.name?.any input.contains
  match alternatives.find? isSupplied with
  | none => Run.fail (.missing "any union alternative") path
  | some a =>
    let name := a.name?.getD ""
    let start ← Run.tell
    let built ← a.build ((input.get? name).getD .none) (path.member name)
    Run.insert name built
    match ← unionKey (Run.fail · path) key alternatives with
    | some _ => return ()
    | none =>
      let ctx ← Run.context
      let advance ← Run.lookup (fixedAdvance ctx path alternatives)
      let written := Size.sub (← Run.tell) start
      if written < advance then Run.write (List.replicate (advance - written) 0) path
      Run.goTo (start + advance)

/-- Alternatives over the same bytes.  With a key the stream goes on where that alternative
ends, without one after the largest known size. -/
def union (e : Engine) (key : Option Selector) (alternatives : List Part) : Codec where
  parse path := do
    let (_, frame) ← Run.inFrame [] (parseUnion key alternatives path none)
    return .container frame
  build v path := do
    let input ← e.containerInput v path
    let (_, frame) ← Run.inFrame input (buildUnion key alternatives input path)
    return .container frame
  size ctx path := do
    match ← unionKey (fun fault => throw (fault.atPath path)) key alternatives with
    | some i =>
      match alternatives[i]? with
      | some a => a.codec.size ctx path
      | none => return 0
    | none => fixedAdvance ctx path alternatives
  parseInline path overwrite := parseUnion key alternatives path (some overwrite)
  buildInline input path := buildUnion key alternatives input path

/-! ## Conditions and cases -/

/-- One of two components. -/
def branch (e : Engine) (condition : Expr) (yes no : Codec) : Codec where
  parse path := do if ← e.evalHolds condition path then yes.parse path else no.parse path
  build v path := do
    if ← e.evalHolds condition path then yes.build v path else no.build v path
  size ctx path := do
    match ← (condition.evaluateHolds e.resolver ctx.scope path).outcome with
    | .ok true => yes.size ctx path
    | .ok false => no.size ctx path
    | .error failure => unsized (.condition condition.text failure.fault) path

/-- The component of the first case whose key is the one at hand. -/
def findCase (r : Resolver) (key : Value) (fallback : Option Part) :
    List (Value × Part) → Lookup Failure (Option Part)
  | [] => return fallback
  | (k, part) :: rest => do
    if ← r.equal k key then return some part
    findCase r key fallback rest

def chooseCase (r : Resolver) (key : Expr) (cases : List (Value × Part))
    (fallback : Option Part) (scope : Scope) (path : Path) : Lookup Failure Part := do
  let k ← key.evaluate r scope path
  match ← findCase r k fallback cases with
  | some part => return part
  | none => throw ((Fault.noCase (← Lookup.dump k)).atPath path)

/-- The component that a key chooses. -/
def switch (e : Engine) (key : Expr) (cases : List (Value × Part)) (fallback : Option Part) :
    Codec where
  parse path := do
    let scope ← Run.scope
    let part ← Run.lookup (chooseCase e.resolver key cases fallback scope path)
    part.codec.parse path
  build v path := do
    let scope ← Run.scope
    let part ← Run.lookup (chooseCase e.resolver key cases fallback scope path)
    part.codec.build v path
  size ctx path := do
    match ← (chooseCase e.resolver key cases fallback ctx.scope path).outcome with
    | .ok part => part.codec.size ctx path
    | .error _ =>
      let parts := cases.map Prod.snd ++ fallback.toList
      match commonSize (← Part.sizes ctx path parts) with
      | some n => return n
      | none => unsized (.switch key.text) path

end Codec

end BinaryFormat
