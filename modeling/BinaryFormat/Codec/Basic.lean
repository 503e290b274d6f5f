import BinaryFormat.Data.Size
import BinaryFormat.Expr.Eval
import BinaryFormat.Lazy.Resolve

/-!
# Codecs

What a format means: how it parses, builds and sizes.  The components of a
format are combined codec by codec; only three things reach beyond the tree at
hand, and they go through an `Engine`: formats referred to by name, members
that are parsed later, and patches that are built later.
-/

namespace BinaryFormat

/-- Parsing and building of formats outside of the tree at hand. -/
structure Engine where
  parse : Format → Path → Run Value
  build : Format → Value → Path → Run Value
  size : Format → Context → Path → Lookup Failure Nat
  /-- Forces a member of a lazy value. -/
  forceMember : Value → Lookup Failure Value

namespace Engine

variable (e : Engine)

/-- How lazy members are resolved: their formats are parsed by the engine. -/
def resolver : Resolver where
  resolve := Lookup.resolve e.parse
  force := Value.forceWith ⟨Lookup.resolve e.parse, e.forceMember⟩

/-! ## Expressions in a run -/

def eval (x : Expr) (path : Path) : Run Value := do
  Run.lookup (x.evaluate e.resolver (← Run.scope) path)

def evalInt (x : Expr) (path : Path) : Run Int := do
  Run.lookup (x.evaluateInt e.resolver (← Run.scope) path)

def evalSize (x : Expr) (path : Path) : Run Nat := do
  Run.lookup (x.evaluateSize e.resolver (← Run.scope) path)

def evalHolds (x : Expr) (path : Path) : Run Bool := do
  Run.lookup (x.evaluateHolds e.resolver (← Run.scope) path)

/-- The value of an expression over one object. -/
def evalOver (x : Expr) (object : Value) (path : Path) : Run Value := do
  Run.lookup (x.evaluate e.resolver { (← Run.scope) with object := some object } path)

/-- A size or count that has to be known without data. -/
def staticSize (x : Expr) (ctx : Context) (path : Path) : Lookup Failure Nat := do
  match ← (x.evaluateSize e.resolver ctx.scope path).outcome with
  | .ok n => return n
  | .error failure => throw ((Fault.unsized (.count x.text failure.fault)).atPath path)

def equal (a b : Value) : Run Bool := Run.lookup (e.resolver.equal a b)

def force (v : Value) : Run Value := Run.lookup (e.resolver.force v)

/-! ## Inputs of structures and repeaters -/

/-- The entries handed to a structure; absence is empty. -/
def containerInput (v : Value) (path : Path) : Run (Record Value) := do
  match v with
  | .container fields | .flags fields => return fields
  | .none => return []
  | .lazyContainer _ _ =>
    match ← e.force v with
    | .container fields => return fields
    | _ => return []
  | _ => Run.fail (.misshapen (.expected "a container" v.typeName)) path

/-- The elements handed to a repeater; bytes count as a list of integers. -/
def listInput (v : Value) (path : Path) : Run (List Value) := do
  match v with
  | .list items => return items
  | .bytes data => return Value.ofBytes data
  | .lazyList _ _ =>
    match ← e.force v with
    | .list items => return items
    | _ => return []
  | _ => Run.fail (.misshapen (.expected "a list" v.typeName)) path

end Engine

/-- The meaning of a format. -/
structure Codec where
  /-- Reads a value at the position of the stream. -/
  parse : Path → Run Value
  /-- Writes a value at the position of the stream; yields the value as built. -/
  build : Value → Path → Run Value
  /-- The size, where it does not depend on data. -/
  size : Context → Path → Lookup Failure Nat
  /-- Parses the members into the innermost frame, replacing others if allowed. -/
  parseInline : Path → Bool → Run Unit := fun path _ => Run.fail (.misshapen .embedding) path
  /-- Builds the members from a record and notes them in the innermost frame. -/
  buildInline : Record Value → Path → Run Unit := fun _ path =>
    Run.fail (.misshapen .embedding) path

namespace Codec

def unsized (cause : Unsized) (path : Path) : Lookup Failure Nat :=
  throw ((Fault.unsized cause).atPath path)

/-- The size of a component that never has a known one. -/
def sizeless (reason : String) : Context → Path → Lookup Failure Nat :=
  fun _ path => unsized (.because reason) path

/-- The size as the context of the run makes it. -/
def sizeNow (c : Codec) (path : Path) : Run Nat := do
  Run.lookup (c.size (← Run.context) path)

/-- Parses from a byte string of its own; also yields how much of it was read. -/
def parseSlice (c : Codec) (data : List UInt8) (path : Path) : Run (Value × Nat) := do
  let (v, stream) ← Run.onStream (.memory data) (c.parse path)
  return (v, stream.pos)

/-- Builds into a buffer of its own; also yields the bytes. -/
def buildScratch (c : Codec) (v : Value) (path : Path) : Run (Value × List UInt8) := do
  let (built, stream) ← Run.onStream (.memory []) (c.build v path)
  return (built, stream.data)

/-- The one size that all sizes agree on. -/
def commonSize : List Nat → Option Nat
  | [] => none
  | first :: rest => if rest.all (· == first) then some first else none

end Codec

/-- Copies a buffer into the stream and moves the patches recorded since to where it
lands. -/
def Run.splice (data : List UInt8) (mark : Nat) (path : Path) : Run Unit := do
  let base ← Run.tell
  Run.write data path
  Run.modifyContext (·.rebaseSince mark base)

/-- A component with its meaning. -/
structure Part where
  format : Format
  codec : Codec

namespace Part

def name? (p : Part) : Option String := p.format.name?

/-- Parses, tagging a failure with the offset at which the component starts. -/
def parse (p : Part) (path : Path) : Run Value := Run.tagged (p.codec.parse path)

/-- Builds, tagging a failure with the offset at which the component starts. -/
def build (p : Part) (v : Value) (path : Path) : Run Value := Run.tagged (p.codec.build v path)

/-- The sizes of components, all of which have to be known. -/
def sizes (ctx : Context) (path : Path) : List Part → Lookup Failure (List Nat)
  | [] => pure []
  | p :: rest => do
    let n ← p.codec.size ctx path
    return n :: (← sizes ctx path rest)

end Part

end BinaryFormat
