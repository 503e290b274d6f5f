import BinaryFormat.Codec.Basic

/-!
# Back-patches

A field whose value depends on later ones reserves its bytes when it is built
and queues a patch.  The patch is computed in the scope that it was registered
in, and written, as soon as its expression has a value; a strict resolution
refuses patches that still have none.
-/

namespace BinaryFormat

namespace Checksum

/-- The byte of an integer or a boolean. -/
def byte? (v : Value) : Option UInt8 :=
  match v.int? with
  | some n => if 0 ≤ n ∧ n < 256 then some (UInt8.ofNat n.toNat) else none
  | none => none

def listBytes : List Value → Option (List UInt8)
  | [] => some []
  | v :: rest => do return (← byte? v) :: (← listBytes rest)

mutual

/-- The bytes that a checksum covers: bytes, the encoded form of text, a list of byte
values, or the `data` of a raw copy. -/
def input : Value → Except Fault (List UInt8)
  | .bytes data => .ok data
  | .str text => .ok (Encoding.encodeUtf8 text)
  | .list items =>
    match listBytes items with
    | some data => .ok data
    | none => .error (.misshapen .checksumItems)
  | .container fields => inputOfData fields
  | v => .error (.misshapen (.checksum v.typeName))

def inputOfData : List (String × Value) → Except Fault (List UInt8)
  | [] => .error (.misshapen (.checksum "container"))
  | (key, value) :: rest => if key = "data" then input value else inputOfData rest

end

/-- The digest that belongs to the value of an expression. -/
def digest (hash : Hash) (v : Value) : Except Fault Value := (input v).map fun d => (hash d).value

end Checksum

namespace Patch

/-- The value that a patch writes, in a scope. -/
def compute (r : Resolver) (scope : Scope) (path : Path) : Patch → Lookup Failure Value
  | value expr => expr.evaluate r scope path
  | checksum data hash => do
    let v ← data.evaluate r scope path
    (Lookup.ofExcept (Checksum.digest hash v)).atPath path

end Patch

namespace Engine

variable (e : Engine)

/-- Writes a patch over its reserved bytes and notes its value. -/
def applyPatch (d : Deferred) (value : Value) : Run Unit := do
  let back ← Run.tell
  let _ ← Run.seek (.start d.offset) d.path
  let built ← e.build d.field value d.path
  let written := Size.sub (← Run.tell) d.offset
  Run.goTo back
  if written ≠ d.size then Run.fail (.misfit (.patch written d.size)) d.path
  Run.modifyContext (·.noted d built)

/-- Applies the patches that can be computed; yields the others. -/
def applyPatches (strict : Bool) : List Deferred → Run (List Deferred)
  | [] => return []
  | d :: rest => do
    let ctx ← Run.context
    match ← Run.outcome (Run.lookup (d.patch.compute e.resolver (ctx.scopeOf d) d.path)) with
    | .ok value =>
      e.applyPatch d value
      applyPatches strict rest
    | .error failure =>
      if !strict && failure.fault.isPending then return d :: (← applyPatches strict rest)
      throw failure

/-- Resolves the patches that were queued on the innermost frame after `mark`; those that
are still pending stay queued, unless `strict` refuses them. -/
def resolveSince (mark : Nat) (strict : Bool) : Run Unit := do
  let pending := (← Run.context).top.deferred.drop mark
  Run.modifyContext (·.discardSince mark)
  let unresolved ← e.applyPatches strict pending
  Run.modifyContext fun ctx => ctx.withDeferred (ctx.top.deferred ++ unresolved)

/-- Resolves the patches of the innermost frame as far as they can be. -/
def resolvePending : Run Unit := e.resolveSince 0 false

end Engine

namespace Codec

/-- Reserves the size of a component with zeros and queues a patch for it. -/
def reserve (of : Part) (patch : Patch) (path : Path) : Run Value := do
  let size ← of.codec.sizeNow path
  let offset ← Run.tell
  Run.write (List.replicate size 0) path
  Run.modifyContext (·.defer ⟨offset, size, of.format, patch, path, 0, []⟩)
  return .none

/-- A component whose value is always computed when it is built. -/
def rebuild (e : Engine) (of : Part) (expr : Expr) : Codec where
  parse path := of.codec.parse path
  build _ path := do
    match ← Run.outcome (e.eval expr path) with
    | .ok value => of.codec.build value path
    | .error failure =>
      if failure.fault.isPending then
        match ← Run.outcome (of.codec.sizeNow path) with
        | .ok _ => reserve of (.value expr) path
        | .error _ => throw failure
      else throw failure
  size := of.codec.size

/-- Whether a stored and a computed digest agree; an integer stands for the bytes of its
big-endian form. -/
def digestsAgree (e : Engine) (stored computed : Value) : Run Bool :=
  match stored, computed with
  | .int n, .bytes data | .bytes data, .int n =>
      return data.length ≤ 16 && Int.bmod (Bytes.toNat data) (Nat.pow 2 128) == n
  | _, _ => e.equal stored computed

/-- A digest of other data, verified when parsed and computed when built. -/
def checksum (e : Engine) (of : Part) (hash : Hash) (data : Expr) : Codec where
  parse path := do
    let stored ← of.codec.parse path
    let input ← e.eval data path
    let computed ← Run.ofExcept path (Checksum.digest hash input)
    if !(← digestsAgree e stored computed) then
      Run.fail (.rejected (.checksum (← Run.dump stored) (← Run.dump computed))) path
    return stored
  build _ path := do
    let compute : Run Value := do
      let input ← e.eval data path
      Run.ofExcept path (Checksum.digest hash input)
    match ← Run.outcome compute with
    | .ok digest => of.codec.build digest path
    | .error failure =>
      if failure.fault.isPending then reserve of (.checksum data hash) path
      else throw failure
  size := of.codec.size

end Codec

end BinaryFormat
