import BinaryFormat.Lazy.Access

/-!
# Resolving lazy members

A member is parsed from the snapshot of its record alone, so it cannot reach
bytes outside.  A member of a structure sees the named members before it, which
are therefore resolved first; an element of a list sees its index.
-/

namespace BinaryFormat

namespace Slot

/-- Parses a member over a snapshot. -/
def parse (parse : Format → Path → Run Value) (slot : Slot) (data : List UInt8) (base : Nat)
    (ctx : Context) : Lookup Failure Value := fun store =>
  let ctx :=
    match slot.index with
    | some i => ctx.insert "_index" (.ofNat i)
    | none => ctx
  let stream := Stream.medium ⟨.snapshot base, data, slot.offset⟩
  match Run.tagged (parse slot.format slot.path) ⟨stream, ctx, store⟩ with
  | .ok v s => .ok v s.store
  | .error e s => .error e s.store

end Slot

namespace Members

/-- The value of a slot: the one that is known, or else the one parsed, which is then
known. -/
def value (parse : Format → Path → Run Value) (handle : Handle) (m : Members) (i : Nat)
    (slot : Slot) (ctx : Context) : Lookup Failure Value := do
  match (← get).cached? handle i with
  | some v => return v
  | none =>
    let v ← slot.parse parse m.data m.base ctx
    modify (·.remember handle i v)
    return v

/-- Walks the slots up to the wanted one, resolving the named ones before it. -/
def chain (parse : Format → Path → Run Value) (handle : Handle) (m : Members) :
    List Slot → Nat → Nat → Context → Lookup Failure Value
  | [], _, _, _ => pure .none
  | slot :: _, i, 0, ctx => value parse handle m i slot ctx
  | slot :: rest, i, more + 1, ctx => do
    match slot.name with
    | none => chain parse handle m rest (i + 1) more ctx
    | some name =>
      let v ← value parse handle m i slot ctx
      chain parse handle m rest (i + 1) more (ctx.insert name v)

/-- The value of the member at an index. -/
def resolve (parse : Format → Path → Run Value) (handle : Handle) (m : Members) (i : Nat) :
    Lookup Failure Value := do
  match (← get).cached? handle i with
  | some v => return v
  | none =>
    if m.chained then chain parse handle m m.slots 0 i m.context
    else
      match m.slots[i]? with
      | some slot => value parse handle m i slot m.context
      | none => return .none

end Members

namespace Lookup

/-- The value of a member of a lazy value. -/
def resolve (parse : Format → Path → Run Value) (handle : Handle) (i : Nat) :
    Lookup Failure Value := do
  match (← get).members? handle with
  | some m => m.resolve parse handle i
  | none => return .none

end Lookup

namespace Value

variable (r : Resolver)

/-- Resolves and forces the named members, in order. -/
def forceMembers (handle : Handle) : List Slot → Nat → Record Value →
    Lookup Failure (Record Value)
  | [], _, done => pure done
  | slot :: rest, i, done => do
    match slot.name with
    | .none => forceMembers handle rest (i + 1) done
    | .some name =>
      let v ← r.force (← r.resolve handle i)
      forceMembers handle rest (i + 1) (done.insert name v)

/-- Resolves and forces `count` elements from index `i` on. -/
def forceElements (handle : Handle) : Nat → Nat → Lookup Failure (List Value)
  | 0, _ => pure []
  | count + 1, i => do
    let v ← r.force (← r.resolve handle i)
    return v :: (← forceElements handle count (i + 1))

mutual

/-- Replaces every lazy part by what it parses to.  The members of lazy values are forced
by the resolver. -/
def forceWith : Value → Lookup Failure Value
  | .lazyContainer handle _ => do
    let slots := (((← get).members? handle).map Members.slots).getD []
    return .container (← forceMembers r handle slots 0 [])
  | .lazyList handle length => do return .list (← forceElements r handle length 0)
  | .list items => do return .list (← forceItems items)
  | .container fields => do return .container (← forceFields fields)
  | .flags fields => do return .flags (← forceFields fields)
  | v => pure v

def forceItems : List Value → Lookup Failure (List Value)
  | [] => pure []
  | item :: rest => do
    let item ← forceWith item
    return item :: (← forceItems rest)

def forceFields : List (String × Value) → Lookup Failure (List (String × Value))
  | [] => pure []
  | (key, value) :: rest => do
    let value ← forceWith value
    return (key, value) :: (← forceFields rest)

end

end Value

end BinaryFormat
