import BinaryFormat.Codec.Repetition
import BinaryFormat.Codec.Structure

/-!
# Lazy members

Variants of structures, sequences and lists that only find out where each
member starts.  A member of known size is skipped and parsed when it is first
read; any other is parsed on the spot, after the members skipped before it,
since it may depend on them.
-/

namespace BinaryFormat

/-- Adds members to the store. -/
def Run.addMembers (m : Members) : Run Handle := fun s =>
  let (handle, store) := s.store.add m
  .ok handle { s with store := store }

/-- The bytes between two positions; the position stays unless there are too few. -/
def Run.snapshot (start limit : Nat) (path : Path) : Run (List UInt8) := do
  let pos ← Run.tell
  Run.goTo start
  let data ← Run.read (limit - start) path
  Run.goTo pos
  return data

namespace Codec

/-! ## Structures and sequences -/

/-- Parses the slots that have no value yet. -/
def fillSlots (e : Engine) : List Slot → Run (List Slot)
  | [] => return []
  | slot :: rest => do
    match slot.cache with
    | some _ => return slot :: (← fillSlots e rest)
    | none =>
      Run.goTo slot.offset
      let v ← Run.tagged (e.parse slot.format slot.path)
      match slot.name with
      | some name => Run.insert name v
      | none => pure ()
      return { slot with cache := some v } :: (← fillSlots e rest)

/-- Parses the skipped members now and returns to the position. -/
def materialize (e : Engine) (slots : List Slot) : Run (List Slot) := do
  let back ← Run.tell
  let slots ← fillSlots e slots
  Run.goTo back
  return slots

/-- Parses an embedded member into the frame; yields a slot for every entry that it adds. -/
def scanEmbedded (member : Part) (offset : Nat) (place : Path) : Run (List Slot) := do
  let before := (← Run.context).innermost
  member.codec.parseInline place false
  let added := (← Run.context).innermost.filter fun entry => !before.contains entry.1
  return added.map fun (name, v) => ⟨some name, offset, member.format, place, none, some v⟩

/-- The size of a member, if it is known and not zero. -/
def skippable? (member : Part) (place : Path) : Run (Option Nat) := do
  match ← Run.outcome (member.codec.sizeNow place) with
  | .ok n => return if n = 0 then none else some n
  | .error _ => return none

/-- Walks over the members; yields the slots of all.  Members of a structure are placed by
name, items of a sequence by index. -/
def scanMembers (e : Engine) (isStruct : Bool) (path : Path) :
    Nat → List Part → List Slot → Run (List Slot)
  | _, [], slots => return slots
  | i, member :: rest, slots => do
    let place := if isStruct then path.memberIf member.name? else path.element i
    let offset ← Run.tell
    if isStruct && member.format.isEmbedded then
      let slots ← materialize e slots
      let added ← scanEmbedded member offset place
      scanMembers e isStruct path (i + 1) rest (slots ++ added)
    else
      match ← skippable? member place with
      | some n =>
        if Nat.pow 2 63 ≤ n then Run.fail (.shortage (.member n)) place
        let _ ← Run.seek (.current n) place
        let slot : Slot := ⟨member.name?, offset, member.format, place, none, none⟩
        scanMembers e isStruct path (i + 1) rest (slots ++ [slot])
      | none =>
        let slots ← materialize e slots
        let v ← member.parse place
        noteItem member v
        let slot : Slot := ⟨member.name?, offset, member.format, place, none, some v⟩
        scanMembers e isStruct path (i + 1) rest (slots ++ [slot])

/-- Walks over all members.  Where skipping has run past the end, the members are parsed
after all, so that the failure is the one of the member. -/
def scan (e : Engine) (isStruct : Bool) (members : List Part) (path : Path) :
    Run (List Slot) := do
  let slots ← scanMembers e isStruct path 0 members []
  let reached ← Run.tell
  if (← Run.size) < reached then materialize e slots else return slots

/-- Scans in a frame of its own and keeps a snapshot of bytes and context. -/
def scanRecord (e : Engine) (isStruct : Bool) (members : List Part) (path : Path) :
    Run (Handle × List Slot) := do
  let start ← Run.tell
  let ((slots, ctx), _) ← Run.inFrame [] do
    let slots ← scan e isStruct members path
    return (slots, ← Run.context)
  let data ← Run.snapshot start (← Run.tell) path
  let handle ← Run.addMembers ⟨data, start, ctx, slots, true⟩
  return (handle, slots)

/-- A structure whose fields of known size are parsed when they are first read. -/
def lazyStruct (e : Engine) (fields : List Part) : Codec where
  parse path := do
    let (handle, slots) ← scanRecord e true fields path
    return .lazyContainer handle (slots.filterMap Slot.name)
  build := (struct e fields false).build
  size := (struct e fields false).size

/-- A sequence whose items of known size are parsed when they are first read. -/
def lazySequence (e : Engine) (items : List Part) : Codec where
  parse path := do
    let (handle, slots) ← scanRecord e false items path
    return .lazyList handle slots.length
  build := (sequence e items).build
  size := (sequence e items).size

/-! ## Lists -/

/-- So many elements of one size, found without being parsed. -/
def lazyElements (of : Part) (count size : Nat) (path : Path) : Run Value := do
  let start ← Run.tell
  let available := (← Run.size) - start
  let total := count * size
  if available < total then Run.fail (.shortage (.elements count size available)) path
  let data ← Run.snapshot start (start + total) path
  Run.goTo (start + total)
  let slots := (List.range count).map fun i =>
    (⟨none, start + i * size, of.format, path.element i, some i, none⟩ : Slot)
  let handle ← Run.addMembers ⟨data, start, ← Run.context, slots, false⟩
  return .lazyList handle count

/-- A lazy list of elements that are parsed already. -/
def parsedElements (of : Part) (v : Value) (path : Path) : Run Value := do
  let items := v.list?.getD []
  let slots := items.zipIdx.map fun (v, i) =>
    (⟨none, 0, of.format, path.element i, none, some v⟩ : Slot)
  let handle ← Run.addMembers ⟨[], 0, ← Run.context, slots, false⟩
  return .lazyList handle items.length

/-- A counted list; elements without a known size are parsed at once. -/
def lazyArray (e : Engine) (count : Expr) (of : Part) : Codec :=
  let eager := array e count of false
  { parse := fun path => do
      let n ← e.evalSize count path
      match ← Run.outcome (of.codec.sizeNow (path.element 0)) with
      | .ok size => lazyElements of n size path
      | .error _ => parsedElements of (← eager.parse path) path
    build := eager.build
    size := eager.size }

/-- As many elements as there are, between bounds; elements without a known size, or of no
size, are parsed at once. -/
def lazyRange (e : Engine) (least most : Expr) (of : Part) : Codec :=
  let eager := range e least most of false
  { parse := fun path => do
      match ← skippable? of (path.element 0) with
      | none => parsedElements of (← eager.parse path) path
      | some size =>
        let least ← e.evalSize least path
        let most ← e.evalSize most path
        let remaining := (← Run.size) - (← Run.tell)
        let count := min most (remaining / size)
        if count < least then Run.fail (.miscount (.tooFew least count)) path
        lazyElements of count size path
    build := eager.build
    size := fun ctx path => do
      let least ← e.staticSize least ctx path
      let most ← e.staticSize most ctx path
      if least ≠ most then unsized (.varies least most) path
      else productSize of least ctx path }

end Codec

end BinaryFormat
