import BinaryFormat.Lazy.Store
import BinaryFormat.Stream.Basic
import BinaryFormat.Value.Dump

/-!
# Runs

Parsing and building change a stream, a context and the store of lazy members.
A run that fails keeps the changes made before it failed: the position at
which a failure leaves the stream is part of the answer, and lazy members that
were resolved stay resolved.
-/

namespace BinaryFormat

structure State where
  stream : Stream
  context : Context
  store : LazyStore

abbrev Run (α : Type) : Type := EStateM Failure State α

/-- A computation that can do no more than resolve lazy members. -/
abbrev Lookup (ε α : Type) : Type := EStateM ε LazyStore α

namespace Lookup

/-- Gives a fault its place. -/
def atPath {α : Type} (x : Lookup Fault α) (path : Path) : Lookup Failure α := fun store =>
  match x store with
  | .ok a store => .ok a store
  | .error fault store => .error (fault.atPath path) store

/-- Forgets the place of a failure. -/
def unplaced {α : Type} (x : Lookup Failure α) : Lookup Fault α := fun store =>
  match x store with
  | .ok a store => .ok a store
  | .error failure store => .error failure.fault store

/-- A computation that may fail, as its outcome. -/
def outcome {ε α : Type} (x : Lookup ε α) : Lookup ε (Except ε α) := fun store =>
  match x store with
  | .ok a store => .ok (.ok a) store
  | .error e store => .ok (.error e) store

def ofExcept {ε α : Type} : Except ε α → Lookup ε α
  | .ok a => pure a
  | .error e => throw e

/-- The full text of a value as things are. -/
def dump {ε : Type} (v : Value) : Lookup ε String := fun store =>
  .ok (v.dump store.resolved) store

end Lookup

namespace Run

variable {α : Type}

def fail (fault : Fault) (path : Path) : Run α := throw (fault.atPath path)

def ofExcept (path : Path) : Except Fault α → Run α
  | .ok a => pure a
  | .error fault => fail fault path

/-- The outcome of a run, whose changes stay. -/
def outcome (x : Run α) : Run (Except Failure α) := fun s =>
  match x s with
  | .ok a s => .ok (.ok a) s
  | .error e s => .ok (.error e) s

/-- Takes an outcome as one's own. -/
def settle : Except Failure α → Run α
  | .ok a => pure a
  | .error e => throw e

def lookup (x : Lookup Failure α) : Run α := fun s =>
  match x s.store with
  | .ok a store => .ok a { s with store := store }
  | .error e store => .error e { s with store := store }

def dump (v : Value) : Run String := lookup (Lookup.dump v)

/-! ## The context -/

def context : Run Context := fun s => .ok s.context s

def modifyContext (f : Context → Context) : Run Unit := fun s =>
  .ok () { s with context := f s.context }

def scope : Run Scope := fun s => .ok s.context.scope s

def insert (name : String) (value : Value) : Run Unit := modifyContext (·.insert name value)

def mark : Run Nat := fun s => .ok s.context.mark s

/-- Runs inside a new frame, which is left whatever happens.  Also yields the frame. -/
def inFrame (values : Record Value) (x : Run α) : Run (α × Record Value) := fun s =>
  match x { s with context := s.context.push values } with
  | .ok a s => .ok (a, s.context.innermost) { s with context := s.context.pop }
  | .error e s => .error e { s with context := s.context.pop }

/-! ## The stream -/

def tell : Run Nat := fun s => .ok s.stream.pos s

/-- Reads exactly so many units. -/
def read (count : Nat) (path : Path) : Run (List UInt8) := fun s =>
  let (data, stream) := s.stream.read (some count)
  let s := { s with stream := stream }
  if data.length = count then .ok data s
  else .error ((Fault.shortage (.read count data.length)).atPath path) s

/-- Reads up to the end. -/
def readAll : Run (List UInt8) := fun s =>
  let (data, stream) := s.stream.read none
  .ok data { s with stream := stream }

def write (bytes : List UInt8) (path : Path) : Run Unit := fun s =>
  let (fault, stream) := s.stream.write bytes
  let s := { s with stream := stream }
  match fault with
  | none => .ok () s
  | some fault => .error (fault.atPath path) s

def seek (dest : SeekTo) (path : Path) : Run Nat := fun s =>
  let (result, stream) := s.stream.seek dest
  let s := { s with stream := stream }
  match result with
  | .ok pos => .ok pos s
  | .error fault => .error ((Fault.stream fault).atPath path) s

/-- Returns to a position that the stream had before. -/
def goTo (pos : Nat) : Run Unit := fun s => .ok () { s with stream := s.stream.setPos pos }

/-- The position of the end of the stream. -/
def size : Run Nat := fun s =>
  let (size, stream) := s.stream.size
  .ok size { s with stream := stream }

/-- An upper bound of what can still be read. -/
def available : Run Nat := fun s => .ok s.stream.available s

/-- Runs over another stream; also yields the state in which that stream is left. -/
def onStream (stream : Stream) (x : Run α) : Run (α × Stream) := fun s =>
  match x { s with stream := stream } with
  | .ok a s' => .ok (a, s'.stream) { s' with stream := s.stream }
  | .error e s' => .error e { s' with stream := s.stream }

/-- Tags a failure with the offset at which the run started. -/
def tagged (x : Run α) : Run α := fun s =>
  match x s with
  | .ok a s' => .ok a s'
  | .error e s' => .error (e.withOffset s.stream.pos) s'

end Run

end BinaryFormat
