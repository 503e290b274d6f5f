import BinaryFormat.Data.Bits
import BinaryFormat.Fault
import BinaryFormat.Format.Basic

/-!
# Streams

A stream is a byte string with a position, or a view that recodes the units of
another stream.  A view fetches whole chunks of its outer stream as they are
read; what is written to it is kept until the view is finished.  No operation
loses the stream: one that fails says in which state it leaves it.
-/

namespace BinaryFormat

/-- Where a position is counted from. -/
inductive SeekTo where
  | start (position : Nat)
  | current (distance : Int)
  | fromEnd (distance : Int)
  deriving DecidableEq, Repr

/-! ## Byte strings with a position -/

/-- What a byte string allows. -/
inductive Backing where
  /-- It grows as it is written. -/
  | growing
  /-- Its length is fixed. -/
  | fixed
  /-- It is part of an input, from the offset `base` on, and cannot be written;
  positions are those of the input. -/
  | snapshot (base : Nat)
  deriving DecidableEq, Repr

structure Medium where
  backing : Backing
  data : List UInt8
  pos : Nat
  deriving DecidableEq, Repr

namespace Medium

/-- The position of the first byte. -/
def base (m : Medium) : Nat :=
  match m.backing with
  | .snapshot base => base
  | _ => 0

/-- The bytes from the position on. -/
def rest (m : Medium) : List UInt8 :=
  if m.pos < m.base then [] else m.data.drop (m.pos - m.base)

/-- At most `limit` units of a list. -/
def upTo (limit : Option Nat) (units : List UInt8) : List UInt8 :=
  match limit with
  | some n => units.take n
  | none => units

def read (m : Medium) (limit : Option Nat) : List UInt8 × Medium :=
  let data := upTo limit m.rest
  (data, { m with pos := m.pos + data.length })

/-- Lays bytes over a byte string at an index; a gap before it is filled with zeros. -/
def overlay (data : List UInt8) (index : Nat) (bytes : List UInt8) : List UInt8 :=
  data.take index ++ List.replicate (index - data.length) 0 ++ bytes ++
    data.drop (index + bytes.length)

theorem length_overlay (data : List UInt8) (index : Nat) (bytes : List UInt8) :
    (overlay data index bytes).length = max data.length (index + bytes.length) := by
  simp only [overlay, List.length_append, List.length_take, List.length_replicate,
    List.length_drop]
  omega

theorem drop_overlay (data : List UInt8) (index : Nat) (bytes : List UInt8) :
    (overlay data index bytes).drop (index + bytes.length) =
      data.drop (index + bytes.length) := by
  have upTo : (data.take index ++ List.replicate (index - data.length) 0 ++ bytes).length =
      index + bytes.length := by
    simp only [List.length_append, List.length_take, List.length_replicate]
    omega
  rw [overlay, List.drop_append, upTo, List.drop_eq_nil_of_le (by omega)]
  simp

/-- Writes at the position; tells why not all was written.  A growing byte string reaches up
to the position afterwards even if there was nothing to write. -/
def write (m : Medium) (bytes : List UInt8) : Option Fault × Medium :=
  match m.backing with
  | .growing =>
      (none, { m with data := overlay m.data m.pos bytes, pos := m.pos + bytes.length })
  | .fixed =>
      let stored := bytes.take (m.data.length - m.pos)
      let m' := { m with
        data := if stored.isEmpty then m.data else overlay m.data m.pos stored
        pos := m.pos + stored.length }
      (if stored.length < bytes.length then some (.shortage .refused) else none, m')
  | .snapshot _ => (if bytes.isEmpty then none else some (.stream .readOnly), m)

/-- The position that a seek leads to. -/
def target (m : Medium) : SeekTo → Int
  | .start n => n
  | .current d => m.pos + d
  | .fromEnd d => (m.base + m.data.length : Nat) + d

def seek (m : Medium) (dest : SeekTo) : Except StreamFault Medium :=
  let t := m.target dest
  match m.backing with
  | .snapshot _ =>
      if t < 0 then .error .beforeSnapshot else .ok { m with pos := t.toNat % Nat.pow 2 64 }
  | _ =>
      if 0 ≤ t ∧ t < Nat.pow 2 64 then .ok { m with pos := t.toNat } else .error .outside

end Medium

/-! ## Views -/

namespace Recoding

/-- Units of the outer stream in a chunk. -/
def outer (r : Recoding) : Nat :=
  match r.granularity with
  | .bits => 1
  | .bytes => 8

/-- Units of the view in a chunk. -/
def inner (r : Recoding) : Nat :=
  match r.granularity with
  | .bits => 8
  | .bytes => 1

/-- Units of the view from whole chunks of the outer stream. -/
def decode (r : Recoding) (units : List UInt8) : List UInt8 :=
  match r.granularity with
  | .bits => Bits.expand r.order units
  | .bytes => Bits.pack r.order units

/-- Units of the outer stream from whole chunks of the view. -/
def encode (r : Recoding) (units : List UInt8) : List UInt8 :=
  match r.granularity with
  | .bits => Bits.pack r.order units
  | .bytes => Bits.expand r.order units

end Recoding

/-- What a view knows beside its outer stream. -/
structure View where
  recoding : Recoding
  /-- The units decoded or written so far. -/
  units : List UInt8 := []
  pos : Nat := 0
  /-- Chunks fetched from the outer stream so far. -/
  fetched : Nat := 0
  written : Bool := false
  /-- The outer stream has no further whole chunk. -/
  exhausted : Bool := false
  deriving DecidableEq, Repr

namespace View

/-- How many units of the outer stream have to be fetched so that the view holds `upTo`
units, or all of them; nothing if there is no need or no way. -/
def request (v : View) (upTo : Option Nat) : Option (Option Nat) :=
  if v.written || v.exhausted then none
  else
    match upTo with
    | none => some none
    | some n =>
      if n ≤ v.units.length then none
      else
        let chunks := (n - v.units.length + v.recoding.inner - 1) / v.recoding.inner
        some (some (chunks * v.recoding.outer))

/-- Takes in units fetched on request, whole chunks only; also yields how many units of a
partial chunk go back. -/
def receive (v : View) (asked : Option Nat) (fetched : List UInt8) : View × Nat :=
  let chunks := fetched.length / v.recoding.outer
  let whole := fetched.take (chunks * v.recoding.outer)
  ({ v with
      units := v.units ++ v.recoding.decode whole
      fetched := v.fetched + chunks
      exhausted := asked.all (fetched.length < ·) },
    fetched.length - whole.length)

/-- The next units. -/
def take (v : View) (limit : Option Nat) : List UInt8 × View :=
  let data := Medium.upTo limit (v.units.drop v.pos)
  (data, { v with pos := v.pos + data.length })

def write (v : View) (bytes : List UInt8) : View :=
  { v with
    units := Medium.overlay v.units v.pos bytes
    pos := v.pos + bytes.length
    written := true }

def seek (v : View) (dest : SeekTo) : Except StreamFault View :=
  let t : Int :=
    match dest with
    | .start n => n
    | .current d => v.pos + d
    | .fromEnd d => v.units.length + d
  if t < 0 then .error .beforeView else .ok { v with pos := t.toNat % Nat.pow 2 64 }

end View

/-! ## Streams -/

inductive Stream where
  | medium (m : Medium)
  | view (v : View) (outer : Stream)
  deriving DecidableEq, Repr

namespace Stream

instance : Inhabited Stream := ⟨medium ⟨.growing, [], 0⟩⟩

/-- A growing stream at its start. -/
def memory (data : List UInt8) : Stream := medium ⟨.growing, data, 0⟩

/-- A view of a stream, from its position on. -/
def viewed (outer : Stream) (recoding : Recoding) : Stream :=
  view ⟨recoding, [], 0, 0, false, false⟩ outer

def pos : Stream → Nat
  | medium m => m.pos
  | view v _ => v.pos

/-- The bytes of the underlying byte string. -/
def data : Stream → List UInt8
  | medium m => m.data
  | view _ outer => outer.data

/-- No more than so many units can be read. -/
def available : Stream → Nat
  | medium m => m.rest.length
  | view v outer => v.units.length - v.pos + 8 * outer.available

/-- Moves the position back over units that were read. -/
def giveBack : Stream → Nat → Stream
  | medium m, count => medium { m with pos := m.pos - count }
  | view v outer, count => view { v with pos := v.pos - count } outer

/-- Reads at most `limit` units, or all. -/
def read : Stream → Option Nat → List UInt8 × Stream
  | medium m, limit =>
      let (data, m) := m.read limit
      (data, medium m)
  | view v outer, limit =>
      if limit = some 0 then ([], view v outer)
      else
        match v.request (limit.map (v.pos + ·)) with
        | none =>
          let (data, v) := v.take limit
          (data, view v outer)
        | some asked =>
          let (fetched, outer) := outer.read asked
          let (v, back) := v.receive asked fetched
          let (data, v) := v.take limit
          (data, view v (outer.giveBack back))

/-- Makes a view hold all its units. -/
def fillAll : Stream → Stream
  | medium m => medium m
  | view v outer =>
      match v.request none with
      | none => view v outer
      | some asked =>
        let (fetched, outer) := outer.read asked
        let (v, back) := v.receive asked fetched
        view v (outer.giveBack back)

/-- Writes units at the position; a view takes no notice if there are none. -/
def write (s : Stream) (bytes : List UInt8) : Option Fault × Stream :=
  match s with
  | medium m =>
      let (fault, m) := m.write bytes
      (fault, medium m)
  | view v outer =>
      if bytes.isEmpty then (none, view v outer) else (none, view (v.write bytes) outer)

/-- Moves the position; also a failure may have made a view fetch its units. -/
def seek (s : Stream) (dest : SeekTo) : Except StreamFault Nat × Stream :=
  let s :=
    match dest with
    | .fromEnd _ => s.fillAll
    | _ => s
  match s with
  | medium m =>
    match m.seek dest with
    | .ok m => (.ok m.pos, medium m)
    | .error fault => (.error fault, medium m)
  | view v outer =>
    match v.seek dest with
    | .ok v => (.ok v.pos, view v outer)
    | .error fault => (.error fault, view v outer)

def setPos : Stream → Nat → Stream
  | medium m, pos => medium { m with pos := pos }
  | view v outer, pos => view { v with pos := pos } outer

/-- The position of the end; the position stays. -/
def size (s : Stream) : Nat × Stream :=
  let s := s.fillAll
  match s with
  | medium m => (m.base + m.data.length, s)
  | view v _ => (v.units.length, s)

/-- Leaves a view: what was written is encoded into the outer stream, or the chunks that
were fetched and not used go back.  Yields the outer stream. -/
def finish : Stream → Option Fault × Stream
  | medium m => (none, medium m)
  | view v outer =>
    let chunk := v.recoding.inner
    if v.written then
      if v.units.length % chunk ≠ 0 then
        (some (.misaligned (.written v.units.length chunk)), outer)
      else outer.write (v.recoding.encode v.units)
    else if v.pos % chunk ≠ 0 then
      (some (.misaligned (.consumed v.pos chunk)), outer)
    else (none, outer.giveBack ((v.fetched - v.pos / chunk) * v.recoding.outer))

/-- The stream below a view that is given up. -/
def abandon : Stream → Stream
  | medium m => medium m
  | view _ outer => outer

end Stream

end BinaryFormat
