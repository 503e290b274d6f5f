import BinaryFormat.Codec.Bytes
import BinaryFormat.Codec.Choice
import BinaryFormat.Codec.Conversion
import BinaryFormat.Codec.Derived
import BinaryFormat.Codec.Envelope
import BinaryFormat.Codec.Lazy
import BinaryFormat.Codec.Number
import BinaryFormat.Codec.Position
import BinaryFormat.Codec.Repetition
import BinaryFormat.Codec.Structure
import BinaryFormat.Codec.Text

/-!
# The meaning of formats

Every format means the codec that the components of its tree combine to.  What
lies outside of the tree is run by an engine; engines are built in levels, each
running the formats of the level above it, so that the whole is defined for
formats that refer to themselves.
-/

namespace BinaryFormat

/-- The formats that others refer to by name. -/
abbrev Definitions : Type := List (String × Format)

namespace Codec

/-- A format that is defined elsewhere. -/
def reference (e : Engine) (defs : Definitions) (name : String) : Codec :=
  let of := (Record.get? defs name).getD .pass
  { parse := e.parse of
    build := e.build of
    size := e.size of }

end Codec

namespace Format

mutual

/-- What a format means, given what lies outside of it. -/
def codec (e : Engine) (defs : Definitions) : Format → Codec
  | bytes length => Codec.bytes e length
  | greedyBytes => Codec.greedyBytes
  | integer width signed endian => Codec.integer e width signed endian
  | bitInteger width signed swapped => Codec.bitInteger e width signed swapped
  | flag => Codec.flag
  | varint maxBits => Codec.varint maxBits
  | zigzag => Codec.zigzag
  | real width endian => Codec.real width endian
  | fixedText length encoding pad side trim => Codec.fixedText e length encoding pad side trim
  | prefixedText length encoding => Codec.prefixedText ⟨length, codec e defs length⟩ encoding
  | terminatedText terminators encoding => Codec.terminatedText terminators encoding
  | greedyText encoding => Codec.greedyText encoding
  | named _ of => codec e defs of
  | documented _ of => codec e defs of
  | struct fields overwrite => Codec.struct e (parts e defs fields) overwrite
  | sequence items => Codec.sequence e (parts e defs items)
  | embedded of => Codec.embedded (codec e defs of)
  | focused focus items => Codec.focused e focus (parts e defs items)
  | array count of discard => Codec.array e count ⟨of, codec e defs of⟩ discard
  | range least most of discard => Codec.range e least most ⟨of, codec e defs of⟩ discard
  | greedyRange of discard => Codec.greedyRange e ⟨of, codec e defs of⟩ discard
  | repeatUntil last of discard => Codec.repeatUntil e last ⟨of, codec e defs of⟩ discard
  | prefixedArray count of =>
      Codec.prefixedArray e ⟨count, codec e defs count⟩ ⟨of, codec e defs of⟩
  | select alternatives tagged => Codec.select (parts e defs alternatives) tagged
  | union key alternatives => Codec.union e key (parts e defs alternatives)
  | branch condition yes no => Codec.branch e condition (codec e defs yes) (codec e defs no)
  | switch key cases otherwise =>
      Codec.switch e key (casesOf e defs cases) (partIf e defs otherwise)
  | pass => Codec.pass
  | terminated => Codec.terminated
  | tell => Codec.tell
  | seek target whence => Codec.seek e target whence
  | pointer offset of => Codec.pointer e offset ⟨of, codec e defs of⟩
  | peek of => Codec.peek ⟨of, codec e defs of⟩
  | padding length fill => Codec.padding e length fill
  | padded length of fill => Codec.padded e length (codec e defs of) fill
  | aligned modulus of fill => Codec.aligned e modulus (codec e defs of) fill
  | prefixed length of inclusive lenient =>
      Codec.prefixed ⟨length, codec e defs length⟩ (codec e defs of) inclusive lenient
  | fixedSized length of => Codec.fixedSized e length (codec e defs of)
  | delimited of delimiter => Codec.delimited (codec e defs of) delimiter
  | stripped of pad => Codec.stripped (codec e defs of) pad
  | rawCopy of => Codec.rawCopy e ⟨of, codec e defs of⟩
  | transformed of transform extent => Codec.transformed e (codec e defs of) transform extent
  | recoded of recoding checked => Codec.recoded e (codec e defs of) recoding checked
  | constant of value => Codec.constant e (codec e defs of) value
  | computed expr => Codec.computed e expr
  | rebuild of expr => Codec.rebuild e ⟨of, codec e defs of⟩ expr
  | fallback of value => Codec.fallback (codec e defs of) value
  | check condition => Codec.check e condition
  | fail message => Codec.explicit message
  | checksum of hash data => Codec.checksum e ⟨of, codec e defs of⟩ hash data
  | converted of conversion => Codec.converted (codec e defs of) conversion
  | convertedIn of conversion => Codec.convertedIn (codec e defs of) conversion
  | convertedBy of decode encode => Codec.convertedBy e (codec e defs of) decode encode
  | validated of rule => Codec.validated e (codec e defs of) rule
  | labelled of labels unlabelled => Codec.labelled (codec e defs of) labels unlabelled
  | mapped of table => Codec.mapped e (codec e defs of) table
  | flagSet of flags strict => Codec.flagSet (codec e defs of) flags strict
  | lazyStruct fields => Codec.lazyStruct e (parts e defs fields)
  | lazySequence items => Codec.lazySequence e (parts e defs items)
  | lazyArray count of => Codec.lazyArray e count ⟨of, codec e defs of⟩
  | lazyRange least most of => Codec.lazyRange e least most ⟨of, codec e defs of⟩
  | reference name => Codec.reference e defs name

def parts (e : Engine) (defs : Definitions) : List Format → List Part
  | [] => []
  | f :: rest => ⟨f, codec e defs f⟩ :: parts e defs rest

def casesOf (e : Engine) (defs : Definitions) : List (Value × Format) → List (Value × Part)
  | [] => []
  | (key, f) :: rest => (key, ⟨f, codec e defs f⟩) :: casesOf e defs rest

def partIf (e : Engine) (defs : Definitions) : Option Format → Option Part
  | none => none
  | some f => some ⟨f, codec e defs f⟩

end

theorem length_parts (e : Engine) (defs : Definitions) (fs : List Format) :
    (parts e defs fs).length = fs.length := by
  induction fs with
  | nil => rfl
  | cons f rest ih => rw [parts, List.length_cons, List.length_cons, ih]

end Format

namespace Engine

/-- The engine below all others refuses everything. -/
def exhausted : Engine where
  parse _ path := Run.fail (.unevaluable .depth) path
  build _ _ path := Run.fail (.unevaluable .depth) path
  size _ _ path := throw ((Fault.unevaluable .depth).atPath path)
  forceMember _ := throw ((Fault.unevaluable .depth).atPath .this)

/-- The engine of a level, which runs formats with the engine of the level below. -/
def level (defs : Definitions) : Nat → Engine
  | 0 => exhausted
  | n + 1 =>
    { parse := fun f path => (f.codec (level defs n) defs).parse path
      build := fun f v path => (f.codec (level defs n) defs).build v path
      size := fun f ctx path => (f.codec (level defs n) defs).size ctx path
      forceMember := fun v => (level defs n).resolver.force v }

/-- How deep references, lazy members and patches can nest. -/
def depthLimit : Nat := 100000

/-- The engine that runs formats with the given definitions. -/
def ofDefinitions (defs : Definitions) : Engine := level defs depthLimit

end Engine

/-! ## Entry points -/

namespace Format

variable (e : Engine)

/-- Parses from the position of a stream. -/
def parseStream (f : Format) (params : Record Value) (stream : Stream) (store : LazyStore) :
    EStateM.Result Failure State Value :=
  Run.tagged (e.parse f .this) ⟨stream, .ofParams params, store⟩

/-- Builds a value at the position of a stream; every patch has to be resolved by the
end. -/
def buildStream (f : Format) (v : Value) (params : Record Value) (stream : Stream)
    (store : LazyStore) : EStateM.Result Failure State Value :=
  let run : Run Value := do
    let built ← Run.tagged (e.build f v .this)
    e.resolveSince 0 true
    return built
  run ⟨stream, .ofParams params, store⟩

/-- The size of a format, where it does not depend on data. -/
def sizeOf (f : Format) (params : Record Value) (store : LazyStore) :
    EStateM.Result Failure LazyStore Nat :=
  e.size f (.ofParams params) .this store

/-- Parses a byte string from its start. -/
def parseBytes (f : Format) (params : Record Value) (data : List UInt8) (store : LazyStore) :
    EStateM.Result Failure State Value :=
  parseStream e f params (.memory data) store

/-- Builds a value into a byte string. -/
def buildBytes (f : Format) (v : Value) (params : Record Value) (store : LazyStore) :
    EStateM.Result Failure State Value :=
  buildStream e f v params (.memory []) store

end Format

end BinaryFormat
