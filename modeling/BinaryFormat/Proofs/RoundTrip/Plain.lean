import BinaryFormat.Format.Meaning
import BinaryFormat.Proofs.Agreement
import BinaryFormat.Proofs.Run

/-!
# Plain formats

Formats that can be read back: every component of them is marked off by its own
bytes, by a stored length or by a field before it.  `Encodes` says without
reference to streams which bytes a plain format writes for an input and which
value they stand for; building and parsing are both measured against it.
-/

namespace BinaryFormat

/-! ## Proper values -/

namespace Value

mutual

/-- Values without lazy members whose parts are in range: integers of 128 bits, lists and
byte strings that can be counted, records with distinct names. -/
def Proper : Value → Prop
  | int n => fitsInt n = true
  | bytes data => data.length ≤ maxSize
  | list items => items.length ≤ maxSize ∧ ProperItems items
  | container fields => (Record.keys fields).Nodup ∧ ProperFields fields
  | flags fields => (Record.keys fields).Nodup ∧ ProperFields fields
  | lazyContainer _ _ => False
  | lazyList _ _ => False
  | none => True
  | bool _ => True
  | float _ => True
  | str _ => True

def ProperItems : List Value → Prop
  | [] => True
  | item :: rest => Proper item ∧ ProperItems rest

def ProperFields : List (String × Value) → Prop
  | [] => True
  | (_, value) :: rest => Proper value ∧ ProperFields rest

end

/-- The elements that a repeater is built from. -/
def elements? : Value → Option (List Value)
  | list items => some items
  | bytes data => some (ofBytes data)
  | _ => .none

/-- The entries that a structure is built from; absence is empty. -/
def entries? : Value → Option (Record Value)
  | container fields | flags fields => some fields
  | none => some []
  | _ => .none

/-- What a single bit is built from. -/
def bit? : Value → Option Bool
  | bool b => some b
  | int n => some (n != 0)
  | _ => .none

mutual

/-- The input has no public entry that the value lacks, at any depth. -/
def Bounds : Value → Value → Prop
  | list vs, u => ∀ us, u.elements? = some us → BoundsItems vs us
  | container fs, u => ∀ input, u.entries? = some input →
      (∀ key, Record.isPrivate key = false → Record.get? fs key = .none →
        Record.get? input key = .none) ∧ BoundsFields fs input
  | _, _ => True

def BoundsItems : List Value → List Value → Prop
  | v :: vs, u :: us => Bounds v u ∧ BoundsItems vs us
  | _, _ => True

def BoundsFields : List (String × Value) → Record Value → Prop
  | [], _ => True
  | (key, v) :: rest, input =>
      (Record.isPrivate key = false → ∀ u, Record.get? input key = some u → Bounds v u) ∧
        BoundsFields rest input

end

end Value

/-! ## Plain formats -/

/-- What a component may refer to in the frame around it. -/
structure Visible where
  /-- The fields before it that hold an integer. -/
  ints : List String
  /-- The fields of the structure that hold a list. -/
  lists : List String

namespace Visible

def nothing : Visible := ⟨[], []⟩

/-- The innermost frame holds an integer under every visible name. -/
def Held (near : Visible) (ctx : Context) : Prop :=
  ∀ k ∈ near.ints, Record.isPrivate k = false ∧
    ∃ n, Record.get? ctx.innermost k = some (.int n)

theorem held_nothing (lists : List String) (ctx : Context) : Held ⟨[], lists⟩ ctx := by
  intro k hk
  cases hk

theorem Held.quiet {near : Visible} {before after : Context} (h : near.Held before)
    (q : before.Quiet after) : near.Held after := by
  intro k hk
  obtain ⟨shown, n, held⟩ := h k hk
  exact ⟨shown, n, (q.shown k shown).trans held⟩

/-- Constants and integer fields can be lengths. -/
def Length (near : Visible) (x : Expr) : Prop :=
  (∃ n : Int, x = .const (.int n)) ∨ ∃ k ∈ near.ints, x = .field k

end Visible

namespace Format

def holdsInt : Format → Bool
  | integer _ _ _ | varint _ | zigzag => true
  | rebuild of _ | named _ of | documented _ of => of.holdsInt
  | _ => false

def holdsList : Format → Bool
  | array _ _ _ | prefixedArray _ _ => true
  | named _ of | documented _ of => of.holdsList
  | _ => false

/-- The components that store lengths and counts. -/
def IsCount : Format → Prop
  | integer width signed _ =>
      signed = false ∧ ∃ n : Nat, width = .const (.int n) ∧ 1 ≤ n ∧ n ≤ 16
  | varint bits => 1 ≤ bits ∧ bits ≤ 127
  | _ => False

/-- Whatever the component builds takes at least one byte. -/
def Productive (f : Format) : Prop :=
  ∀ e defs path v data ctx store built s,
    (f.codec e defs).build v path ⟨.atEnd data, ctx, store⟩ = .ok built s →
      data.length < s.stream.data.length

/-- The names of the fields of a structure. -/
def fieldNames (fields : List Format) : List String := fields.filterMap name?

/-- The names of the fields that hold a list. -/
def listNames (fields : List Format) : List String := fieldNames (fields.filter holdsList)

/-- Names that are distinct and not private. -/
def WellNamed (fields : List Format) : Prop :=
  (fieldNames fields).Nodup ∧ ∀ name ∈ fieldNames fields, Record.isPrivate name = false

end Format

/-- What is visible behind a field. -/
def Visible.after (near : Visible) (f : Format) : Visible :=
  match f.name? with
  | some name => if f.holdsInt then { near with ints := name :: near.ints } else near
  | none => near

namespace Format

mutual

/-- Formats that can be read back.  Only the payload of a stored length may run to the end
of its stream (`toEnd`). -/
def Plain (toEnd : Bool) (near : Visible) : Format → Prop
  | integer width _ _ => ∃ n : Nat, width = .const (.int n) ∧ 1 ≤ n ∧ n ≤ 16
  | flag | zigzag | pass => True
  | varint bits => 1 ≤ bits ∧ bits ≤ 127
  | bytes length => near.Length length
  | constant of value =>
      ∃ data : List UInt8, of = .bytes (.const (.int data.length)) ∧ value = .bytes data
  | prefixedText length _ => length.IsCount
  | terminatedText terminators encoding => ∀ t ∈ terminators, t.length = encoding.unit
  | named _ of | documented _ of => Plain toEnd near of
  | array count of discard => near.Length count ∧ discard = false ∧ Plain false near of
  | prefixedArray count of => count.IsCount ∧ Plain false near of
  | prefixed length of _ _ => length.IsCount ∧ Plain true near of
  | fixedSized length of => (∃ n : Int, length = .const (.int n)) ∧ Plain false near of
  | padded length of _ => (∃ n : Int, length = .const (.int n)) ∧ Plain false near of
  | aligned modulus of _ => (∃ n : Int, modulus = .const (.int n)) ∧ Plain false near of
  | sequence items => PlainAll .nothing items
  | struct fields _ => WellNamed fields ∧ PlainFields ⟨[], listNames fields⟩ fields
  | branch condition yes no =>
      (∃ k ∈ near.ints, condition = .field k) ∧ Plain false near yes ∧ Plain false near no
  | switch key cases otherwise =>
      (∃ k ∈ near.ints, key = .field k) ∧ PlainCases near cases ∧ PlainIf near otherwise
  | rebuild of expr =>
      of.holdsInt = true ∧ Plain false near of ∧ ∃ x ∈ near.lists, expr = .lengthOf x
  | greedyBytes => toEnd = true
  | greedyRange of discard =>
      toEnd = true ∧ discard = false ∧ of.Productive ∧ Plain false near of
  | _ => False

def PlainAll (near : Visible) : List Format → Prop
  | [] => True
  | f :: rest => Plain false near f ∧ PlainAll near rest

/-- The fields of a structure, each of which sees the ones before it. -/
def PlainFields (near : Visible) : List Format → Prop
  | [] => True
  | f :: rest => Plain false near f ∧ PlainFields (near.after f) rest

def PlainCases (near : Visible) : List (Value × Format) → Prop
  | [] => True
  | (key, f) :: rest => key.isLazy = false ∧ Plain false near f ∧ PlainCases near rest

def PlainIf (near : Visible) : Option Format → Prop
  | none => True
  | some f => Plain false near f

end

theorem Plain.not_embedded {toEnd : Bool} {near : Visible} {f : Format}
    (h : Plain toEnd near f) : f.isEmbedded = false :=
  isEmbedded_eq_false_of (P := Plain toEnd near) id id id h

end Format

/-! ## What is written, without streams -/

/-- What a component can know of the structure around it: the integers of the fields
before it, and the lengths of its lists. -/
structure Surroundings where
  ints : String → Option Int
  lengths : String → Option Nat

namespace Surroundings

def nothing : Surroundings := ⟨fun _ => none, fun _ => none⟩

/-- A length that is constant or held by a field before. -/
def Length (near : Surroundings) (x : Expr) (n : Nat) : Prop :=
  n ≤ Value.maxSize ∧
    (x = .const (.int n) ∨
      ∃ k, Record.isPrivate k = false ∧ near.ints k = some (n : Int) ∧ x = .field k)

/-- The integers are those of the innermost frame. -/
def Held (near : Surroundings) (ctx : Context) : Prop :=
  ∀ k n, Record.isPrivate k = false → near.ints k = some n →
    Record.get? ctx.innermost k = some (.int n)

/-- The lengths are those of the lists in the innermost frame. -/
def Counted (near : Surroundings) (ctx : Context) : Prop :=
  ∀ x n, Record.isPrivate x = false → near.lengths x = some n →
    ∃ v, Record.get? ctx.innermost x = some v ∧ v.length? = some n

theorem held_nothing (ctx : Context) : nothing.Held ctx := by
  intro k n _ h
  cases h

theorem counted_nothing (ctx : Context) : nothing.Counted ctx := by
  intro x n _ h
  cases h

theorem Held.quiet {near : Surroundings} {before after : Context} (h : near.Held before)
    (q : before.Quiet after) : near.Held after := by
  intro k n hk hn
  rw [q.shown k hk]
  exact h k n hk hn

theorem Counted.quiet {near : Surroundings} {before after : Context}
    (h : near.Counted before) (q : before.Quiet after) : near.Counted after := by
  intro x n hx hn
  rw [q.shown x hx]
  exact h x n hx hn

/-- What is known behind a field with a value. -/
def note (near : Surroundings) (name : String) (v : Value) : Surroundings :=
  { near with
    ints := fun k =>
      if k = name then
        match v with
        | .int n => some n
        | _ => none
      else near.ints k }

theorem Held.note {near : Surroundings} {ctx : Context} (h : near.Held ctx) {exact : Bool}
    {v p : Value} (ext : v.Extends exact p) (name : String) :
    (near.note name v).Held (ctx.insert name p) := by
  intro k n hk known
  by_cases eq : k = name
  · subst eq
    cases v with
    | int n' =>
        simp only [Surroundings.note, if_true, Option.some.injEq] at known
        rw [← known, ← Value.eq_of_extends_int ext]
        exact Record.get?_insert_self _ _ _
    | _ => simp [Surroundings.note] at known
  · simp only [Surroundings.note, if_neg eq] at known
    have other := Record.get?_insert_of_ne (fun h => eq h.symm) ctx.innermost p
    exact other.trans (h k n hk known)

end Surroundings

namespace Format

/-- The case that an integer selects. -/
def caseOf (n : Int) (otherwise : Option Format) : List (Value × Format) → Option Format
  | [] => otherwise
  | (key, f) :: rest => if key.same (.int n) then some f else caseOf n otherwise rest

/-- How many bytes a stored length counts beside the payload. -/
def Overhead (inclusive : Bool) (length : Format) (extra : Nat) : Prop :=
  if inclusive then
    extra ≤ 16 ∧ ∃ signed endian, length = .integer (.const (.int extra)) signed endian
  else extra = 0

mutual

/-- `Encodes toEnd near f u v bytes`: given `u`, the format writes `bytes`, which stand for
the value `v`. -/
inductive Encodes : Bool → Surroundings → Format → Value → Value → List UInt8 → Prop
  | integer {toEnd near width signed endian u v} (positive : 1 ≤ width) (narrow : width ≤ 16)
      (given : u.int? = some v) (fits : Integer.fits v (width * 8) signed = true) :
      Encodes toEnd near (.integer (.const (.int (width : Nat))) signed endian) u (.int v)
        (Integer.inOrder endian (Bytes.ofNat width (Integer.toPattern v (width * 8))))
  | flag {toEnd near u b} (given : u.bit? = some b) :
      Encodes toEnd near .flag u (.bool b) [Bits.unit b]
  | varint {toEnd near bits u} {n : Nat} (given : u.int? = some (n : Int))
      (small : n < Nat.pow 2 bits) (narrow : bits ≤ 127) :
      Encodes toEnd near (.varint bits) u (.int n) (Varint.numeral n)
  | zigzag {toEnd near u v} (given : u.int? = some v) :
      Encodes toEnd near .zigzag u (.int v) (Varint.numeral (Varint.zigzag v))
  | bytes {toEnd near length} {data : List UInt8} (size : near.Length length data.length) :
      Encodes toEnd near (.bytes length) (.bytes data) (.bytes data) data
  | literal {toEnd near u} {data : List UInt8} (small : data.length ≤ Value.maxSize) :
      Encodes toEnd near (.constant (.bytes (.const (.int data.length))) (.bytes data)) u
        (.bytes data) data
  | prefixedText {toEnd near length encoding text data stored}
      (encoded : encoding.encode text = .ok data)
      (counted : Encodes false near length (.ofNat data.length) (.int data.length) stored) :
      Encodes toEnd near (.prefixedText length encoding) (.str text) (.str text)
        (stored ++ data)
  | terminatedText {toEnd near encoding text data} {first : List UInt8}
      {more : List (List UInt8)} (encoded : encoding.encode text = .ok data)
      (units : ∀ t ∈ first :: more, t.length = encoding.unit)
      (clear : ∀ t ∈ first :: more, t ∉ Bytes.chunks encoding.unit data) :
      Encodes toEnd near (.terminatedText (first :: more) encoding) (.str text) (.str text)
        (data ++ first)
  | named {toEnd near name of u v data} (inner : Encodes toEnd near of u v data) :
      Encodes toEnd near (.named name of) u v data
  | documented {toEnd near docs of u v data} (inner : Encodes toEnd near of u v data) :
      Encodes toEnd near (.documented docs of) u v data
  | array {toEnd near count of u us vs parts} (given : u.elements? = some us)
      (size : near.Length count us.length) (each : EncodesEach near of us vs parts) :
      Encodes toEnd near (.array count of false) u (.list vs) parts.flatten
  | prefixedArray {toEnd near count of u us vs parts stored} (given : u.elements? = some us)
      (small : us.length ≤ Value.maxSize)
      (counted : Encodes false near count (.ofNat us.length) (.int us.length) stored)
      (each : EncodesEach near of us vs parts) :
      Encodes toEnd near (.prefixedArray count of) u (.list vs) (stored ++ parts.flatten)
  | enclosed {toEnd near length of inclusive lenient u v data stored} {extra : Nat}
      (inner : Encodes true near of u v data) (overhead : Overhead inclusive length extra)
      (counted : Encodes false near length (.ofNat (Size.add data.length extra))
        (.int (Size.add data.length extra : Nat)) stored) :
      Encodes toEnd near (.prefixed length of inclusive lenient) u v (stored ++ data)
  | fixedSized {toEnd near of u v data} {n : Nat} (inner : Encodes false near of u v data)
      (room : data.length ≤ n) (small : n ≤ Value.maxSize) :
      Encodes toEnd near (.fixedSized (.const (.int n)) of) u v
        (data ++ List.replicate (n - data.length) 0)
  | padded {toEnd near of u v data fill} {n : Nat} (inner : Encodes false near of u v data)
      (room : data.length ≤ n) (small : n ≤ Value.maxSize) :
      Encodes toEnd near (.padded (.const (.int n)) of fill) u v
        (data ++ List.replicate (n - data.length) fill.pattern)
  | aligned {toEnd near of u v data fill} {m : Nat} (inner : Encodes false near of u v data)
      (positive : 0 < m) (small : m ≤ Value.maxSize) :
      Encodes toEnd near (.aligned (.const (.int m)) of fill) u v
        (data ++ List.replicate (Codec.toMultiple data.length m) fill.pattern)
  | sequence {toEnd near items u us vs data} (given : u.elements? = some us)
      (each : EncodesItems items us vs data) :
      Encodes toEnd near (.sequence items) u (.list vs) data
  | struct {toEnd near fields overwrite u input record data lengths}
      (given : u.entries? = some input) (separate : (Record.keys input).Nodup)
      (distinct : WellNamed fields)
      (lists : ∀ x n, lengths x = some n → x ∈ listNames fields ∧
        (input.get? x).bind Value.length? = some n)
      (each : EncodesFields ⟨fun _ => none, lengths⟩ input fields record data) :
      Encodes toEnd near (.struct fields overwrite) u (.container record) data
  | branch {toEnd near k yes no u v data} {n : Int} (visible : Record.isPrivate k = false)
      (known : near.ints k = some n)
      (inner : Encodes false near (if n = 0 then no else yes) u v data) :
      Encodes toEnd near (.branch (.field k) yes no) u v data
  | switch {toEnd near k cases otherwise u v data f} {n : Int}
      (visible : Record.isPrivate k = false) (known : near.ints k = some n)
      (eager : ∀ c ∈ cases, c.1.isLazy = false) (chosen : caseOf n otherwise cases = some f)
      (inner : Encodes false near f u v data) :
      Encodes toEnd near (.switch (.field k) cases otherwise) u v data
  | rebuild {toEnd near x of u v data} {n : Nat} (visible : Record.isPrivate x = false)
      (known : near.lengths x = some n) (small : n ≤ Value.maxSize)
      (inner : Encodes false near of (.ofNat n) v data) :
      Encodes toEnd near (.rebuild of (.lengthOf x)) u v data
  | pass {toEnd near u} : Encodes toEnd near .pass u .none []
  | greedyBytes {near} {data : List UInt8} :
      Encodes true near .greedyBytes (.bytes data) (.bytes data) data
  | greedyRange {near of u us vs parts visible} (given : u.elements? = some us)
      (small : us.length ≤ Value.maxSize) (each : EncodesEach near of us vs parts)
      (productive : [] ∉ parts) (plain : Plain false visible of)
      (known : ∀ k ∈ visible.ints, Record.isPrivate k = false ∧ ∃ n, near.ints k = some n) :
      Encodes true near (.greedyRange of false) u (.list vs) parts.flatten

/-- Elements of one format. -/
inductive EncodesEach : Surroundings → Format → List Value → List Value →
    List (List UInt8) → Prop
  | nil {near of} : EncodesEach near of [] [] []
  | cons {near of u us v vs part parts} (head : Encodes false near of u v part)
      (tail : EncodesEach near of us vs parts) :
      EncodesEach near of (u :: us) (v :: vs) (part :: parts)

/-- Items, each of its own format. -/
inductive EncodesItems : List Format → List Value → List Value → List UInt8 → Prop
  | nil : EncodesItems [] [] [] []
  | cons {f fs u us v vs part data} (head : Encodes false .nothing f u v part)
      (tail : EncodesItems fs us vs data) :
      EncodesItems (f :: fs) (u :: us) (v :: vs) (part ++ data)

/-- Fields from a record; one that supplies itself may be missing there. -/
inductive EncodesFields : Surroundings → Record Value → List Format → Record Value →
    List UInt8 → Prop
  | nil {near input} : EncodesFields near input [] [] []
  | named {near input f fs name u v record part data} (hasName : f.name? = some name)
      (flat : f.isEmbedded = false)
      (given : input.get? name = some u ∨
        input.get? name = none ∧ f.isSelfSupplying = true ∧ u = .none)
      (head : Encodes false near f u v part)
      (tail : EncodesFields (near.note name v) input fs record data) :
      EncodesFields near input (f :: fs) ((name, v) :: record) (part ++ data)
  | unnamed {near input f fs v record part data} (hasNone : f.name? = none)
      (flat : f.isEmbedded = false) (head : Encodes false near f .none v part)
      (tail : EncodesFields near input fs record data) :
      EncodesFields near input (f :: fs) record (part ++ data)

end

end Format

end BinaryFormat
