import BinaryFormat.Proofs.Lazy.Widths
import BinaryFormat.Proofs.Twins.Streams

/-!
# Where truncated input is refused

A format of constant width reads its integers and byte strings one after the
other, whatever structures, sequences and arrays they are nested in.  Where the
stream ends too early, the failure is that of the first of them that does not
fit: with its path, with the offset at which it starts, and with the number of
bytes that were left for it.
-/

namespace BinaryFormat

/-- An integer or a byte string of a format: the bytes that it takes, and where in the format it
stands. -/
structure Leaf where
  width : Nat
  path : Path
  deriving DecidableEq, Repr

namespace Leaf

/-- The bytes that leaves take together. -/
def total (leaves : List Leaf) : Nat := (leaves.map width).sum

@[simp] theorem total_nil : total [] = 0 := rfl

@[simp] theorem total_cons (leaf : Leaf) (rest : List Leaf) :
    total (leaf :: rest) = leaf.width + total rest := by
  simp [total]

@[simp] theorem total_append (first second : List Leaf) :
    total (first ++ second) = total first + total second := by
  simp [total]

/-- How a leaf is refused that starts at an offset and for which too few bytes are left. -/
def refusal (leaf : Leaf) (start found : Nat) : Failure :=
  ⟨.shortage (.read leaf.width found), leaf.path, some start⟩

/-- Where leaves need more bytes than there are, one of them is the first that does not fit. -/
private theorem exists_first_short {room : Nat} : ∀ {leaves : List Leaf}, room < total leaves →
    ∃ before leaf after, leaves = before ++ leaf :: after ∧ total before ≤ room ∧
      room < total before + leaf.width
  | [], short => absurd short (Nat.not_lt_zero room)
  | leaf :: rest, short => by
      by_cases fits : leaf.width ≤ room
      · have later : room - leaf.width < total rest := by
          rw [total_cons] at short
          omega
        obtain ⟨before, next, after, rfl, inside, beyond⟩ := exists_first_short later
        refine ⟨leaf :: before, next, after, rfl, ?_, ?_⟩ <;> rw [total_cons] <;> omega
      · exact ⟨[], leaf, rest, rfl, Nat.zero_le room, by rw [total_nil]; omega⟩

end Leaf

namespace Run

variable {α β : Type} {x : Run α} {leaves : List Leaf}

/-! ## Runs that read leaves -/

/-- The run reads leaves one after the other, over every kind of stream: it succeeds where there
are bytes for all of them, and is refused at the first that does not fit elsewhere. -/
def Reads (leaves : List Leaf) (x : Run α) : Prop :=
  ∀ s : State,
    (Leaf.total leaves ≤ s.stream.left.length →
      ∃ a s', x s = .ok a s' ∧ s.stream.Ahead (Leaf.total leaves) s'.stream) ∧
    ∀ before leaf after, leaves = before ++ leaf :: after →
      Leaf.total before ≤ s.stream.left.length →
      s.stream.left.length < Leaf.total before + leaf.width →
      ∃ s', x s = .error (leaf.refusal (s.stream.pos + Leaf.total before)
        (s.stream.left.length - Leaf.total before)) s'

private theorem reads_of_kept (h : ∀ s, ∃ a s', x s = .ok a s' ∧ s'.stream = s.stream) :
    x.Reads [] := by
  intro s
  obtain ⟨a, s', ran, same⟩ := h s
  refine ⟨fun _ => ⟨a, s', ran, by rw [same]; exact .refl _⟩, fun before leaf after split => ?_⟩
  simp at split

private theorem reads_pure (a : α) : (pure a : Run α).Reads
    [] := reads_of_kept fun s => ⟨a, s, rfl, rfl⟩

private theorem reads_insert (name : String) (v : Value) : (insert name v).Reads [] :=
  reads_of_kept fun s => ⟨(), { s with context := s.context.insert name v }, rfl, rfl⟩

private theorem Reads.bind {f : α → Run β} {more : List Leaf} (first : x.Reads leaves)
    (second : ∀ a, (f a).Reads more) : (x >>= f).Reads (leaves ++ more) := by
  intro s
  obtain ⟨enough, short⟩ := first s
  -- what the second part does behind the first one
  have next (room : Leaf.total leaves ≤ s.stream.left.length) : ∃ a s₁, x s = .ok a s₁ ∧
      s.stream.Ahead (Leaf.total leaves) s₁.stream ∧
      s₁.stream.left.length = s.stream.left.length - Leaf.total leaves := by
    obtain ⟨a, s₁, ran, ahead⟩ := enough room
    exact ⟨a, s₁, ran, ahead, by rw [ahead.left_eq, List.length_drop]⟩
  refine ⟨fun room => ?_, fun before leaf after split fits beyond => ?_⟩
  · rw [Leaf.total_append] at room ⊢
    obtain ⟨a, s₁, ran, ahead, rest⟩ := next (by omega)
    obtain ⟨b, s₂, ran', ahead'⟩ := (second a s₁).1 (by omega)
    exact ⟨b, s₂, by rw [bind_of_ok ran, ran'], ahead.trans ahead'⟩
  · have behind (middle : List Leaf) (own : before = leaves ++ middle)
        (others : more = middle ++ leaf :: after) : ∃ s', (x >>= f) s =
          .error (leaf.refusal (s.stream.pos + Leaf.total before)
            (s.stream.left.length - Leaf.total before)) s' := by
      subst own
      rw [Leaf.total_append] at fits beyond ⊢
      obtain ⟨a, s₁, ran, ahead, rest⟩ := next (by omega)
      obtain ⟨s', failed⟩ := (second a s₁).2 middle leaf after others (by omega) (by omega)
      rw [ahead.pos_eq, rest, Nat.add_assoc, Nat.sub_sub] at failed
      exact ⟨s', by rw [bind_of_ok ran, failed]⟩
    rcases List.append_eq_append_iff.mp split with ⟨middle, own, others⟩ | ⟨front, own, others⟩
    · exact behind middle own others
    · rcases front with - | ⟨other, front⟩
      · exact behind [] (by simpa using own.symm) others.symm
      · obtain ⟨rfl, -⟩ := List.cons.inj others
        obtain ⟨s', failed⟩ := short before leaf front own fits beyond
        exact ⟨s', bind_of_error failed f⟩

private theorem Reads.after {a : α} {f : α → Run β} (here : ∀ s, x s = .ok a s)
    (next : (f a).Reads leaves) :
    (x >>= f).Reads leaves := by
  intro s
  rw [bind_of_ok (here s)]
  exact next s

private theorem Reads.map (h : x.Reads leaves) (f : α → β) :
    (x >>= fun a => pure (f a)).Reads leaves := by
  have both := h.bind fun a => reads_pure (f a)
  rwa [List.append_nil] at both

protected theorem Reads.tagged (h : x.Reads leaves) : (tagged x).Reads leaves := by
  intro s
  obtain ⟨enough, short⟩ := h s
  refine ⟨fun room => ?_, fun before leaf after split fits beyond => ?_⟩
  · obtain ⟨a, s', ran, ahead⟩ := enough room
    exact ⟨a, s', tagged_of_ok ran, ahead⟩
  · obtain ⟨s', failed⟩ := short before leaf after split fits beyond
    exact ⟨s', tagged_of_error failed⟩

protected theorem Reads.inFrame (h : x.Reads leaves) (values : Record Value) :
    (inFrame values x).Reads leaves := by
  intro s
  obtain ⟨enough, short⟩ := h { s with context := s.context.push values }
  refine ⟨fun room => ?_, fun before leaf after split fits beyond => ?_⟩
  · obtain ⟨a, s', ran, ahead⟩ := enough room
    exact ⟨_, _, inFrame_of_ok ran, ahead⟩
  · obtain ⟨s', failed⟩ := short before leaf after split fits beyond
    exact ⟨_, by rw [inFrame, failed]⟩

/-! ## A single leaf -/

private theorem reads_leaf {n : Nat} {path : Path} {f : List UInt8 → Run β}
    (value : ∀ data, data.length = n → ∀ s, ∃ b, f data s = .ok b s) :
    (tagged (Run.read n path >>= f)).Reads [⟨n, path⟩] := by
  intro s
  obtain ⟨data, ahead⟩ := s.stream.honest (some n)
  have count : (s.stream.read (some n)).1.length = min n s.stream.left.length := by
    rw [data, Medium.upTo, List.length_take]
  refine ⟨fun room => ?_, fun before leaf after split _ beyond => ?_⟩
  · rw [Leaf.total_cons, Leaf.total_nil, Nat.add_zero] at room ⊢
    have size : (s.stream.read (some n)).1.length = n := by rw [count, Nat.min_eq_left room]
    have ran : Run.read n path s =
        .ok (s.stream.read (some n)).1 { s with stream := (s.stream.read (some n)).2 } := by
      simp [Run.read, size]
    obtain ⟨b, made⟩ := value _ size { s with stream := (s.stream.read (some n)).2 }
    refine ⟨b, _, tagged_of_ok ((bind_of_ok ran f).trans made), ?_⟩
    rw [size] at ahead
    exact ahead
  · have alone : before = [] ∧ leaf = ⟨n, path⟩ := by
      rcases before with - | ⟨other, before⟩
      · exact ⟨rfl, (List.cons.inj split).1.symm⟩
      · simp at split
    obtain ⟨rfl, rfl⟩ := alone
    rw [Leaf.total_nil, Nat.zero_add] at beyond
    have found : (s.stream.read (some n)).1.length = s.stream.left.length := by
      rw [count, Nat.min_eq_right (Nat.le_of_lt beyond)]
    have failed : Run.read n path s =
      .error ((Fault.shortage (.read n s.stream.left.length)).atPath path)
        { s with stream := (s.stream.read (some n)).2 } := by
      simp [Run.read, found, Nat.ne_of_lt beyond]
    exact ⟨_, tagged_of_error (bind_of_error failed f)⟩

end Run

/-! ## Formats -/

/-- The expression is a literal size. -/
def Expr.IsSize (x : Expr) : Prop := ∃ n : Nat, x = .const (.int n) ∧ n ≤ Value.maxSize

/-- The size that a literal stands for. -/
def Expr.literalSize : Expr → Nat
  | const (.int n) => n.toNat
  | _ => 0

namespace Format

mutual

/-- Integers of up to eight bytes, byte strings and arrays whose width, length or count is a
literal size, and structures and sequences of them, with or without names. -/
def OfLiterals : Format → Prop
  | integer width _ _ => ∃ n : Nat, width = .const (.int n) ∧ 1 ≤ n ∧ n ≤ 8
  | bytes length => length.IsSize
  | array count of _ => count.IsSize ∧ OfLiterals of
  | named _ of | documented _ of => OfLiterals of
  | struct fields _ | sequence fields => AllOfLiterals fields
  | _ => False

def AllOfLiterals : List Format → Prop
  | [] => True
  | f :: rest => OfLiterals f ∧ AllOfLiterals rest

end

mutual

/-- The leaves of a format that stands at a path, in the order in which they are read. -/
def leaves : Path → Format → List Leaf
  | path, integer width _ _ => [⟨width.literalSize, path⟩]
  | path, bytes length => [⟨length.literalSize, path⟩]
  | path, array count of _ =>
      (List.range' 0 count.literalSize).flatMap fun i => leaves (path.element i) of
  | path, named _ of => leaves path of
  | path, documented _ of => leaves path of
  | path, struct fields _ => memberLeaves (fun _ name => path.memberIf name) 0 fields
  | path, sequence items => memberLeaves (fun i name => path.item name i) 0 items
  | _, _ => []

/-- The leaves of members from an index on; `place` says where a member stands. -/
def memberLeaves (place : Nat → Option String → Path) : Nat → List Format → List Leaf
  | _, [] => []
  | i, f :: rest => leaves (place i f.name?) f ++ memberLeaves place (i + 1) rest

end

mutual

theorem OfLiterals.ofConstants : ∀ {f : Format}, f.OfLiterals → f.OfConstants
  | integer .., h => h
  | bytes _, ⟨n, same, _⟩ => ⟨n, same⟩
  | array .., ⟨⟨n, same, _⟩, h⟩ => ⟨⟨n, same⟩, h.ofConstants⟩
  | named _ of, h => OfLiterals.ofConstants (f := of) h
  | documented _ of, h => OfLiterals.ofConstants (f := of) h
  | struct fields _, h => (show AllOfLiterals fields from h).ofConstants
  | sequence items, h => (show AllOfLiterals items from h).ofConstants

private theorem AllOfLiterals.ofConstants :
    ∀ {fs : List Format}, AllOfLiterals fs → AllOfConstants fs
  | [], _ => trivial
  | _ :: _, ⟨h, later⟩ => ⟨h.ofConstants, later.ofConstants⟩

end

private theorem reads_integer (e : Engine) {n : Nat} (positive : 1 ≤ n) (narrow : n ≤ 8)
    (signed : Bool)
    (endian : Endian) (path : Path) :
    (Run.tagged ((Codec.integer e (.const (.int n)) signed endian).parse path)).Reads
    [⟨n, path⟩] := by
  have small : n ≤ Value.maxSize := by
    have large : 8 ≤ Value.maxSize := by decide
    omega
  have width : Integer.checkWidth n 16 "bytes" = .ok () := by
    rw [Integer.checkWidth, if_neg (by omega)]
  have same : Run.tagged ((Codec.integer e (.const (.int n)) signed endian).parse path) =
      Run.tagged (Run.read n path >>= fun data => do
        return .int (← Run.ofExcept path (Integer.ofPattern
          (Bytes.toNat (Integer.inOrder endian data)) (n * 8) signed))) := by
    funext s
    unfold Run.tagged
    dsimp only [Codec.integer]
    rw [Run.bind_of_ok (Codec.evalSize_const e path s small), width]
    rfl
  rw [same]
  refine Run.reads_leaf fun data size s => ?_
  have width : data.length ≤ 8 := by omega
  obtain ⟨v, number⟩ := ofPattern_of_narrow width endian (n * 8) signed
  exact ⟨.int v, by rw [number]; rfl⟩

private theorem reads_bytes (e : Engine) {n : Nat} (small : n ≤ Value.maxSize) (path : Path) :
    (Run.tagged ((Codec.bytes e (.const (.int n))).parse path)).Reads [⟨n, path⟩] := by
  have same : Run.tagged ((Codec.bytes e (.const (.int n))).parse path) =
      Run.tagged (Run.read n path >>= fun data => pure (.bytes data)) := by
    funext s
    unfold Run.tagged
    dsimp only [Codec.bytes]
    rw [Run.bind_of_ok (Codec.evalSize_const e path s small)]
  rw [same]
  exact Run.reads_leaf fun data _ s => ⟨.bytes data, rfl⟩

private theorem reads_parseCounted {of : Part} {each : Path → List Leaf}
    (element : ∀ path, (of.parse path).Reads (each path)) (path : Path) :
    ∀ count i : Nat, (Codec.parseCounted of path count i).Reads
      ((List.range' i count).flatMap fun i => each (path.element i))
  | 0, _ => Run.reads_pure []
  | count + 1, i => by
      rw [List.range'_succ, List.flatMap_cons]
      refine (Run.reads_insert "_index" (.ofNat i)).bind fun _ => ?_
      refine (element (path.element i)).bind fun v => ?_
      exact (reads_parseCounted element path count (i + 1)).map _

private theorem reads_noteItem (p : Part) (v : Value) : (Codec.noteItem p v).Reads [] := by
  unfold Codec.noteItem
  cases p.name? with
  | none => exact Run.reads_pure ()
  | some name => exact Run.reads_insert name v

mutual

/-- A format of constant width reads its leaves. -/
private theorem reads_codec (e : Engine) (defs : Definitions) : ∀ {f : Format}, f.OfLiterals →
    ∀ path, (Run.tagged ((f.codec e defs).parse path)).Reads (f.leaves path)
  | integer _ signed endian, ⟨n, same, positive, narrow⟩, path => by
      subst same
      exact reads_integer e positive narrow signed endian path
  | bytes _, ⟨n, same, small⟩, path => by
      subst same
      exact reads_bytes e small path
  | array _ of discard, ⟨⟨n, same, small⟩, h⟩, path => by
      subst same
      have element (place : Path) : (Part.parse ⟨of, of.codec e defs⟩ place).Reads
          (of.leaves place) := reads_codec e defs h place
      have counted := reads_parseCounted element path n 0
      exact .tagged (.after (fun s => Codec.evalSize_const e path s small) (counted.map _))
  | named _ of, h, path => reads_codec e defs (f := of) h path
  | documented _ of, h, path => reads_codec e defs (f := of) h path
  | struct fields overwrite, h, path => by
      have constants : AllOfConstants fields := (show AllOfLiterals fields from h).ofConstants
      have isLocal := local_fields defs (constants.isLocal [] [])
      have members := reads_parseMembers e defs (fun _ name => path.memberIf name) 0 h
      have all : (Codec.parseFields overwrite false path (parts e defs fields)).Reads
          (memberLeaves (fun _ name => path.memberIf name) 0 fields) := by
        rw [Codec.parseFields_eq overwrite path _ 0 (Codec.isEmbedded_parts e isLocal)]
        exact members.map fun _ => ()
      exact .tagged ((all.inFrame []).map _)
  | sequence items, h, path => by
      have members := reads_parseMembers e defs (fun i name => path.item name i) 0 h
      rw [← Codec.parseItems_eq] at members
      exact .tagged ((members.inFrame []).map _)

theorem reads_parseMembers (e : Engine) (defs : Definitions) (place : Nat → Option String → Path) :
    ∀ (i : Nat) {fs : List Format}, AllOfLiterals fs →
      (Codec.parseMembers place i (parts e defs fs)).Reads (memberLeaves place i fs)
  | _, [], _ => Run.reads_pure []
  | i, f :: rest, ⟨h, later⟩ => by
      refine (reads_codec e defs h (place i f.name?)).bind fun v => ?_
      refine (reads_noteItem ⟨f, f.codec e defs⟩ v).bind fun _ => ?_
      exact (reads_parseMembers e defs place (i + 1) later).map _

end

/-! ### Entry point -/

/-- Input that ends before all leaves of a format are read is refused at the first leaf that does
not fit: the ones before it end inside of the stream, it starts there and reaches beyond the end.
The failure has its path, the offset at which it starts, and the number of bytes left for it. -/
theorem refused_at_first_short (defs : Definitions) (n : Nat) {f : Format} (h : f.OfLiterals)
    (params : Record Value) (store : LazyStore) {stream : Stream}
    (inside : stream.plain.base ≤ stream.pos ∧ stream.pos ≤ stream.size.1)
    (short : stream.size.1 < stream.pos + Leaf.total (f.leaves .this)) :
    ∃ before leaf after failure s', f.leaves .this = before ++ leaf :: after ∧
      (let start := stream.pos + Leaf.total before
       start ≤ stream.size.1 ∧ stream.size.1 < start + leaf.width ∧
        parseStream (.level defs (n + 1)) f params stream store = .error failure s' ∧
        failure = ⟨.shortage (.read leaf.width (stream.size.1 - start)), leaf.path, some start⟩ ∧
        failure.text = "stream underflow: " ++
          s!"expected {leaf.width} bytes, found {stream.size.1 - start}" ++ " at " ++
          leaf.path.text ++ s!" (offset {start})") := by
  have room : stream.left.length = stream.size.1 - stream.pos := by
    have is : stream.Is stream.isView stream.plain := ⟨rfl, rfl⟩
    rw [is.left, is.size.1, Medium.rest, Stream.pos_plain, if_neg (by omega), List.length_drop]
    omega
  obtain ⟨before, leaf, after, split, fits, beyond⟩ :=
    Leaf.exists_first_short (show stream.left.length < Leaf.total (f.leaves .this) by omega)
  obtain ⟨s', failed⟩ := (reads_codec (.level defs n) defs h .this
    ⟨stream, .ofParams params, store⟩).2 before leaf after split fits beyond
  have found : stream.left.length - Leaf.total before =
      stream.size.1 - (stream.pos + Leaf.total before) := by omega
  dsimp only at failed
  rw [found] at failed
  exact ⟨before, leaf, after, _, s', split, by omega, by omega, failed, rfl, rfl⟩

/-- A length, and two rows of a number and a pair of bytes behind it. -/
def rowsOfPairs : Format :=
  .struct [.named "size" (.unsigned 2 .big), .named "rows" (.array (.const (.int 2))
    (.sequence [.named "id" (.unsigned 1 .big), .bytes (.const (.int 2))]) false)] false

private theorem ofLiterals_rowsOfPairs : rowsOfPairs.OfLiterals :=
  ⟨⟨2, rfl, by decide, by decide⟩, ⟨⟨2, rfl, by decide⟩,
    ⟨⟨1, rfl, by decide, by decide⟩, ⟨2, rfl, by decide⟩, trivial⟩⟩, trivial⟩

/-- The number of the second row is the last byte but one; its pair has one byte left. -/
theorem refused_at_first_short_pair :
    ∃ failure s', parseStream (.level [] 1) rowsOfPairs []
        (.medium ⟨.growing, [9, 0, 0, 1, 2, 3, 4, 5], 1⟩) .empty = .error failure s' ∧
      failure.text =
        "stream underflow: expected 2 bytes, found 1 at this.rows[1][1] (offset 7)" := by
  obtain ⟨before, leaf, after, failure, s', split, -, beyond, failed, -, text⟩ :=
    @refused_at_first_short [] 0 rowsOfPairs ofLiterals_rowsOfPairs [] .empty
      (.medium ⟨.growing, [9, 0, 0, 1, 2, 3, 4, 5], 1⟩) ⟨by decide, by decide⟩ (by decide)
  have here : (rowsOfPairs.leaves .this)[before.length]? = some leaf := by
    rw [split, List.getElem?_append_right (Nat.le_refl _), Nat.sub_self]
    rfl
  have front : before = (rowsOfPairs.leaves .this).take before.length := by
    rw [split, List.take_left]
  have few : before.length < 5 := by
    have length : (rowsOfPairs.leaves .this).length = 5 := rfl
    rw [split, List.length_append, List.length_cons] at length
    omega
  rw [front] at beyond text
  refine ⟨failure, s', failed, text.trans ?_⟩
  -- the four leaves in front of the last one fit
  generalize before.length = k at *
  interval_cases k <;> cases here <;> first
    | exact absurd beyond (by decide)
    | rfl

end Format

end BinaryFormat
