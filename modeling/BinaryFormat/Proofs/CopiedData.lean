import BinaryFormat.Proofs.Blind.Codecs
import BinaryFormat.Proofs.Legible

/-!
# Raw copies of given data

A raw copy that is built from data writes them as they are.  Its value is parsed
from them, which may take only the first of them: what is parsed again is the
record that was built just if all of them are taken.
-/

namespace BinaryFormat

namespace Run

/-- The same data on both sides, at the same place within them. -/
def Within (data : List UInt8) (s t : Stream) : Prop :=
  ∃ pos, pos ≤ data.length ∧ s = .growing data pos ∧ t = .growing data pos

private theorem readable_within (data : List UInt8) : Readable (Within data) where
  shifted := by
    refine ⟨0, ?_⟩
    rintro _ _ ⟨pos, -, rfl, rfl⟩
    rfl
  read := by
    rintro _ _ n ⟨pos, inside, rfl, rfl⟩
    have left (pos : Nat) : (⟨.growing, data, pos⟩ : Medium).rest.length = data.length - pos := by
      simp [Medium.rest, Medium.base]
    have room := left pos
    rcases Nat.lt_or_ge (data.length - pos) n with short | enough
    · have read := Medium.read_of_lt (room ▸ short)
      exact .inr ⟨_, _, _, _, read, read, rfl, room ▸ Nat.ne_of_lt short⟩
    · have read := Medium.read_of_le (room ▸ enough)
      refine .inl ⟨_, _, _, read, read, List.length_take_of_le (room ▸ enough),
        ⟨pos + n, by omega, rfl, rfl⟩, fun some => ?_⟩
      have less : (⟨.growing, data, pos + n⟩ : Medium).rest.length <
          (⟨.growing, data, pos⟩ : Medium).rest.length := by
        rw [left, left]
        omega
      exact ⟨less, less⟩

end Run

namespace Format

open Run

variable {defs : Definitions} {f : Format} {params : Record Value} {store : LazyStore}
  {data : List UInt8}

private theorem within_of_parse (forward : f.Forward) {ctx : Context} {path : Path} {v : Value}
    {s : State}
    (parsed : (f.codec (inner defs) defs).parse path ⟨.memory data, ctx, store⟩ = .ok v s) :
    ∃ n ctx' store', n ≤ data.length ∧ s = ⟨.growing data n, ctx', store'⟩ ∧ ctx.Kept ctx' := by
  have blind : Run.Blind (Within data) ctx.top.deferred _ :=
    (blind_codec (inner defs) defs forward).parse (readable_within data) path
  have agree := blind _ _ ctx store rfl ⟨0, Nat.zero_le _, rfl, rfl⟩
  obtain ⟨_, -, ⟨n, inside, same, -⟩, kept⟩ := agree.of_ok parsed
  obtain ⟨stream, ctx', store'⟩ := s
  exact ⟨n, ctx', store', inside, by rw [← same], kept⟩

private theorem rawCopy_of_parse {n : Nat} {v : Value} {ctx : Context} {store' : LazyStore}
    (inData : n ≤ data.length)
    (parsed : (f.codec (inner defs) defs).parse .this ⟨.memory data, .ofParams params, store⟩ =
      .ok v ⟨.growing data n, ctx, store'⟩) :
    (rawCopy f).parseBytes (.ofDefinitions defs) params data store =
      .ok (Codec.rawRecord (data.take n) v 0 n) ⟨.growing data n, ctx, store'⟩ := by
  have copied : Codec.copySince 0 .this ⟨.growing data n, ctx, store'⟩ =
      .ok (data.take n) ⟨.growing data n, ctx, store'⟩ := by
    have read := Codec.copySince_skip (m := ⟨.growing, data, 0⟩)
      (List.take_append_drop n data).symm ctx store' .this
    simp only [Medium.skip, List.length_take_of_le inData, Nat.zero_add] at read
    exact read
  have run : (Codec.rawCopy (inner defs) ⟨f, f.codec (inner defs) defs⟩).parse .this
      ⟨.memory data, .ofParams params, store⟩ =
        .ok (Codec.rawRecord (data.take n) v 0 n) ⟨.growing data n, ctx, store'⟩ := by
    rw [Codec.rawCopy]
    dsimp only
    rw [bind_of_ok (tell_apply _), bind_of_ok (Part.parse_of_ok parsed),
      bind_of_ok (tell_apply _)]
    exact bind_of_ok copied _
  exact tagged_of_ok run

/-- A copy that is built from data has the value that is parsed from them. -/
private theorem parse_of_data {w : Value} {s : State}
    (built : ((rawCopy f).codec (inner defs) defs).build (.container [("data", .bytes data)]) .this
      ⟨.atEnd [], .ofParams params, store⟩ = .ok w s) :
    ∃ v s₁, (f.codec (inner defs) defs).parse .this ⟨.memory data, .ofParams params, store⟩ =
        .ok v s₁ ∧
      w = Codec.rawRecord data v 0 data.length ∧ s = { s₁ with stream := .atEnd data } := by
  obtain ⟨input, s₁, given, run⟩ := bind_eq_ok_iff.mp built
  cases given
  rw [bind_of_ok (tell_atEnd _ _ _)] at run
  have run : (do
      Run.write data .this
      let offset2 ← Run.tell
      let parsed ← (f.codec (inner defs) defs).parseSlice data .this
      return Codec.rawRecord data parsed.1 0 offset2 : Run Value)
        ⟨.atEnd [], .ofParams params, store⟩ = .ok w s := run
  rw [bind_of_ok (write_atEnd [] data), bind_of_ok (tell_atEnd _ _ _)] at run
  obtain ⟨⟨v, consumed⟩, s₂, sliced, run⟩ := bind_eq_ok_iff.mp run
  obtain ⟨rfl, rfl⟩ := pure_eq_ok_iff.mp run
  obtain ⟨⟨v, stream⟩, s₃, inside, run⟩ := bind_eq_ok_iff.mp sliced
  cases run
  obtain ⟨s₄, parsed, -, rfl⟩ := ok_of_onStream inside
  exact ⟨v, s₄, parsed, rfl, rfl⟩

private theorem rawRecord_take_eq_iff {n : Nat} {v : Value} :
    Codec.rawRecord (data.take n) v 0 n = Codec.rawRecord data v 0 data.length ↔
      n = data.length := by
  constructor
  · intro same
    have fields : data.length ≤ n ∧ n = data.length := by
      simpa [Codec.rawRecord, Value.ofNat] using same
    exact fields.2
  · rintro rfl
    rw [List.take_length]

/-- A copy that is built from data writes just these, and its value is parsed from them.  When
they are parsed again, as many of them are taken as the component takes: it is the same copy just
if that is all of them. -/
theorem rawCopy_of_data (forward : f.Forward) {w : Value} {s : State}
    (built : (rawCopy f).buildBytes (.ofDefinitions defs) (.container [("data", .bytes data)])
      params store = .ok w s) :
    ∃ v n s₁ s', s.stream = .atEnd data ∧ w = Codec.rawRecord data v 0 data.length ∧
      f.parseBytes (.ofDefinitions defs) params data store = .ok v s₁ ∧ s₁.stream.pos = n ∧
      n ≤ data.length ∧
      (rawCopy f).parseBytes (.ofDefinitions defs) params data store =
        .ok (Codec.rawRecord (data.take n) v 0 n) s' ∧ s'.stream.pos = n ∧
      (Codec.rawRecord (data.take n) v 0 n = w ↔ n = data.length) := by
  obtain ⟨s₁, run, resolved⟩ := build_of_buildBytes built
  obtain ⟨v, s₂, parsed, rfl, rfl⟩ := parse_of_data run
  obtain ⟨n, ctx, store', inData, rfl, kept⟩ := within_of_parse forward parsed
  rw [Engine.resolveSince_of_empty kept.deferred] at resolved
  cases resolved
  exact ⟨v, n, _, _, rfl, rfl, tagged_of_ok parsed, rfl, inData, rawCopy_of_parse inData parsed,
    rfl, rawRecord_take_eq_iff⟩

/-- A number and a text, which take all the data. -/
theorem rawCopy_of_data_whole :
    let f := struct [named "n" (unsigned 1 .big),
      named "text" (prefixedText (unsigned 1 .big) .utf8)] false
    f.Forward ∧ ∃ w s s',
      (rawCopy f).buildBytes (.ofDefinitions []) (.container [("data", .bytes [7, 1, 0x61])])
        [] .empty = .ok w s ∧
      (rawCopy f).parseBytes (.ofDefinitions []) [] [7, 1, 0x61] .empty = .ok w s' ∧
      s'.stream.pos = 3 := by
  intro f
  have forward : f.Forward := by simp [f, Forward, ForwardAll, unsigned]
  have run : left? ((rawCopy f).buildBytes (.ofDefinitions [])
      (.container [("data", .bytes [7, 1, 0x61])]) [] .empty) = some ([7, 1, 0x61], 3) := by
    decide +kernel
  have taken : left? (f.parseBytes (.ofDefinitions []) [] [7, 1, 0x61] .empty) =
      some ([7, 1, 0x61], 3) := by
    decide +kernel
  obtain ⟨w, s, built, -, -⟩ := ok_of_left? run
  obtain ⟨v, n, s₁, s', -, -, parsed, here, -, again, pos, same⟩ := rawCopy_of_data forward built
  obtain ⟨_, _, parsed', -, all⟩ := ok_of_left? taken
  cases parsed.symm.trans parsed'
  obtain rfl : n = 3 := here.symm.trans all
  exact ⟨forward, w, s, s', built, same.mpr rfl ▸ again, pos⟩

/-- A byte takes only the first of two. -/
theorem rawCopy_of_data_excess : ∃ s s',
    (rawCopy (unsigned 1 .big)).buildBytes (.ofDefinitions [])
        (.container [("data", .bytes [1, 2])]) [] .empty =
      .ok (Codec.rawRecord [1, 2] (.int 1) 0 2) s ∧ s.stream = .atEnd [1, 2] ∧
    (rawCopy (unsigned 1 .big)).parseBytes (.ofDefinitions []) [] [1, 2] .empty =
      .ok (Codec.rawRecord [1] (.int 1) 0 1) s' ∧ s'.stream.pos = 1 :=
  ⟨_, _, rfl, rfl, rfl, rfl⟩

end Format

end BinaryFormat
