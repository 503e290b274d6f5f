import BinaryFormat.Proofs.Twins.Runs

/-!
# Components that stand for their bytes

A number is written as some bytes and read from them, over whatever stream that
may be: a byte string, or a view of the units of another stream.  What can be
read of a stream is what is left of it; a read that finds too little takes all
of it and fails.
-/

namespace BinaryFormat

/-! ## Reading from what is left -/

namespace Run

variable {n : Nat} {s : State}

theorem read_of_enough (enough : n ≤ s.stream.left.length) (path : Path) :
    ∃ left, Run.read n path s = .ok (s.stream.left.take n) { s with stream := left } ∧
      s.stream.Ahead n left := by
  obtain ⟨data, ahead⟩ := s.stream.honest (some n)
  have size : (s.stream.read (some n)).1.length = n := by
    rw [data, Medium.upTo, List.length_take, Nat.min_eq_left enough]
  rw [size] at ahead
  refine ⟨(s.stream.read (some n)).2, ?_, ahead⟩
  rw [← show (s.stream.read (some n)).1 = s.stream.left.take n from data]
  simp only [Run.read, size, if_true]

theorem read_of_short (short : s.stream.left.length < n) (path : Path) :
    ∃ left, Run.read n path s =
        .error ((Fault.shortage (.read n s.stream.left.length)).atPath path)
          { s with stream := left } ∧
      s.stream.Ahead s.stream.left.length left := by
  obtain ⟨data, ahead⟩ := s.stream.honest (some n)
  have size : (s.stream.read (some n)).1.length = s.stream.left.length := by
    rw [data, Medium.upTo, List.length_take, Nat.min_eq_right (Nat.le_of_lt short)]
  refine ⟨(s.stream.read (some n)).2, ?_, size ▸ ahead⟩
  simp only [Run.read, size, Nat.ne_of_lt short, if_false]

theorem length_of_read {path : Path} {units : List UInt8} {s' : State}
    (h : Run.read n path s = .ok units s') : units.length = n := by
  simp only [Run.read] at h
  split at h
  · next whole =>
      cases h
      exact whole
  · cases h

theorem read_of_left {units rest : List UInt8} (next : s.stream.left = units ++ rest)
    (path : Path) :
    ∃ left, Run.read units.length path s = .ok units { s with stream := left } ∧
      s.stream.Ahead units.length left := by
  have enough : units.length ≤ s.stream.left.length := by
    rw [next, List.length_append]
    exact Nat.le_add_right _ _
  obtain ⟨left, read, ahead⟩ := read_of_enough enough path
  rw [next, List.take_left] at read
  exact ⟨left, read, ahead⟩

theorem write_eq_ok_iff {bytes : List UInt8} {path : Path} {s' : State} :
    write bytes path s = .ok () s' ↔
      s.stream.write bytes = (none, s'.stream) ∧ s' = { s with stream := s'.stream } := by
  obtain ⟨stream', context', store'⟩ := s'
  simp only [write]
  rcases s.stream.write bytes with ⟨_ | fault, stream⟩
  · simp only [EStateM.Result.ok.injEq, State.mk.injEq, Prod.mk.injEq]
    tauto
  · simp

end Run

/-! ## Values and their bytes -/

namespace Codec

/-- The value is built as these bytes and as itself, wherever the stream takes them; where it
does not, that is the failure. -/
def BuildsAs (c : Codec) (v : Value) (bytes : List UInt8) : Prop :=
  ∀ (s : State) (path : Path),
    (∀ left, s.stream.write bytes = (none, left) →
      c.build v path s = .ok v { s with stream := left }) ∧
    ∀ fault left, s.stream.write bytes = (some fault, left) →
      c.build v path s = .error (fault.atPath path) { s with stream := left }

/-- The bytes are parsed as this value and no further, whatever follows them. -/
def ParsesAs (c : Codec) (bytes : List UInt8) (v : Value) : Prop :=
  ∀ (s : State) (path : Path) (rest : List UInt8), s.stream.left = bytes ++ rest →
    ∃ left, c.parse path s = .ok v { s with stream := left } ∧
      s.stream.Ahead bytes.length left

variable {c : Codec} {v : Value} {bytes : List UInt8}

theorem buildsAs_of_write (h : ∀ path s, c.build v path s =
    (Run.write bytes path >>= fun _ => pure v : Run Value) s) : c.BuildsAs v bytes := by
  intro s path
  rw [h]
  constructor
  · intro left written
    simp [bind, EStateM.bind, Run.write, written]
  · intro fault left written
    simp [bind, EStateM.bind, Run.write, written]

end Codec

end BinaryFormat
