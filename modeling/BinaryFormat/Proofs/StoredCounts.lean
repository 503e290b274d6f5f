import BinaryFormat.Codec.Envelope
import BinaryFormat.Codec.Repetition
import BinaryFormat.Codec.Text
import BinaryFormat.Format.Meaning
import BinaryFormat.Proofs.Exact

/-!
# Stored counts and lengths

A list, a text or a payload stands behind its own count or length, which can be any
number that its component yields.  The length of a payload is held against the
greatest size.  A count of elements and a length of text are cut to 64 bits, so
that behind a greater number stands less than was announced.
-/

namespace BinaryFormat

namespace Run

variable {α : Type} {s s' : State}

private theorem stream_of_lookup {x : Lookup Failure α} {a : α} (h : lookup x s = .ok a s') :
    s'.stream = s.stream := by
  unfold lookup at h
  split at h
  · cases h
    rfl
  · cases h

private theorem ahead_of_read {n : Nat} {path : Path} {units : List UInt8}
    (h : Run.read n path s = .ok units s') :
    units = s.stream.left.take n ∧ s.stream.Ahead n s'.stream := by
  rcases Nat.lt_or_ge s.stream.left.length n with short | enough
  · obtain ⟨left, failed, -⟩ := read_of_short short path
    rw [failed] at h
    cases h
  · obtain ⟨left, read, ahead⟩ := read_of_enough enough path
    rw [read] at h
    cases h
    exact ⟨rfl, ahead⟩

end Run

namespace Codec

variable {e : Engine} {path : Path} {s s' : State} {v : Value}

/-! ## Stored numbers -/

/-- What goes on with a stored number is run only if that is a natural one. -/
private theorem natural_of_stored {α : Type} {length : Part} {refused : String → Fault}
    {next : Int → Run α} {a : α}
    (h : (do
      let stored ← length.parse path
      match stored.int? with
      | some n =>
        if n < 0 then Run.fail (refused (← Run.dump stored)) path
        next n
      | none => Run.fail (refused (← Run.dump stored)) path : Run α) s = .ok a s') :
    ∃ (stored : Value) (n : Nat) (s₁ : State), length.parse path s = .ok stored s₁ ∧
      stored.int? = some (n : Int) ∧ next n s₁ = .ok a s' := by
  obtain ⟨stored, s₁, parsed, h⟩ := Run.bind_eq_ok_iff.mp h
  cases number : stored.int? with
  | none =>
      rw [number] at h
      obtain ⟨_, _, _, h⟩ := Run.bind_eq_ok_iff.mp h
      cases h
  | some n =>
      rw [number] at h
      dsimp only at h
      split at h
      · obtain ⟨_, _, _, h⟩ := Run.bind_eq_ok_iff.mp h
        cases h
      · next natural =>
          obtain ⟨n, rfl⟩ := Int.eq_ofNat_of_zero_le (Int.not_lt.mp natural)
          exact ⟨stored, n, s₁, parsed, number, h⟩

/-! ## Elements -/

private theorem length_of_parseCounted {of : Part} {items : List Value} {count i : Nat}
    (h : parseCounted of path count i s = .ok items s') : items.length = count := by
  induction count generalizing i s s' items with
  | zero =>
      obtain ⟨rfl, -⟩ := Run.pure_eq_ok_iff.mp h
      rfl
  | succ count ih =>
      obtain ⟨_, s₁, -, h⟩ := Run.bind_eq_ok_iff.mp h
      obtain ⟨item, s₂, -, h⟩ := Run.bind_eq_ok_iff.mp h
      obtain ⟨others, s₃, parsed, h⟩ := Run.bind_eq_ok_iff.mp h
      obtain ⟨rfl, -⟩ := Run.pure_eq_ok_iff.mp h
      rw [List.length_cons, ih parsed]

private theorem elements_of_prefixedArray {count of : Part}
    (h : (prefixedArray e count of).parse path s = .ok v s') :
    ∃ (stored : Value) (n : Nat) (s₁ : State) (items : List Value),
      count.parse path s = .ok stored s₁ ∧ stored.int? = some (n : Int) ∧ v = .list items ∧
        items.length = n % 2 ^ 64 := by
  obtain ⟨stored, n, s₁, parsed, number, h⟩ := natural_of_stored h
  obtain ⟨items, s₂, parsed', h⟩ := Run.bind_eq_ok_iff.mp h
  obtain ⟨rfl, -⟩ := Run.pure_eq_ok_iff.mp h
  exact ⟨stored, n, s₁, items, parsed, number, rfl, length_of_parseCounted parsed'⟩

/-! ## Text -/

private theorem bytes_of_prefixedText {length : Part} {encoding : Encoding}
    (h : (prefixedText length encoding).parse path s = .ok v s') :
    ∃ (stored : Value) (n : Nat) (s₁ : State) (text : String),
      length.parse path s = .ok stored s₁ ∧ stored.int? = some (n : Int) ∧ v = .str text ∧
        encoding.decode (s₁.stream.left.take (n % 2 ^ 64)) = .ok text ∧
        s₁.stream.Ahead (n % 2 ^ 64) s'.stream := by
  obtain ⟨stored, n, s₁, parsed, number, h⟩ := natural_of_stored h
  obtain ⟨data, s₂, read, h⟩ := Run.bind_eq_ok_iff.mp h
  obtain ⟨decoded, rfl⟩ := Run.ofExcept_eq_ok_iff.mp h
  obtain ⟨rfl, ahead⟩ := Run.ahead_of_read read
  rw [TextField.decode] at decoded
  split at decoded
  · next text valid =>
      cases decoded
      exact ⟨stored, n, s₁, text, parsed, number, rfl, valid, ahead⟩
  · cases decoded

/-! ## Payloads -/

private theorem stream_of_overhead {length : Part} {inclusive : Bool} {extra : Nat}
    (h : overhead length inclusive path s = .ok extra s') : s'.stream = s.stream := by
  unfold overhead at h
  split at h
  · exact Run.stream_of_lookup h
  · obtain ⟨-, rfl⟩ := Run.pure_eq_ok_iff.mp h
    rfl

theorem payload_of_prefixed {length : Part} {of : Codec} {inclusive lenient : Bool}
    (h : (prefixed length of inclusive lenient).parse path s = .ok v s') :
    ∃ (stored : Value) (extra payload consumed : Nat) (s₁ s₂ s₃ : State),
      length.parse path s = .ok stored s₁ ∧ overhead length inclusive path s₁ = .ok extra s₂ ∧
        stored.int? = some ((extra + payload : Nat) : Int) ∧
        of.parseSlice (s₁.stream.left.take payload) path s₃ = .ok (v, consumed) s' ∧
        (lenient = false → payload ≤ consumed) ∧ s₁.stream.Ahead payload s'.stream := by
  obtain ⟨stored, s₁, parsed, h⟩ := Run.bind_eq_ok_iff.mp h
  cases number : stored.int? with
  | none =>
      rw [number] at h
      cases h
  | some n =>
      rw [number] at h
      obtain ⟨extra, s₂, sized, h⟩ := Run.bind_eq_ok_iff.mp h
      obtain ⟨range, h⟩ := Run.guard_eq_ok_iff.mp h
      obtain ⟨payload, rest⟩ := Int.eq_ofNat_of_zero_le (Int.not_lt.mp (not_or.mp range).1)
      obtain ⟨data, s₃, read, h⟩ := Run.bind_eq_ok_iff.mp h
      obtain ⟨⟨w, consumed⟩, s₄, sliced, h⟩ := Run.bind_eq_ok_iff.mp h
      obtain ⟨whole, h⟩ := Run.guard_eq_ok_iff.mp h
      obtain ⟨rfl, rfl⟩ := Run.pure_eq_ok_iff.mp h
      rw [rest, Int.toNat_natCast] at read
      obtain ⟨rfl, ahead⟩ := Run.ahead_of_read read
      rw [stream_of_overhead sized] at sliced ahead
      have same : s₄.stream = s₃.stream := by
        obtain ⟨_, _, run, last⟩ := Run.bind_eq_ok_iff.mp sliced
        obtain ⟨-, rfl⟩ := Run.pure_eq_ok_iff.mp last
        obtain ⟨_, -, -, rfl⟩ := Run.ok_of_onStream run
        rfl
      refine ⟨stored, extra, payload, consumed, s₁, s₂, s₃, parsed, sized, ?_, sliced,
        fun strict => ?_, same ▸ ahead⟩
      · rw [number, Nat.cast_add, ← rest]
        congr 1
        omega
      · subst strict
        simpa [rest] using whole

/-! ## The three together -/

/-- A list has as many elements, and a text as many bytes, as its stored number leaves when it is
divided by `2 ^ 64`: just as many as were stored for a number below that, and fewer for any other.
A payload has the stored length, less what an inclusive length counts for itself. -/
theorem stored_counts (e : Engine) (path : Path) (s s' : State) (v : Value) :
    (∀ count of : Part, (prefixedArray e count of).parse path s = .ok v s' →
      ∃ (stored : Value) (n : Nat) (s₁ : State) (items : List Value),
        count.parse path s = .ok stored s₁ ∧ stored.int? = some (n : Int) ∧ v = .list items ∧
          items.length = n % 2 ^ 64 ∧ (items.length = n ↔ n < 2 ^ 64)) ∧
    (∀ (length : Part) (encoding : Encoding),
      (prefixedText length encoding).parse path s = .ok v s' →
      ∃ (stored : Value) (n used : Nat) (s₁ : State) (text : String),
        length.parse path s = .ok stored s₁ ∧ stored.int? = some (n : Int) ∧ v = .str text ∧
          encoding.decode (s₁.stream.left.take used) = .ok text ∧
          s₁.stream.Ahead used s'.stream ∧ used = n % 2 ^ 64 ∧ (used = n ↔ n < 2 ^ 64)) ∧
    ∀ (length : Part) (of : Codec) (inclusive lenient : Bool),
      (prefixed length of inclusive lenient).parse path s = .ok v s' →
      ∃ (stored : Value) (extra payload consumed : Nat) (s₁ s₂ s₃ : State),
        length.parse path s = .ok stored s₁ ∧ overhead length inclusive path s₁ = .ok extra s₂ ∧
          stored.int? = some ((extra + payload : Nat) : Int) ∧
          of.parseSlice (s₁.stream.left.take payload) path s₃ = .ok (v, consumed) s' ∧
          (lenient = false → payload ≤ consumed) ∧ s₁.stream.Ahead payload s'.stream := by
  have uncut (n : Nat) : n % 2 ^ 64 = n ↔ n < 2 ^ 64 := Nat.mod_eq_iff_lt (by decide)
  refine ⟨fun count of h => ?_, fun length encoding h => ?_, fun length of _ _ h =>
    payload_of_prefixed h⟩
  · obtain ⟨stored, n, s₁, items, parsed, number, rfl, long⟩ := elements_of_prefixedArray h
    exact ⟨stored, n, s₁, items, parsed, number, rfl, long, long ▸ uncut n⟩
  · obtain ⟨stored, n, s₁, text, parsed, number, rfl, decoded, ahead⟩ := bytes_of_prefixedText h
    exact ⟨stored, n, _, s₁, text, parsed, number, rfl, decoded, ahead, rfl, uncut n⟩

/-- Two elements, a text of one letter, and a payload of one byte whose length counts itself. -/
theorem stored_counts_small :
    let byte : Part := ⟨.unsigned 1 .big, (Format.unsigned 1 .big).codec .exhausted []⟩
    let start (bytes : List UInt8) : State := ⟨.memory bytes, .ofParams [], .empty⟩
    (∃ (stored : Value) (n : Nat) (s₁ : State) (items : List Value),
      byte.parse .this (start [2, 8, 9]) = .ok stored s₁ ∧ stored.int? = some (n : Int) ∧
        .list [.int 8, .int 9] = Value.list items ∧ items.length = n % 2 ^ 64 ∧
        (items.length = n ↔ n < 2 ^ 64)) ∧
    (∃ (s' : State) (stored : Value) (n used : Nat) (s₁ : State) (text : String),
      byte.parse .this (start [1, 0x61, 9]) = .ok stored s₁ ∧ stored.int? = some (n : Int) ∧
        .str "a" = Value.str text ∧ Encoding.latin1.decode (s₁.stream.left.take used) = .ok text ∧
        s₁.stream.Ahead used s'.stream ∧ used = n % 2 ^ 64 ∧ (used = n ↔ n < 2 ^ 64)) ∧
    ∃ (s' : State) (stored : Value) (extra payload consumed : Nat) (s₁ s₂ s₃ : State),
      byte.parse .this (start [2, 8, 9]) = .ok stored s₁ ∧
        overhead byte true .this s₁ = .ok extra s₂ ∧
        stored.int? = some ((extra + payload : Nat) : Int) ∧
        byte.codec.parseSlice (s₁.stream.left.take payload) .this s₃ =
          .ok (.int 8, consumed) s' ∧
        (false = false → payload ≤ consumed) ∧ s₁.stream.Ahead payload s'.stream := by
  intro byte start
  exact ⟨(stored_counts .exhausted .this (start [2, 8, 9]) _ _).1 byte byte rfl,
    ⟨_, (stored_counts .exhausted .this (start [1, 0x61, 9]) _ _).2.1 byte .latin1 rfl⟩,
    ⟨_, (stored_counts .exhausted .this (start [2, 8, 9]) _ _).2.2 byte byte.codec true false rfl⟩⟩

/-- A count and a length of `2 ^ 64`, with nothing behind them. -/
theorem stored_counts_cut :
    let start : State :=
      ⟨.memory [0, 0, 0, 0, 0, 0, 0, 1, 0, 0, 0, 0, 0, 0, 0, 0], .ofParams [], .empty⟩
    (∃ left, ((Format.unsigned 16 .big).codec .exhausted []).parse .this start =
      .ok (.int (2 ^ 64)) left) ∧
    (∃ left, ((Format.prefixedArray (.unsigned 16 .big) (.unsigned 1 .big)).codec
      .exhausted []).parse .this start = .ok (.list []) left) ∧
    ∃ left, ((Format.prefixedText (.unsigned 16 .big) .utf8).codec .exhausted []).parse
      .this start = .ok (.str "") left :=
  ⟨⟨_, rfl⟩, ⟨_, rfl⟩, ⟨_, rfl⟩⟩

end Codec

end BinaryFormat
