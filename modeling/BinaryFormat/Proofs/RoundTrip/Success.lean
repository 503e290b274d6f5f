import BinaryFormat.Proofs.RoundTrip.Meaning

/-!
# What is built is encoded

Wherever building with a plain format succeeds, the input encodes: the checks
that building makes are those that `Encodes` asks for.  With what was shown of
encodings this determines the bytes and the value.
-/

namespace BinaryFormat

/-- What is visible is known: integers, and lengths that can be counted. -/
structure Visible.Known (visible : Visible) (near : Surroundings) : Prop where
  ints : ∀ k ∈ visible.ints, Record.isPrivate k = false ∧ ∃ n, near.ints k = some n
  lists : ∀ x ∈ visible.lists, Record.isPrivate x = false ∧
    ∃ n, near.lengths x = some n ∧ n ≤ Value.maxSize

theorem Visible.known_nothing (near : Surroundings) : Visible.nothing.Known near :=
  ⟨by simp [Visible.nothing], by simp [Visible.nothing]⟩

namespace Format

/-- Whatever the format is built from encodes. -/
def Accounted (e : Engine) (defs : Definitions) (toEnd : Bool) (near : Surroundings)
    (f : Format) : Prop :=
  ∀ (u : Value) (before : List UInt8) (ctx : Context) (store : LazyStore) (path : Path)
    (w : Value) (s : State), u.Proper → near.Held ctx → near.Counted ctx →
    (f.codec e defs).build u path ⟨.atEnd before, ctx, store⟩ = .ok w s →
      ∃ v data, Encodes toEnd near f u v data

variable {e : Engine} {defs : Definitions} {toEnd : Bool} {near : Surroundings}
  {visible : Visible}

/-- An encoding says which state a successful build leaves. -/
private theorem Encodes.state {f : Format} {u v w : Value} {data before : List UInt8}
    {ctx : Context} {store : LazyStore} {path : Path} {s : State}
    (h : Encodes toEnd near f u v data) (held : near.Held ctx) (counted : near.Counted ctx)
    (built : (f.codec e defs).build u path ⟨.atEnd before, ctx, store⟩ = .ok w s) :
    ∃ ctx', s = ⟨.atEnd (before ++ data), ctx', store⟩ ∧ ctx.Quiet ctx' ∧
      v.Extends false w := by
  obtain ⟨w', ctx', built', quiet, ext, -⟩ :=
    h.writes e defs before ctx store path held counted
  rw [built] at built'
  cases built'
  exact ⟨ctx', rfl, quiet, ext⟩

private theorem Accounted.state {f : Format} (h : Accounted e defs toEnd near f) {u w : Value}
    {before : List UInt8} {ctx : Context} {store : LazyStore} {path : Path} {s : State}
    (proper : u.Proper) (held : near.Held ctx) (counted : near.Counted ctx)
    (built : (f.codec e defs).build u path ⟨.atEnd before, ctx, store⟩ = .ok w s) :
    ∃ v data ctx', Encodes toEnd near f u v data ∧
      s = ⟨.atEnd (before ++ data), ctx', store⟩ ∧ ctx.Quiet ctx' ∧ v.Extends false w := by
  obtain ⟨v, data, encoded⟩ := h u before ctx store path w s proper held counted built
  obtain ⟨ctx', left, quiet, ext⟩ := encoded.state held counted built
  exact ⟨v, data, ctx', encoded, left, quiet, ext⟩

private theorem Length.of_evalSize {x : Expr} {n : Nat} {path : Path} {stream : Stream}
    {ctx : Context} {store : LazyStore} {s' : State} (h : visible.Length x)
    (known : visible.Known near) (held : near.Held ctx)
    (size : e.evalSize x path ⟨stream, ctx, store⟩ = .ok n s') :
    near.Length x n ∧ s' = ⟨stream, ctx, store⟩ := by
  obtain ⟨k, rfl⟩ | ⟨k, mem, rfl⟩ := h
  · obtain ⟨rfl, small, rfl⟩ :=
      (Engine.evalSize_eq_ok_iff e (Engine.sees_const _ (.int k))).mp size
    exact ⟨⟨small, Or.inl rfl⟩, rfl⟩
  · obtain ⟨shown, i, hi⟩ := known.ints k mem
    have sees : Engine.Sees ⟨stream, ctx, store⟩ (.field k) (.int i) :=
      Engine.sees_field shown (held k i shown hi)
    obtain ⟨rfl, small, rfl⟩ := (Engine.evalSize_eq_ok_iff e sees).mp size
    exact ⟨⟨small, Or.inr ⟨k, shown, hi, rfl⟩⟩, rfl⟩

private theorem int?_of_ofValue {u : Value} {n : Int} (h : Integer.ofValue u = .ok n) :
    u.int? = some n := by
  unfold Integer.ofValue at h
  split at h
  · cases h
    assumption
  · cases h

theorem fits_of_checkedPattern {n : Int} {bits pattern : Nat} {signed : Bool}
    (h : Integer.checkedPattern n bits signed = .ok pattern) :
    Integer.fits n bits signed = true := by
  unfold Integer.checkedPattern at h
  split at h
  · assumption
  · cases h

private theorem given_of_integer {width : Nat} {signed : Bool} {endian : Endian} {u w : Value}
    {path : Path} {s s' : State} (positive : 1 ≤ width) (narrow : width ≤ 16)
    (built : (Codec.integer e (.const (.int width)) signed endian).build u path s = .ok w s') :
    ∃ n, u.int? = some n ∧ Integer.fits n (width * 8) signed = true := by
  have room : width ≤ Value.maxSize := Nat.le_trans narrow (by decide)
  simp only [Codec.integer] at built
  rw [Run.bind_of_ok (Codec.evalSize_const e path s room),
    Codec.checkWidth_of_le positive narrow, Run.bind_ofExcept_ok, Run.bind_eq_ok_iff] at built
  obtain ⟨n, s₁, number, built⟩ := built
  obtain ⟨number, -⟩ := Run.ofExcept_eq_ok_iff.mp number
  obtain ⟨pattern, s₂, checked, -⟩ := Run.bind_eq_ok_iff.mp built
  obtain ⟨checked, -⟩ := Run.ofExcept_eq_ok_iff.mp checked
  exact ⟨n, int?_of_ofValue number, fits_of_checkedPattern checked⟩

private theorem accounted_integer {width : Nat} (signed : Bool) (endian : Endian)
    (positive : 1 ≤ width) (narrow : width ≤ 16) :
    Accounted e defs toEnd near (integer (.const (.int width)) signed endian) := by
  intro u before ctx store path w s _ _ _ built
  obtain ⟨n, given, fits⟩ := given_of_integer positive narrow built
  exact ⟨.int n, _, .integer positive narrow given fits⟩

private theorem accounted_flag : Accounted e defs toEnd near flag := by
  intro u before ctx store path w s _ _ _ built
  cases u with
  | bool b => exact ⟨_, _, .flag rfl⟩
  | int n => exact ⟨_, _, .flag rfl⟩
  | _ => cases built

private theorem given_of_varint {bits : Nat} {u w : Value} {path : Path} {s s' : State}
    (built : (Codec.varint bits).build u path s = .ok w s') :
    ∃ n : Nat, u.int? = some (n : Int) ∧ n < Nat.pow 2 bits := by
  obtain ⟨n, s₁, number, built⟩ := Run.bind_eq_ok_iff.mp built
  obtain ⟨number, -⟩ := Run.ofExcept_eq_ok_iff.mp number
  obtain ⟨low, built⟩ := Run.guard_eq_ok_iff.mp built
  obtain ⟨high, -⟩ := Run.guard_eq_ok_iff.mp built
  obtain ⟨k, rfl⟩ := Int.eq_ofNat_of_zero_le (Int.not_lt.mp low)
  exact ⟨k, int?_of_ofValue number, by omega⟩

private theorem accounted_varint {bits : Nat} (narrow : bits ≤ 127) :
    Accounted e defs toEnd near (varint bits) := by
  intro u before ctx store path w s _ _ _ built
  obtain ⟨n, given, small⟩ := given_of_varint built
  exact ⟨_, _, .varint given small narrow⟩

private theorem accounted_zigzag : Accounted e defs toEnd near zigzag := by
  intro u before ctx store path w s _ _ _ built
  obtain ⟨n, s₁, number, -⟩ := Run.bind_eq_ok_iff.mp built
  obtain ⟨number, -⟩ := Run.ofExcept_eq_ok_iff.mp number
  exact ⟨_, _, .zigzag (int?_of_ofValue number)⟩

private theorem accounted_bytes {length : Expr} (h : visible.Length length)
    (known : visible.Known near) : Accounted e defs toEnd near (bytes length) := by
  intro u before ctx store path w s _ held _ built
  obtain ⟨n, s₁, size, built⟩ := Run.bind_eq_ok_iff.mp built
  obtain ⟨determined, -⟩ := Length.of_evalSize h known held size
  cases u with
  | bytes data =>
      obtain ⟨fits, -⟩ := Run.guard_eq_ok_iff.mp built
      obtain rfl : data.length = n := by
        by_contra ne
        exact fits ne
      exact ⟨_, _, .bytes determined⟩
  | _ => cases built

private theorem accounted_literal (data : List UInt8) :
    Accounted e defs toEnd near
      (constant (.bytes (.const (.int data.length))) (.bytes data)) := by
  intro u before ctx store path w s _ _ _ built
  obtain ⟨n, s₁, size, -⟩ := Run.bind_eq_ok_iff.mp built
  obtain ⟨eq, small, -⟩ :=
    (Engine.evalSize_eq_ok_iff e (Engine.sees_const _ (.int data.length))).mp size
  obtain rfl : data.length = n := by omega
  exact ⟨_, _, .literal small⟩

private theorem accounted_pass : Accounted e defs toEnd near pass := by
  intro u before ctx store path w s _ _ _ _
  exact ⟨_, _, .pass⟩

private theorem accounted_greedyBytes : Accounted e defs true near greedyBytes := by
  intro u before ctx store path w s _ _ _ built
  cases u with
  | bytes data => exact ⟨_, _, .greedyBytes⟩
  | _ => cases built

/-! ## Counts and text -/

private theorem IsCount.encodes {f : Format} (h : f.IsCount) {n : Nat} {path : Path} {s s' : State}
    {w : Value} (built : (f.codec e defs).build (.ofNat n) path s = .ok w s') :
    ∃ stored, Encodes false near f (.ofNat n) (.int n) stored := by
  unfold IsCount at h
  split at h
  · obtain ⟨rfl, width, rfl, positive, narrow⟩ := h
    obtain ⟨k, given, fits⟩ := given_of_integer positive narrow built
    cases given
    exact ⟨_, .integer positive narrow rfl fits⟩
  · obtain ⟨-, narrow⟩ := h
    obtain ⟨k, given, small⟩ := given_of_varint built
    obtain rfl : n = k := by
      have same : (n : Int) = k := by simpa [Value.ofNat, Value.int?] using given
      omega
    exact ⟨_, .varint rfl small narrow⟩
  · exact h.elim

private theorem encode_of_text {encoding : Encoding} {u : Value} {data : List UInt8}
    (h : TextField.encode encoding u = .ok data) :
    ∃ text, u = .str text ∧ encoding.encode text = .ok data := by
  cases u with
  | str text =>
      refine ⟨text, rfl, ?_⟩
      simp only [TextField.encode] at h
      split at h
      · cases h
        assumption
      · cases h
  | _ => cases h

private theorem accounted_prefixedText {length : Format} (count : length.IsCount)
    (encoding : Encoding) :
    Accounted e defs toEnd near (prefixedText length encoding) := by
  intro u before ctx store path w s _ _ _ built
  obtain ⟨data, s₁, encoded, built⟩ := Run.bind_eq_ok_iff.mp built
  obtain ⟨encoded, -⟩ := Run.ofExcept_eq_ok_iff.mp encoded
  obtain ⟨text, rfl, spelled⟩ := encode_of_text encoded
  obtain ⟨w', s₂, counting, -⟩ := Run.bind_eq_ok_iff.mp built
  obtain ⟨stored, counted⟩ := count.encodes (Part.build_eq_ok_iff.mp counting)
  exact ⟨_, _, .prefixedText spelled counted⟩

private theorem accounted_terminatedText {terminators : List (List UInt8)} {encoding : Encoding}
    (units : ∀ t ∈ terminators, t.length = encoding.unit) :
    Accounted e defs toEnd near (terminatedText terminators encoding) := by
  intro u before ctx store path w s _ _ _ built
  obtain ⟨data, s₁, encoded, built⟩ := Run.bind_eq_ok_iff.mp built
  obtain ⟨encoded, -⟩ := Run.ofExcept_eq_ok_iff.mp encoded
  obtain ⟨text, rfl, spelled⟩ := encode_of_text encoded
  by_cases free : (Bytes.chunks encoding.unit data).any terminators.contains = true
  · rw [if_pos free] at built
    cases built
  · cases terminators with
    | nil =>
        rw [if_neg free] at built
        cases built
    | cons first more =>
        refine ⟨_, _, .terminatedText spelled units ?_⟩
        intro t ht mem
        exact free (List.any_eq_true.mpr ⟨t, mem, by simpa using ht⟩)

/-! ## Repetition -/

private theorem elements_of_listInput {u : Value} {us : List Value} {path : Path} {s s' : State}
    (proper : u.Proper) (h : e.listInput u path s = .ok us s') :
    u.elements? = some us ∧ s' = s := by
  cases u with
  | list items | bytes data =>
      cases h
      exact ⟨rfl, rfl⟩
  | lazyList id n => exact proper.elim
  | _ => cases h

private theorem encodesEach_of_build {of : Format} (inner : Accounted e defs false near of)
    {us ws : List Value} (proper : Value.ProperItems us) {path : Path} {i : Nat}
    {before : List UInt8} {ctx : Context} {store : LazyStore} {s : State}
    (held : near.Held ctx) (counted : near.Counted ctx)
    (built : Codec.buildElements ⟨of, of.codec e defs⟩ path i us ⟨.atEnd before, ctx, store⟩ =
      .ok ws s) :
    ∃ vs parts, EncodesEach near of us vs parts ∧ (of.Productive → [] ∉ parts) := by
  induction us generalizing i before ctx ws s with
  | nil => exact ⟨[], [], .nil, fun _ => by simp⟩
  | cons u us ih =>
      have quiet := Codec.quiet_noteIndex ctx i
      rw [Codec.buildElements, Run.bind_of_ok (Codec.noteIndex_eq i _ ctx store),
        Run.bind_eq_ok_iff] at built
      obtain ⟨w, s₁, head, built⟩ := built
      have head := Part.build_eq_ok_iff.mp head
      obtain ⟨v, part, ctx₁, encoded, rfl, quiet₁, -⟩ :=
        inner.state proper.1 (held.quiet quiet) (counted.quiet quiet) head
      obtain ⟨ws', s₂, rest, -⟩ := Run.bind_eq_ok_iff.mp built
      have quiet' := quiet.trans quiet₁
      obtain ⟨vs, parts, each, productive⟩ :=
        ih proper.2 (held.quiet quiet') (counted.quiet quiet') rest
      refine ⟨v :: vs, part :: parts, .cons encoded each, fun takes mem => ?_⟩
      rcases List.mem_cons.mp mem with empty | later
      · have longer := takes e defs _ _ _ _ _ _ _ head
        rw [← empty] at longer
        simp at longer
      · exact productive takes later

private theorem accounted_array {count : Expr} {of : Format} (h : visible.Length count)
    (known : visible.Known near) (inner : Accounted e defs false near of) :
    Accounted e defs toEnd near (array count of false) := by
  intro u before ctx store path w s proper held counted built
  obtain ⟨n, s₁, size, built⟩ := Run.bind_eq_ok_iff.mp built
  obtain ⟨determined, rfl⟩ := Length.of_evalSize h known held size
  obtain ⟨us, s₂, input, built⟩ := Run.bind_eq_ok_iff.mp built
  obtain ⟨given, rfl⟩ := elements_of_listInput proper input
  obtain ⟨length, repeated⟩ := Run.guard_eq_ok_iff.mp built
  obtain ⟨ws, s₃, elements, -⟩ := Run.bind_eq_ok_iff.mp repeated
  obtain rfl : us.length = n := by
    by_contra ne
    exact length ne
  obtain ⟨vs, parts, each, -⟩ :=
    encodesEach_of_build inner (proper_elements proper given).2 held counted elements
  exact ⟨_, _, .array given determined each⟩

private theorem accounted_prefixedArray {count of : Format} (h : count.IsCount)
    (inner : Accounted e defs false near of) :
    Accounted e defs toEnd near (prefixedArray count of) := by
  intro u before ctx store path w s proper held counted built
  obtain ⟨us, s₁, input, built⟩ := Run.bind_eq_ok_iff.mp built
  obtain ⟨given, rfl⟩ := elements_of_listInput proper input
  obtain ⟨small, items⟩ := proper_elements proper given
  obtain ⟨w', s₂, counting, built⟩ := Run.bind_eq_ok_iff.mp built
  have counting := Part.build_eq_ok_iff.mp counting
  obtain ⟨stored, first⟩ := h.encodes counting
  obtain ⟨ctx₁, rfl, quiet, -⟩ := first.state held counted counting
  obtain ⟨ws, s₃, elements, -⟩ := Run.bind_eq_ok_iff.mp built
  obtain ⟨vs, parts, each, -⟩ :=
    encodesEach_of_build inner items (held.quiet quiet) (counted.quiet quiet) elements
  exact ⟨_, _, .prefixedArray given small first each⟩

private theorem accounted_greedyRange {of : Format} (productive : of.Productive)
    (plain : Plain false visible of) (known : visible.Known near)
    (inner : Accounted e defs false near of) :
    Accounted e defs true near (greedyRange of false) := by
  intro u before ctx store path w s proper held counted built
  have built := Run.rest_of_bind (Codec.bounds_greedy e path _) built
  obtain ⟨us, s₂, input, built⟩ := Run.bind_eq_ok_iff.mp built
  obtain ⟨given, rfl⟩ := elements_of_listInput proper input
  obtain ⟨small, items⟩ := proper_elements proper given
  obtain ⟨-, built⟩ := Run.guard_eq_ok_iff.mp built
  obtain ⟨ws, s₃, elements, -⟩ := Run.bind_eq_ok_iff.mp built
  obtain ⟨vs, parts, each, takes⟩ := encodesEach_of_build inner items held counted elements
  exact ⟨_, _, .greedyRange given small each (takes productive) plain known.ints⟩

/-! ## Envelopes -/

private theorem build_of_buildScratch {c : Codec} {u w : Value} {path : Path} {stream : Stream}
    {ctx : Context} {store : LazyStore} {s : State} {data : List UInt8}
    (h : c.buildScratch u path ⟨stream, ctx, store⟩ = .ok (w, data) s) :
    ∃ s₁, c.build u path ⟨.atEnd [], ctx, store⟩ = .ok w s₁ ∧ data = s₁.stream.data ∧
      s = { s₁ with stream := stream } := by
  obtain ⟨⟨w', left⟩, s₂, scratch, rest⟩ := Run.bind_eq_ok_iff.mp h
  cases rest
  simp only [Run.onStream] at scratch
  split at scratch
  · cases scratch
    exact ⟨_, by assumption, rfl, rfl⟩
  · cases scratch

private theorem Accounted.scratch {f : Format} (h : Accounted e defs toEnd near f) {u w : Value}
    {path : Path} {stream : Stream} {ctx : Context} {store : LazyStore} {s : State}
    {data : List UInt8} (proper : u.Proper) (held : near.Held ctx)
    (counted : near.Counted ctx)
    (built : (f.codec e defs).buildScratch u path ⟨stream, ctx, store⟩ = .ok (w, data) s) :
    ∃ v ctx', Encodes toEnd near f u v data ∧ s = ⟨stream, ctx', store⟩ ∧ ctx.Quiet ctx' := by
  obtain ⟨s₁, alone, rfl, rfl⟩ := build_of_buildScratch built
  obtain ⟨v, data, ctx', encoded, rfl, quiet, -⟩ := h.state proper held counted alone
  exact ⟨v, ctx', encoded, rfl, quiet⟩

/-- A length that counts itself has to be of known size. -/
private theorem Overhead.of_run {length : Format} (count : length.IsCount) {inclusive : Bool}
    {path : Path} {s s' : State} {extra : Nat}
    (h : Codec.overhead ⟨length, length.codec e defs⟩ inclusive path s = .ok extra s') :
    Overhead inclusive length extra ∧ s' = s := by
  cases inclusive with
  | false =>
      cases h
      exact ⟨by simp [Overhead], rfl⟩
  | true =>
      unfold IsCount at count
      split at count
      · rename_i signed endian
        obtain ⟨rfl, width, rfl, -, narrow⟩ := count
        have own : Overhead true (.integer (.const (.int width)) false endian) width := by
          simp only [Overhead, if_true]
          exact ⟨narrow, _, _, rfl⟩
        rw [Codec.overhead_eq e defs own path s] at h
        cases h
        exact ⟨own, rfl⟩
      · cases h
      · exact count.elim

private theorem accounted_prefixed {length of : Format} (count : length.IsCount)
    (inner : Accounted e defs true near of) (inclusive lenient : Bool) :
    Accounted e defs toEnd near (prefixed length of inclusive lenient) := by
  intro u before ctx store path w s proper held counted built
  obtain ⟨mark, s₁, marked, built⟩ := Run.bind_eq_ok_iff.mp built
  cases marked
  obtain ⟨⟨w', data⟩, s₂, scratch, built⟩ := Run.bind_eq_ok_iff.mp built
  obtain ⟨v, ctx₁, encoded, rfl, -⟩ := inner.scratch proper held counted scratch
  obtain ⟨extra, s₃, sized, built⟩ := Run.bind_eq_ok_iff.mp built
  obtain ⟨overhead, rfl⟩ := Overhead.of_run count sized
  obtain ⟨w'', s₄, counting, -⟩ := Run.bind_eq_ok_iff.mp built
  obtain ⟨stored, first⟩ := count.encodes (Part.build_eq_ok_iff.mp counting)
  exact ⟨_, _, .enclosed encoded overhead first⟩

private theorem accounted_fixedSized {of : Format} (n : Int)
    (inner : Accounted e defs false near of) :
    Accounted e defs toEnd near (fixedSized (.const (.int n)) of) := by
  intro u before ctx store path w s proper held counted built
  obtain ⟨k, s₁, size, built⟩ := Run.bind_eq_ok_iff.mp built
  obtain ⟨rfl, small, rfl⟩ := (Engine.evalSize_eq_ok_iff e (Engine.sees_const _ (.int n))).mp size
  obtain ⟨mark, s₂, marked, built⟩ := Run.bind_eq_ok_iff.mp built
  cases marked
  obtain ⟨⟨w', data⟩, s₃, scratch, built⟩ := Run.bind_eq_ok_iff.mp built
  obtain ⟨v, ctx₁, encoded, rfl, -⟩ := inner.scratch proper held counted scratch
  by_cases long : k < data.length
  · simp only [long, if_true] at built
    cases built
  · exact ⟨_, _, .fixedSized encoded (Nat.le_of_not_lt long) small⟩

private theorem accounted_padded {of : Format} (n : Int) (fill : Fill)
    (inner : Accounted e defs false near of) :
    Accounted e defs toEnd near (padded (.const (.int n)) of fill) := by
  intro u before ctx store path w s proper held counted built
  obtain ⟨k, s₁, size, built⟩ := Run.bind_eq_ok_iff.mp built
  obtain ⟨rfl, small, rfl⟩ := (Engine.evalSize_eq_ok_iff e (Engine.sees_const _ (.int n))).mp size
  obtain ⟨start, s₂, here, built⟩ := Run.bind_eq_ok_iff.mp built
  cases here
  obtain ⟨w', s₃, child, built⟩ := Run.bind_eq_ok_iff.mp built
  obtain ⟨v, data, ctx₁, encoded, rfl, -, -⟩ := inner.state proper held counted child
  obtain ⟨reached, s₄, there, built⟩ := Run.bind_eq_ok_iff.mp built
  cases there
  obtain ⟨left, s₅, rest, -⟩ := Run.bind_eq_ok_iff.mp built
  by_cases room : data.length ≤ k
  · exact ⟨_, _, .padded encoded room small⟩
  · simp [Codec.remainder, room] at rest

private theorem accounted_aligned {of : Format} (n : Int) (fill : Fill)
    (inner : Accounted e defs false near of) :
    Accounted e defs toEnd near (aligned (.const (.int n)) of fill) := by
  intro u before ctx store path w s proper held counted built
  obtain ⟨m, s₁, modulus, built⟩ := Run.bind_eq_ok_iff.mp built
  obtain ⟨k, s₂, size, modulus⟩ := Run.bind_eq_ok_iff.mp modulus
  obtain ⟨rfl, small, rfl⟩ := (Engine.evalSize_eq_ok_iff e (Engine.sees_const _ (.int n))).mp size
  obtain ⟨positive, modulus⟩ := Run.guard_eq_ok_iff.mp modulus
  cases modulus
  obtain ⟨start, s₃, here, built⟩ := Run.bind_eq_ok_iff.mp built
  cases here
  obtain ⟨w', s₄, child, built⟩ := Run.bind_eq_ok_iff.mp built
  obtain ⟨v, data, ctx₁, encoded, rfl, -, -⟩ := inner.state proper held counted child
  exact ⟨_, _, .aligned encoded (Nat.pos_of_ne_zero positive) small⟩

/-! ## Choice and stored lengths -/

private theorem accounted_branch {k : String} {yes no : Format} (mem : k ∈ visible.ints)
    (known : visible.Known near) (hyes : Accounted e defs false near yes)
    (hno : Accounted e defs false near no) :
    Accounted e defs toEnd near (branch (.field k) yes no) := by
  intro u before ctx store path w s proper held counted built
  obtain ⟨shown, n, hn⟩ := known.ints k mem
  have sees : Engine.Sees ⟨.atEnd before, ctx, store⟩ (.field k) (.int n) :=
    Engine.sees_field shown (held k n shown hn)
  have inner : Accounted e defs false near (if n = 0 then no else yes) := by
    split
    · exact hno
    · exact hyes
  simp only [codec, Codec.branch] at built
  rw [Run.bind_of_ok (e.evalHolds_of_sees sees), Codec.holds_int] at built
  have chosen : ((if n = 0 then no else yes).codec e defs).build u path
      ⟨.atEnd before, ctx, store⟩ = .ok w s := by
    by_cases zero : n = 0
    · simpa [zero] using built
    · simpa [zero] using built
  obtain ⟨v, data, encoded⟩ := inner u before ctx store path w s proper held counted chosen
  exact ⟨v, data, .branch shown hn encoded⟩

private theorem accounted_switch {k : String} {cases : List (Value × Format)}
    {otherwise : Option Format} (mem : k ∈ visible.ints) (known : visible.Known near)
    (eager : ∀ c ∈ cases, c.1.isLazy = false)
    (inner : ∀ n f, caseOf n otherwise cases = some f → Accounted e defs false near f) :
    Accounted e defs toEnd near (switch (.field k) cases otherwise) := by
  intro u before ctx store path w s proper held counted built
  obtain ⟨shown, n, hn⟩ := known.ints k mem
  have sees : Engine.Sees ⟨.atEnd before, ctx, store⟩ (.field k) (.int n) :=
    Engine.sees_field shown (held k n shown hn)
  have choice := Codec.chooseCase_eq e defs otherwise path sees eager
  obtain ⟨scope, s₁, here, built⟩ := Run.bind_eq_ok_iff.mp built
  cases here
  obtain ⟨part, s₂, chosen, built⟩ := Run.bind_eq_ok_iff.mp built
  have chosen := choice.symm.trans chosen
  cases selected : caseOf n otherwise cases with
  | none =>
      rw [selected] at chosen
      cases chosen
  | some f =>
      rw [selected] at chosen
      cases chosen
      obtain ⟨v, data, encoded⟩ :=
        inner n f selected u before ctx store path w s proper held counted built
      exact ⟨v, data, .switch shown hn eager selected encoded⟩

private theorem accounted_rebuild {of : Format} {x : String} (mem : x ∈ visible.lists)
    (known : visible.Known near) (inner : Accounted e defs false near of) :
    Accounted e defs toEnd near (rebuild of (.lengthOf x)) := by
  intro u before ctx store path w s _ held counted built
  obtain ⟨shown, n, hn, small⟩ := known.lists x mem
  obtain ⟨list, found, length⟩ := counted x n shown hn
  have sees : Engine.Sees ⟨.atEnd before, ctx, store⟩ (.lengthOf x) (.ofNat n) :=
    Engine.sees_lengthOf shown found length
  simp only [codec, Codec.rebuild] at built
  rw [Run.bind_of_ok (Run.outcome_of_ok (e.eval_of_sees sees))] at built
  obtain ⟨v, data, encoded⟩ :=
    inner (.ofNat n) before ctx store path w s (proper_ofNat small) held counted built
  exact ⟨v, data, .rebuild shown hn small encoded⟩

/-! ## Sequences -/

private theorem encodesItems_of_build {items : List Format}
    (inner : ∀ f ∈ items, Accounted e defs false .nothing f) {us ws : List Value}
    (length : us.length = items.length) (proper : Value.ProperItems us) {path : Path} {i : Nat}
    {before : List UInt8} {ctx : Context} {store : LazyStore} {s : State}
    (built : Codec.buildItems path i ((parts e defs items).zip us)
      ⟨.atEnd before, ctx, store⟩ = .ok ws s) :
    ∃ vs data, EncodesItems items us vs data := by
  induction items generalizing us ws i before ctx s with
  | nil =>
      obtain rfl := List.length_eq_zero_iff.mp length
      exact ⟨[], [], .nil⟩
  | cons f rest ih =>
      cases us with
      | nil => cases length
      | cons u us =>
          rw [parts, List.zip_cons_cons, Codec.buildItems, Run.bind_eq_ok_iff] at built
          obtain ⟨w, s₁, head, built⟩ := built
          obtain ⟨v, part, ctx₁, encoded, rfl, -, -⟩ :=
            (inner f List.mem_cons_self).state proper.1 (Surroundings.held_nothing ctx)
              (Surroundings.counted_nothing ctx) (Part.build_eq_ok_iff.mp head)
          obtain ⟨ctx₂, noted, -⟩ :=
            Codec.kept_noteItem ⟨f, f.codec e defs⟩ w (.atEnd (before ++ part)) ctx₁ store
          rw [Run.bind_of_ok noted] at built
          obtain ⟨ws', s₂, later, -⟩ := Run.bind_eq_ok_iff.mp built
          obtain ⟨vs, data, each⟩ := ih (fun g hg => inner g (List.mem_cons_of_mem f hg))
            (Nat.succ.inj length) proper.2 later
          exact ⟨v :: vs, part ++ data, .cons encoded each⟩

private theorem accounted_sequence {items : List Format}
    (inner : ∀ f ∈ items, Accounted e defs false .nothing f) :
    Accounted e defs toEnd near (sequence items) := by
  intro u before ctx store path w s proper _ _ built
  obtain ⟨us, s₁, input, built⟩ := Run.bind_eq_ok_iff.mp built
  obtain ⟨given, rfl⟩ := elements_of_listInput proper input
  obtain ⟨length, built⟩ := Run.guard_eq_ok_iff.mp built
  rw [length_parts, ne_eq, not_not] at length
  obtain ⟨result, s₂, framed, -⟩ := Run.bind_eq_ok_iff.mp built
  obtain ⟨s₃, framed, -, -⟩ := Run.ok_of_inFrame framed
  obtain ⟨ws, s₄, each, -⟩ := Run.bind_eq_ok_iff.mp framed
  obtain ⟨vs, data, encoded⟩ :=
    encodesItems_of_build inner length (proper_elements proper given).2 each
  exact ⟨_, _, .sequence given encoded⟩

/-! ## Structures -/

theorem first_of_buildFields {input : Record Value} {field : Part} {rest : List Part}
    {path : Path} {s s' : State} (flat : field.format.isEmbedded = false)
    (h : Codec.buildFields input path (field :: rest) s = .ok () s') :
    (∃ name u w s₁, field.name? = some name ∧
      (input.get? name = some u ∨
        input.get? name = none ∧ field.format.isSelfSupplying = true ∧ u = .none) ∧
      field.codec.build u (path.member name) s = .ok w s₁ ∧
      Codec.buildFields input path rest
        { s₁ with context := s₁.context.insert name w } = .ok () s') ∨
    ∃ w s₁, field.name? = none ∧ field.codec.build .none path s = .ok w s₁ ∧
      Codec.buildFields input path rest s₁ = .ok () s' := by
  rw [Codec.buildFields] at h
  simp only [flat, Bool.false_eq_true, if_false] at h
  cases hasName : field.name? with
  | none =>
      simp only [hasName] at h
      obtain ⟨w, s₁, head, later⟩ := Run.bind_eq_ok_iff.mp h
      exact Or.inr ⟨w, s₁, rfl, Part.build_eq_ok_iff.mp head, later⟩
  | some name =>
      simp only [hasName] at h
      obtain ⟨u, s₁, given, h⟩ := Run.bind_eq_ok_iff.mp h
      obtain ⟨w, s₂, head, h⟩ := Run.bind_eq_ok_iff.mp h
      obtain ⟨_, s₃, noted, later⟩ := Run.bind_eq_ok_iff.mp h
      cases noted
      left
      cases found : input.get? name with
      | some v =>
          simp only [Codec.fieldInput, found] at given
          cases given
          exact ⟨name, u, w, s₂, rfl, Or.inl found, Part.build_eq_ok_iff.mp head, later⟩
      | none =>
          simp only [Codec.fieldInput, found] at given
          by_cases supplies : field.format.isSelfSupplying = true
          · rw [if_pos supplies] at given
            cases given
            exact ⟨name, .none, w, s₂, rfl, Or.inr ⟨found, supplies, rfl⟩,
              Part.build_eq_ok_iff.mp head, later⟩
          · rw [if_neg supplies] at given
            cases given

private theorem elements_of_holdsList {f : Format} (list : f.holdsList = true) {u w : Value}
    {path : Path} {s s' : State} (proper : u.Proper)
    (built : (f.codec e defs).build u path s = .ok w s') : ∃ us, u.elements? = some us := by
  fun_induction holdsList f with
  | case1 count of discard =>
      obtain ⟨n, s₁, -, built⟩ := Run.bind_eq_ok_iff.mp built
      obtain ⟨us, s₂, input, -⟩ := Run.bind_eq_ok_iff.mp built
      exact ⟨us, (elements_of_listInput proper input).1⟩
  | case2 count of =>
      obtain ⟨us, s₂, input, -⟩ := Run.bind_eq_ok_iff.mp built
      exact ⟨us, (elements_of_listInput proper input).1⟩
  | case3 name of ih => exact ih list built
  | case4 docs of ih => exact ih list built
  | case5 => cases list

private theorem not_selfSupplying_of_holdsList {f : Format} (list : f.holdsList = true) :
    f.isSelfSupplying = false := by
  fun_induction holdsList f with
  | case1 | case2 => rfl
  | case3 name of ih => exact ih list
  | case4 docs of ih => exact ih list
  | case5 => cases list

/-- A structure that was built was given all of its lists. -/
private theorem lists_of_buildFields {fields : List Format}
    (flat : ∀ f ∈ fields, f.isEmbedded = false) {input : Record Value}
    (proper : Value.ProperFields input) {path : Path} {s s' : State}
    (built : Codec.buildFields input path (parts e defs fields) s = .ok () s') :
    ∀ f ∈ fields, f.holdsList = true → ∀ name, f.name? = some name →
      ∃ u us, input.get? name = some u ∧ u.elements? = some us := by
  induction fields generalizing s with
  | nil => simp
  | cons first rest ih =>
      have flat' : ∀ f ∈ rest, f.isEmbedded = false :=
        fun f hf => flat f (List.mem_cons_of_mem first hf)
      intro f hf list name hasName
      rcases first_of_buildFields (flat first List.mem_cons_self) built with
        ⟨own, u, w, s₁, hasOwn, given, head, later⟩ | ⟨w, s₁, hasNone, -, later⟩
      · rcases List.mem_cons.mp hf with rfl | hf
        · obtain rfl : name = own := Option.some.inj (hasName.symm.trans hasOwn)
          rcases given with found | ⟨-, supplies, -⟩
          · have fine := properFields_iff.mp proper _ (Record.mem_of_get?_eq_some found)
            obtain ⟨us, elements⟩ := elements_of_holdsList list fine head
            exact ⟨u, us, found, elements⟩
          · rw [not_selfSupplying_of_holdsList list] at supplies
            cases supplies
        · exact ih flat' later f hf list name hasName
      · rcases List.mem_cons.mp hf with rfl | hf
        · cases hasName.symm.trans hasNone
        · exact ih flat' later f hf list name hasName

private theorem Encodes.int_of_holdsInt {toEnd : Bool} {f : Format} {u v : Value}
    {data : List UInt8} (h : Encodes toEnd near f u v data) (int : f.holdsInt = true) :
    ∃ n, v = .int n := by
  fun_induction holdsInt f generalizing toEnd u with
  | case1 width signed endian =>
      cases h
      exact ⟨_, rfl⟩
  | case2 bits =>
      cases h
      exact ⟨_, rfl⟩
  | case3 =>
      cases h
      exact ⟨_, rfl⟩
  | case4 of expr ih =>
      cases h with
      | rebuild _ _ _ inner => exact ih inner int
  | case5 name of ih =>
      cases h with
      | named inner => exact ih inner int
  | case6 docs of ih =>
      cases h with
      | documented inner => exact ih inner int
  | case7 => cases int

private theorem known_note {f : Format} {name : String} {v : Value}
    (known : visible.Known near) (hasName : f.name? = some name)
    (shown : Record.isPrivate name = false) (fresh : name ∉ visible.ints)
    (int : f.holdsInt = true → ∃ n, v = .int n) :
    (visible.after f).Known (near.note name v) := by
  constructor
  · intro k hk
    by_cases eq : k = name
    · subst eq
      have holds : f.holdsInt = true := by
        by_contra other
        rw [Visible.after, hasName] at hk
        simp only [other, Bool.false_eq_true, if_false] at hk
        exact fresh hk
      obtain ⟨n, rfl⟩ := int holds
      exact ⟨shown, n, by simp [Surroundings.note]⟩
    · have before : k ∈ visible.ints := by
        rcases Visible.ints_after visible f hk with hk | hk
        · exact hk
        · exact absurd (Option.some.inj (hk.symm.trans hasName)) eq
      obtain ⟨shown', n, hn⟩ := known.ints k before
      refine ⟨shown', n, ?_⟩
      simp only [Surroundings.note, if_neg eq]
      exact hn
  · intro x hx
    refine known.lists x ?_
    rw [Visible.after, hasName] at hx
    dsimp only at hx
    split at hx <;> exact hx

/-- Fields of which each encodes wherever what it sees is known. -/
inductive AccountedFields (e : Engine) (defs : Definitions) : Visible → List Format → Prop
  | nil {seen : Visible} : AccountedFields e defs seen []
  | cons {seen : Visible} {f : Format} {rest : List Format} (flat : f.isEmbedded = false)
      (head : ∀ near, seen.Known near → Accounted e defs false near f)
      (tail : AccountedFields e defs (seen.after f) rest) :
      AccountedFields e defs seen (f :: rest)

private theorem AccountedFields.flat {fields : List Format}
    (h : AccountedFields e defs visible fields) : ∀ f ∈ fields, f.isEmbedded = false := by
  induction h with
  | nil => simp
  | cons flat _ _ ih =>
      intro g hg
      rcases List.mem_cons.mp hg with rfl | hg
      · exact flat
      · exact ih g hg

private theorem encodesFields_of_build {input : Record Value} (proper : Value.ProperFields input)
    {fields : List Format} (each : AccountedFields e defs visible fields)
    (distinct : (fieldNames fields).Nodup)
    (shown : ∀ name ∈ fieldNames fields, Record.isPrivate name = false)
    (fresh : ∀ name ∈ fieldNames fields, name ∉ visible.ints) (known : visible.Known near)
    (lists : Lists near input fields) {path : Path} {before : List UInt8} {ctx : Context}
    {store : LazyStore} {s : State} (held : near.Held ctx) (counted : near.Counted ctx)
    (built : Codec.buildFields input path (parts e defs fields) ⟨.atEnd before, ctx, store⟩ =
      .ok () s) :
    ∃ record data, EncodesFields near input fields record data := by
  -- By the fields: the surroundings that are known to the later ones grow by what each one has
  -- noted.
  induction each generalizing near before ctx with
  | nil => exact ⟨[], [], .nil⟩
  | @cons visible f rest flat head _ ih =>
      obtain ⟨distinct, apart⟩ := distinct_rest distinct
      have later {name : String} (hn : name ∈ fieldNames rest) :
          name ∈ fieldNames (f :: rest) := mem_fieldNames_cons.mpr (Or.inr hn)
      have fresh' : ∀ name ∈ fieldNames rest, name ∉ (visible.after f).ints := by
        intro name hn hk
        rcases Visible.ints_after visible f hk with hk | hk
        · exact fresh name (later hn) hk
        · exact apart name hk hn
      have continue_ := fun near => @ih near distinct (fun name hn => shown name (later hn)) fresh'
      rcases first_of_buildFields flat built with
        ⟨name, u, w, s₁, hasName, given, first, others⟩ | ⟨w, s₁, hasNone, first, others⟩
      · have own : name ∈ fieldNames (f :: rest) := mem_fieldNames_cons.mpr (Or.inl hasName)
        obtain ⟨v, part, ctx₁, encoded, rfl, quiet, ext⟩ :=
          (head near known).state (proper_given proper given) held counted first
        have known' := known_note known hasName (shown name own) (fresh name own)
          encoded.int_of_holdsInt
        obtain ⟨record, data, tail⟩ := continue_ _ known' lists.tail
          ((held.quiet quiet).note ext name)
          (Codec.counted_insert (counted.quiet quiet) ext (lists.head hasName given encoded))
          others
        exact ⟨_, _, .named hasName flat given encoded tail⟩
      · obtain ⟨v, part, ctx₁, encoded, rfl, quiet, -⟩ :=
          (head near known).state (u := .none) trivial held counted first
        have same : visible.after f = visible := by
          rw [Visible.after]
          simp only [Part.name?] at hasNone
          rw [hasNone]
        rw [same] at continue_
        obtain ⟨record, data, tail⟩ := continue_ _ known lists.tail (held.quiet quiet)
          (counted.quiet quiet) others
        exact ⟨_, _, .unnamed hasNone flat encoded tail⟩

private theorem entries_of_containerInput {u : Value} {input : Record Value} {path : Path}
    {s s' : State} (proper : u.Proper) (h : e.containerInput u path s = .ok input s') :
    u.entries? = some input ∧ s' = s := by
  cases u with
  | container fields | flags fields | none =>
      cases h
      exact ⟨rfl, rfl⟩
  | lazyContainer id fields => exact proper.elim
  | _ => cases h

private theorem exists_of_mem_listNames {fields : List Format} {x : String}
    (h : x ∈ listNames fields) :
    ∃ f ∈ fields, f.holdsList = true ∧ f.name? = some x := by
  obtain ⟨f, mem, hasName⟩ := List.mem_filterMap.mp h
  obtain ⟨hf, list⟩ := List.mem_filter.mp mem
  exact ⟨f, hf, list, hasName⟩

private theorem accounted_struct {fields : List Format} (named : WellNamed fields)
    (each : AccountedFields e defs ⟨[], listNames fields⟩ fields) (overwrite : Bool) :
    Accounted e defs toEnd near (struct fields overwrite) := by
  intro u before ctx store path w s proper _ _ built
  obtain ⟨input, s₁, entries, built⟩ := Run.bind_eq_ok_iff.mp built
  obtain ⟨given, rfl⟩ := entries_of_containerInput proper entries
  obtain ⟨separate, fine⟩ := proper_entries proper given
  obtain ⟨result, s₂, framed, -⟩ := Run.bind_eq_ok_iff.mp built
  obtain ⟨s₃, framed, -, -⟩ := Run.ok_of_inFrame framed
  obtain ⟨_, s₄, built, -⟩ := Run.bind_eq_ok_iff.mp framed
  -- The lengths that fields may refer to are those of the lists in the input.
  let lengths : String → Option Nat := fun x =>
    if x ∈ listNames fields then (input.get? x).bind Value.length? else none
  have counts : ∀ x n, lengths x = some n → x ∈ listNames fields ∧
      (input.get? x).bind Value.length? = some n := by
    intro x n h
    by_cases mem : x ∈ listNames fields
    · exact ⟨mem, by simpa [lengths, mem] using h⟩
    · simp [lengths, mem] at h
  have known : Visible.Known ⟨[], listNames fields⟩ ⟨fun _ => none, lengths⟩ := by
    refine ⟨by simp, fun x hx => ?_⟩
    obtain ⟨f, hf, list, hasName⟩ := exists_of_mem_listNames hx
    obtain ⟨v, us, found, elements⟩ :=
      lists_of_buildFields each.flat fine built f hf list x hasName
    have small := proper_elements
      (properFields_iff.mp fine _ (Record.mem_of_get?_eq_some found)) elements
    refine ⟨named.2 x (mem_fieldNames_of_mem hf hasName), us.length, ?_, small.1⟩
    simp [lengths, hx, found, length?_of_elements elements]
  have lists : Lists ⟨fun _ => none, lengths⟩ input fields := by
    intro x n h
    obtain ⟨mem, length⟩ := counts x n h
    exact ⟨length, holdsList_of_mem_listNames named.1 mem⟩
  have held : Surroundings.Held ⟨fun _ => none, lengths⟩ (ctx.push input) := by
    intro k n _ h
    cases h
  have counted : Surroundings.Counted ⟨fun _ => none, lengths⟩ (ctx.push input) := by
    intro x n _ h
    obtain ⟨v, found, length⟩ := Option.bind_eq_some_iff.mp (counts x n h).2
    exact ⟨v, found, length⟩
  obtain ⟨record, data, encoded⟩ := encodesFields_of_build fine each named.1 named.2 (by simp)
    known lists held counted built
  exact ⟨_, _, .struct given separate named counts encoded⟩

/-! ## All plain formats -/

variable (e defs)

mutual

theorem Plain.accounted : ∀ (f : Format) (toEnd : Bool) (visible : Visible),
    Plain toEnd visible f → ∀ near, visible.Known near → Accounted e defs toEnd near f
  | integer width signed endian, _, _, h, _, _ => by
      obtain ⟨n, rfl, positive, narrow⟩ := h
      exact accounted_integer signed endian positive narrow
  | flag, _, _, _, _, _ => accounted_flag
  | zigzag, _, _, _, _, _ => accounted_zigzag
  | pass, _, _, _, _, _ => accounted_pass
  | varint bits, _, _, h, _, _ => accounted_varint h.2
  | bytes length, _, _, h, _, known => accounted_bytes h known
  | constant of value, _, _, h, _, _ => by
      obtain ⟨data, rfl, rfl⟩ := h
      exact accounted_literal data
  | prefixedText length encoding, _, _, h, _, _ => accounted_prefixedText h encoding
  | terminatedText terminators encoding, _, _, h, _, _ => accounted_terminatedText h
  | named name of, toEnd, visible, h, near, known => by
      intro u before ctx store path w s proper held counted built
      obtain ⟨v, data, inner⟩ := Plain.accounted of toEnd visible h near known u before ctx
        store path w s proper held counted built
      exact ⟨v, data, .named inner⟩
  | documented docs of, toEnd, visible, h, near, known => by
      intro u before ctx store path w s proper held counted built
      obtain ⟨v, data, inner⟩ := Plain.accounted of toEnd visible h near known u before ctx
        store path w s proper held counted built
      exact ⟨v, data, .documented inner⟩
  | array count of discard, _, visible, h, near, known => by
      obtain ⟨length, rfl, inner⟩ := h
      exact accounted_array length known (Plain.accounted of false visible inner near known)
  | prefixedArray count of, _, visible, h, near, known =>
      accounted_prefixedArray h.1 (Plain.accounted of false visible h.2 near known)
  | prefixed length of inclusive lenient, _, visible, h, near, known =>
      accounted_prefixed h.1 (Plain.accounted of true visible h.2 near known) inclusive lenient
  | fixedSized length of, _, visible, h, near, known => by
      obtain ⟨⟨n, rfl⟩, inner⟩ := h
      exact accounted_fixedSized n (Plain.accounted of false visible inner near known)
  | padded length of fill, _, visible, h, near, known => by
      obtain ⟨⟨n, rfl⟩, inner⟩ := h
      exact accounted_padded n fill (Plain.accounted of false visible inner near known)
  | aligned modulus of fill, _, visible, h, near, known => by
      obtain ⟨⟨n, rfl⟩, inner⟩ := h
      exact accounted_aligned n fill (Plain.accounted of false visible inner near known)
  | sequence items, _, _, h, _, _ => accounted_sequence (PlainAll.accounted items h)
  | struct fields overwrite, _, _, h, _, _ =>
      accounted_struct h.1 (PlainFields.accounted fields ⟨[], listNames fields⟩ h.2) overwrite
  | branch condition yes no, _, visible, h, near, known => by
      obtain ⟨⟨k, mem, rfl⟩, hyes, hno⟩ := h
      exact accounted_branch mem known (Plain.accounted yes false visible hyes near known)
        (Plain.accounted no false visible hno near known)
  | switch key cases otherwise, _, visible, h, near, known => by
      obtain ⟨⟨k, mem, rfl⟩, each, rest⟩ := h
      exact accounted_switch mem known (PlainCases.eager cases each)
        (PlainCases.accounted cases otherwise visible each near known
          (PlainIf.accounted otherwise visible rest near known))
  | rebuild of expr, _, visible, h, near, known => by
      obtain ⟨-, inner, x, mem, rfl⟩ := h
      exact accounted_rebuild mem known (Plain.accounted of false visible inner near known)
  | greedyBytes, _, _, h, _, _ => by
      obtain rfl := h
      exact accounted_greedyBytes
  | greedyRange of discard, _, visible, h, near, known => by
      obtain ⟨rfl, rfl, productive, inner⟩ := h
      exact accounted_greedyRange productive inner known
        (Plain.accounted of false visible inner near known)

theorem PlainAll.accounted : ∀ (items : List Format), PlainAll .nothing items →
    ∀ f ∈ items, Accounted e defs false .nothing f
  | [], _, _, hf => by cases hf
  | f :: rest, h, g, hg => by
      rcases List.mem_cons.mp hg with first | hg
      · rw [first]
        exact Plain.accounted f false .nothing h.1 .nothing (Visible.known_nothing _)
      · exact PlainAll.accounted rest h.2 g hg

theorem PlainFields.accounted : ∀ (fields : List Format) (visible : Visible),
    PlainFields visible fields → AccountedFields e defs visible fields
  | [], _, _ => .nil
  | f :: rest, visible, h =>
      .cons h.1.not_embedded (fun near known => Plain.accounted f false visible h.1 near known)
        (PlainFields.accounted rest (visible.after f) h.2)

theorem PlainCases.accounted : ∀ (cases : List (Value × Format)) (otherwise : Option Format)
    (visible : Visible), PlainCases visible cases → ∀ near, visible.Known near →
    (∀ f, otherwise = some f → Accounted e defs false near f) →
    ∀ n f, caseOf n otherwise cases = some f → Accounted e defs false near f
  | [], _, _, _, _, _, rest, _, f, h => rest f h
  | (key, g) :: cases, otherwise, visible, each, near, known, rest, n, f, h => by
      rw [caseOf] at h
      split at h
      · cases h
        exact Plain.accounted g false visible each.2.1 near known
      · exact PlainCases.accounted cases otherwise visible each.2.2 near known rest n f h

theorem PlainIf.accounted : ∀ (otherwise : Option Format) (visible : Visible),
    PlainIf visible otherwise → ∀ near, visible.Known near →
    ∀ f, otherwise = some f → Accounted e defs false near f
  | some g, visible, h, near, known, f, hf => by
      cases hf
      exact Plain.accounted g false visible h near known

end

end Format

end BinaryFormat
