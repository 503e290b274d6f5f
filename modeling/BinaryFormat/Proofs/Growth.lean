import BinaryFormat.Proofs.Frames.Patches
import BinaryFormat.Proofs.Paces

/-!
# How streams grow

What is built into a stream that grows goes to its position and moves it
forward; whatever there is more of the stream afterwards reaches up to the
position.  The patches that are queued meanwhile lie within the stream, so
that applying them makes it no longer.
-/

namespace BinaryFormat

/-! ## Streams -/

namespace Stream

/-- How much there is of a stream. -/
def span : Stream → Nat
  | medium m => m.data.length
  | view v _ => v.units.length

/-- What a view is a view of. -/
def source : Stream → Option (Recoding × Stream)
  | medium _ => none
  | view v outer => some (v.recoding, outer)

/-- A byte string that grows, or a view of a stream that grows from which nothing was fetched. -/
def Growable : Stream → Prop
  | medium m => m.backing = .growing
  | view v outer => v.fetched = 0 ∧ (v.written = false → v.units = []) ∧
      v.pos ≤ v.units.length ∧ outer.Growable

theorem growable_memory (data : List UInt8) : (memory data).Growable := rfl

theorem Growable.viewed {s : Stream} (h : s.Growable) (r : Recoding) : (s.viewed r).Growable :=
  ⟨rfl, fun _ => rfl, Nat.le_refl 0, h⟩

/-- A stream after something was built: it may have become longer, up to the position. -/
structure Extended (s s' : Stream) : Prop where
  growable : s'.Growable
  source : s'.source = s.source
  forward : s.pos ≤ s'.pos
  longer : s.span ≤ s'.span
  bounded : s'.span ≤ max s.span s'.pos
  inside : s.pos ≤ s.span → s'.pos ≤ s'.span

theorem Extended.refl {s : Stream} (h : s.Growable) : s.Extended s :=
  ⟨h, rfl, Nat.le_refl _, Nat.le_refl _, Nat.le_max_left _ _, id⟩

theorem Extended.trans {a b c : Stream} (h : a.Extended b) (h' : b.Extended c) : a.Extended c where
  growable := h'.growable
  source := h'.source.trans h.source
  forward := h.forward.trans h'.forward
  longer := h.longer.trans h'.longer
  bounded := by
    have first := h.bounded
    have second := h'.bounded
    have onward := h'.forward
    omega
  inside := h'.inside ∘ h.inside

theorem extended_write {s : Stream} (h : s.Growable) (bytes : List UInt8) :
    (s.write bytes).1 = none ∧ s.Extended (s.write bytes).2 ∧
      (s.write bytes).2.pos = s.pos + bytes.length ∧
      (s.write bytes).2.pos ≤ (s.write bytes).2.span := by
  cases s with
  | medium m =>
      obtain ⟨backing, data, pos⟩ := m
      obtain rfl : backing = .growing := h
      have length := Medium.length_overlay data pos bytes
      refine ⟨rfl, ⟨rfl, rfl, ?_, ?_, ?_, fun _ => ?_⟩, rfl, ?_⟩ <;>
        simp only [write, Medium.write, Stream.pos, span, length] <;> omega
  | view v outer =>
      obtain ⟨fresh, empty, inside, outside⟩ := h
      cases bytes with
      | nil => exact ⟨rfl, .refl ⟨fresh, empty, inside, outside⟩, rfl, inside⟩
      | cons b rest =>
          have length := Medium.length_overlay v.units v.pos (b :: rest)
          refine ⟨rfl, ⟨⟨fresh, (absurd · (Bool.noConfusion ·)), ?_, outside⟩, rfl, ?_, ?_, ?_,
            fun _ => ?_⟩, rfl, ?_⟩ <;>
            simp only [write, View.write, Stream.pos, span, length, List.isEmpty_cons,
              Bool.false_eq_true, if_false] <;> omega

/-- Within the stream something may be built elsewhere if the position is set back afterwards. -/
theorem Extended.patched {s s' : Stream} {pos : Nat} (growable : s.Growable)
    (h : (s.setPos pos).Extended s') (start : pos ≤ s.span) (stop : s'.pos ≤ s.span) :
    s.Extended (s'.setPos s.pos) ∧ s'.span = s.span := by
  cases s with
  | medium m =>
      cases s' with
      | view v outer => cases h.source
      | medium m' =>
          have longer : m.data.length ≤ m'.data.length := h.longer
          have bounded : m'.data.length ≤ max m.data.length m'.pos := h.bounded
          have stop : m'.pos ≤ m.data.length := stop
          have same : m'.data.length = m.data.length := by omega
          exact ⟨⟨h.growable, rfl, Nat.le_refl _, longer, same.le.trans (Nat.le_max_left _ _),
            fun inside => inside.trans longer⟩, same⟩
  | view v outer =>
      cases s' with
      | medium m => cases h.source
      | view v' outer' =>
          obtain ⟨-, -, inside, -⟩ := growable
          obtain ⟨fresh, empty, -, outside⟩ := h.growable
          have longer : v.units.length ≤ v'.units.length := h.longer
          have bounded : v'.units.length ≤ max v.units.length v'.pos := h.bounded
          have stop : v'.pos ≤ v.units.length := stop
          have same : v'.units.length = v.units.length := by omega
          exact ⟨⟨⟨fresh, empty, inside.trans longer, outside⟩, h.source, Nat.le_refl _, longer,
            same.le.trans (Nat.le_max_left _ _), fun inside => inside.trans longer⟩, same⟩

theorem Growable.setPos {s : Stream} (h : s.Growable) {pos : Nat} (inside : pos ≤ s.span) :
    (s.setPos pos).Growable := by
  cases s with
  | medium m => exact h
  | view v outer => exact ⟨h.1, h.2.1, inside, h.2.2.2⟩

theorem span_setPos (s : Stream) (pos : Nat) : (s.setPos pos).span = s.span := by
  cases s <;> rfl

/-- A view in which something was built has its position at its end, and moves the stream below
it by so many chunks. -/
theorem extended_finish {s s' : Stream} {r : Recoding} (growable : s.Growable)
    (h : (s.viewed r).Extended s') (fine : s'.finish.1 = none) :
    s.Extended s'.finish.2 ∧ s'.pos % r.inner = 0 ∧
      s'.finish.2.pos = s.pos + s'.pos / r.inner * r.outer := by
  cases s' with
  | medium m => cases h.source
  | view v outer =>
      have same : (v.recoding, outer) = (r, s) := Option.some.inj h.source
      cases same
      obtain ⟨fresh, empty, inside, -⟩ := h.growable
      have most : v.units.length ≤ max 0 v.pos := h.bounded
      have full : v.units.length = v.pos := by omega
      simp only [finish] at fine ⊢
      cases written : v.written with
      | false =>
          have none : v.pos = 0 := by
            rw [← full, empty written]
            rfl
          have stays : s.giveBack 0 = s := by
            cases s <;> rfl
          simp only [Stream.pos, none, fresh, Bool.false_eq_true, if_false, Nat.zero_mod, ne_eq,
            not_true_eq_false, Nat.zero_div, Nat.sub_self, Nat.zero_mul, stays]
          exact ⟨.refl growable, trivial, rfl⟩
      | true =>
          simp only [written, if_true] at fine ⊢
          have whole : v.units.length % v.recoding.inner = 0 := by
            by_contra rest
            rw [if_pos rest] at fine
            cases fine
          rw [if_neg (not_not.mpr whole)]
          obtain ⟨-, extended, pos, -⟩ :=
            extended_write growable (v.recoding.encode v.units)
          rw [v.recoding.length_encode _ (Nat.div_mul_cancel (Nat.dvd_of_mod_eq_zero whole)).symm,
            full] at pos
          rw [full] at whole
          exact ⟨extended, whole, pos⟩

end Stream

/-! ## Patches within the stream -/

namespace Format

/-- The length in front of a payload is written at once. -/
def IsPrompt : Format → Prop
  | prefixed length _ _ _ => length.PatchFree
  | _ => True

/-- A component with settled sizes that patches no length in front of a payload. -/
structure Prompt (params : Record Value) (f : Format) : Prop where
  settled : f.Settled params
  lengths : f.All IsPrompt

end Format

/-- A patch that ends within a limit, of a component with a settled size. -/
structure Deferred.Fits (params : Record Value) (limit : Nat) (d : Deferred) : Prop where
  within : d.offset + d.size ≤ limit
  field : d.field.Prompt params

theorem Deferred.Fits.mono {params : Record Value} {limit most : Nat} {d : Deferred}
    (h : d.Fits params limit) (le : limit ≤ most) : d.Fits params most :=
  ⟨h.within.trans le, h.field⟩

/-- What was built since a state extended its stream and queued patches within it. -/
structure State.Filled (params : Record Value) (base s : State) : Prop where
  stream : base.stream.Extended s.stream
  queued : ∀ d ∈ s.context.top.deferred.drop base.context.mark,
    d.Fits params s.stream.span

namespace State

variable {params : Record Value} {t u : Traits} {base s s' : State}

theorem Filled.refl (h : base.stream.Growable) : base.Filled params base where
  stream := .refl h
  queued d mem := by
    simp [Context.mark] at mem

theorem drop_mark_of_grows (grown : base.context.Grows t s.context)
    (further : s.context.Grows u s'.context) :
    s'.context.top.deferred.drop base.context.mark =
      s.context.top.deferred.drop base.context.mark ++
        s'.context.top.deferred.drop s.context.mark := by
  obtain ⟨new, queued, -, -⟩ := grown.queue
  obtain ⟨new', queued', -, -⟩ := further.queue
  rw [Context.drop_mark queued, Context.drop_mark queued', queued', queued, List.append_assoc,
    Context.mark, List.drop_left]

theorem Filled.trans (h : base.Filled params s) (grown : base.context.Grows t s.context)
    (h' : s.Filled params s') (further : s.context.Grows u s'.context) :
    base.Filled params s' where
  stream := h.stream.trans h'.stream
  queued d mem := by
    rw [drop_mark_of_grows grown further] at mem
    rcases List.mem_append.mp mem with mem | mem
    · exact (h.queued d mem).mono h'.stream.longer
    · exact h'.queued d mem

theorem Filled.extended (h : base.Filled params s) (further : s.stream.Extended s'.stream)
    (queue : s'.context.top.deferred = s.context.top.deferred) : base.Filled params s' where
  stream := h.stream.trans further
  queued d mem := by
    rw [queue] at mem
    exact (h.queued d mem).mono further.longer

theorem Filled.same (h : base.Filled params s) (stream : s'.stream = s.stream)
    (queue : s'.context.top.deferred = s.context.top.deferred) : base.Filled params s' := by
  refine h.extended ?_ queue
  rw [stream]
  exact .refl h.stream.growable

end State

/-! ## Runs that fill a stream -/

namespace Run

variable {α β : Type} {params : Record Value} {depth : Nat} {t : Traits} {base : State}
  {P : Nat → Prop} {Q : α → Nat → Prop} {R : β → Nat → Prop}

/-- A run that builds onto `base`.  However it ends, the frames are as they should be; if it
succeeds, it has filled the stream from a position of the one kind to one of the other. -/
def Fills (params : Record Value) (t : Traits) (base : State) (P : Nat → Prop)
    (Q : α → Nat → Prop) (x : Run α) : Prop :=
  ∀ s, base.context.Grows t s.context → base.Filled params s → P s.stream.pos →
    base.context.Grows t (x.after s).context ∧
      ∀ a s', x s = .ok a s' → base.Filled params s' ∧ Q a s'.stream.pos

theorem Fills.of_ok {x : Run α} (h : x.Fills params t base P Q) {s s' : State} {a : α}
    (grown : base.context.Grows t s.context) (filled : base.Filled params s)
    (start : P s.stream.pos) (run : x s = .ok a s') :
    base.context.Grows t s'.context ∧ base.Filled params s' ∧ Q a s'.stream.pos := by
  obtain ⟨grown', reached⟩ := h s grown filled start
  rw [after, run] at grown'
  exact ⟨grown', reached a s' run⟩

private theorem Fills.of_error {x : Run α} (h : x.Fills params t base P Q) {s s' : State}
    {failure : Failure} (grown : base.context.Grows t s.context) (filled : base.Filled params s)
    (start : P s.stream.pos) (run : x s = .error failure s') :
    base.context.Grows t s'.context := by
  obtain ⟨grown', -⟩ := h s grown filled start
  rwa [after, run] at grown'

private theorem fills_of {x : Run α}
    (ok : ∀ s a s', base.context.Grows t s.context → base.Filled params s → P s.stream.pos →
      x s = .ok a s' →
        base.context.Grows t s'.context ∧ base.Filled params s' ∧ Q a s'.stream.pos)
    (error : ∀ s failure s', base.context.Grows t s.context → base.Filled params s →
      P s.stream.pos → x s = .error failure s' → base.context.Grows t s'.context) :
    x.Fills params t base P Q := by
  intro s grown filled start
  unfold after
  cases run : x s with
  | ok a s' =>
      obtain ⟨grown', reached⟩ := ok s a s' grown filled start run
      refine ⟨grown', fun b s'' same => ?_⟩
      cases same
      exact reached
  | error failure s' => exact ⟨error s failure s' grown filled start run, nofun⟩

theorem fills_of_keeps {x : Run α} (keeps : x.Keeps (Context.Grows t base.context))
    (ok : ∀ s a s', base.context.Grows t s.context → base.Filled params s → P s.stream.pos →
      x s = .ok a s' → base.Filled params s' ∧ Q a s'.stream.pos) :
    x.Fills params t base P Q :=
  fun s grown filled start =>
    ⟨(keeps s grown).1, fun a s' run => ok s a s' grown filled start run⟩

private theorem fills_of_same {x : Run α} (keeps : x.Keeps (Context.Grows t base.context))
    (same : ∀ s a s', x s = .ok a s' → s'.stream = s.stream ∧ s'.context = s.context) :
    x.Fills params t base P fun _ => P :=
  fills_of_keeps keeps fun s a s' _ filled start run => by
    obtain ⟨stream, context⟩ := same s a s' run
    rw [stream]
    exact ⟨filled.same stream (by rw [context]), start⟩

theorem Fills.mono {x : Run α} {P' : Nat → Prop} {Q' : α → Nat → Prop}
    (h : x.Fills params t base P Q) (start : ∀ p, P' p → P p)
    (reach : ∀ a p, Q a p → Q' a p) : x.Fills params t base P' Q' := by
  intro s grown filled here
  obtain ⟨grown', reached⟩ := h s grown filled (start _ here)
  refine ⟨grown', fun a s' run => ?_⟩
  obtain ⟨filled', there⟩ := reached a s' run
  exact ⟨filled', reach a _ there⟩

theorem fills_throw {failure : Failure} : (throw failure : Run α).Fills params t base P Q :=
  fun _ grown _ _ => ⟨grown, nofun⟩

theorem fills_fail {fault : Fault} {path : Path} :
    (fail fault path : Run α).Fills params t base P Q := fills_throw

theorem fills_pure {a : α} (reach : ∀ p, P p → Q a p) :
    (pure a : Run α).Fills params t base P Q := by
  refine fun s grown filled start => ⟨grown, fun b s' run => ?_⟩
  cases run
  exact ⟨filled, reach _ start⟩

private theorem Fills.bind_of_ok {x : Run α} {f : α → Run β} (hx : x.Fills params t base P Q)
    (hf : ∀ a s s', x s = .ok a s' → base.context.Grows t s.context → P s.stream.pos →
      (f a).Fills params t base (Q a) R) : (x >>= f).Fills params t base P R := by
  refine fills_of (fun s b s' grown filled start run => ?_)
    fun s failure s' grown filled start run => ?_
  · obtain ⟨a, s₁, first, later⟩ := bind_eq_ok_iff.mp run
    obtain ⟨grown', filled', reached⟩ := hx.of_ok grown filled start first
    exact (hf a s s₁ first grown start).of_ok grown' filled' reached later
  · cases first : x s with
    | error failure' s₁ =>
        rw [Run.bind_of_error first] at run
        cases run
        exact hx.of_error grown filled start first
    | ok a s₁ =>
        rw [Run.bind_of_ok first] at run
        obtain ⟨grown', filled', reached⟩ := hx.of_ok grown filled start first
        exact (hf a s s₁ first grown start).of_error grown' filled' reached run

theorem Fills.bind {x : Run α} {f : α → Run β} (hx : x.Fills params t base P Q)
    (hf : ∀ a, (f a).Fills params t base (Q a) R) : (x >>= f).Fills params t base P R :=
  hx.bind_of_ok fun a _ _ _ _ _ => hf a

theorem fills_ite {c : Prop} [Decidable c] {x y : Run α} (hx : c → x.Fills params t base P Q)
    (hy : ¬ c → y.Fills params t base P Q) :
    (if c then x else y).Fills params t base P Q := by
  split
  · exact hx ‹_›
  · exact hy ‹_›

theorem fills_assuming {c : Prop} {x : Run α} (h : c → x.Fills params t base P Q) :
    x.Fills params t base (fun p => c ∧ P p) Q :=
  fun s grown filled start => h start.1 s grown filled start.2

theorem fills_guard {c : Prop} [Decidable c] {fault : Fault} {path : Path} {f : β → Run α}
    {x : Run α} (hx : ¬ c → x.Fills params t base P Q) :
    (if c then fail fault path >>= f else x).Fills params t base P Q :=
  fills_ite (fun _ _ grown _ _ => ⟨grown, fun _ _ run => by cases run⟩) hx

theorem fills_from {x : Run α} (h : ∀ p, P p → x.Fills params t base (· = p) Q) :
    x.Fills params t base P Q :=
  fun s grown filled start => h s.stream.pos start s grown filled rfl

theorem Fills.tagged {x : Run α} (h : x.Fills params t base P Q) :
    x.tagged.Fills params t base P Q := by
  intro s grown filled start
  obtain ⟨grown', reached⟩ := h s grown filled start
  unfold after at grown'
  unfold after Run.tagged
  cases run : x s with
  | ok a s₁ =>
      rw [run] at grown'
      refine ⟨grown', fun b s' same => ?_⟩
      cases same
      exact reached a s₁ run
  | error failure s₁ =>
      rw [run] at grown'
      exact ⟨grown', nofun⟩

/-! ### Lookups -/

theorem fills_lookup {x : Lookup Failure α} :
    (lookup x).Fills params t base P fun _ => P := by
  refine fills_of_same keeps_lookup fun s a s' run => ?_
  unfold lookup at run
  cases found : x s.store <;> rw [found] at run <;> cases run
  exact ⟨rfl, rfl⟩

/-- While something guarded is built, the parameters stay. -/
theorem ruled_of_grows {ctx ctx' : Context} (ruled : ctx.Ruled params depth)
    (grown : ctx.Grows t ctx') (guarded : t.guarded) : ctx'.Ruled params depth :=
  ruled.of_below grown.below fun bottom name shown => grown.outermost guarded bottom name shown

theorem fills_settled (ruled : base.context.Ruled params depth) (guarded : t.guarded)
    {x : Context → Lookup Failure α} {f : α → Run β} {known : Option α}
    (settles : ∀ ctx, Context.Ruled params depth ctx → (x ctx).Settles known)
    (later : ∀ a, known = some a → (f a).Fills params t base P R) :
    ((do lookup (x (← context))) >>= f).Fills params t base P R := by
  have looked : (do lookup (x (← context)) : Run α).Fills params t base P fun _ => P :=
    fun s => fills_lookup (x := x s.context) s
  refine looked.bind_of_ok fun a s s' found grown _ => later a ?_
  obtain ⟨store, result, -⟩ := lookup_eq_ok_iff.mp found
  exact (settles s.context (ruled_of_grows ruled grown guarded)).of_ok result

/-- Where a size is taken, it is the one that is known. -/
theorem fills_yields (ruled : base.context.Ruled params depth) (guarded : t.guarded)
    {x : Context → Lookup Failure α} {f : α → Run β} {known : Option α}
    (yields : ∀ ctx, Context.Ruled params depth ctx → (x ctx).Yields known)
    (later : ∀ a, (∀ b, known = some b → a = b) → (f a).Fills params t base P R) :
    ((do lookup (x (← context))) >>= f).Fills params t base P R := by
  have looked : (do lookup (x (← context)) : Run α).Fills params t base P fun _ => P :=
    fun s => fills_lookup (x := x s.context) s
  refine looked.bind_of_ok fun a s s' found grown _ => later a fun b same => ?_
  obtain ⟨store, result, -⟩ := lookup_eq_ok_iff.mp found
  exact (yields s.context (ruled_of_grows ruled grown guarded)).eq_of_ok same result

theorem fills_ofExcept {path : Path} {x : Except Fault α} :
    (ofExcept path x).Fills params t base P fun a p => x = .ok a ∧ P p := by
  cases x with
  | ok a => exact fills_pure fun _ start => ⟨rfl, start⟩
  | error fault => exact fills_fail

/-- The failure of a run that changes nothing else may be caught. -/
theorem fills_outcome {x : Run α} (keeps : x.Keeps (Context.Grows t base.context))
    (same : ∀ s, (x.after s).stream = s.stream ∧ (x.after s).context = s.context) :
    x.outcome.Fills params t base P fun _ => P := by
  refine fills_of_same keeps.outcome fun s r s' run => ?_
  have there := same s
  unfold after at there
  unfold outcome at run
  cases first : x s <;> rw [first] at run there <;> cases run <;> exact there

/-! ### Streams -/

theorem fills_tell {f : Nat → Run β} (h : ∀ p, P p → (f p).Fills params t base (· = p) R) :
    (tell >>= f).Fills params t base P R :=
  fun s grown filled start => h s.stream.pos start s grown filled rfl

theorem write_of_growable {s : State} (growable : s.stream.Growable) (bytes : List UInt8)
    (path : Path) : write bytes path s = .ok () { s with stream := (s.stream.write bytes).2 } := by
  have fine := (Stream.extended_write growable bytes).1
  unfold write
  cases written : s.stream.write bytes with
  | mk fault stream =>
      rw [written] at fine
      obtain rfl : fault = none := fine
      rfl

theorem fills_write {bytes : List UInt8} {path : Path} {p : Nat} :
    (write bytes path).Fills params t base (· = p) fun _ => (· = p + bytes.length) := by
  refine fills_of_keeps keeps_write fun s a s' _ filled start run => ?_
  obtain ⟨-, extended, pos, -⟩ := Stream.extended_write filled.stream.growable bytes
  cases (write_of_growable filled.stream.growable bytes path).symm.trans run
  exact ⟨filled.extended extended rfl, by rw [← start]; exact pos⟩

/-! ### Frames -/

theorem fills_insert {name : String} {value : Value} (inner : base.context.below ≠ [])
    (moving : ¬ t.still) :
    (insert name value).Fills params t base P fun _ => P := by
  refine fills_of_keeps (keeps_modify fun _ grown => grown.insert moving (fun _ => Or.inl inner)
    value) fun s a s' _ filled start run => ?_
  cases run
  exact ⟨filled.same rfl rfl, start⟩

theorem fills_noteIndex {i : Nat} (moving : ¬ t.still) :
    (Codec.noteIndex i).Fills params t base P fun _ => P := by
  refine fills_of_keeps (keeps_grows_of_calm fun _ => keeps_calm_note moving)
    fun s a s' _ filled start run => ?_
  cases run
  exact ⟨filled.same rfl rfl, start⟩

/-- Patches that are left over in a frame move to the one below. -/
theorem Fills.inFrame {x : Run α} {values : Record Value}
    (h : ∀ s : State, base.context.Grows t s.context → s.stream.Growable →
      x.Fills params t.loose { s with context := s.context.push values } P Q) :
    (Run.inFrame values x).Fills params t base P fun result => Q result.1 := by
  intro s grown filled start
  have inside := h s grown filled.stream.growable { s with context := s.context.push values }
    (.refl _) (.refl filled.stream.growable) start
  unfold after at inside
  unfold after Run.inFrame
  cases run : x { s with context := s.context.push values } with
  | error failure s₁ =>
      rw [run] at inside
      exact ⟨grown.trans inside.1.pop, nofun⟩
  | ok a s₁ =>
      rw [run] at inside
      obtain ⟨framed, reached⟩ := inside
      obtain ⟨filled', there⟩ := reached a s₁ rfl
      have left : s.Filled params { s₁ with context := s₁.context.pop } := by
        refine ⟨filled'.stream, fun d mem => ?_⟩
        obtain ⟨new, queued, -, -⟩ := framed.queue
        obtain ⟨stream, ⟨⟨top, queue⟩, rest⟩, store⟩ := s₁
        obtain rfl : rest = s.context.top :: s.context.below := framed.below
        obtain rfl : queue = new := queued
        simp only [Context.pop, Context.mark, List.drop_left] at mem
        obtain ⟨d', mem', rfl⟩ := List.mem_map.mp mem
        have fits := filled'.queued d' mem'
        exact ⟨fits.within, fits.field⟩
      refine ⟨grown.trans framed.pop, fun b s' same => ?_⟩
      cases same
      exact ⟨filled.trans grown left framed.pop, there⟩

end Run

end BinaryFormat
