import BinaryFormat.Codec.Envelope
import BinaryFormat.Proofs.Twins

/-!
# Fair runs

A fair run does the same from paired states: it comes to the same result or to the
same failure, and leaves states that are paired again.  The steps that runs are made
of are fair, and so is what is put together from fair runs.
-/

namespace BinaryFormat

/-- From paired stores two lookups come to the same. -/
def Lookup.Alike {ε α : Type} (admitted : String → Prop) (x y : Lookup ε α) : Prop :=
  Twins (PairedStores admitted) Eq x y

/-- What two expressions can see; the element at hand and the list so far are the same. -/
structure PairedScopes (loose : Bool) (depth : Nat) (scope scope' : Scope) : Prop where
  frames : PairedFrames loose depth scope.frames scope'.frames
  object : scope.object = scope'.object
  list : scope.list = scope'.list

theorem PairedContexts.scopes {loose : Bool} {depth : Nat} {ctx ctx' : Context}
    (h : PairedContexts loose depth ctx ctx') : PairedScopes loose depth ctx.scope ctx'.scope :=
  ⟨h, rfl, rfl⟩

/-! ## What is left to read -/

namespace Stream

theorem length_left_le (s : Stream) : s.left.length ≤ s.available := by
  induction s with
  | medium m => exact Nat.le_refl _
  | view v outer ih =>
      have further := v.length_further_le outer.left
      have chunks : (v.recoding.contents (v.further outer.left)).length ≤ 8 * outer.available := by
        rw [Recoding.length_contents]
        have shorter := Nat.div_le_self (v.further outer.left).length v.recoding.outer
        have wide : v.recoding.inner ≤ 8 := by
          unfold Recoding.inner
          cases v.recoding.granularity <;> decide
        calc (v.further outer.left).length / v.recoding.outer * v.recoding.inner
            ≤ (v.further outer.left).length / v.recoding.outer * 8 := Nat.mul_le_mul_left _ wide
          _ ≤ 8 * outer.available := by omega
      rw [left, available, List.length_drop, View.whole, List.length_append]
      omega

end Stream

namespace Run

variable {admitted : String → Prop} {loose : Bool} {w : Pairing admitted loose} {α β : Type}

theorem length_left_of_read {n : Nat} {path : Path} {s s' : State} {data : List UInt8}
    (h : Run.read n path s = .ok data s') :
    s'.stream.left.length + n = s.stream.left.length := by
  obtain ⟨units, ahead⟩ := s.stream.honest (some n)
  unfold Run.read at h
  dsimp only at h
  split at h
  · rename_i full
    cases h
    have enough := ahead.enough
    dsimp only
    rw [ahead.left_eq, List.length_drop]
    omega
  · cases h

/-! ## Fair runs -/

/-- A run that comes to the same from paired states. -/
def Fair (w : Pairing admitted loose) (x : Run α) : Prop := Twins w.States Eq x x

theorem fair_pure (a : α) : (pure a : Run α).Fair w := twins_pure rfl

theorem fair_throw (failure : Failure) : (throw failure : Run α).Fair w := twins_throw failure

theorem fair_fail (fault : Fault) (path : Path) : (fail fault path : Run α).Fair w :=
  fair_throw _

theorem fair_ofExcept (path : Path) (result : Except Fault α) : (ofExcept path result).Fair w := by
  cases result with
  | ok a => exact fair_pure a
  | error fault => exact fair_fail fault path

theorem fair_settle (result : Except Failure α) : (settle result).Fair w := by
  cases result with
  | ok a => exact fair_pure a
  | error failure => exact fair_throw failure

theorem Fair.bind {x : Run α} {f : α → Run β} (h : x.Fair w) (next : ∀ a, (f a).Fair w) :
    (x >>= f).Fair w := Twins.both h next

theorem fair_ite {c : Prop} [Decidable c] {x y : Run α} (h : x.Fair w) (h' : y.Fair w) :
    (if c then x else y).Fair w := twins_ite h h'

theorem twins_guard {A : α → β → Prop} {c : Prop} [Decidable c] {fault : Fault} {path : Path}
    {x : Run α} {y : Run β} (h : Twins w.States A x y) :
    Twins w.States A
      (do
        if c then Run.fail fault path
        x)
      (do
        if c then Run.fail fault path
        y) :=
  twins_ite (Twins.both (fair_fail fault path) fun _ => h) h

theorem fair_guard {c : Prop} [Decidable c] {fault : Fault} {path : Path} {x : Run α}
    (h : x.Fair w) :
    (do
      if c then Run.fail fault path
      x : Run α).Fair w := twins_guard h

theorem Fair.outcome {x : Run α} (h : x.Fair w) : (outcome x).Fair w := by
  intro s t states
  have outcomes := h s t states
  unfold Run.outcome
  generalize x s = r at outcomes
  generalize x t = r' at outcomes
  cases outcomes with
  | ok related states => exact .ok (congrArg Except.ok related) states
  | error e states => exact .ok rfl states

/-! ### Lookups and the context -/

theorem twins_lookup {A : α → β → Prop} {x : Lookup Failure α} {y : Lookup Failure β}
    (h : Twins (PairedStores admitted) A x y) : Twins w.States A (lookup x) (lookup y) := by
  intro s t states
  have outcomes := h s.store t.store states.store
  unfold lookup
  generalize x s.store = r at outcomes
  generalize y t.store = r' at outcomes
  cases outcomes with
  | ok related stores => exact .ok related ⟨states.stream, states.context, stores⟩
  | error e stores => exact .error e ⟨states.stream, states.context, stores⟩

theorem fair_dump (v : Value) : (dump v).Fair w := by
  refine twins_lookup (A := Eq) fun store store' stores => ?_
  simp only [Lookup.dump, stores.resolved]
  exact .ok rfl stores

theorem twins_scope : Twins w.States (PairedScopes loose w.depth) scope scope :=
  fun _ _ states => .ok ⟨states.context, rfl, rfl⟩ states

theorem twins_context : Twins w.States (PairedContexts loose w.depth) context context :=
  fun _ _ states => .ok states.context states

theorem fair_insert (name : String) (v : Value) : (insert name v).Fair w := fun _ _ states =>
  .ok rfl ⟨states.stream, states.context.insert name v, states.store⟩

theorem twins_inFrame {A : α → β → Prop} {x : Run α} {y : Run β}
    (h : Twins w.pushed.States A x y) (values : Record Value) :
    Twins w.States (fun a b => A a.1 b.1 ∧ a.2 = b.2) (inFrame values x) (inFrame values y) := by
  intro s t states
  have outcomes := h { s with context := s.context.push values }
    { t with context := t.context.push values }
    ⟨states.stream, states.context.push values, states.store⟩
  unfold Run.inFrame
  generalize x { s with context := s.context.push values } = r at outcomes
  generalize y { t with context := t.context.push values } = r' at outcomes
  cases outcomes with
  | ok related states =>
      exact .ok ⟨related, states.context.innermost⟩
        ⟨states.stream, states.context.pop, states.store⟩
  | error e states => exact .error e ⟨states.stream, states.context.pop, states.store⟩

theorem Fair.inFrame {x : Run α} (h : x.Fair w.pushed) (values : Record Value) :
    (inFrame values x).Fair w :=
  (twins_inFrame h values).imp fun _ _ same => Prod.ext same.1 same.2

/-! ### The stream -/

theorem fair_tell : tell.Fair w := fun _ _ states =>
  .ok (w.faithful.pos states.stream) states

theorem fair_read (n : Nat) (path : Path) : (Run.read n path).Fair w := by
  intro s t states
  have units := w.faithful.units states.stream (some n)
  have later : w.States { s with stream := (s.stream.read (some n)).2 }
      { t with stream := (t.stream.read (some n)).2 } :=
    ⟨w.faithful.read states.stream _, states.context, states.store⟩
  unfold Run.read
  dsimp only
  rw [units]
  split
  · exact .ok rfl later
  · exact .error _ later

theorem fair_readAll : readAll.Fair w := fun _ _ states =>
  .ok (w.faithful.units states.stream none)
    ⟨w.faithful.read states.stream none, states.context, states.store⟩

theorem fair_seek (dest : SeekTo) (path : Path) : (seek dest path).Fair w := by
  intro s t states
  obtain ⟨answer, moved⟩ := w.faithful.seek states.stream dest
  have later : w.States { s with stream := (s.stream.seek dest).2 }
      { t with stream := (t.stream.seek dest).2 } := ⟨moved, states.context, states.store⟩
  unfold Run.seek
  dsimp only
  rw [answer]
  split
  · exact .ok rfl later
  · exact .error _ later

theorem fair_goTo (pos : Nat) : (goTo pos).Fair w := fun _ _ states =>
  .ok rfl ⟨w.faithful.setPos states.stream pos, states.context, states.store⟩

theorem fair_size : size.Fair w := fun _ _ states =>
  .ok (w.faithful.size states.stream).1
    ⟨(w.faithful.size states.stream).2, states.context, states.store⟩

theorem Fair.tagged {x : Run α} (h : x.Fair w) : (tagged x).Fair w := by
  intro s t states
  have outcomes := h s t states
  unfold Run.tagged
  rw [w.faithful.pos states.stream]
  generalize x s = r at outcomes
  generalize x t = r' at outcomes
  cases outcomes with
  | ok related states => exact .ok related states
  | error e states => exact .error _ states

theorem Fair.onStream {x : Run α} (h : x.Fair w.alone) (stream : Stream) :
    (onStream stream x).Fair w := by
  intro s t states
  have outcomes := h { s with stream := stream } { t with stream := stream }
    ⟨rfl, states.context, states.store⟩
  unfold Run.onStream
  generalize x { s with stream := stream } = r at outcomes
  generalize x { t with stream := stream } = r' at outcomes
  cases outcomes with
  | @ok a b s' t' related inside =>
      have same : s'.stream = t'.stream := inside.stream
      exact .ok (by rw [related, same]) ⟨states.stream, inside.context, inside.store⟩
  | error e inside => exact .error e ⟨states.stream, inside.context, inside.store⟩

theorem Fair.inView {x : Run α} (h : x.Fair w.viewed) (recoding : Recoding) (path : Path) :
    (Codec.inView recoding path x).Fair w := by
  intro s t states
  have outcomes := h { s with stream := s.stream.viewed recoding }
    { t with stream := t.stream.viewed recoding }
    ⟨Stream.viewed_viewed states.stream recoding, states.context, states.store⟩
  have start := w.faithful.pos states.stream
  unfold Codec.inView
  dsimp only
  generalize x { s with stream := s.stream.viewed recoding } = r at outcomes
  generalize x { t with stream := t.stream.viewed recoding } = r' at outcomes
  cases outcomes with
  | @ok a b s' t' related inside =>
      obtain ⟨answer, outside⟩ := Stream.Viewed.finish w.faithful inside.stream
      dsimp only
      generalize s'.stream.finish = left at answer outside
      generalize t'.stream.finish = left' at answer outside
      obtain ⟨fault, outer⟩ := left
      obtain ⟨fault', outer'⟩ := left'
      obtain rfl : fault = fault' := answer
      cases fault with
      | none => exact .ok related ⟨outside, inside.context, inside.store⟩
      | some fault =>
          dsimp only
          rw [start]
          exact .error _ ⟨w.faithful.setPos outside _, inside.context, inside.store⟩
  | error e inside =>
      dsimp only
      rw [start]
      exact .error e ⟨w.faithful.setPos (Stream.Viewed.abandon inside.stream) _,
        inside.context, inside.store⟩

/-! ### Loops -/

/-- A loop that is bounded by what is available, of which it cannot use more than what is
left. -/
theorem fair_available {f : Nat → Run α}
    (enough : ∀ n m s, s.stream.left.length < n → s.stream.left.length < m → f n s = f m s)
    (fair : ∀ n, (f n).Fair w) : (available >>= fun n => f (n + 1)).Fair w := by
  intro s t states
  have left := w.faithful.left states.stream
  have here := s.stream.length_left_le
  have there := t.stream.length_left_le
  show Outcomes w.States Eq (f (s.stream.available + 1) s) (f (t.stream.available + 1) t)
  rw [enough _ (s.stream.left.length + 1) s (by omega) (by omega),
    enough _ (s.stream.left.length + 1) t (by omega) (by rw [← left]; omega)]
  exact fair _ s t states

end Run

end BinaryFormat
