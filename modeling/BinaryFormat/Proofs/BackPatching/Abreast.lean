import BinaryFormat.Proofs.Deferral
import BinaryFormat.Proofs.EagerScope
import BinaryFormat.Proofs.RoundTrip.Write
import BinaryFormat.Proofs.Writing

/-!
# Runs side by side

Two runs of one component may start from states that differ in what was done before: some
bytes behind which both streams stand, entries of the frames around, and what is queued there.
If the component sees nothing of this, they come to the same, and what they write is the same.
-/

namespace BinaryFormat

/-! ## Bytes that were replaced -/

namespace Medium

variable {data : List UInt8} {offset pos : Nat} {stored bytes : List UInt8}

/-- What is written behind replaced bytes does not mind whether they are replaced before or
after it. -/
private theorem overlay_comm (behind : offset + stored.length ≤ pos) :
    overlay (overlay data offset stored) pos bytes =
      overlay (overlay data pos bytes) offset stored := by
  apply List.ext_getElem?
  intro i
  simp only [getElem?_overlay]
  by_cases first : i < offset
  · simp only [if_pos first, if_pos (show i < pos by omega)]
  · by_cases second : i < offset + stored.length
    · simp only [if_neg first, if_pos second, if_pos (show i < pos by omega)]
      rw [List.getElem?_eq_getElem (show i - offset < stored.length by omega)]
      rfl
    · simp only [if_neg first, if_neg second]

theorem overlay_again (same : bytes.length = stored.length) :
    overlay (overlay data pos bytes) pos stored = overlay data pos stored := by
  apply List.ext_getElem?
  intro i
  simp only [getElem?_overlay, same]
  by_cases first : i < pos
  · simp only [if_pos first, Option.getD_some]
  · by_cases second : i < pos + stored.length
    · simp only [if_neg first, if_pos second]
    · simp only [if_neg first, if_neg second]

private theorem drop_overlay_of_le (behind : offset + stored.length ≤ pos) :
    (overlay data offset stored).drop pos = data.drop pos := by
  apply List.ext_getElem?
  intro i
  rw [List.getElem?_drop, List.getElem?_drop, getElem?_overlay, if_neg (by omega),
    if_neg (by omega)]

theorem overlay_followed (inside : offset + stored.length ≤ data.length) (tail : List UInt8) :
    overlay data offset stored ++ tail = overlay (data ++ tail) offset stored := by
  apply List.ext_getElem?
  intro i
  have same : (overlay data offset stored).length = data.length := by
    rw [length_overlay, Nat.max_eq_left inside]
  by_cases before : i < data.length
  · rw [List.getElem?_append_left (by omega), getElem?_overlay, getElem?_overlay,
      List.getElem?_append_left before]
  · rw [List.getElem?_append_right (by omega), same, getElem?_overlay, if_neg (by omega),
      if_neg (by omega), List.getElem?_append_right (by omega)]

theorem overlay_within (inside : offset + stored.length ≤ bytes.length) :
    overlay data pos (overlay bytes offset stored) =
      overlay (overlay data pos bytes) (offset + pos) stored := by
  apply List.ext_getElem?
  intro i
  have same : (overlay bytes offset stored).length = bytes.length := by
    rw [length_overlay, Nat.max_eq_left inside]
  simp only [getElem?_overlay, same]
  by_cases first : i < pos
  · simp only [if_pos first, if_pos (show i < offset + pos by omega), Option.getD_some]
  · by_cases second : i < pos + bytes.length
    · simp only [if_neg first, if_pos second]
      by_cases third : i < offset + pos
      · rw [if_pos third, if_pos (show i - pos < offset by omega),
          List.getElem?_eq_getElem (show i - pos < bytes.length by omega), Option.getD_some]
      · simp only [if_neg third, if_neg (show ¬ i - pos < offset by omega)]
        by_cases fourth : i < offset + pos + stored.length
        · simp only [if_pos fourth, if_pos (show i - pos < offset + stored.length by omega)]
          congr 1
          omega
        · simp only [if_neg fourth, if_neg (show ¬ i - pos < offset + stored.length by omega)]
    · simp only [if_neg first, if_neg second, if_neg (show ¬ i < offset + pos by omega),
        if_neg (show ¬ i < offset + pos + stored.length by omega)]

theorem length_overlay_of_le (inside : offset + stored.length ≤ data.length) :
    (overlay data offset stored).length = data.length := by
  rw [length_overlay, Nat.max_eq_left inside]

end Medium

/-- The second stream is the first one with these bytes in the place of others, and both stand
behind them. -/
def Stream.Replaced (offset : Nat) (stored : List UInt8) (s t : Stream) : Prop :=
  ∃ data pos, offset + stored.length ≤ pos ∧ offset + stored.length ≤ data.length ∧
    s = .growing data pos ∧ t = .growing (Medium.overlay data offset stored) pos

namespace Stream

variable {offset : Nat} {stored : List UInt8} {s t : Stream}

theorem replaced_self (data : List UInt8) (pos : Nat) :
    Replaced 0 [] (growing data pos) (growing data pos) :=
  ⟨data, pos, Nat.zero_le _, Nat.zero_le _, rfl, by simp [Medium.overlay]⟩

theorem eq_of_replaced_nil (h : Replaced 0 [] s t) : s = t ∧ ∃ data pos, s = growing data pos := by
  obtain ⟨data, pos, -, -, rfl, rfl⟩ := h
  simp [Medium.overlay]

private theorem Replaced.pos (h : Replaced offset stored s t) :
    s.pos = t.pos ∧ offset + stored.length ≤ s.pos := by
  obtain ⟨data, pos, behind, -, rfl, rfl⟩ := h
  exact ⟨rfl, behind⟩

private theorem Replaced.setPos (h : Replaced offset stored s t) {pos : Nat}
    (behind : offset + stored.length ≤ pos) :
    Replaced offset stored (s.setPos pos) (t.setPos pos) := by
  obtain ⟨data, _, -, inside, rfl, rfl⟩ := h
  exact ⟨data, pos, behind, inside, rfl, rfl⟩

private theorem Replaced.write (h : Replaced offset stored s t) (bytes : List UInt8) :
    (s.write bytes).1 = none ∧ (t.write bytes).1 = none ∧
      Replaced offset stored (s.write bytes).2 (t.write bytes).2 := by
  obtain ⟨data, pos, behind, inside, rfl, rfl⟩ := h
  refine ⟨rfl, rfl, Medium.overlay data pos bytes, pos + bytes.length, by omega, ?_, rfl, ?_⟩
  · rw [Medium.length_overlay]
    omega
  · rw [← Medium.overlay_comm behind]
    rfl

private theorem Replaced.read (h : Replaced offset stored s t) (limit : Option Nat) :
    (s.read limit).1 = (t.read limit).1 ∧
      Replaced offset stored (s.read limit).2 (t.read limit).2 := by
  obtain ⟨data, pos, behind, inside, rfl, rfl⟩ := h
  have rest : (⟨.growing, Medium.overlay data offset stored, pos⟩ : Medium).rest =
      (⟨.growing, data, pos⟩ : Medium).rest := by
    simp [Medium.rest, Medium.base, Medium.drop_overlay_of_le behind]
  simp only [growing, Stream.read, Medium.read, rest]
  exact ⟨trivial, data, _, by omega, inside, rfl, rfl⟩

end Stream

/-! ## States side by side -/

/-- The streams differ in replaced bytes alone, and the contexts in what is allowed. -/
structure State.Abreast (offset : Nat) (stored : List UInt8) (C : Context → Context → Prop)
    (s t : State) : Prop where
  stream : s.stream.Replaced offset stored t.stream
  context : C s.context t.context
  store : s.store = t.store

namespace Run

variable {α β : Type} {good : α → Prop} {good' : β → Prop} {P : State → State → Prop}
  {x y : Run α} {offset : Nat} {stored : List UInt8} {C : Context → Context → Prop}

/-- From states that are related both runs come to the same good result, or to the same failure,
and leave states that are related. -/
def InStep (good : α → Prop) (P : State → State → Prop) (x y : Run α) : Prop :=
  ∀ s t, P s t →
    (∃ a s' t', x s = .ok a s' ∧ y t = .ok a t' ∧ good a ∧ P s' t') ∨
    ∃ failure s' t', x s = .error failure s' ∧ y t = .error failure t' ∧ P s' t'

theorem InStep.of_ok (h : InStep good P x y) {s t s' : State} {a : α} (related : P s t)
    (run : x s = .ok a s') : ∃ t', y t = .ok a t' ∧ good a ∧ P s' t' := by
  rcases h s t related with ⟨b, s₁, t₁, first, second, fine, later⟩ | ⟨_, _, _, first, -, -⟩
  · rw [first] at run
    cases run
    exact ⟨t₁, second, fine, later⟩
  · rw [first] at run
    cases run

theorem InStep.alone (h : InStep good P x x) {s s' : State} {a : α} (related : P s s)
    (run : x s = .ok a s') : good a ∧ P s' s' := by
  obtain ⟨t', again, fine, later⟩ := h.of_ok related run
  rw [run] at again
  cases again
  exact ⟨fine, later⟩

theorem inStep_pure {a : α} (fine : good a) : InStep good P (pure a) (pure a) :=
  fun s t related => .inl ⟨a, s, t, rfl, rfl, fine, related⟩

theorem inStep_throw (failure : Failure) :
    InStep good P (throw failure : Run α) (throw failure) :=
  fun s t related => .inr ⟨failure, s, t, rfl, rfl, related⟩

theorem inStep_fail (fault : Fault) (path : Path) :
    InStep good P (fail fault path : Run α) (fail fault path) := inStep_throw _

private theorem inStep_ofExcept (path : Path) {result : Except Fault α}
    (fine : ∀ a, result = .ok a → good a) :
    InStep good P (ofExcept path result) (ofExcept path result) := by
  cases result with
  | ok a => exact inStep_pure (fine a rfl)
  | error fault => exact inStep_fail fault path

theorem InStep.bind {f g : α → Run β} (h : InStep good P x y)
    (next : ∀ a, good a → InStep good' P (f a) (g a)) : InStep good' P (x >>= f) (y >>= g) := by
  intro s t related
  rcases h s t related with ⟨a, s', t', first, second, fine, later⟩ |
    ⟨failure, s', t', first, second, later⟩
  · rw [bind_of_ok first, bind_of_ok second]
    exact next a fine s' t' later
  · rw [bind_of_error first, bind_of_error second]
    exact .inr ⟨failure, s', t', rfl, rfl, later⟩

theorem inStep_ite {c : Prop} [Decidable c] {x' y' : Run α} (h : c → InStep good P x y)
    (h' : ¬ c → InStep good P x' y') :
    InStep good P (if c then x else x') (if c then y else y') := by
  by_cases hc : c
  · rw [if_pos hc, if_pos hc]
    exact h hc
  · rw [if_neg hc, if_neg hc]
    exact h' hc

theorem inStep_throw_bind (failure : Failure) (f g : α → Run β) :
    InStep good' P ((throw failure : Run α) >>= f) ((throw failure : Run α) >>= g) :=
  fun s t related => .inr ⟨failure, s, t, rfl, rfl, related⟩

theorem inStep_check (path : Path) (result : Except Fault α) :
    InStep (fun _ => True) P (ofExcept path result) (ofExcept path result) :=
  inStep_ofExcept path fun _ _ => trivial

theorem inStep_guard {c : Prop} [Decidable c] {fault : Fault} {path : Path}
    (h : ¬ c → InStep good P x y) :
    InStep good P
      (do
        if c then Run.fail fault path
        x : Run α)
      (do
        if c then Run.fail fault path
        y : Run α) := by
  by_cases hc : c
  · simp only [if_pos hc]
    exact inStep_throw_bind _ _ _
  · simp only [if_neg hc]
    exact h hc

theorem InStep.outcome (h : InStep good P x y) :
    InStep (fun result => ∀ a, result = .ok a → good a) P (outcome x) (outcome y) := by
  intro s t related
  rcases h s t related with ⟨a, s', t', first, second, fine, later⟩ |
    ⟨failure, s', t', first, second, later⟩
  · refine .inl ⟨_, s', t', outcome_of_ok first, outcome_of_ok second, ?_, later⟩
    rintro _ ⟨⟩
    exact fine
  · exact .inl ⟨_, s', t', outcome_of_error first, outcome_of_error second, nofun, later⟩

theorem inStep_lookup {z : Lookup Failure α}
    (fine : ∀ store a store', z store = .ok a store' → good a) :
    InStep good (State.Abreast offset stored C) (lookup z) (lookup z) := by
  rintro ⟨stream, ctx, store⟩ ⟨stream', ctx', _⟩ ⟨streams, contexts, rfl⟩
  cases found : z store with
  | ok a store' =>
      exact .inl ⟨a, ⟨stream, ctx, store'⟩, ⟨stream', ctx', store'⟩, lookup_of_ok found,
        lookup_of_ok found, fine _ _ _ found, streams, contexts, rfl⟩
  | error failure store' =>
      exact .inr ⟨failure, ⟨stream, ctx, store'⟩, ⟨stream', ctx', store'⟩, lookup_of_error found,
        lookup_of_error found, streams, contexts, rfl⟩

theorem inStep_dump (v : Value) :
    InStep (fun _ => True) (State.Abreast offset stored C) (dump v) (dump v) :=
  inStep_lookup fun _ _ _ _ => trivial

theorem inStep_lookupIn {z : Context → Lookup Failure α}
    (same : ∀ ctx ctx', C ctx ctx' → z ctx = z ctx')
    (fine : ∀ ctx store a store', z ctx store = .ok a store' → good a) :
    InStep good (State.Abreast offset stored C) (fun s => lookup (z s.context) s)
      (fun s => lookup (z s.context) s) := by
  rintro s t related
  dsimp only
  rw [← same _ _ related.context]
  exact inStep_lookup (fine s.context) s t related

/-! ## The stream -/

theorem inStep_tell : InStep (fun pos => offset + stored.length ≤ pos)
    (State.Abreast offset stored C) tell tell := by
  intro s t related
  obtain ⟨same, behind⟩ := related.stream.pos
  refine .inl ⟨s.stream.pos, s, t, rfl, ?_, behind, related⟩
  rw [same]
  rfl

theorem inStep_goTo {pos : Nat} (behind : offset + stored.length ≤ pos) :
    InStep (fun _ => True) (State.Abreast offset stored C) (goTo pos) (goTo pos) :=
  fun _ _ related => .inl ⟨(), _, _, rfl, rfl, trivial, related.stream.setPos behind,
    related.context, related.store⟩

theorem inStep_read (count : Nat) (path : Path) :
    InStep (fun _ => True) (State.Abreast offset stored C) (read count path)
      (read count path) := by
  intro s t related
  obtain ⟨same, later⟩ := related.stream.read (some count)
  unfold read
  dsimp only
  rw [← same]
  split
  · exact .inl ⟨_, _, _, rfl, rfl, trivial, later, related.context, related.store⟩
  · exact .inr ⟨_, _, _, rfl, rfl, later, related.context, related.store⟩

theorem inStep_write (bytes : List UInt8) (path : Path) :
    InStep (fun _ => True) (State.Abreast offset stored C) (write bytes path)
      (write bytes path) := by
  intro s t related
  obtain ⟨first, second, later⟩ := related.stream.write bytes
  refine .inl ⟨(), ⟨(s.stream.write bytes).2, s.context, s.store⟩,
    ⟨(t.stream.write bytes).2, t.context, t.store⟩, ?_, ?_, trivial, later, related.context,
    related.store⟩
  · simp only [write, first]
  · simp only [write, second]

theorem InStep.tagged (h : InStep good (State.Abreast offset stored C) x y) :
    InStep good (State.Abreast offset stored C) (tagged x) (tagged y) := by
  intro s t related
  rcases h s t related with ⟨a, s', t', first, second, fine, later⟩ |
    ⟨failure, s', t', first, second, later⟩
  · exact .inl ⟨a, s', t', tagged_of_ok first, tagged_of_ok second, fine, later⟩
  · refine .inr ⟨_, s', t', tagged_of_error first, ?_, later⟩
    rw [tagged_of_error second, related.stream.pos.1]

theorem InStep.onStream (h : InStep good (State.Abreast 0 [] C) x y) (data : List UInt8) :
    InStep (fun result => good result.1) (State.Abreast offset stored C)
      (onStream (.memory data) x) (onStream (.memory data) y) := by
  rintro ⟨stream, ctx, store⟩ ⟨stream', ctx', _⟩ ⟨streams, contexts, rfl⟩
  have inner : State.Abreast 0 [] C ⟨.memory data, ctx, store⟩ ⟨.memory data, ctx', store⟩ :=
    ⟨Stream.replaced_self data 0, contexts, rfl⟩
  unfold Run.onStream
  dsimp only
  rcases h _ _ inner with ⟨a, s', t', first, second, fine, later⟩ |
    ⟨failure, s', t', first, second, later⟩
  · obtain ⟨same, -⟩ := Stream.eq_of_replaced_nil later.stream
    rw [first, second]
    dsimp only
    rw [same]
    exact .inl ⟨_, _, _, rfl, rfl, fine, streams, later.context, later.store⟩
  · rw [first, second]
    exact .inr ⟨_, _, _, rfl, rfl, streams, later.context, later.store⟩

end Run

/-! ## Contexts side by side -/

namespace Context

/-- These contexts and no others. -/
def These (ctx ctx' : Context) : Context → Context → Prop :=
  fun now now' => now = ctx ∧ now' = ctx'

/-- Related frames with these queues, on top of these others. -/
def Entered (F : Record Value → Record Value → Prop) (queue queue' : List Deferred)
    (below below' : List Frame) : Context → Context → Prop :=
  fun now now' => ∃ frame frame', F frame frame' ∧ now = ⟨⟨frame, queue⟩, below⟩ ∧
    now' = ⟨⟨frame', queue'⟩, below'⟩

/-- The same frame, without lazy parts. -/
def Same (frame frame' : Record Value) : Prop := frame' = frame ∧ Value.EagerFields frame

/-- Frames stay related when the same is noted in both. -/
def Notes (F : Record Value → Record Value → Prop) : Prop :=
  ∀ frame frame' name v, F frame frame' → v.Eager →
    F (Record.insert frame name v) (Record.insert frame' name v)

theorem notes_same : Notes Same := by
  rintro frame _ name v ⟨rfl, clear⟩ eager
  exact ⟨rfl, clear.insert name eager⟩

private theorem discardSince_mark (ctx : Context) : ctx.discardSince ctx.mark = ctx := by
  simp [discardSince, mark, withDeferred]

end Context

namespace Run

variable {α β : Type} {good : α → Prop} {good' : β → Prop} {x y : Run α} {offset : Nat}
  {stored : List UInt8} {ctx ctx' : Context}

theorem inStep_mark {f g : Nat → Run β}
    (h : InStep good' (State.Abreast offset stored (Context.These ctx ctx')) (f ctx.mark)
      (g ctx'.mark)) :
    InStep good' (State.Abreast offset stored (Context.These ctx ctx')) (mark >>= f)
      (mark >>= g) := by
  rintro ⟨stream, _, store⟩ ⟨stream', _, store'⟩ ⟨streams, ⟨rfl, rfl⟩, stores⟩
  exact h _ _ ⟨streams, ⟨rfl, rfl⟩, stores⟩

theorem inStep_discard :
    InStep (fun _ => True) (State.Abreast offset stored (Context.These ctx ctx'))
      (modifyContext (·.discardSince ctx.mark)) (modifyContext (·.discardSince ctx'.mark)) := by
  rintro ⟨stream, _, store⟩ ⟨stream', _, store'⟩ ⟨streams, ⟨rfl, rfl⟩, stores⟩
  refine .inl ⟨(), _, _, rfl, rfl, trivial, streams, ⟨?_, ?_⟩, stores⟩ <;>
    exact Context.discardSince_mark _

theorem inStep_splice (data : List UInt8) (path : Path) :
    InStep (fun _ => True) (State.Abreast offset stored (Context.These ctx ctx'))
      (splice data ctx.mark path) (splice data ctx'.mark path) := by
  refine inStep_tell.bind fun base _ => (inStep_write data path).bind fun _ _ => ?_
  rintro ⟨stream, _, store⟩ ⟨stream', _, store'⟩ ⟨streams, ⟨rfl, rfl⟩, stores⟩
  refine .inl ⟨(), _, _, rfl, rfl, trivial, streams, ⟨?_, ?_⟩, stores⟩ <;>
    exact Context.rebaseSince_mark _ _

/-- A frame in which nothing is queued leaves no trace. -/
theorem InStep.inFrame {values : Record Value} (eager : Value.EagerFields values)
    (h : InStep good (State.Abreast offset stored (Context.Entered Context.Same [] []
      (ctx.top :: ctx.below) (ctx'.top :: ctx'.below))) x y) :
    InStep (fun result => good result.1 ∧ Value.EagerFields result.2)
      (State.Abreast offset stored (Context.These ctx ctx')) (inFrame values x)
      (inFrame values y) := by
  rintro ⟨stream, now, store⟩ ⟨stream', now', store'⟩ ⟨streams, ⟨rfl, rfl⟩, stores⟩
  have inner : State.Abreast offset stored (Context.Entered Context.Same [] []
      (now.top :: now.below) (now'.top :: now'.below))
      ⟨stream, now.push values, store⟩ ⟨stream', now'.push values, store'⟩ :=
    ⟨streams, ⟨values, values, ⟨rfl, eager⟩, rfl, rfl⟩, stores⟩
  unfold Run.inFrame
  dsimp only
  rcases h _ _ inner with ⟨a, ⟨s₁, _, store₁⟩, ⟨t₁, _, store₂⟩, first, second, fine, later⟩ |
    ⟨failure, ⟨s₁, _, store₁⟩, ⟨t₁, _, store₂⟩, first, second, later⟩
  · obtain ⟨streams', ⟨frame, _, ⟨rfl, clear⟩, rfl, rfl⟩, stores'⟩ := later
    rw [first, second]
    refine .inl ⟨_, _, _, rfl, rfl, ⟨fine, clear⟩, streams', ⟨?_, ?_⟩, stores'⟩ <;>
      exact Context.pop_push _ _
  · obtain ⟨streams', ⟨frame, _, ⟨rfl, clear⟩, rfl, rfl⟩, stores'⟩ := later
    rw [first, second]
    refine .inr ⟨_, _, _, rfl, rfl, streams', ⟨?_, ?_⟩, stores'⟩ <;>
      exact Context.pop_push _ _

section

variable {F : Record Value → Record Value → Prop} {queue queue' : List Deferred}
  {below below' : List Frame}

/-- What does not touch the frames around it can be done over any of them. -/
theorem inStep_entered
    (h : ∀ frame frame', F frame frame' → InStep good (State.Abreast offset stored
      (Context.These ⟨⟨frame, queue⟩, below⟩ ⟨⟨frame', queue'⟩, below'⟩)) x y) :
    InStep good (State.Abreast offset stored (Context.Entered F queue queue' below below')) x
      y := by
  rintro s t ⟨streams, ⟨frame, frame', related, here, there⟩, stores⟩
  have entered {s' t' : State} (later : State.Abreast offset stored
      (Context.These ⟨⟨frame, queue⟩, below⟩ ⟨⟨frame', queue'⟩, below'⟩) s' t') :
      State.Abreast offset stored (Context.Entered F queue queue' below below') s' t' :=
    ⟨later.stream, ⟨frame, frame', related, later.context⟩, later.store⟩
  exact (h frame frame' related s t ⟨streams, ⟨here, there⟩, stores⟩).imp
    (fun ⟨a, s', t', first, second, fine, later⟩ => ⟨a, s', t', first, second, fine, entered later⟩)
    fun ⟨failure, s', t', first, second, later⟩ => ⟨failure, s', t', first, second, entered later⟩

theorem inStep_insert (notes : Context.Notes F) (name : String) {v : Value} (eager : v.Eager) :
    InStep (fun _ => True)
      (State.Abreast offset stored (Context.Entered F queue queue' below below')) (insert name v)
      (insert name v) := by
  rintro ⟨stream, _, store⟩ ⟨stream', _, store'⟩
    ⟨streams, ⟨frame, frame', related, rfl, rfl⟩, stores⟩
  exact .inl ⟨(), _, _, rfl, rfl, trivial, streams, ⟨Record.insert frame name v,
    Record.insert frame' name v, notes _ _ name v related eager, rfl, rfl⟩, stores⟩

theorem inStep_resolvePending (e : Engine) :
    InStep (fun _ => True) (State.Abreast offset stored (Context.Entered F [] [] below below'))
      e.resolvePending e.resolvePending := by
  rintro s t related
  obtain ⟨frame, frame', -, here, there⟩ := related.context
  exact .inl ⟨(), s, t, e.resolvePending_of_empty (by rw [here]),
    e.resolvePending_of_empty (by rw [there]), trivial, related⟩

end

end Run

end BinaryFormat
