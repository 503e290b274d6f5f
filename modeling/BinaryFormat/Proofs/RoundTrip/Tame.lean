import BinaryFormat.Proofs.RoundTrip.Parse

/-!
# Parsing any bytes with a plain format

On bytes that no value was written to, parsing with a plain format may fail,
but it never reads past the end or fails explicitly, and it changes nothing but
the position and private entries.  A greedy range meets such bytes behind its
last element.
-/

namespace BinaryFormat

namespace Medium

theorem length_rest_skip {m : Medium} {count : Nat} (h : count ≤ m.rest.length) :
    (m.skip count).rest.length + count = m.rest.length := by
  have cut : m.rest = m.rest.take count ++ m.rest.drop count :=
    (List.take_append_drop count m.rest).symm
  have taken : (m.rest.take count).length = count := by simp [h]
  have later := rest_skip cut
  rw [taken] at later
  rw [later, List.length_drop]
  omega

end Medium

namespace Run

variable {α β : Type}

/-- The run takes no more than there is, and neither fails explicitly nor changes the bytes
or the store.  `accept` is said of its result, `refuse` of the context that a failure
leaves. -/
def Tame (x : Run α) (m : Medium) (ctx : Context) (store : LazyStore)
    (accept : α → Context → Prop) (refuse : Context → Prop) : Prop :=
  match x ⟨.medium m, ctx, store⟩ with
  | .ok a s => ∃ count ctx', s = ⟨.medium (m.skip count), ctx', store⟩ ∧
      count ≤ m.rest.length ∧ accept a ctx'
  | .error failure s => failure.fault.isExplicit = false ∧
      ∃ pos ctx', s = ⟨.medium { m with pos := pos }, ctx', store⟩ ∧ refuse ctx'

variable {m : Medium} {ctx : Context} {store : LazyStore} {accept : α → Context → Prop}
  {refuse : Context → Prop} {path : Path}

theorem tame_of_ok {x : Run α} {a : α}
    (h : x ⟨.medium m, ctx, store⟩ = .ok a ⟨.medium m, ctx, store⟩) (ha : accept a ctx) :
    x.Tame m ctx store accept refuse := by
  rw [Tame, h]
  exact ⟨0, ctx, rfl, Nat.zero_le _, ha⟩

theorem tame_of_error {x : Run α} {failure : Failure}
    (h : x ⟨.medium m, ctx, store⟩ = .error failure ⟨.medium m, ctx, store⟩)
    (implicit : failure.fault.isExplicit = false) (hr : refuse ctx) :
    x.Tame m ctx store accept refuse := by
  rw [Tame, h]
  exact ⟨implicit, m.pos, ctx, rfl, hr⟩

theorem tame_pure {a : α} (ha : accept a ctx) :
    (pure a : Run α).Tame m ctx store accept refuse :=
  tame_of_ok rfl ha

theorem tame_fail {fault : Fault} (implicit : fault.isExplicit = false) (hr : refuse ctx) :
    (fail fault path : Run α).Tame m ctx store accept refuse :=
  tame_of_error rfl implicit hr

theorem tame_ite {c : Prop} [Decidable c] {x y : Run α}
    (yes : c → x.Tame m ctx store accept refuse)
    (no : ¬ c → y.Tame m ctx store accept refuse) :
    (if c then x else y).Tame m ctx store accept refuse := by
  by_cases h : c
  · rw [if_pos h]
    exact yes h
  · rw [if_neg h]
    exact no h

theorem tame_guard {c : Prop} [Decidable c] {fault : Fault} {f : β → Run α} {x : Run α}
    (implicit : fault.isExplicit = false) (hr : refuse ctx)
    (next : ¬ c → x.Tame m ctx store accept refuse) :
    (if c then fail fault path >>= f else x).Tame m ctx store accept refuse := by
  refine tame_ite (fun _ => ?_) next
  have step : (fail fault path >>= f) ⟨.medium m, ctx, store⟩ =
      .error (fault.atPath path) ⟨.medium m, ctx, store⟩ := rfl
  exact tame_of_error step implicit hr

theorem Tame.of_eq {x y : Run α} {count : Nat} {ctx' : Context}
    (h : x ⟨.medium m, ctx, store⟩ = y ⟨.medium (m.skip count), ctx', store⟩)
    (room : count ≤ m.rest.length) (hy : y.Tame (m.skip count) ctx' store accept refuse) :
    x.Tame m ctx store accept refuse := by
  unfold Tame at hy ⊢
  rw [h]
  cases hr : y ⟨.medium (m.skip count), ctx', store⟩ with
  | error failure s =>
      rw [hr] at hy
      exact hy
  | ok a s =>
      rw [hr] at hy
      obtain ⟨more, ctx'', rfl, room', ha⟩ := hy
      have total := Medium.length_rest_skip room
      refine ⟨count + more, ctx'', by rw [Medium.skip_skip], by omega, ha⟩

theorem Tame.bind {x : Run α} {f : α → Run β} {accept' : β → Context → Prop}
    (h : x.Tame m ctx store accept refuse)
    (hf : ∀ a m' ctx', accept a ctx' → (f a).Tame m' ctx' store accept' refuse) :
    (x >>= f).Tame m ctx store accept' refuse := by
  unfold Tame at h
  cases hx : x ⟨.medium m, ctx, store⟩ with
  | error failure s =>
      rw [hx] at h
      rw [Tame, bind_of_error hx]
      exact h
  | ok a s =>
      rw [hx] at h
      obtain ⟨count, ctx', rfl, room, ha⟩ := h
      exact Tame.of_eq (bind_of_ok hx f) room (hf a (m.skip count) ctx' ha)

theorem Tame.mono {x : Run α} {accept' : α → Context → Prop} {refuse' : Context → Prop}
    (h : x.Tame m ctx store accept refuse) (ha : ∀ a ctx', accept a ctx' → accept' a ctx')
    (hr : ∀ ctx', refuse ctx' → refuse' ctx') : x.Tame m ctx store accept' refuse' := by
  unfold Tame at h ⊢
  cases hx : x ⟨.medium m, ctx, store⟩ with
  | error failure s =>
      rw [hx] at h
      obtain ⟨implicit, pos, ctx', hs, h⟩ := h
      exact ⟨implicit, pos, ctx', hs, hr ctx' h⟩
  | ok a s =>
      rw [hx] at h
      obtain ⟨count, ctx', hs, room, h⟩ := h
      exact ⟨count, ctx', hs, room, ha a ctx' h⟩

theorem tame_ofExcept {x : Except Fault α} (implicit : ∀ fault, x = .error fault →
    fault.isExplicit = false) (hr : refuse ctx) :
    (ofExcept path x).Tame m ctx store (fun _ ctx' => ctx' = ctx) refuse := by
  cases x with
  | ok a => exact tame_pure rfl
  | error fault => exact tame_fail (implicit fault rfl) hr

private theorem read_medium (count : Nat) (path : Path) (m : Medium) (ctx : Context)
    (store : LazyStore) :
    read count path ⟨.medium m, ctx, store⟩ =
      if (m.rest.take count).length = count then
        .ok (m.rest.take count) ⟨.medium (m.skip (m.rest.take count).length), ctx, store⟩
      else .error ((Fault.shortage (.read count (m.rest.take count).length)).atPath path)
        ⟨.medium (m.skip (m.rest.take count).length), ctx, store⟩ := rfl

theorem tame_read (count : Nat) (hr : refuse ctx) :
    (read count path).Tame m ctx store (fun _ ctx' => ctx' = ctx) refuse := by
  unfold Tame
  rw [read_medium]
  by_cases enough : (m.rest.take count).length = count
  · rw [if_pos enough]
    exact ⟨_, ctx, rfl, List.length_take_le' count m.rest, rfl⟩
  · rw [if_neg enough]
    exact ⟨rfl, _, ctx, rfl, hr⟩

/-- A read that comes up short has moved the position all the same. -/
private theorem tame_outcome_read (count : Nat) :
    (outcome (read count path)).Tame m ctx store
      (fun r ctx' => ctx' = ctx ∧ ∀ failure, r = .error failure →
        failure.fault.isExplicit = false) refuse := by
  have step := read_medium count path m ctx store
  unfold Tame
  by_cases enough : (m.rest.take count).length = count
  · rw [if_pos enough] at step
    rw [outcome_of_ok step]
    exact ⟨_, ctx, rfl, List.length_take_le' count m.rest, rfl, by simp⟩
  · rw [if_neg enough] at step
    rw [outcome_of_error step]
    refine ⟨_, ctx, rfl, List.length_take_le' count m.rest, rfl, ?_⟩
    intro failure h
    cases h
    rfl

private theorem tame_readAll :
    readAll.Tame m ctx store (fun _ ctx' => ctx' = ctx) refuse :=
  ⟨_, ctx, rfl, Nat.le_refl _, rfl⟩

theorem Tame.tagged {x : Run α} (h : x.Tame m ctx store accept refuse) :
    x.tagged.Tame m ctx store accept refuse := by
  unfold Tame at h ⊢
  cases hx : x ⟨.medium m, ctx, store⟩ with
  | error failure s =>
      rw [hx] at h
      rw [tagged_of_error hx]
      exact h
  | ok a s =>
      rw [hx] at h
      rw [tagged_of_ok hx]
      exact h

theorem Tame.onStream {x : Run α} {data : List UInt8}
    (h : x.Tame ⟨.growing, data, 0⟩ ctx store accept refuse) :
    (Run.onStream (.memory data) x).Tame m ctx store (fun r ctx' => accept r.1 ctx')
      refuse := by
  unfold Tame at h
  cases hx : x ⟨.medium ⟨.growing, data, 0⟩, ctx, store⟩ with
  | error failure s =>
      rw [hx] at h
      obtain ⟨implicit, pos, ctx', rfl, h⟩ := h
      have step : Run.onStream (.memory data) x ⟨.medium m, ctx, store⟩ =
          .error failure ⟨.medium m, ctx', store⟩ := by
        simp [Run.onStream, Stream.memory, hx]
      unfold Tame
      rw [step]
      exact ⟨implicit, m.pos, ctx', rfl, h⟩
  | ok a s =>
      rw [hx] at h
      obtain ⟨count, ctx', rfl, room, h⟩ := h
      have step : Run.onStream (.memory data) x ⟨.medium m, ctx, store⟩ = .ok (a, _)
          ⟨.medium m, ctx', store⟩ := onStream_of_ok hx
      unfold Tame
      rw [step]
      exact ⟨0, ctx', rfl, Nat.zero_le _, h⟩

private theorem Tame.inFrame {x : Run α} {values : Record Value}
    (h : x.Tame m (ctx.push values) store
      (fun a ctx' => (ctx.push values).Kept ctx' ∧ accept a ctx')
      (ctx.push values).Kept) :
    (Run.inFrame values x).Tame m ctx store (fun _ ctx' => ctx' = ctx) (· = ctx) := by
  unfold Tame at h
  cases hx : x ⟨.medium m, ctx.push values, store⟩ with
  | error failure s =>
      rw [hx] at h
      obtain ⟨implicit, pos, ctx', rfl, kept⟩ := h
      have step : Run.inFrame values x ⟨.medium m, ctx, store⟩ =
          .error failure ⟨.medium { m with pos := pos }, ctx'.pop, store⟩ := by
        simp [Run.inFrame, hx]
      unfold Tame
      rw [step]
      exact ⟨implicit, pos, ctx'.pop, rfl, Context.pop_of_kept kept⟩
  | ok a s =>
      rw [hx] at h
      obtain ⟨count, ctx', rfl, room, kept, -⟩ := h
      have step : Run.inFrame values x ⟨.medium m, ctx, store⟩ = .ok (a, _)
          ⟨.medium (m.skip count), ctx'.pop, store⟩ := inFrame_of_ok hx
      unfold Tame
      rw [step]
      exact ⟨count, ctx'.pop, rfl, room, Context.pop_of_kept kept⟩

end Run

/-! ## Expressions -/

namespace Engine

variable {e : Engine} {m : Medium} {ctx : Context} {store : LazyStore} {path : Path}
  {refuse : Context → Prop} {near : Visible}

private theorem tame_evalSize_of_sees {x : Expr} {n : Int}
    (sees : Sees ⟨.medium m, ctx, store⟩ x (.int n)) (hr : refuse ctx) :
    (e.evalSize x path).Tame m ctx store (fun _ ctx' => ctx' = ctx) refuse := by
  have size := Expr.evaluateSize_of_int e.resolver ctx.scope path store
    (sees e.resolver path store)
  by_cases range : 0 ≤ n ∧ n ≤ Value.maxSize
  · rw [if_pos range] at size
    have step : e.evalSize x path ⟨.medium m, ctx, store⟩ =
        .ok n.toNat ⟨.medium m, ctx, store⟩ := by
      simp [evalSize, Run.lookup, Run.scope, bind, EStateM.bind, size]
    exact Run.tame_of_ok step rfl
  · rw [if_neg range] at size
    have step : e.evalSize x path ⟨.medium m, ctx, store⟩ =
        .error ((Fault.miscount (.evaluated x.text n)).atPath path)
          ⟨.medium m, ctx, store⟩ := by
      simp [evalSize, Run.lookup, Run.scope, bind, EStateM.bind, size]
    exact Run.tame_of_error step rfl hr

private theorem tame_evalSize_const (n : Int) (hr : refuse ctx) :
    (e.evalSize (.const (.int n)) path).Tame m ctx store (fun _ ctx' => ctx' = ctx) refuse :=
  tame_evalSize_of_sees (sees_const _ (.int n)) hr

private theorem tame_evalSize {x : Expr} (h : near.Length x) (held : near.Held ctx)
    (hr : refuse ctx) :
    (e.evalSize x path).Tame m ctx store (fun _ ctx' => ctx' = ctx) refuse := by
  obtain ⟨n, rfl⟩ | ⟨k, visible, rfl⟩ := h
  · exact tame_evalSize_const n hr
  · obtain ⟨shown, n, known⟩ := held k visible
    exact tame_evalSize_of_sees (sees_field shown known) hr

end Engine

/-! ## Codecs -/

/-- Parsing is tame wherever the visible fields are integers; `isInt` says that it yields an
integer. -/
def Codec.Tame (near : Visible) (isInt : Bool) (c : Codec) : Prop :=
  ∀ (m : Medium) (ctx : Context) (store : LazyStore) (path : Path), near.Held ctx →
    (c.parse path).Tame m ctx store
      (fun v ctx' => ctx.Quiet ctx' ∧ (isInt = true → ∃ n, v = .int n)) ctx.Quiet

namespace Codec

variable {e : Engine} {near : Visible}

private theorem Tame.after {c : Codec} {isInt : Bool} (h : c.Tame near isInt) {m : Medium}
    {ctx ctx' : Context} {store : LazyStore} {path : Path} (held : near.Held ctx)
    (quiet : ctx.Quiet ctx') :
    (c.parse path).Tame m ctx' store
      (fun v ctx'' => ctx.Quiet ctx'' ∧ (isInt = true → ∃ n, v = .int n)) ctx.Quiet :=
  (h m ctx' store path (held.quiet quiet)).mono
    (fun _ _ h => ⟨quiet.trans h.1, h.2⟩) (fun _ h => quiet.trans h)

theorem checkWidth_implicit {width limit : Nat} {unit : String} {fault : Fault}
    (h : Integer.checkWidth width limit unit = .error fault) : fault.isExplicit = false := by
  rw [Integer.checkWidth] at h
  split at h
  · cases h
    rfl
  · cases h

theorem ofPattern_implicit {pattern bits : Nat} {signed : Bool} {fault : Fault}
    (h : Integer.ofPattern pattern bits signed = .error fault) : fault.isExplicit = false := by
  rw [Integer.ofPattern] at h
  split at h
  · cases h
  · split at h
    · cases h
      rfl
    · cases h

theorem decode_implicit {encoding : Encoding} {data : List UInt8} {fault : Fault}
    (h : TextField.decode encoding data = .error fault) : fault.isExplicit = false := by
  rw [TextField.decode] at h
  split at h
  · cases h
  · cases h
    rfl

private theorem tame_integer (n : Int) (signed : Bool) (endian : Endian) (isInt : Bool) :
    (integer e (.const (.int n)) signed endian).Tame near isInt := by
  intro m ctx store path _
  have quiet := Context.Quiet.refl ctx
  simp only [integer]
  refine (Engine.tame_evalSize_const n quiet).bind ?_
  rintro width m₁ _ rfl
  refine (Run.tame_ofExcept (fun _ => checkWidth_implicit) quiet).bind ?_
  rintro _ m₂ _ rfl
  refine (Run.tame_read width quiet).bind ?_
  rintro data m₃ _ rfl
  refine (Run.tame_ofExcept (fun _ => ofPattern_implicit) quiet).bind ?_
  rintro value m₄ _ rfl
  exact Run.tame_pure ⟨quiet, fun _ => ⟨value, rfl⟩⟩

private theorem tame_flag : flag.Tame near false := by
  intro m ctx store path _
  have quiet := Context.Quiet.refl ctx
  simp only [flag]
  refine (Run.tame_read 1 quiet).bind ?_
  rintro data m₁ _ rfl
  exact Run.tame_pure ⟨quiet, by simp⟩

private theorem tame_readFrom (maxBits : Nat) (path : Path) {refuse : Context → Prop}
    (more acc shift : Nat) (seen : List UInt8) {m : Medium} {ctx : Context}
    {store : LazyStore} (hr : refuse ctx) :
    (Varint.readFrom maxBits path more acc shift seen).Tame m ctx store
      (fun _ ctx' => ctx' = ctx) refuse := by
  induction more generalizing acc shift seen m with
  | zero => exact Run.tame_fail rfl hr
  | succ more ih =>
      rw [Varint.readFrom]
      refine (Run.tame_read 1 hr).bind ?_
      rintro data m₁ _ rfl
      refine Run.tame_guard rfl hr (fun _ => ?_)
      exact Run.tame_ite (fun _ => Run.tame_pure rfl) (fun _ => ih _ _ _)

theorem tame_readNumeral (maxBits : Nat) (path : Path) {refuse : Context → Prop} {m : Medium}
    {ctx : Context} {store : LazyStore} (hr : refuse ctx) :
    (Varint.read maxBits path).Tame m ctx store (fun _ ctx' => ctx' = ctx) refuse := by
  have size : Run.available.Tame m ctx store (fun _ ctx' => ctx' = ctx) refuse :=
    Run.tame_of_ok rfl rfl
  refine size.bind ?_
  rintro most m₁ _ rfl
  exact tame_readFrom maxBits path _ 0 0 [] hr

private theorem tame_varint (bits : Nat) (isInt : Bool) : (varint bits).Tame near isInt := by
  intro m ctx store path _
  have quiet := Context.Quiet.refl ctx
  refine (tame_readNumeral bits path quiet).bind ?_
  rintro n m₁ _ rfl
  exact Run.tame_pure ⟨quiet, fun _ => ⟨n, rfl⟩⟩

private theorem tame_zigzag (isInt : Bool) : zigzag.Tame near isInt := by
  intro m ctx store path _
  have quiet := Context.Quiet.refl ctx
  refine (tame_readNumeral 128 path quiet).bind ?_
  rintro n m₁ _ rfl
  exact Run.tame_pure ⟨quiet, fun _ => ⟨Varint.unzigzag n, rfl⟩⟩

private theorem tame_pass : pass.Tame near false := by
  intro m ctx store path _
  exact Run.tame_pure ⟨Context.Quiet.refl ctx, by simp⟩

private theorem tame_greedyBytes : greedyBytes.Tame near false := by
  intro m ctx store path _
  refine Run.tame_readAll.bind ?_
  rintro data m₁ _ rfl
  exact Run.tame_pure ⟨Context.Quiet.refl _, by simp⟩

private theorem tame_parse_bytes {length : Expr} (known : near.Length length) {m : Medium}
    {ctx : Context} {store : LazyStore} {path : Path} {refuse : Context → Prop}
    (held : near.Held ctx) (hr : refuse ctx) :
    ((bytes e length).parse path).Tame m ctx store
      (fun v ctx' => ctx' = ctx ∧ ∃ data, v = .bytes data) refuse := by
  refine (Engine.tame_evalSize known held hr).bind ?_
  rintro n m₁ _ rfl
  refine (Run.tame_read n hr).bind ?_
  rintro data m₂ _ rfl
  exact Run.tame_pure ⟨rfl, data, rfl⟩

private theorem tame_bytes {length : Expr} (known : near.Length length) :
    (bytes e length).Tame near false := by
  intro m ctx store path held
  refine (tame_parse_bytes known held (Context.Quiet.refl ctx)).mono ?_ (fun _ h => h)
  rintro v ctx' ⟨rfl, -⟩
  exact ⟨Context.Quiet.refl _, by simp⟩

private theorem tame_literal {length : Expr} (known : near.Length length) (data : List UInt8) :
    (constant e (bytes e length) (.bytes data)).Tame near false := by
  intro m ctx store path held
  have quiet := Context.Quiet.refl ctx
  refine (tame_parse_bytes known held quiet).bind ?_
  rintro v m₁ _ ⟨rfl, found, rfl⟩
  have equal (s : State) : e.equal (.bytes found) (.bytes data) s =
      .ok (Value.same (.bytes found) (.bytes data)) s := by
    simp [Engine.equal, Run.lookup, Resolver.equal, Resolver.compare, Value.isLazy]
  refine (Run.tame_of_ok (equal _) rfl : (e.equal (.bytes found) (.bytes data)).Tame m₁ _ store
    (fun _ ctx' => ctx' = _) _).bind ?_
  rintro eq m₂ _ rfl
  refine Run.tame_ite (fun _ => ?_) (fun _ => Run.tame_pure ⟨quiet, by simp⟩)
  exact Run.tame_of_error rfl rfl quiet

/-! ## Text -/

private theorem tame_prefixedText {length : Part} {encoding : Encoding}
    (counted : length.codec.Tame near true) :
    (prefixedText length encoding).Tame near false := by
  intro m ctx store path held
  refine ((counted m ctx store path held).tagged).bind ?_
  rintro v m₁ ctx₁ ⟨quiet, isInt⟩
  obtain ⟨n, rfl⟩ := isInt rfl
  refine Run.tame_ite (fun _ => Run.tame_of_error rfl rfl quiet) (fun _ => ?_)
  refine (Run.tame_read _ quiet).bind ?_
  rintro data m₂ _ rfl
  refine (Run.tame_ofExcept (fun _ => decode_implicit) quiet).mono ?_ (fun _ h => h)
  rintro v ctx' rfl
  exact ⟨quiet, by simp⟩

private theorem tame_readTerminated (unit : Nat) (terminators : List (List UInt8)) (path : Path)
    (more : Nat) (seen : List UInt8) {m : Medium} {ctx : Context} {store : LazyStore}
    {refuse : Context → Prop} (hr : refuse ctx) :
    (readTerminated unit terminators path more seen).Tame m ctx store
      (fun _ ctx' => ctx' = ctx) refuse := by
  induction more generalizing seen m with
  | zero => exact Run.tame_fail rfl hr
  | succ more ih =>
      rw [readTerminated]
      refine (Run.tame_outcome_read unit).bind ?_
      rintro r m₁ _ ⟨rfl, implicit⟩
      cases r with
      | error failure =>
          have refused := implicit failure rfl
          cases hf : failure.fault with
          | shortage _ =>
              simp only [hf]
              exact Run.tame_fail rfl hr
          | _ =>
              simp only [hf]
              exact Run.tame_of_error rfl refused hr
      | ok chunk => exact Run.tame_ite (fun _ => Run.tame_pure rfl) (fun _ => ih _)

private theorem tame_terminatedText (terminators : List (List UInt8)) (encoding : Encoding) :
    (terminatedText terminators encoding).Tame near false := by
  intro m ctx store path _
  have quiet := Context.Quiet.refl ctx
  have size : Run.available.Tame m ctx store (fun _ ctx' => ctx' = ctx) ctx.Quiet :=
    Run.tame_of_ok rfl rfl
  refine size.bind ?_
  rintro most m₁ _ rfl
  refine (tame_readTerminated _ _ path _ [] quiet).bind ?_
  rintro data m₂ _ rfl
  refine (Run.tame_ofExcept (fun _ => decode_implicit) quiet).mono ?_ (fun _ h => h)
  rintro v ctx' rfl
  exact ⟨quiet, by simp⟩

/-! ## Repetition -/

private theorem tame_parseCounted {of : Part} {isInt : Bool} (inner : of.codec.Tame near isInt)
    (path : Path) (count i : Nat) {m : Medium} {ctx ctx' : Context} {store : LazyStore}
    (held : near.Held ctx) (quiet : ctx.Quiet ctx') :
    (parseCounted of path count i).Tame m ctx' store (fun _ ctx'' => ctx.Quiet ctx'')
      ctx.Quiet := by
  induction count generalizing i m ctx' with
  | zero => exact Run.tame_pure quiet
  | succ count ih =>
      have noted : (noteIndex i).Tame m ctx' store (fun _ ctx'' => ctx.Quiet ctx'') ctx.Quiet :=
        ⟨0, _, rfl, Nat.zero_le _, quiet.trans (quiet_noteIndex ctx' i)⟩
      rw [parseCounted]
      refine noted.bind ?_
      intro _ m₁ ctx₁ quiet₁
      refine ((inner.after held quiet₁).tagged).bind ?_
      rintro v m₂ ctx₂ ⟨quiet₂, -⟩
      refine (ih (i + 1) quiet₂).bind ?_
      intro vs m₃ ctx₃ quiet₃
      exact Run.tame_pure quiet₃

private theorem tame_array {count : Expr} {of : Part} {isInt : Bool} (known : near.Length count)
    (inner : of.codec.Tame near isInt) (discard : Bool) :
    (array e count of discard).Tame near false := by
  intro m ctx store path held
  have quiet := Context.Quiet.refl ctx
  refine (Engine.tame_evalSize known held quiet).bind ?_
  rintro n m₁ _ rfl
  refine (tame_parseCounted inner path n 0 held quiet).bind ?_
  intro vs m₂ ctx₂ quiet₂
  exact Run.tame_pure ⟨quiet₂, by simp⟩

private theorem tame_prefixedArray {count of : Part} {isInt : Bool}
    (counted : count.codec.Tame near true) (inner : of.codec.Tame near isInt) :
    (prefixedArray e count of).Tame near false := by
  intro m ctx store path held
  refine ((counted m ctx store path held).tagged).bind ?_
  rintro v m₁ ctx₁ ⟨quiet, isInt⟩
  obtain ⟨n, rfl⟩ := isInt rfl
  refine Run.tame_ite (fun _ => Run.tame_of_error rfl rfl quiet) (fun _ => ?_)
  refine (tame_parseCounted inner path _ 0 held quiet).bind ?_
  intro vs m₂ ctx₂ quiet₂
  exact Run.tame_pure ⟨quiet₂, by simp⟩

/-! ## Envelopes -/

private theorem Tame.parseSlice {c : Codec} {isInt : Bool} (h : c.Tame near isInt)
    (data : List UInt8)
    {m : Medium} {ctx ctx' : Context} {store : LazyStore} {path : Path}
    (held : near.Held ctx) (quiet : ctx.Quiet ctx') :
    (c.parseSlice data path).Tame m ctx' store (fun _ ctx'' => ctx.Quiet ctx'') ctx.Quiet := by
  refine ((h.after held quiet).onStream).bind ?_
  rintro r m₁ ctx₁ ⟨quiet₁, -⟩
  exact Run.tame_pure quiet₁

private theorem tame_overhead {length : Format} (count : length.IsCount) (e : Engine)
    (defs : Definitions) (inclusive : Bool) {path : Path} {m : Medium} {ctx : Context}
    {store : LazyStore} {refuse : Context → Prop} (hr : refuse ctx) :
    (overhead ⟨length, length.codec e defs⟩ inclusive path).Tame m ctx store
      (fun _ ctx' => ctx' = ctx) refuse := by
  cases inclusive with
  | false => exact Run.tame_pure rfl
  | true =>
      unfold Format.IsCount at count
      split at count
      · rename_i width signed endian
        obtain ⟨-, n, rfl, -, narrow⟩ := count
        have own : Format.Overhead true (.integer (.const (.int n)) signed endian) n := by
          simp [Format.Overhead, narrow]
        exact Run.tame_of_ok (overhead_eq e defs own path _) rfl
      · exact Run.tame_of_error rfl rfl hr
      · exact count.elim

private theorem tame_prefixed {length : Format} {of : Codec} {isInt : Bool} {defs : Definitions}
    (count : length.IsCount) (counted : (length.codec e defs).Tame near true)
    (inner : of.Tame near isInt) (inclusive lenient : Bool) :
    (prefixed ⟨length, length.codec e defs⟩ of inclusive lenient).Tame near false := by
  intro m ctx store path held
  refine ((counted m ctx store path held).tagged).bind ?_
  rintro v m₁ ctx₁ ⟨quiet, isInt⟩
  obtain ⟨n, rfl⟩ := isInt rfl
  refine (tame_overhead count e defs inclusive quiet).bind ?_
  rintro extra m₂ _ rfl
  refine Run.tame_guard rfl quiet (fun _ => ?_)
  refine (Run.tame_read _ quiet).bind ?_
  rintro data m₃ _ rfl
  refine (inner.parseSlice data held quiet).bind ?_
  intro r m₄ ctx₄ quiet₄
  exact Run.tame_guard rfl quiet₄ (fun _ => Run.tame_pure ⟨quiet₄, by simp⟩)

private theorem tame_fixedSized {of : Codec} {isInt : Bool} (inner : of.Tame near isInt) (n : Int) :
    (fixedSized e (.const (.int n)) of).Tame near false := by
  intro m ctx store path held
  have quiet := Context.Quiet.refl ctx
  refine (Engine.tame_evalSize_const n quiet).bind ?_
  rintro size m₁ _ rfl
  refine (Run.tame_read size quiet).bind ?_
  rintro data m₂ _ rfl
  refine (inner.parseSlice data held quiet).bind ?_
  intro r m₃ ctx₃ quiet₃
  exact Run.tame_pure ⟨quiet₃, by simp⟩

/-! ## Padding -/

private theorem tame_tell {m : Medium} {ctx : Context} {store : LazyStore}
    {refuse : Context → Prop} :
    Run.tell.Tame m ctx store (fun _ ctx' => ctx' = ctx) refuse :=
  Run.tame_of_ok rfl rfl

private theorem tame_skipFill (fill : Fill) (count : Nat) {m : Medium} {ctx : Context}
    {store : LazyStore} {path : Path} {refuse : Context → Prop} (hr : refuse ctx) :
    (skipFill fill count path).Tame m ctx store (fun _ ctx' => ctx' = ctx) refuse := by
  refine (Run.tame_read count hr).bind ?_
  rintro data m₁ _ rfl
  refine Run.tame_ite (fun _ => ?_) (fun _ => Run.tame_pure rfl)
  cases firstOther fill.pattern 0 data with
  | none => exact Run.tame_pure rfl
  | some other => exact Run.tame_fail rfl hr

private theorem tame_padded {of : Codec} {isInt : Bool} (inner : of.Tame near isInt) (n : Int)
    (fill : Fill) : (padded e (.const (.int n)) of fill).Tame near false := by
  intro m ctx store path held
  have quiet := Context.Quiet.refl ctx
  refine (Engine.tame_evalSize_const n quiet).bind ?_
  rintro size m₁ _ rfl
  refine tame_tell.bind ?_
  rintro start m₂ _ rfl
  refine (inner m₂ _ store path held).bind ?_
  rintro v m₃ ctx₃ ⟨quiet₃, -⟩
  refine tame_tell.bind ?_
  rintro reached m₄ ctx₄ rfl
  have rest : (remainder size (Size.sub reached start) path).Tame m₄ ctx₄ store
      (fun _ ctx' => ctx' = ctx₄) _ :=
    Run.tame_ite (fun _ => Run.tame_pure rfl) (fun _ => Run.tame_fail rfl quiet₃)
  refine rest.bind ?_
  rintro count m₅ _ rfl
  refine (tame_skipFill fill count quiet₃).bind ?_
  rintro _ m₆ _ rfl
  exact Run.tame_pure ⟨quiet₃, by simp⟩

private theorem tame_aligned {of : Codec} {isInt : Bool} (inner : of.Tame near isInt) (n : Int)
    (fill : Fill) : (aligned e (.const (.int n)) of fill).Tame near false := by
  intro m ctx store path held
  have quiet := Context.Quiet.refl ctx
  have modulus : (evalModulus e (.const (.int n)) path).Tame m ctx store
      (fun _ ctx' => ctx' = ctx) ctx.Quiet := by
    refine (Engine.tame_evalSize_const n quiet).bind ?_
    rintro size m₁ _ rfl
    exact Run.tame_guard rfl quiet (fun _ => Run.tame_pure rfl)
  refine modulus.bind ?_
  rintro size m₁ _ rfl
  refine tame_tell.bind ?_
  rintro start m₂ _ rfl
  refine (inner m₂ _ store path held).bind ?_
  rintro v m₃ ctx₃ ⟨quiet₃, -⟩
  refine tame_tell.bind ?_
  rintro reached m₄ _ rfl
  refine (tame_skipFill fill _ quiet₃).bind ?_
  rintro _ m₅ _ rfl
  exact Run.tame_pure ⟨quiet₃, by simp⟩

/-! ## Choice -/

private theorem tame_branch {yes no : Codec} {a b : Bool} {k : String} (visible : k ∈ near.ints)
    (hyes : yes.Tame near a) (hno : no.Tame near b) :
    (branch e (.field k) yes no).Tame near false := by
  intro m ctx store path held
  obtain ⟨shown, n, known⟩ := held k visible
  have sees : Engine.Sees ⟨.medium m, ctx, store⟩ (.field k) (.int n) :=
    Engine.sees_field shown known
  have decided : (e.evalHolds (.field k) path).Tame m ctx store (fun _ ctx' => ctx' = ctx)
      ctx.Quiet := Run.tame_of_ok (e.evalHolds_of_sees sees) rfl
  refine decided.bind ?_
  rintro holds m₁ _ rfl
  refine Run.tame_ite (fun _ => ?_) (fun _ => ?_)
  · exact (hyes m₁ _ store path held).mono (fun _ _ h => ⟨h.1, by simp⟩) (fun _ h => h)
  · exact (hno m₁ _ store path held).mono (fun _ _ h => ⟨h.1, by simp⟩) (fun _ h => h)

private theorem tame_switch {k : String} {defs : Definitions} {otherwise : Option Format}
    {cases : List (Value × Format)} (visible : k ∈ near.ints)
    (eager : ∀ c ∈ cases, c.1.isLazy = false)
    (each : ∀ n f, Format.caseOf n otherwise cases = some f →
      ∃ isInt, (f.codec e defs).Tame near isInt) :
    (switch e (.field k) (Format.casesOf e defs cases)
      (Format.partIf e defs otherwise)).Tame near false := by
  intro m ctx store path held
  obtain ⟨shown, n, known⟩ := held k visible
  have sees : Engine.Sees ⟨.medium m, ctx, store⟩ (.field k) (.int n) :=
    Engine.sees_field shown known
  have choice := chooseCase_eq e defs otherwise path sees eager
  have chosen : (Run.lookup (chooseCase e.resolver (.field k) (Format.casesOf e defs cases)
      (Format.partIf e defs otherwise) ctx.scope path)).Tame m ctx store
        (fun part ctx' => ctx' = ctx ∧ ∃ isInt, part.codec.Tame near isInt) ctx.Quiet := by
    cases found : Format.caseOf n otherwise cases with
    | none =>
        rw [found] at choice
        exact Run.tame_of_error choice rfl (Context.Quiet.refl ctx)
    | some f =>
        rw [found] at choice
        exact Run.tame_of_ok choice ⟨rfl, each n f found⟩
  simp only [switch]
  have first : Run.scope ⟨.medium m, ctx, store⟩ = .ok ctx.scope ⟨.medium m, ctx, store⟩ := rfl
  unfold Run.Tame
  rw [Run.bind_of_ok first]
  refine chosen.bind ?_
  rintro part m₁ ctx₁ ⟨rfl, isInt, inner⟩
  exact (inner m₁ ctx₁ store path held).mono (fun _ _ h => ⟨h.1, by simp⟩) (fun _ h => h)

private theorem tame_rebuild {of : Part} {x : Expr} {isInt : Bool}
    (inner : of.codec.Tame near isInt) :
    (rebuild e of x).Tame near isInt :=
  fun m ctx store path held => inner m ctx store path held

/-! ## Sequences and structures -/

private theorem tame_parseItems {items : List Part}
    (each : ∀ item ∈ items, ∃ isInt, item.codec.Tame .nothing isInt) (path : Path) (i : Nat)
    {m : Medium} {ctx ctx' : Context} {store : LazyStore} (kept : ctx.Kept ctx') :
    (parseItems path i items).Tame m ctx' store (fun _ ctx'' => ctx.Kept ctx'') ctx.Kept := by
  induction items generalizing i m ctx' with
  | nil => exact Run.tame_pure kept
  | cons item items ih =>
      obtain ⟨isInt, inner⟩ := each item List.mem_cons_self
      have first := (inner m ctx' store (path.item item.name? i)
        (Visible.held_nothing [] ctx')).tagged.mono
        (fun _ _ h => kept.trans h.1.kept) (fun _ h => kept.trans h.kept)
      rw [parseItems]
      refine first.bind ?_
      intro v m₁ ctx₁ kept₁
      obtain ⟨ctx₂, noted, kept₂⟩ := kept_noteItem item v (.medium m₁) ctx₁ store
      have note : (noteItem item v).Tame m₁ ctx₁ store (fun _ ctx'' => ctx.Kept ctx'')
          ctx.Kept := by
        unfold Run.Tame
        rw [noted]
        exact ⟨0, ctx₂, rfl, Nat.zero_le _, kept₁.trans kept₂⟩
      refine note.bind ?_
      intro _ m₂ ctx₃ kept₃
      refine (ih (fun item h => each item (List.mem_cons_of_mem _ h)) (i + 1) kept₃).bind ?_
      intro vs m₃ ctx₄ kept₄
      exact Run.tame_pure kept₄

private theorem tame_sequence {items : List Part}
    (each : ∀ item ∈ items, ∃ isInt, item.codec.Tame .nothing isInt) :
    (sequence e items).Tame near false := by
  intro m ctx store path _
  have inner : (parseItems path 0 items).Tame m (ctx.push []) store
      (fun _ ctx' => (ctx.push []).Kept ctx' ∧ True) (ctx.push []).Kept :=
    (tame_parseItems each path 0 (Context.Kept.refl _)).mono (fun _ _ h => ⟨h, trivial⟩)
      (fun _ h => h)
  have framed : (Run.inFrame [] (parseItems path 0 items)).Tame m ctx store
      (fun _ ctx' => ctx' = ctx) ctx.Quiet :=
    (inner.inFrame).mono (fun _ _ h => h) (fun _ h => h ▸ Context.Quiet.refl ctx)
  refine framed.bind ?_
  rintro r m₁ _ rfl
  exact Run.tame_pure ⟨Context.Quiet.refl _, by simp⟩

/-- Fields that are each parsed tamely, given the ones before. -/
inductive TameFields : Visible → List Part → Prop
  | nil {near : Visible} : TameFields near []
  | cons {near : Visible} {field fields} (flat : field.format.isEmbedded = false)
      (shown : ∀ name, field.name? = some name → Record.isPrivate name = false)
      (fresh : ∀ name, field.name? = some name → name ∉ near.ints)
      (head : field.codec.Tame near field.format.holdsInt)
      (tail : TameFields (near.after field.format) fields) :
      TameFields near (field :: fields)

private theorem held_after {near : Visible} {ctx : Context} {f : Format} {name : String} {v : Value}
    (held : near.Held ctx) (hasName : f.name? = some name)
    (shown : Record.isPrivate name = false) (fresh : name ∉ near.ints)
    (isInt : f.holdsInt = true → ∃ n, v = .int n) :
    (near.after f).Held (ctx.insert name v) := by
  have others (k : String) (hk : k ∈ near.ints) : Record.isPrivate k = false ∧
      ∃ n, Record.get? (ctx.insert name v).innermost k = some (.int n) := by
    obtain ⟨hs, n, found⟩ := held k hk
    have ne : name ≠ k := by
      rintro rfl
      exact fresh hk
    exact ⟨hs, n, (Record.get?_insert_of_ne ne ctx.innermost v).trans found⟩
  intro k hk
  simp only [Visible.after, hasName] at hk
  cases int : f.holdsInt with
  | false =>
      simp only [int, Bool.false_eq_true, if_false] at hk
      exact others k hk
  | true =>
      simp only [int, if_true, List.mem_cons] at hk
      rcases hk with rfl | hk
      · obtain ⟨n, rfl⟩ := isInt int
        exact ⟨shown, n, Record.get?_insert_self _ _ _⟩
      · exact others k hk

private theorem tame_parseFields {fields : List Part} (each : TameFields near fields)
    (overwrite : Bool) (path : Path) {m : Medium} {ctx ctx' : Context} {store : LazyStore}
    (held : near.Held ctx') (kept : ctx.Kept ctx') :
    (parseFields overwrite false path fields).Tame m ctx' store
      (fun _ ctx'' => ctx.Kept ctx'') ctx.Kept := by
  induction each generalizing m ctx' with
  | nil => exact Run.tame_pure kept
  | @cons near field fields flat shown fresh head _ ih =>
      have parsed (place : Path) := (head m ctx' store place held).tagged.mono
        (fun _ _ h => h) (fun _ h => kept.trans h.kept)
      rw [parseFields]
      simp only [flat, Bool.false_eq_true, if_false]
      cases hasName : field.name? with
      | none =>
          refine (parsed path).bind ?_
          rintro v m₁ ctx₁ ⟨quiet, -⟩
          have same : near.after field.format = near := by
            have hn : field.format.name? = none := hasName
            simp [Visible.after, hn]
          rw [same] at ih
          exact ih (held.quiet quiet) (kept.trans quiet.kept)
      | some name =>
          refine (parsed (path.member name)).bind ?_
          rintro v m₁ ctx₁ ⟨quiet, isInt⟩
          have note : (Run.insert name v).Tame m₁ ctx₁ store
              (fun _ ctx'' => ctx'' = ctx₁.insert name v) ctx.Kept :=
            ⟨0, _, rfl, Nat.zero_le _, rfl⟩
          refine note.bind ?_
          rintro _ m₂ _ rfl
          exact ih (held_after (held.quiet quiet) hasName (shown name hasName)
            (fresh name hasName) isInt)
            ((kept.trans quiet.kept).trans (Context.kept_insert ctx₁ name v))

private theorem tame_struct {fields : List Part} {lists : List String} (overwrite : Bool)
    (each : TameFields ⟨[], lists⟩ fields) : (struct e fields overwrite).Tame near false := by
  intro m ctx store path _
  have inner : (parseFields overwrite false path fields).Tame m (ctx.push []) store
      (fun _ ctx' => (ctx.push []).Kept ctx' ∧ True) (ctx.push []).Kept :=
    (tame_parseFields each overwrite path (Visible.held_nothing lists _)
      (Context.Kept.refl _)).mono (fun _ _ h => ⟨h, trivial⟩) (fun _ h => h)
  have framed : (Run.inFrame [] (parseFields overwrite false path fields)).Tame m ctx store
      (fun _ ctx' => ctx' = ctx) ctx.Quiet :=
    (inner.inFrame).mono (fun _ _ h => h) (fun _ h => h ▸ Context.Quiet.refl ctx)
  refine framed.bind ?_
  rintro r m₁ _ rfl
  exact Run.tame_pure ⟨Context.Quiet.refl _, by simp⟩

/-! ## Greedy ranges -/

section Greedy

variable {of : Part} {path : Path} {i count : Nat} {m : Medium} {ctx ctx' : Context}
  {store : LazyStore} {v : Value}

private theorem parseGreedy_of_ok (most : Nat)
    (h : of.codec.parse (path.element i)
      ⟨.medium m, ctx.insert "_index" (.ofNat i), store⟩ =
        .ok v ⟨.medium (m.skip count), ctx', store⟩) :
    parseGreedy of path (most + 1) i ⟨.medium m, ctx, store⟩ =
      (if count = 0 then pure []
        else do return v :: (← parseGreedy of path most (i + 1)) : Run (List Value))
        ⟨.medium (m.skip count), ctx', store⟩ := by
  rw [parseGreedy, Run.bind_of_ok (Run.tell_medium m ctx store),
    Run.bind_of_ok (noteIndex_eq i _ ctx store),
    Run.bind_of_ok (Run.outcome_of_ok (Part.parse_of_ok h))]
  dsimp only
  rw [Run.bind_of_ok (Run.tell_medium _ ctx' store)]
  by_cases zero : count = 0
  · simp [zero]
  · simp [zero]

private theorem parseGreedy_of_error {failure : Failure} {pos : Nat} (most : Nat)
    (h : of.codec.parse (path.element i)
      ⟨.medium m, ctx.insert "_index" (.ofNat i), store⟩ =
        .error failure ⟨.medium { m with pos := pos }, ctx', store⟩)
    (implicit : failure.fault.isExplicit = false) :
    parseGreedy of path (most + 1) i ⟨.medium m, ctx, store⟩ =
      .ok [] ⟨.medium m, ctx', store⟩ := by
  have attempt : of.parse (path.element i)
      ⟨.medium m, ctx.insert "_index" (.ofNat i), store⟩ = .error (failure.withOffset m.pos) _ :=
    Run.tagged_of_error h
  have still : (failure.withOffset m.pos).fault.isExplicit = false := implicit
  rw [parseGreedy, Run.bind_of_ok (Run.tell_medium m ctx store),
    Run.bind_of_ok (noteIndex_eq i _ ctx store),
    Run.bind_of_ok (Run.outcome_of_error attempt)]
  simp only [still, Bool.false_eq_true, if_false]
  rfl

variable {isInt : Bool}

private theorem tame_parseGreedy (inner : of.codec.Tame near isInt) (path : Path) (most i : Nat)
    (held : near.Held ctx) (quiet : ctx.Quiet ctx') :
    (parseGreedy of path most i).Tame m ctx' store (fun _ ctx'' => ctx.Quiet ctx'')
      ctx.Quiet := by
  induction most generalizing i m ctx' with
  | zero => exact Run.tame_pure quiet
  | succ most ih =>
      have attempt : (of.codec.parse (path.element i)).Tame m _ store _ _ :=
        inner.after held (quiet.trans (quiet_noteIndex ctx' i))
      unfold Run.Tame at attempt
      cases hx : of.codec.parse (path.element i)
          ⟨.medium m, ctx'.insert "_index" (.ofNat i), store⟩ with
      | error failure s =>
          rw [hx] at attempt
          obtain ⟨implicit, pos, ctx₁, rfl, quiet₁⟩ := attempt
          unfold Run.Tame
          rw [parseGreedy_of_error most hx implicit]
          exact ⟨0, ctx₁, rfl, Nat.zero_le _, quiet₁⟩
      | ok v s =>
          rw [hx] at attempt
          obtain ⟨count, ctx₁, rfl, room, quiet₁, -⟩ := attempt
          refine Run.Tame.of_eq (parseGreedy_of_ok most hx) room ?_
          refine Run.tame_ite (fun _ => Run.tame_pure quiet₁) (fun _ => ?_)
          refine (ih (i + 1) quiet₁).bind ?_
          intro vs m₂ ctx₂ quiet₂
          exact Run.tame_pure quiet₂

end Greedy

private theorem tame_greedyRange {of : Part} {isInt : Bool} (inner : of.codec.Tame near isInt)
    (discard : Bool) : (greedyRange e of discard).Tame near false := by
  intro m ctx store path held
  have quiet := Context.Quiet.refl ctx
  have bounded : (bounds e (.const (.int 0)) none path).Tame m ctx store
      (fun _ ctx' => ctx' = ctx) ctx.Quiet := Run.tame_of_ok (bounds_greedy e path _) rfl
  refine bounded.bind ?_
  rintro r m₁ _ rfl
  refine (tame_parseGreedy inner path _ 0 held quiet).bind ?_
  intro vs m₂ ctx₂ quiet₂
  exact Run.tame_guard rfl quiet₂ (fun _ => Run.tame_pure ⟨quiet₂, by simp⟩)

/-- Behind the last element of a greedy range nothing is taken. -/
private theorem parseGreedy_at_end {of : Part} {isInt : Bool} (inner : of.codec.Tame near isInt)
    (path : Path) (most i : Nat) {m : Medium} {ctx : Context} (store : LazyStore)
    (held : near.Held ctx) (done : m.rest = []) :
    ∃ ctx', parseGreedy of path most i ⟨.medium m, ctx, store⟩ =
      .ok [] ⟨.medium m, ctx', store⟩ ∧ ctx.Quiet ctx' := by
  have quiet := Context.Quiet.refl ctx
  cases most with
  | zero => exact ⟨ctx, rfl, quiet⟩
  | succ most =>
      have attempt : (of.codec.parse (path.element i)).Tame m _ store _ _ :=
        inner.after held (quiet_noteIndex ctx i)
      unfold Run.Tame at attempt
      cases hx : of.codec.parse (path.element i)
          ⟨.medium m, ctx.insert "_index" (.ofNat i), store⟩ with
      | error failure s =>
          rw [hx] at attempt
          obtain ⟨implicit, pos, ctx₁, rfl, quiet₁⟩ := attempt
          exact ⟨ctx₁, parseGreedy_of_error most hx implicit, quiet₁⟩
      | ok v s =>
          rw [hx] at attempt
          obtain ⟨count, ctx₁, rfl, room, quiet₁, -⟩ := attempt
          rw [done] at room
          obtain rfl := Nat.le_zero.mp room
          exact ⟨ctx₁, parseGreedy_of_ok most hx, quiet₁⟩

private theorem parseGreedy_of_reads {near' : Surroundings} {of : Part} {isInt : Bool}
    {vs : List Value} {parts : List (List UInt8)} (inner : of.codec.Tame near isInt)
    (each : List.Forall₂ (of.codec.Reads false near') vs parts) (productive : [] ∉ parts)
    (path : Path) (store : LazyStore) (i : Nat) {most : Nat} (enough : vs.length ≤ most)
    {m : Medium} {ctx : Context} (next : m.rest = parts.flatten) (held : near.Held ctx)
    (held' : near'.Held ctx) :
    ∃ ps ctx', parseGreedy of path most i ⟨.medium m, ctx, store⟩ =
        .ok ps ⟨.medium (m.skip parts.flatten.length), ctx', store⟩ ∧
      ctx.Quiet ctx' ∧ Value.ExtendsItems true vs ps := by
  induction each generalizing i most m ctx with
  | nil =>
      obtain ⟨ctx', done, quiet⟩ := parseGreedy_at_end inner path most i store held next
      exact ⟨[], ctx', done, quiet, by simp [Value.ExtendsItems]⟩
  | @cons v part vs parts head _ ih =>
      rw [List.flatten_cons] at next
      obtain ⟨most, rfl⟩ : ∃ n, most = n + 1 := ⟨most - 1, by simp at enough; omega⟩
      have nonempty : part.length ≠ 0 := by
        intro zero
        exact productive (List.length_eq_zero_iff.mp zero ▸ List.mem_cons_self)
      have quiet := quiet_noteIndex ctx i
      obtain ⟨p, ctx₁, parsed, quiet₁, ext⟩ :=
        head m _ _ store (path.element i) next (by simp) (held'.quiet quiet)
      have quiet' := quiet.trans quiet₁
      obtain ⟨ps, ctx₂, rest, quiet₂, exts⟩ :=
        ih (fun h => productive (List.mem_cons_of_mem _ h)) (i + 1) (by simpa using enough)
          (Medium.rest_skip next) (held.quiet quiet') (held'.quiet quiet')
      refine ⟨p :: ps, ctx₂, ?_, quiet'.trans quiet₂, ext, exts⟩
      rw [parseGreedy_of_ok most parsed, if_neg nonempty, Run.bind_of_ok rest,
        Medium.skip_skip, List.flatten_cons, List.length_append]
      rfl

theorem reads_greedyRange {near' : Surroundings} {of : Part} {isInt : Bool}
    {vs : List Value} {parts : List (List UInt8)} (inner : of.codec.Tame near isInt)
    (known : ∀ k ∈ near.ints, Record.isPrivate k = false ∧ ∃ n, near'.ints k = some n)
    (each : List.Forall₂ (of.codec.Reads false near') vs parts) (productive : [] ∉ parts)
    (small : vs.length ≤ Value.maxSize) :
    (greedyRange e of false).Reads true near' (.list vs) parts.flatten := by
  intro m suffix ctx store path next last held'
  rw [last rfl, List.append_nil] at next
  have held : near.Held ctx := by
    intro k hk
    obtain ⟨shown, n, hn⟩ := known k hk
    exact ⟨shown, n, held' k n shown hn⟩
  obtain ⟨ps, ctx', parsed, quiet, ext⟩ :=
    parseGreedy_of_reads inner each productive path store 0 small next held held'
  have bounded := bounds_greedy e path ⟨.medium m, ctx, store⟩
  refine ⟨.list ps, ctx', ?_, quiet, by simpa [Value.Extends] using ext⟩
  have step : parseRange e (.const (.int 0)) none of false path ⟨.medium m, ctx, store⟩ =
      .ok (.list ps) ⟨.medium (m.skip parts.flatten.length), ctx', store⟩ := by
    rw [parseRange, Run.bind_of_ok bounded]
    dsimp only
    rw [Run.bind_of_ok parsed, if_neg (Nat.not_lt_zero _)]
    rfl
  exact step

end Codec

/-! ## All plain formats -/

namespace Format

theorem PlainCases.eager {near : Visible} : ∀ (cases : List (Value × Format)),
    PlainCases near cases → ∀ c ∈ cases, c.1.isLazy = false
  | [], _, c, h => by cases h
  | (key, f) :: rest, each, c, h => by
      rcases List.mem_cons.mp h with rfl | h
      · exact each.1
      · exact PlainCases.eager rest each.2.2 c h

variable (e : Engine) (defs : Definitions)

private theorem IsCount.tame {f : Format} (h : f.IsCount) (near : Visible) :
    (f.codec e defs).Tame near true := by
  unfold IsCount at h
  split at h
  · obtain ⟨-, n, rfl, -, -⟩ := h
    exact Codec.tame_integer n _ _ true
  · exact Codec.tame_varint _ true
  · exact h.elim

theorem distinct_rest {f : Format} {rest : List Format} (h : (fieldNames (f :: rest)).Nodup) :
    (fieldNames rest).Nodup ∧ ∀ name, f.name? = some name → name ∉ fieldNames rest := by
  cases hn : f.name? with
  | none =>
      rw [fieldNames, List.filterMap_cons_none hn] at h
      exact ⟨h, by simp⟩
  | some name =>
      rw [fieldNames, List.filterMap_cons_some hn] at h
      obtain ⟨fresh, distinct⟩ := List.nodup_cons.mp h
      refine ⟨distinct, fun other ho => ?_⟩
      cases ho
      exact fresh

theorem mem_fieldNames_cons {f : Format} {rest : List Format} {name : String} :
    name ∈ fieldNames (f :: rest) ↔ f.name? = some name ∨ name ∈ fieldNames rest := by
  simp [fieldNames, List.mem_filterMap]

theorem Visible.ints_after (near : Visible) (f : Format) {k : String}
    (hk : k ∈ (near.after f).ints) : k ∈ near.ints ∨ f.name? = some k := by
  unfold Visible.after at hk
  split at hk
  · rename_i name hn
    split at hk
    · rcases List.mem_cons.mp hk with rfl | hk
      · exact Or.inr hn
      · exact Or.inl hk
    · exact Or.inl hk
  · exact Or.inl hk

mutual

theorem Plain.tame : ∀ (f : Format) (toEnd : Bool) (near : Visible), Plain toEnd near f →
    (f.codec e defs).Tame near f.holdsInt
  | integer width signed endian, _, _, h => by
      obtain ⟨n, rfl, -, -⟩ := h
      exact Codec.tame_integer n signed endian true
  | flag, _, _, _ => Codec.tame_flag
  | zigzag, _, _, _ => Codec.tame_zigzag true
  | pass, _, _, _ => Codec.tame_pass
  | varint bits, _, _, _ => Codec.tame_varint bits true
  | bytes length, _, _, h => Codec.tame_bytes h
  | constant of value, _, _, h => by
      obtain ⟨data, rfl, rfl⟩ := h
      exact Codec.tame_literal (Or.inl ⟨data.length, rfl⟩) data
  | prefixedText length encoding, _, near, h =>
      Codec.tame_prefixedText (IsCount.tame e defs h near)
  | terminatedText terminators encoding, _, _, _ =>
      Codec.tame_terminatedText terminators encoding
  | named name of, toEnd, near, h => Plain.tame of toEnd near h
  | documented docs of, toEnd, near, h => Plain.tame of toEnd near h
  | array count of discard, _, near, h =>
      Codec.tame_array h.1 (Plain.tame of false near h.2.2) discard
  | prefixedArray count of, _, near, h =>
      Codec.tame_prefixedArray (IsCount.tame e defs h.1 near) (Plain.tame of false near h.2)
  | prefixed length of inclusive lenient, _, near, h =>
      Codec.tame_prefixed h.1 (IsCount.tame e defs h.1 near) (Plain.tame of true near h.2) inclusive
        lenient
  | fixedSized length of, _, near, h => by
      obtain ⟨⟨n, rfl⟩, inner⟩ := h
      exact Codec.tame_fixedSized (Plain.tame of false near inner) n
  | padded length of fill, _, near, h => by
      obtain ⟨⟨n, rfl⟩, inner⟩ := h
      exact Codec.tame_padded (Plain.tame of false near inner) n fill
  | aligned modulus of fill, _, near, h => by
      obtain ⟨⟨n, rfl⟩, inner⟩ := h
      exact Codec.tame_aligned (Plain.tame of false near inner) n fill
  | sequence items, _, _, h => Codec.tame_sequence (PlainAll.tame items .nothing h)
  | struct fields overwrite, _, _, h =>
      Codec.tame_struct overwrite
        (PlainFields.tame fields ⟨[], listNames fields⟩ h.1.1 h.1.2 (by simp) h.2)
  | branch condition yes no, _, near, h => by
      obtain ⟨⟨k, visible, rfl⟩, hyes, hno⟩ := h
      exact Codec.tame_branch visible (Plain.tame yes false near hyes)
        (Plain.tame no false near hno)
  | switch key cases otherwise, _, near, h => by
      obtain ⟨⟨k, visible, rfl⟩, each, rest⟩ := h
      exact Codec.tame_switch visible (PlainCases.eager cases each)
        (PlainCases.tame cases otherwise near each (PlainIf.tame otherwise near rest))
  | rebuild of expr, _, near, h => Codec.tame_rebuild (Plain.tame of false near h.2.1)
  | greedyBytes, _, _, _ => Codec.tame_greedyBytes
  | greedyRange of discard, _, near, h =>
      Codec.tame_greedyRange (Plain.tame of false near h.2.2.2) discard

theorem PlainAll.tame : ∀ (items : List Format) (near : Visible), PlainAll near items →
    ∀ item ∈ parts e defs items, ∃ isInt, item.codec.Tame near isInt
  | [], _, _, _, h => by cases h
  | f :: rest, near, h, item, hi => by
      rcases List.mem_cons.mp hi with rfl | hi
      · exact ⟨_, Plain.tame f false near h.1⟩
      · exact PlainAll.tame rest near h.2 item hi

theorem PlainFields.tame : ∀ (fields : List Format) (near : Visible),
    (fieldNames fields).Nodup →
    (∀ name ∈ fieldNames fields, Record.isPrivate name = false) →
    (∀ name ∈ fieldNames fields, name ∉ near.ints) → PlainFields near fields →
    Codec.TameFields near (parts e defs fields)
  | [], _, _, _, _, _ => .nil
  | f :: rest, near, distinct, shown, fresh, h => by
      obtain ⟨distinct, apart⟩ := distinct_rest distinct
      have own {name : String} (hn : f.name? = some name) : name ∈ fieldNames (f :: rest) :=
        mem_fieldNames_cons.mpr (Or.inl hn)
      have later {name : String} (hn : name ∈ fieldNames rest) :
          name ∈ fieldNames (f :: rest) := mem_fieldNames_cons.mpr (Or.inr hn)
      refine .cons h.1.not_embedded (fun name hn => shown name (own hn))
        (fun name hn => fresh name (own hn)) (Plain.tame f false near h.1) ?_
      refine PlainFields.tame rest (near.after f) distinct
        (fun name hn => shown name (later hn)) ?_ h.2
      intro name hn hk
      rcases Visible.ints_after near f hk with hk | hk
      · exact fresh name (later hn) hk
      · exact apart name hk hn

theorem PlainCases.tame : ∀ (cases : List (Value × Format)) (otherwise : Option Format)
    (near : Visible), PlainCases near cases →
    (∀ f, otherwise = some f → (f.codec e defs).Tame near f.holdsInt) →
    ∀ n f, caseOf n otherwise cases = some f → ∃ isInt, (f.codec e defs).Tame near isInt
  | [], _, _, _, rest, _, f, h => ⟨_, rest f h⟩
  | (key, g) :: cases, otherwise, near, each, rest, n, f, h => by
      rw [caseOf] at h
      split at h
      · cases h
        exact ⟨_, Plain.tame g false near each.2.1⟩
      · exact PlainCases.tame cases otherwise near each.2.2 rest n f h

theorem PlainIf.tame : ∀ (otherwise : Option Format) (near : Visible), PlainIf near otherwise →
    ∀ f, otherwise = some f → (f.codec e defs).Tame near f.holdsInt
  | some g, near, h, f, hf => by
      cases hf
      exact Plain.tame g false near h

end

end Format

end BinaryFormat
