import BinaryFormat.Codec.Basic
import Mathlib

/-!
# Runs step by step

How a run of two parts follows from the runs of its parts, what reading and
writing do to a byte string, and which expressions have their value at once.
-/

namespace BinaryFormat

/-! ## Two parts -/

namespace Run

variable {ε σ α β : Type}

theorem bind_of_ok {x : EStateM ε σ α} {s s' : σ} {a : α} (h : x s = .ok a s')
    (f : α → EStateM ε σ β) : (x >>= f) s = f a s' := by
  simp [bind, EStateM.bind, h]

theorem bind_of_error {x : EStateM ε σ α} {s s' : σ} {e : ε} (h : x s = .error e s')
    (f : α → EStateM ε σ β) : (x >>= f) s = .error e s' := by
  simp [bind, EStateM.bind, h]

theorem bind_eq_ok_iff {x : EStateM ε σ α} {f : α → EStateM ε σ β} {s s' : σ} {b : β} :
    (x >>= f) s = .ok b s' ↔ ∃ a s₁, x s = .ok a s₁ ∧ f a s₁ = .ok b s' := by
  cases h : x s with
  | ok a s₁ =>
      rw [bind_of_ok h]
      constructor
      · intro hf
        exact ⟨a, s₁, rfl, hf⟩
      · rintro ⟨a', s₂, hx, hf⟩
        cases hx
        exact hf
  | error e s₁ =>
      rw [bind_of_error h]
      simp

/-- What is left of a run whose first part is known to succeed. -/
theorem rest_of_bind {x : EStateM ε σ α} {f : α → EStateM ε σ β} {s s₁ s' : σ} {a : α} {b : β}
    (first : x s = .ok a s₁) (run : (x >>= f) s = .ok b s') : f a s₁ = .ok b s' :=
  (bind_of_ok first f).symm.trans run

theorem pure_eq_ok_iff {a b : α} {s s' : σ} :
    (pure a : EStateM ε σ α) s = .ok b s' ↔ a = b ∧ s = s' := by
  simp [pure, EStateM.pure]

@[simp] theorem pure_apply (a : α) (s : σ) : (pure a : EStateM ε σ α) s = .ok a s := rfl

@[simp] theorem throw_apply (e : ε) (s : σ) :
    (throw e : EStateM ε σ α) s = .error e s := rfl

@[simp] theorem fail_apply (fault : Fault) (path : Path) (s : State) :
    (fail fault path : Run α) s = .error (fault.atPath path) s := rfl

@[simp] theorem ofExcept_ok_apply (path : Path) (a : α) (s : State) :
    ofExcept path (.ok a) s = .ok a s := rfl

theorem bind_pure_apply (a : α) (f : α → Run β) (s : State) :
    ((pure a : Run α) >>= f) s = f a s := rfl

theorem bind_ofExcept_ok (path : Path) (a : α) (f : α → Run β) (s : State) :
    (ofExcept path (.ok a) >>= f) s = f a s := rfl

theorem ofExcept_eq_ok_iff {path : Path} {x : Except Fault α} {s s' : State} {a : α} :
    (ofExcept path x) s = .ok a s' ↔ x = .ok a ∧ s = s' := by
  cases x with
  | ok b => simp [ofExcept]
  | error fault => simp [ofExcept]

theorem guard_eq_ok_iff {c : Prop} [Decidable c] {fault : Fault} {path : Path} {x : Run α}
    {s s' : State} {a : α} :
    (do
      if c then Run.fail fault path
      x : Run α) s = .ok a s' ↔ ¬ c ∧ x s = .ok a s' := by
  by_cases h : c
  · simp [h, bind, EStateM.bind]
  · simp [h]

theorem tagged_of_ok {x : Run α} {s s' : State} {a : α} (h : x s = .ok a s') :
    tagged x s = .ok a s' := by
  simp [tagged, h]

theorem tagged_of_error {x : Run α} {s s' : State} {e : Failure} (h : x s = .error e s') :
    tagged x s = .error (e.withOffset s.stream.pos) s' := by
  simp [tagged, h]

theorem tagged_eq_ok_iff {x : Run α} {s s' : State} {a : α} :
    tagged x s = .ok a s' ↔ x s = .ok a s' := by
  cases h : x s with
  | ok b s₁ => rw [tagged_of_ok h]
  | error e s₁ =>
      rw [tagged_of_error h]
      simp

theorem outcome_of_ok {x : Run α} {s s' : State} {a : α} (h : x s = .ok a s') :
    outcome x s = .ok (.ok a) s' := by
  simp [outcome, h]

theorem outcome_of_error {x : Run α} {s s' : State} {e : Failure} (h : x s = .error e s') :
    outcome x s = .ok (.error e) s' := by
  simp [outcome, h]

theorem lookup_of_ok {x : Lookup Failure α} {s : State} {a : α} {store : LazyStore}
    (h : x s.store = .ok a store) : lookup x s = .ok a { s with store } := by
  rw [lookup, h]

theorem lookup_of_error {x : Lookup Failure α} {s : State} {e : Failure} {store : LazyStore}
    (h : x s.store = .error e store) : lookup x s = .error e { s with store } := by
  rw [lookup, h]

theorem lookup_eq_ok_iff {x : Lookup Failure α} {s s' : State} {a : α} :
    lookup x s = .ok a s' ↔
      ∃ store, x s.store = .ok a store ∧ s' = { s with store := store } := by
  constructor
  · intro run
    cases found : x s.store with
    | error failure store =>
        rw [lookup_of_error found] at run
        cases run
    | ok b store =>
        rw [lookup_of_ok found] at run
        cases run
        exact ⟨store, rfl, rfl⟩
  · rintro ⟨store, found, rfl⟩
    exact lookup_of_ok found

theorem onStream_of_ok {x : Run α} {stream stream' outer : Stream} {ctx ctx' : Context}
    {store store' : LazyStore} {a : α}
    (h : x ⟨stream, ctx, store⟩ = .ok a ⟨stream', ctx', store'⟩) :
    onStream stream x ⟨outer, ctx, store⟩ = .ok (a, stream') ⟨outer, ctx', store'⟩ := by
  simp [onStream, h]

theorem inFrame_of_ok {x : Run α} {values : Record Value} {stream stream' : Stream}
    {ctx ctx' : Context} {store store' : LazyStore} {a : α}
    (h : x ⟨stream, ctx.push values, store⟩ = .ok a ⟨stream', ctx', store'⟩) :
    inFrame values x ⟨stream, ctx, store⟩ =
      .ok (a, ctx'.innermost) ⟨stream', ctx'.pop, store'⟩ := by
  simp [inFrame, h]

theorem ok_of_inFrame {x : Run α} {values : Record Value} {s s' : State}
    {result : α × Record Value} (h : inFrame values x s = .ok result s') :
    ∃ s₁, x { s with context := s.context.push values } = .ok result.1 s₁ ∧
      result.2 = s₁.context.innermost ∧ s' = { s₁ with context := s₁.context.pop } := by
  unfold inFrame at h
  split at h
  · cases h
    exact ⟨_, by assumption, rfl, rfl⟩
  · cases h

theorem ok_of_onStream {x : Run α} {stream : Stream} {s s' : State} {result : α × Stream}
    (h : onStream stream x s = .ok result s') :
    ∃ s₁, x { s with stream := stream } = .ok result.1 s₁ ∧ result.2 = s₁.stream ∧
      s' = { s₁ with stream := s.stream } := by
  unfold onStream at h
  split at h
  · cases h
    exact ⟨_, by assumption, rfl, rfl⟩
  · cases h

/-- A run that also tells how far it has moved the position. -/
def counted (x : Run α) : Run (α × Nat) := do
  let start ← tell
  let a ← x
  return (a, Size.sub (← tell) start)

theorem counted_eq_ok_iff {x : Run α} {s s' : State} {result : α × Nat} :
    counted x s = .ok result s' ↔
      x s = .ok result.1 s' ∧ result.2 = Size.sub s'.stream.pos s.stream.pos := by
  obtain ⟨a, n⟩ := result
  simp only [counted, bind, EStateM.bind, tell, pure, EStateM.pure]
  cases x s with
  | error failure s₁ => simp
  | ok b s₁ =>
      simp only [EStateM.Result.ok.injEq, Prod.mk.injEq]
      constructor
      · rintro ⟨⟨rfl, rfl⟩, rfl⟩
        exact ⟨⟨rfl, rfl⟩, rfl⟩
      · rintro ⟨⟨rfl, rfl⟩, rfl⟩
        exact ⟨⟨rfl, rfl⟩, rfl⟩

theorem bind_counted (x : Run α) (f : α → Nat → Run β) :
    (do
      let start ← tell
      let a ← x
      let used := Size.sub (← tell) start
      f a used) = counted x >>= fun result => f result.1 result.2 := by
  funext s
  simp only [counted, bind, EStateM.bind, tell]
  cases x s <;> rfl

end Run

namespace Part

theorem parse_of_ok {p : Part} {path : Path} {s s' : State} {v : Value}
    (h : p.codec.parse path s = .ok v s') : p.parse path s = .ok v s' :=
  Run.tagged_of_ok h

theorem build_of_ok {p : Part} {v w : Value} {path : Path} {s s' : State}
    (h : p.codec.build v path s = .ok w s') : p.build v path s = .ok w s' :=
  Run.tagged_of_ok h

theorem build_eq_ok_iff {p : Part} {v w : Value} {path : Path} {s s' : State} :
    p.build v path s = .ok w s' ↔ p.codec.build v path s = .ok w s' :=
  Run.tagged_eq_ok_iff

end Part

/-- The bytes and the position that a successful run leaves. -/
def Run.left? {α : Type} : EStateM.Result Failure State α → Option (List UInt8 × Nat)
  | .ok _ s => some (s.stream.data, s.stream.pos)
  | .error _ _ => none

theorem Run.ok_of_left? {α : Type} {r : EStateM.Result Failure State α} {data : List UInt8}
    {pos : Nat} (h : left? r = some (data, pos)) :
    ∃ a s, r = .ok a s ∧ s.stream.data = data ∧ s.stream.pos = pos := by
  cases r with
  | ok a s =>
      cases h
      exact ⟨a, s, rfl, rfl, rfl⟩
  | error e s => cases h

/-- Whether a run succeeds in this way. -/
def Run.yields {α : Type} (r : EStateM.Result Failure State α) (p : α → State → Bool) : Bool :=
  match r with
  | .ok a s => p a s
  | .error _ _ => false

theorem Run.ok_of_yields {α : Type} {r : EStateM.Result Failure State α} {p : α → State → Bool}
    (h : yields r p = true) : ∃ a s, r = .ok a s ∧ p a s = true := by
  cases r with
  | ok a s => exact ⟨a, s, rfl, h⟩
  | error e s => cases h

/-! ## Frames -/

namespace Context

/-- Only private entries of the innermost frame may differ. -/
structure Quiet (before after : Context) : Prop where
  below : after.below = before.below
  deferred : after.top.deferred = before.top.deferred
  shown : ∀ name, Record.isPrivate name = false →
    Record.get? after.innermost name = Record.get? before.innermost name
  distinct : (Record.keys before.innermost).Nodup → (Record.keys after.innermost).Nodup

theorem Quiet.refl (ctx : Context) : ctx.Quiet ctx := ⟨rfl, rfl, fun _ _ => rfl, id⟩

theorem Quiet.trans {a b c : Context} (h : a.Quiet b) (h' : b.Quiet c) : a.Quiet c where
  below := h'.below.trans h.below
  deferred := h'.deferred.trans h.deferred
  shown name hn := (h'.shown name hn).trans (h.shown name hn)
  distinct hd := h'.distinct (h.distinct hd)

/-- The innermost frame may have other entries, but the queue and the frames below are
the same. -/
structure Kept (before after : Context) : Prop where
  below : after.below = before.below
  deferred : after.top.deferred = before.top.deferred

theorem Kept.refl (ctx : Context) : ctx.Kept ctx := ⟨rfl, rfl⟩

theorem Kept.trans {a b c : Context} (h : a.Kept b) (h' : b.Kept c) : a.Kept c :=
  ⟨h'.below.trans h.below, h'.deferred.trans h.deferred⟩

theorem Quiet.kept {a b : Context} (h : a.Quiet b) : a.Kept b := ⟨h.below, h.deferred⟩

theorem kept_insert (ctx : Context) (name : String) (value : Value) :
    ctx.Kept (ctx.insert name value) := ⟨rfl, rfl⟩

theorem pop_of_kept {ctx after : Context} {values : Record Value}
    (h : (ctx.push values).Kept after) : after.pop = ctx := by
  obtain ⟨below, deferred⟩ := h
  obtain ⟨⟨top, queue⟩, rest⟩ := after
  simp only [push] at below deferred
  subst below deferred
  simp [pop]

theorem quiet_insert (ctx : Context) {name : String} (h : Record.isPrivate name = true)
    (value : Value) : ctx.Quiet (ctx.insert name value) where
  below := rfl
  deferred := rfl
  shown other ho := by
    have ne : name ≠ other := by
      rintro rfl
      rw [h] at ho
      contradiction
    exact Record.get?_insert_of_ne ne ctx.innermost value
  distinct hd := Record.nodup_insert hd name value

end Context

/-! ## Byte strings -/

namespace Medium

/-- The byte string with the position moved forward. -/
def skip (m : Medium) (count : Nat) : Medium := { m with pos := m.pos + count }

@[simp] theorem skip_zero (m : Medium) : m.skip 0 = m := rfl

theorem skip_skip (m : Medium) (a b : Nat) : (m.skip a).skip b = m.skip (a + b) := by
  simp [skip, Nat.add_assoc]

@[simp] theorem skip_pos (m : Medium) (count : Nat) : (m.skip count).pos = m.pos + count := rfl

@[simp] theorem skip_data (m : Medium) (count : Nat) : (m.skip count).data = m.data := rfl

theorem rest_skip {m : Medium} {data rest : List UInt8} (h : m.rest = data ++ rest) :
    (m.skip data.length).rest = rest := by
  by_cases hb : m.pos < m.base
  · have hr : m.rest = [] := by simp [Medium.rest, hb]
    rw [hr] at h
    obtain ⟨rfl, rfl⟩ := List.append_eq_nil_iff.mp h.symm
    exact hr
  · have hr : m.rest = m.data.drop (m.pos - m.base) := by simp [Medium.rest, hb]
    have base : (m.skip data.length).base = m.base := rfl
    have past : ¬ m.pos + data.length < m.base := by omega
    rw [Medium.rest, base, skip_pos, if_neg past, skip_data]
    rw [show m.pos + data.length - m.base = m.pos - m.base + data.length by omega,
      ← List.drop_drop, ← hr, h, List.drop_left]

end Medium

namespace Stream

/-- A growing byte string at its end. -/
def atEnd (data : List UInt8) : Stream := .medium ⟨.growing, data, data.length⟩

@[simp] theorem data_atEnd (data : List UInt8) : (atEnd data).data = data := rfl

@[simp] theorem pos_atEnd (data : List UInt8) : (atEnd data).pos = data.length := rfl

theorem atEnd_inj {a b : List UInt8} (h : atEnd a = atEnd b) : a = b := by
  have h' := congrArg Stream.data h
  exact h'

end Stream

theorem Medium.overlay_at_end (data bytes : List UInt8) :
    overlay data data.length bytes = data ++ bytes := by
  simp [overlay]

namespace Run

variable {m : Medium} {ctx : Context} {store : LazyStore} {path : Path}

theorem read_of_rest {data rest : List UInt8} (h : m.rest = data ++ rest) :
    Run.read data.length path ⟨.medium m, ctx, store⟩ =
      .ok data ⟨.medium (m.skip data.length), ctx, store⟩ := by
  simp [Run.read, Stream.read, Medium.read, Medium.upTo, h, Medium.skip]

theorem read_of_rest_of_eq {data rest : List UInt8} {count : Nat}
    (h : m.rest = data ++ rest) (hc : count = data.length) :
    Run.read count path ⟨.medium m, ctx, store⟩ =
      .ok data ⟨.medium (m.skip data.length), ctx, store⟩ := by
  subst hc
  exact read_of_rest h

theorem tell_medium (m : Medium) (ctx : Context) (store : LazyStore) :
    Run.tell ⟨.medium m, ctx, store⟩ = .ok m.pos ⟨.medium m, ctx, store⟩ := rfl

theorem tell_atEnd (data : List UInt8) (ctx : Context) (store : LazyStore) :
    Run.tell ⟨.atEnd data, ctx, store⟩ = .ok data.length ⟨.atEnd data, ctx, store⟩ := rfl

theorem readAll_eq :
    Run.readAll ⟨.medium m, ctx, store⟩ =
      .ok m.rest ⟨.medium (m.skip m.rest.length), ctx, store⟩ := rfl

theorem write_atEnd (data bytes : List UInt8) :
    Run.write bytes path ⟨.atEnd data, ctx, store⟩ =
      .ok () ⟨.atEnd (data ++ bytes), ctx, store⟩ := by
  simp [Run.write, Stream.write, Stream.atEnd, Medium.write, Medium.overlay_at_end]

end Run

/-! ## Expressions with a value at hand -/

/-- A field of the innermost frame. -/
def Expr.field (name : String) : Expr := .attr .this name

/-- The number of elements of a field of the innermost frame. -/
def Expr.lengthOf (name : String) : Expr := .call .len [.field name]

namespace Denoted

theorem ofFrame_of_public {name : String} (h : Record.isPrivate name = false)
    (frames stack : List (Record Value)) :
    ofFrame frames stack name =
      match Record.get? (stack.headD []) name with
      | some v => .ok (value v)
      | none => .error (.unevaluable (.noVariable name)) := by
  have ne : ∀ other : String, Record.isPrivate other = true → name ≠ other := by
    rintro other ho rfl
    rw [h] at ho
    contradiction
  cases found : Record.get? (stack.headD []) name <;>
    simp only [ofFrame, ne "_" rfl, ne "_root" rfl, ne "_params" rfl, ne "_index" rfl, if_false,
      found]

end Denoted

namespace Expr

variable (r : Resolver) (scope : Scope) (path : Path) (store : LazyStore)

theorem evaluate_const (v : Value) : (const v).evaluate r scope path store = .ok v store := rfl

theorem denote_field {name : String} {v : Value} (hp : Record.isPrivate name = false)
    (hv : Record.get? scope.innermost name = some v) :
    denote r scope (field name) store = .ok (.value v) store := by
  have found : Denoted.ofFrame scope.frames scope.frames name = .ok (.value v) := by
    rw [Denoted.ofFrame_of_public hp]
    rw [Scope.innermost] at hv
    rw [hv]
  simp [field, denote, member, bind, EStateM.bind, pure, EStateM.pure, found, Lookup.ofExcept]

private theorem evaluate_field {name : String} {v : Value} (hp : Record.isPrivate name = false)
    (hv : Record.get? scope.innermost name = some v) :
    (field name).evaluate r scope path store = .ok v store := by
  have hd := denote_field r scope store hp hv
  rw [field] at hd ⊢
  simp [evaluate, Lookup.atPath, bind, EStateM.bind, pure, EStateM.pure, hd, Denoted.toValue]

private theorem evaluate_lengthOf {name : String} {v : Value} {n : Nat}
    (hp : Record.isPrivate name = false)
    (hv : Record.get? scope.innermost name = some v) (hn : v.length? = some n) :
    (lengthOf name).evaluate r scope path store = .ok (.ofNat n) store := by
  have hd := denote_field r scope store hp hv
  simp [lengthOf, evaluate, denote, denoteAll, Lookup.atPath, bind, EStateM.bind, pure,
    EStateM.pure, hd, Denoted.toValue, applyHelper, onlyArgument, hn]

theorem evaluateSize_of_int {x : Expr} {n : Int}
    (h : x.evaluate r scope path store = .ok (.int n) store) :
    x.evaluateSize r scope path store =
      if 0 ≤ n ∧ n ≤ Value.maxSize then .ok n.toNat store
      else .error ((Fault.miscount (.evaluated x.text n)).atPath path) store := by
  by_cases hr : 0 ≤ n ∧ n ≤ Value.maxSize
  · simp [evaluateSize, evaluateInt, bind, EStateM.bind, pure, EStateM.pure, h, Value.int?, hr]
  · simp [evaluateSize, evaluateInt, bind, EStateM.bind, pure, EStateM.pure, h, Value.int?, hr]

end Expr

namespace Engine

variable (e : Engine) {s : State} {path : Path}

/-- An expression that has a value whatever the resolver and the store, in the scope of a
state. -/
def Sees (s : State) (x : Expr) (v : Value) : Prop :=
  ∀ (r : Resolver) (path : Path) (store : LazyStore),
    x.evaluate r s.context.scope path store = .ok v store

theorem sees_const (s : State) (v : Value) : Sees s (.const v) v :=
  fun _ _ _ => rfl

theorem sees_field {name : String} {v : Value} (hp : Record.isPrivate name = false)
    (hv : Record.get? s.context.innermost name = some v) : Sees s (.field name) v :=
  fun r path store => Expr.evaluate_field r s.context.scope path store hp hv

theorem sees_lengthOf {name : String} {v : Value} {n : Nat}
    (hp : Record.isPrivate name = false)
    (hv : Record.get? s.context.innermost name = some v) (hn : v.length? = some n) :
    Sees s (.lengthOf name) (.ofNat n) :=
  fun r path store => Expr.evaluate_lengthOf r s.context.scope path store hp hv hn

theorem eval_of_sees {x : Expr} {v : Value} (h : Sees s x v) : e.eval x path s = .ok v s := by
  have hx := h e.resolver path s.store
  simp [eval, Run.lookup, Run.scope, bind, EStateM.bind, hx]

theorem evalHolds_of_sees {x : Expr} {v : Value} (h : Sees s x v) :
    e.evalHolds x path s = .ok v.holds s := by
  have hx := h e.resolver path s.store
  simp [evalHolds, Expr.evaluateHolds, Run.lookup, Run.scope, bind, EStateM.bind, pure,
    EStateM.pure, hx]

theorem evalSize_of_sees {x : Expr} {n : Nat} (h : Sees s x (.int n)) (hn : n ≤ Value.maxSize) :
    e.evalSize x path s = .ok n s := by
  have range : (0 : Int) ≤ n ∧ (n : Int) ≤ Value.maxSize := by omega
  have hx := Expr.evaluateSize_of_int e.resolver s.context.scope path s.store
    (h e.resolver path s.store)
  rw [if_pos range] at hx
  simp [evalSize, Run.lookup, Run.scope, bind, EStateM.bind, hx]

theorem evalSize_eq_ok_iff {x : Expr} {n : Int} {k : Nat} {s' : State}
    (h : Sees s x (.int n)) :
    e.evalSize x path s = .ok k s' ↔ n = k ∧ k ≤ Value.maxSize ∧ s = s' := by
  have hx := Expr.evaluateSize_of_int e.resolver s.context.scope path s.store
    (h e.resolver path s.store)
  by_cases range : 0 ≤ n ∧ n ≤ Value.maxSize
  · rw [if_pos range] at hx
    simp only [evalSize, Run.lookup, Run.scope, bind, EStateM.bind, hx,
      EStateM.Result.ok.injEq]
    constructor
    · rintro ⟨rfl, rfl⟩
      refine ⟨by omega, by omega, rfl⟩
    · rintro ⟨rfl, -, rfl⟩
      simp
  · rw [if_neg range] at hx
    simp only [evalSize, Run.lookup, Run.scope, bind, EStateM.bind, hx]
    constructor
    · intro hk
      contradiction
    · rintro ⟨rfl, hk, -⟩
      exact absurd ⟨by omega, by omega⟩ range

end Engine

namespace Codec

theorem evalSize_const {n : Nat} (e : Engine) (path : Path) (s : State)
    (small : n ≤ Value.maxSize) : e.evalSize (.const (.int n)) path s = .ok n s :=
  e.evalSize_of_sees (Engine.sees_const s _) small

end Codec

end BinaryFormat
