import BinaryFormat.Proofs.Deferral

/-!
# Runs that cannot tell streams apart

A relation between streams stands for two ways to reach the same bytes.  A run
is blind to it if over related streams it does the same: it succeeds with the
same value, the same entries and the same store and leaves related streams, or
it fails with the same fault.  What a component needs is that the relation
survives the operations it uses, reading for parsing and writing for building.
-/

namespace BinaryFormat

/-! ## Two outcomes -/

/-- Two outcomes that no one can tell apart who does not see their streams.  Nothing was
queued on the way from the context `ctx`. -/
inductive Agree {α : Type} (R : Stream → Stream → Prop) (ctx : Context) :
    EStateM.Result Failure State α → EStateM.Result Failure State α → Prop
  | ok {a : α} {s t : Stream} {ctx' : Context} {store : LazyStore} (related : R s t)
      (kept : ctx.Kept ctx') : Agree R ctx (.ok a ⟨s, ctx', store⟩) (.ok a ⟨t, ctx', store⟩)
  | error {f g : Failure} {s t : State} (same : f.fault = g.fault) :
      Agree R ctx (.error f s) (.error g t)

namespace Agree

variable {α β : Type} {R : Stream → Stream → Prop} {ctx ctx' : Context}

private theorem after {r r' : EStateM.Result Failure State α} (h : Agree R ctx' r r')
    (kept : ctx.Kept ctx') : Agree R ctx r r' := by
  cases h with
  | ok related kept' => exact .ok related (kept.trans kept')
  | error same => exact .error same

theorem bind {x y : Run α} {f g : α → Run β} {s t : State}
    (h : Agree R ctx (x s) (y t))
    (next : ∀ (a : α) (s t : Stream) (ctx' : Context) (store : LazyStore), R s t →
      ctx.Kept ctx' → Agree R ctx' (f a ⟨s, ctx', store⟩) (g a ⟨t, ctx', store⟩)) :
    Agree R ctx ((x >>= f) s) ((y >>= g) t) := by
  simp only [Bind.bind, EStateM.bind]
  generalize x s = r at h
  generalize y t = r' at h
  cases h with
  | ok related kept => exact (next _ _ _ _ _ related kept).after kept
  | error same => exact .error same

/-- What a run over the one stream says about the run over the other. -/
theorem of_ok {r r' : EStateM.Result Failure State α} {a : α} {s : State}
    (h : Agree R ctx r r') (ok : r = .ok a s) :
    ∃ t, r' = .ok a ⟨t, s.context, s.store⟩ ∧ R s.stream t ∧ ctx.Kept s.context := by
  cases h with
  | ok related kept =>
      cases ok
      exact ⟨_, rfl, related, kept⟩
  | error same => cases ok

theorem of_error {r r' : EStateM.Result Failure State α} {f : Failure} {s : State}
    (h : Agree R ctx r r') (failed : r = .error f s) :
    ∃ g t, r' = .error g t ∧ g.fault = f.fault := by
  cases h with
  | ok related kept => cases failed
  | error same =>
      cases failed
      exact ⟨_, _, rfl, same.symm⟩

end Agree

/-! ## Blind runs -/

namespace Run

/-- Over related streams the run does the same, whenever the innermost frame has queued
`queue`. -/
def Blind {α : Type} (R : Stream → Stream → Prop) (queue : List Deferred) (x : Run α) : Prop :=
  ∀ (s t : Stream) (ctx : Context) (store : LazyStore), ctx.top.deferred = queue → R s t →
    Agree R ctx (x ⟨s, ctx, store⟩) (x ⟨t, ctx, store⟩)

/-- Positions of related streams are always the same distance apart. -/
def Shifted (R : Stream → Stream → Prop) : Prop := ∃ d, ∀ s t, R s t → s.pos = t.pos + d

section

variable {α β : Type} {R : Stream → Stream → Prop} {queue : List Deferred} {x : Run α}

theorem blind_pure (a : α) : (pure a : Run α).Blind R queue := fun _ _ ctx _ _ related =>
  .ok related (.refl ctx)

private theorem blind_throw (failure : Failure) : (throw failure : Run α).Blind R queue :=
  fun _ _ _ _ _ _ => .error rfl

theorem blind_fail (fault : Fault) (path : Path) : (fail fault path : Run α).Blind R queue :=
  blind_throw _

theorem blind_ofExcept (path : Path) (result : Except Fault α) :
    (ofExcept path result).Blind R queue := by
  cases result with
  | ok a => exact blind_pure a
  | error fault => exact blind_fail fault path

theorem Blind.bind {f : α → Run β} (h : x.Blind R queue) (next : ∀ a, (f a).Blind R queue) :
    (x >>= f).Blind R queue := fun s t ctx store queued related =>
  (h s t ctx store queued related).bind fun a s t ctx store related kept =>
    next a s t ctx store (kept.deferred.trans queued) related

theorem blind_ite {c : Prop} [Decidable c] {y : Run α} (h : x.Blind R queue)
    (h' : y.Blind R queue) :
    (if c then x else y).Blind R queue := by
  by_cases hc : c
  · rwa [if_pos hc]
  · rwa [if_neg hc]

theorem blind_guard {c : Prop} [Decidable c] {fault : Fault} {path : Path} (h : x.Blind R queue) :
    (do
      if c then Run.fail fault path
      x : Run α).Blind R queue :=
  blind_ite (.bind (blind_fail fault path) fun _ => h) h

theorem blind_lookup (y : Lookup Failure α) : (lookup y).Blind R queue := by
  intro s t ctx store queued related
  unfold lookup
  dsimp only
  cases y store with
  | ok a store' => exact .ok related (.refl ctx)
  | error failure store' => exact .error rfl

theorem blind_dump (v : Value) : (dump v).Blind R queue := blind_lookup _

theorem blind_context : context.Blind R queue := fun _ _ ctx _ _ related => .ok related (.refl ctx)

theorem blind_scope : scope.Blind R queue := fun _ _ ctx _ _ related => .ok related (.refl ctx)

theorem blind_insert (name : String) (v : Value) : (insert name v).Blind R queue :=
  fun _ _ ctx _ _ related => .ok related (ctx.kept_insert name v)

theorem Blind.tagged (h : x.Blind R queue) : (tagged x).Blind R queue := by
  intro s t ctx store queued related
  have agree := h s t ctx store queued related
  unfold Run.tagged
  generalize x ⟨s, ctx, store⟩ = r at agree
  generalize x ⟨t, ctx, store⟩ = r' at agree
  cases agree with
  | ok related kept => exact .ok related kept
  | error same => exact .error same

theorem Blind.inFrame (h : x.Blind R []) (values : Record Value) :
    (inFrame values x).Blind R queue := by
  intro s t ctx store queued related
  have agree := h s t (ctx.push values) store rfl related
  unfold Run.inFrame
  dsimp only
  generalize x ⟨s, ctx.push values, store⟩ = r at agree
  generalize x ⟨t, ctx.push values, store⟩ = r' at agree
  cases agree with
  | ok related kept =>
      refine .ok related ?_
      rw [Context.pop_of_kept kept]
      exact .refl ctx
  | error same => exact .error same

private theorem Blind.counted (shift : Shifted R) (h : x.Blind R queue) :
    (counted x).Blind R queue := by
  obtain ⟨d, apart⟩ := shift
  intro s t ctx store queued related
  have agree := h s t ctx store queued related
  unfold Run.counted
  simp only [Bind.bind, EStateM.bind, tell]
  generalize x ⟨s, ctx, store⟩ = r at agree
  generalize x ⟨t, ctx, store⟩ = r' at agree
  cases agree with
  | ok related' kept =>
      dsimp only [Pure.pure, EStateM.pure]
      rw [apart _ _ related, apart _ _ related', Size.sub_add_right]
      exact .ok related' kept
  | error same => exact .error same

/-- A run between two looks at the position, in front of what depends on how far it went. -/
theorem Blind.measured {f : α → Nat → Run β} (shift : Shifted R) (h : x.Blind R queue)
    (next : ∀ a n, (f a n).Blind R queue) :
    (do
      let start ← tell
      let a ← x
      let used := Size.sub (← tell) start
      f a used).Blind R queue := by
  rw [bind_counted]
  exact .bind (h.counted shift) fun result => next result.1 result.2

/-! ### The queue -/

theorem blind_mark {f : Nat → Run α} (h : (f queue.length).Blind R queue) :
    (mark >>= f).Blind R queue := by
  intro s t ctx store queued related
  have marked : ctx.mark = queue.length := congrArg List.length queued
  show Agree R ctx (f ctx.mark _) (f ctx.mark _)
  rw [marked]
  exact h s t ctx store queued related

private theorem rebaseSince_of_queue {ctx : Context} (queued : ctx.top.deferred = queue)
    (base : Nat) :
    ctx.rebaseSince queue.length base = ctx := by
  subst queued
  simp [Context.rebaseSince, Context.withDeferred]

private theorem discardSince_of_queue {ctx : Context} (queued : ctx.top.deferred = queue) :
    ctx.discardSince queue.length = ctx := by
  subst queued
  simp [Context.discardSince, Context.withDeferred]

theorem blind_discardSince :
    (modifyContext (·.discardSince queue.length)).Blind R queue := by
  intro s t ctx store queued related
  refine .ok related ?_
  dsimp only
  rw [discardSince_of_queue queued]
  exact .refl ctx

theorem resolveSince_of_queue (e : Engine) {s : State} (queued : s.context.top.deferred = queue)
    (strict : Bool) : e.resolveSince queue.length strict s = .ok () s := by
  subst queued
  have nothing : s.context.top.deferred.drop s.context.top.deferred.length = [] := by simp
  rw [e.resolveSince_apply, nothing]
  simp [Engine.applyPatches, Context.discardSince, Context.withDeferred,
    bind_of_ok (pure_apply _ _),
    modifyContext]

private theorem blind_resolveSince (e : Engine) (strict : Bool) :
    (e.resolveSince queue.length strict).Blind R queue := by
  intro s t ctx store queued related
  rw [resolveSince_of_queue e queued, resolveSince_of_queue e queued]
  exact .ok related (.refl ctx)

theorem blind_resolvePending (e : Engine) : e.resolvePending.Blind R [] :=
  blind_resolveSince e false

end

/-! ## Streams of their own -/

/-- The same growing byte string. -/
def Identical (s t : Stream) : Prop := ∃ data pos, s = .growing data pos ∧ t = .growing data pos

private theorem shifted_identical : Shifted Identical := by
  refine ⟨0, ?_⟩
  rintro _ _ ⟨data, pos, rfl, rfl⟩
  rfl

/-- A run over a byte string of its own does not see the stream outside. -/
theorem Blind.onStream {α : Type} {R : Stream → Stream → Prop} {queue : List Deferred}
    {x : Run α} (h : x.Blind Identical queue) (data : List UInt8) :
    (onStream (.memory data) x).Blind R queue := by
  intro s t ctx store queued related
  have agree := h (.memory data) (.memory data) ctx store queued ⟨data, 0, rfl, rfl⟩
  unfold Run.onStream
  dsimp only
  generalize x ⟨.memory data, ctx, store⟩ = r at agree
  cases agree with
  | ok inside kept =>
      obtain ⟨data', pos, rfl, -⟩ := inside
      exact .ok related kept
  | error same => exact .error same

/-! ## Reading and writing -/

/-- Whoever reads from related streams gets the same.  Reading comes to an end. -/
structure Readable (R : Stream → Stream → Prop) : Prop where
  shifted : Shifted R
  read : ∀ (s t : Stream) (n : Nat), R s t →
    (∃ data s' t', s.read (some n) = (data, s') ∧ t.read (some n) = (data, t') ∧
      data.length = n ∧ R s' t' ∧
      (0 < n → s'.available < s.available ∧ t'.available < t.available)) ∨
    ∃ data data' s' t', s.read (some n) = (data, s') ∧ t.read (some n) = (data', t') ∧
      data.length = data'.length ∧ data.length ≠ n

/-- Whoever writes to related streams writes the same. -/
structure Writable (R : Stream → Stream → Prop) : Prop where
  shifted : Shifted R
  write : ∀ (s t : Stream) (bytes : List UInt8), R s t →
    ∃ s' t', s.write bytes = (none, s') ∧ t.write bytes = (none, t') ∧ R s' t'

section

variable {R : Stream → Stream → Prop} {queue : List Deferred} {s t : Stream}

/-- Both of two reads get the same and leave less, or neither gets what it wants. -/
theorem Readable.cases (h : Readable R) (n : Nat) (path : Path) (ctx : Context)
    (store : LazyStore) (related : R s t) :
    (∃ data s' t', Run.read n path ⟨s, ctx, store⟩ = .ok data ⟨s', ctx, store⟩ ∧
      Run.read n path ⟨t, ctx, store⟩ = .ok data ⟨t', ctx, store⟩ ∧ R s' t' ∧
      (0 < n → s'.available < s.available ∧ t'.available < t.available)) ∨
    ∃ got s₁ t₁, Run.read n path ⟨s, ctx, store⟩ =
        .error ((Fault.shortage (.read n got)).atPath path) s₁ ∧
      Run.read n path ⟨t, ctx, store⟩ =
        .error ((Fault.shortage (.read n got)).atPath path) t₁ := by
  rcases h.read s t n related with
    ⟨data, s', t', first, second, full, related', less⟩ |
    ⟨data, data', s', t', first, second, same, short⟩
  · refine .inl ⟨data, s', t', ?_, ?_, related', less⟩
    · simp [Run.read, first, full]
    · simp [Run.read, second, full]
  · refine .inr ⟨data.length, ⟨s', ctx, store⟩, ⟨t', ctx, store⟩, ?_, ?_⟩
    · simp [Run.read, first, short]
    · simp [Run.read, second, same ▸ short, same]

theorem Readable.blind_read (h : Readable R) (n : Nat) (path : Path) :
    (Run.read n path).Blind R queue := by
  intro s t ctx store queued related
  rcases h.cases n path ctx store related with ⟨data, s', t', first, second, related', -⟩ |
    ⟨got, s₁, t₁, first, second⟩
  · rw [first, second]
    exact .ok related' (.refl ctx)
  · rw [first, second]
    exact .error rfl

theorem Writable.blind_write (h : Writable R) (bytes : List UInt8) (path : Path) :
    (Run.write bytes path).Blind R queue := by
  intro s t ctx store queued related
  obtain ⟨s', t', first, second, related'⟩ := h.write s t bytes related
  have here : Run.write bytes path ⟨s, ctx, store⟩ = .ok () ⟨s', ctx, store⟩ := by
    simp [Run.write, first]
  have there : Run.write bytes path ⟨t, ctx, store⟩ = .ok () ⟨t', ctx, store⟩ := by
    simp [Run.write, second]
  rw [here, there]
  exact .ok related' (.refl ctx)

/-- Nothing has to be moved to where the copy lands, which need not be the same place. -/
theorem Writable.blind_splice (h : Writable R) (data : List UInt8) (path : Path) :
    (Run.splice data queue.length path).Blind R queue := by
  intro s t ctx store queued related
  have written := h.blind_write data path s t ctx store queued related
  refine written.bind (f := fun _ => modifyContext (·.rebaseSince queue.length s.pos))
    (g := fun _ => modifyContext (·.rebaseSince queue.length t.pos)) ?_
  intro _ s' t' ctx' store' related' kept
  have queued' := kept.deferred.trans queued
  show Agree R ctx' (.ok () ⟨s', ctx'.rebaseSince queue.length s.pos, store'⟩)
    (.ok () ⟨t', ctx'.rebaseSince queue.length t.pos, store'⟩)
  rw [rebaseSince_of_queue queued', rebaseSince_of_queue queued']
  exact .ok related' (.refl ctx')

end

/-! ### The same byte string on both sides -/

theorem Medium.read_of_le {m : Medium} {n : Nat} (enough : n ≤ m.rest.length) :
    (Stream.medium m).read (some n) = (m.rest.take n, .medium (m.skip n)) := by
  have size : (m.rest.take n).length = n := by
    rw [List.length_take, Nat.min_eq_left enough]
  simp only [Stream.read, Medium.read, Medium.upTo, size]
  rfl

theorem Medium.read_of_lt {m : Medium} {n : Nat} (short : m.rest.length < n) :
    (Stream.medium m).read (some n) = (m.rest, .medium (m.skip m.rest.length)) := by
  simp only [Stream.read, Medium.read, Medium.upTo, List.take_of_length_le (Nat.le_of_lt short)]
  rfl

theorem readable_identical : Readable Identical where
  shifted := shifted_identical
  read := by
    rintro _ _ n ⟨data, pos, rfl, rfl⟩
    rcases Nat.lt_or_ge (⟨.growing, data, pos⟩ : Medium).rest.length n with short | enough
    · exact .inr ⟨_, _, _, _, Medium.read_of_lt short, Medium.read_of_lt short, rfl,
        Nat.ne_of_lt short⟩
    · have size := List.length_take_of_le enough
      have left : ((⟨.growing, data, pos⟩ : Medium).skip n).rest.length =
          (⟨.growing, data, pos⟩ : Medium).rest.length - n := by
        simp [Medium.rest, Medium.skip, Medium.base]
        omega
      refine .inl ⟨_, _, _, Medium.read_of_le enough, Medium.read_of_le enough, size,
        ⟨data, pos + n, rfl, rfl⟩, fun some => ?_⟩
      have less : (Stream.medium ((⟨.growing, data, pos⟩ : Medium).skip n)).available <
          (Stream.growing data pos).available := by
        show ((⟨.growing, data, pos⟩ : Medium).skip n).rest.length < _
        rw [left]
        exact Nat.sub_lt (Nat.lt_of_lt_of_le some enough) some
      exact ⟨less, less⟩

theorem writable_identical : Writable Identical where
  shifted := shifted_identical
  write := by
    rintro _ _ bytes ⟨data, pos, rfl, rfl⟩
    exact ⟨_, _, rfl, rfl, _, _, rfl, rfl⟩

end Run

end BinaryFormat
