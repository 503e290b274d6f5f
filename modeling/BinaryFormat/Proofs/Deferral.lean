import BinaryFormat.Format.Meaning
import BinaryFormat.Proofs.Run
import BinaryFormat.Proofs.Streams

/-!
# Deferring and applying, step by step

A component whose value is still pending reserves its bytes and queues a patch.
A resolution leaves pending patches as they are; an applied one writes over its
reserved bytes, returns to the position, and may note its value.
-/

namespace BinaryFormat

/-! ## Growing byte strings -/

private theorem Medium.seek_start {data : List UInt8} {pos offset : Nat} {m : Medium}
    (h : Medium.seek ⟨.growing, data, pos⟩ (.start offset) = .ok m) :
    m = ⟨.growing, data, offset⟩ := by
  unfold Medium.seek at h
  dsimp only [Medium.target] at h
  split at h
  · cases h
    rfl
  · cases h

namespace Stream

/-- A growing byte string at a position. -/
def growing (data : List UInt8) (pos : Nat) : Stream := .medium ⟨.growing, data, pos⟩

@[simp] theorem data_growing (data : List UInt8) (pos : Nat) : (growing data pos).data = data := rfl

@[simp] theorem pos_growing (data : List UInt8) (pos : Nat) : (growing data pos).pos = pos := rfl

theorem atEnd_eq (data : List UInt8) : atEnd data = growing data data.length := rfl

theorem state_overlay_at_end (before : List UInt8) {bytes : List UInt8} {count : Nat}
    (all : bytes.length = count) (ctx : Context) (store : LazyStore) :
    (⟨growing (Medium.overlay before before.length bytes) (before.length + count), ctx,
      store⟩ : State) = ⟨atEnd (before ++ bytes), ctx, store⟩ := by
  rw [Medium.overlay_at_end, ← all, ← List.length_append]
  rfl

theorem growing_of_alike {data : List UInt8} {pos : Nat} {s : Stream}
    (h : (growing data pos).Alike s) : ∃ data' pos', s = growing data' pos' := by
  cases s with
  | medium m =>
      obtain ⟨backing, data', pos'⟩ := m
      obtain rfl : backing = .growing := h
      exact ⟨data', pos', rfl⟩
  | view v outer => exact h.elim

end Stream

namespace Run

variable {data : List UInt8} {pos : Nat} {ctx : Context} {store : LazyStore} {path : Path}

theorem write_growing (bytes : List UInt8) :
    write bytes path ⟨.growing data pos, ctx, store⟩ =
      .ok () ⟨.growing (Medium.overlay data pos bytes) (pos + bytes.length), ctx, store⟩ := rfl

private theorem seek_medium {m : Medium} {dest : SeekTo} {reached : Nat} {s' : State}
    (run : seek dest path ⟨.medium m, ctx, store⟩ = .ok reached s') :
    ∃ m', m.seek dest = .ok m' ∧ s' = ⟨.medium m', ctx, store⟩ := by
  have moved : (Stream.medium m).seek dest = (Stream.medium m).moved dest := by
    cases dest <;> rfl
  cases found : m.seek dest with
  | error fault => simp [seek, moved, Stream.moved, found] at run
  | ok m' =>
      simp only [seek, moved, Stream.moved, found, EStateM.Result.ok.injEq] at run
      exact ⟨m', rfl, run.2.symm⟩

theorem seek_growing {offset reached : Nat} {s' : State}
    (run : seek (.start offset) path ⟨.growing data pos, ctx, store⟩ = .ok reached s') :
    s' = ⟨.growing data offset, ctx, store⟩ := by
  obtain ⟨m, found, rfl⟩ := seek_medium run
  rw [Medium.seek_start found, Stream.growing]

private theorem context_apply (s : State) : Run.context s = .ok s.context s := rfl

theorem tell_apply (s : State) : Run.tell s = .ok s.stream.pos s := rfl

private theorem goTo_apply (pos : Nat) (s : State) :
    Run.goTo pos s = .ok () { s with stream := s.stream.setPos pos } := rfl

end Run

/-! ## Sizes known without data -/

theorem Engine.staticSize_const (e : Engine) {n : Nat} (small : n ≤ Value.maxSize)
    (ctx : Context) (path : Path) (store : LazyStore) :
    e.staticSize (.const (.int n)) ctx path store = .ok n store := by
  have h := Expr.evaluateSize_of_int e.resolver ctx.scope path store (x := .const (.int n)) rfl
  rw [if_pos ⟨by omega, by omega⟩] at h
  simp [staticSize, Lookup.outcome, bind, EStateM.bind, pure, EStateM.pure, h]

theorem Codec.sizeNow_of_ok {c : Codec} {path : Path} {s : State} {n : Nat}
    (h : c.size s.context path s.store = .ok n s.store) : c.sizeNow path s = .ok n s := by
  have now : Run.lookup (c.size s.context path) s = .ok n s := by
    rw [Run.lookup, h]
  exact now

/-! ## Deferring -/

/-- A computation that fails for want of a value and resolves no lazy member. -/
def Lookup.Pending {α : Type} (x : Lookup Failure α) (store : LazyStore) : Prop :=
  ∃ failure, x store = .error failure store ∧ failure.fault.isPending = true

namespace Codec

variable {e : Engine} {of : Part} {path : Path} {data : List UInt8} {pos size : Nat}
  {ctx : Context} {store : LazyStore}

/-- The patch that is queued for reserved bytes. -/
def reservation (of : Part) (patch : Patch) (path : Path) (offset size : Nat) : Deferred :=
  ⟨offset, size, of.format, patch, path, 0, []⟩

theorem reserve_apply (patch : Patch) (known : of.codec.size ctx path store = .ok size store) :
    reserve of patch path ⟨.growing data pos, ctx, store⟩ =
      .ok .none ⟨.growing (Medium.overlay data pos (List.replicate size 0)) (pos + size),
        ctx.defer (reservation of patch path pos size), store⟩ := by
  have now := sizeNow_of_ok (s := ⟨.growing data pos, ctx, store⟩) known
  rw [reserve, Run.bind_of_ok now, Run.bind_of_ok (Run.tell_apply _),
    Run.bind_of_ok (Run.write_growing _), List.length_replicate]
  rfl

theorem rebuild_of_pending {expr : Expr} (v : Value)
    (pending : (expr.evaluate e.resolver ctx.scope path).Pending store)
    (known : of.codec.size ctx path store = .ok size store) :
    (rebuild e of expr).build v path ⟨.growing data pos, ctx, store⟩ =
      .ok .none ⟨.growing (Medium.overlay data pos (List.replicate size 0)) (pos + size),
        ctx.defer (reservation of (.value expr) path pos size), store⟩ := by
  obtain ⟨failure, failed, waits⟩ := pending
  have eval : e.eval expr path ⟨.growing data pos, ctx, store⟩ =
      .error failure ⟨.growing data pos, ctx, store⟩ := by
    simp [Engine.eval, Run.lookup, Run.scope, bind, EStateM.bind, failed]
  have now := sizeNow_of_ok (s := ⟨.growing data pos, ctx, store⟩) known
  rw [← reserve_apply (.value expr) known]
  simp only [rebuild, Run.bind_of_ok (Run.outcome_of_error eval), waits, if_true,
    Run.bind_of_ok (Run.outcome_of_ok now)]

theorem checksum_of_pending {hash : Hash} {expr : Expr} (v : Value)
    (pending : (expr.evaluate e.resolver ctx.scope path).Pending store)
    (known : of.codec.size ctx path store = .ok size store) :
    (checksum e of hash expr).build v path ⟨.growing data pos, ctx, store⟩ =
      .ok .none ⟨.growing (Medium.overlay data pos (List.replicate size 0)) (pos + size),
        ctx.defer (reservation of (.checksum expr hash) path pos size), store⟩ := by
  obtain ⟨failure, failed, waits⟩ := pending
  have compute : (e.eval expr path >>= fun input =>
      Run.ofExcept path (Checksum.digest hash input)) ⟨.growing data pos, ctx, store⟩ =
      .error failure ⟨.growing data pos, ctx, store⟩ := by
    simp [Engine.eval, Run.lookup, Run.scope, bind, EStateM.bind, failed]
  rw [← reserve_apply (.checksum expr hash) known]
  simp only [checksum, Run.bind_of_ok (Run.outcome_of_error compute), waits, if_true]

end Codec

/-! ## Resolving -/

namespace Context

theorem kept_noted (ctx : Context) (d : Deferred) (built : Value) :
    ctx.Kept (ctx.noted d built) := by
  unfold noted
  split
  · split
    · split
      · exact kept_insert ctx _ built
      · exact .refl ctx
    · exact .refl ctx
  · exact .refl ctx

theorem noted_of_left {ctx : Context} {d : Deferred} (left : d.scopes ≠ []) (built : Value) :
    ctx.noted d built = ctx := by
  have moved : d.scopes.isEmpty = false := by simpa using left
  simp [noted, moved]

end Context

namespace Engine

variable {e : Engine}

/-- How a patch is applied: its value is built over the reserved bytes and has to fill
them. -/
theorem applyPatch_of_ok {d : Deferred} {value : Value} {s s' : State}
    (run : e.applyPatch d value s = .ok () s') :
    ∃ reached s₁ built s₂, Run.seek (.start d.offset) d.path s = .ok reached s₁ ∧
      e.build d.field value d.path s₁ = .ok built s₂ ∧
      Size.sub s₂.stream.pos d.offset = d.size ∧
      s' = ⟨s₂.stream.setPos s.stream.pos, s₂.context.noted d built, s₂.store⟩ := by
  unfold applyPatch at run
  rw [Run.bind_of_ok (Run.tell_apply s)] at run
  obtain ⟨reached, s₁, sought, run⟩ := Run.bind_eq_ok_iff.mp run
  obtain ⟨built, s₂, made, run⟩ := Run.bind_eq_ok_iff.mp run
  rw [Run.bind_of_ok (Run.tell_apply s₂)] at run
  dsimp only at run
  rw [Run.bind_of_ok (Run.goTo_apply _ s₂)] at run
  obtain ⟨fills, run⟩ := Run.guard_eq_ok_iff.mp run
  cases run
  exact ⟨reached, s₁, built, s₂, sought, made, Decidable.not_not.mp fills, rfl⟩

theorem applyPatches_of_value {strict : Bool} {d : Deferred} {rest : List Deferred} {s : State}
    {value : Value}
    (h : d.patch.compute e.resolver (s.context.scopeOf d) d.path s.store = .ok value s.store) :
    e.applyPatches strict (d :: rest) s =
      (e.applyPatch d value >>= fun _ => e.applyPatches strict rest) s := by
  have now : Run.lookup (d.patch.compute e.resolver (s.context.scopeOf d) d.path) s =
      .ok value s := by
    rw [Run.lookup, h]
  rw [applyPatches, Run.bind_of_ok (Run.context_apply s), Run.bind_of_ok (Run.outcome_of_ok now)]

/-- What a resolution does with the first patch: it is applied if it can be computed, and left to a
later resolution if it cannot be computed yet and this one is lenient. -/
theorem applied_or_left_of_applyPatches {strict : Bool} {d : Deferred}
    {rest unresolved : List Deferred} {s s' : State}
    (run : e.applyPatches strict (d :: rest) s = .ok unresolved s') :
    (∃ value store s₁,
      d.patch.compute e.resolver (s.context.scopeOf d) d.path s.store = .ok value store ∧
      e.applyPatch d value { s with store := store } = .ok () s₁ ∧
      e.applyPatches strict rest s₁ = .ok unresolved s') ∨
    ∃ failure store others, strict = false ∧
      d.patch.compute e.resolver (s.context.scopeOf d) d.path s.store = .error failure store ∧
      failure.fault.isPending = true ∧
      e.applyPatches strict rest { s with store := store } = .ok others s' ∧
      unresolved = d :: others := by
  rw [applyPatches, Run.bind_of_ok (Run.context_apply s)] at run
  cases computed : d.patch.compute e.resolver (s.context.scopeOf d) d.path s.store with
  | ok value store =>
      rw [Run.bind_of_ok (Run.outcome_of_ok (Run.lookup_of_ok computed))] at run
      obtain ⟨_, s₁, applied, later⟩ := Run.bind_eq_ok_iff.mp run
      exact .inl ⟨value, store, s₁, rfl, applied, later⟩
  | error failure store =>
      rw [Run.bind_of_ok (Run.outcome_of_error (Run.lookup_of_error computed))] at run
      dsimp only at run
      split at run
      · next waits =>
          obtain ⟨others, s₁, later, last⟩ := Run.bind_eq_ok_iff.mp run
          obtain ⟨rfl, rfl⟩ := Run.pure_eq_ok_iff.mp last
          obtain ⟨lenient, pending⟩ := Bool.and_eq_true_iff.mp waits
          exact .inr ⟨failure, store, others, by simpa using lenient, rfl, pending, later, rfl⟩
      · cases run

private theorem applyPatches_of_pending {pending : List Deferred} {s : State}
    (h : ∀ d ∈ pending,
      (d.patch.compute e.resolver (s.context.scopeOf d) d.path).Pending s.store) :
    e.applyPatches false pending s = .ok pending s := by
  induction pending with
  | nil => rfl
  | cons d rest ih =>
      obtain ⟨failure, failed, waits⟩ := h d List.mem_cons_self
      have now : Run.lookup (d.patch.compute e.resolver (s.context.scopeOf d) d.path) s =
          .error failure s := by
        rw [Run.lookup, failed]
      have later := ih fun d' hd' => h d' (List.mem_cons_of_mem d hd')
      rw [applyPatches, Run.bind_of_ok (Run.context_apply s),
        Run.bind_of_ok (Run.outcome_of_error now)]
      simp only [waits, Bool.not_false, Bool.and_self, if_true]
      rw [Run.bind_of_ok later]
      rfl

theorem resolveSince_of_empty {s : State} (empty : s.context.top.deferred = []) (mark : Nat)
    (strict : Bool) : e.resolveSince mark strict s = .ok () s := by
  obtain ⟨stream, ⟨⟨values, deferred⟩, below⟩, store⟩ := s
  obtain rfl : deferred = [] := empty
  cases mark <;> rfl

/-- A resolution takes the patches off the queue and puts back those that are pending. -/
theorem resolveSince_apply (mark : Nat) (strict : Bool) (s : State) :
    e.resolveSince mark strict s =
      (e.applyPatches strict (s.context.top.deferred.drop mark) >>= fun unresolved =>
        Run.modifyContext fun ctx => ctx.withDeferred (ctx.top.deferred ++ unresolved))
      { s with context := s.context.discardSince mark } := rfl

theorem resolvePending_of_empty (e : Engine) {s : State} (empty : s.context.top.deferred = []) :
    e.resolvePending s = .ok () s := resolveSince_of_empty empty 0 false

theorem resolvePending_of_pending {s : State}
    (h : ∀ d ∈ s.context.top.deferred,
      (d.patch.compute e.resolver (s.context.scopeOf d) d.path).Pending s.store) :
    e.resolvePending s = .ok () s := by
  obtain ⟨stream, ⟨⟨values, deferred⟩, below⟩, store⟩ := s
  have stay : e.applyPatches false deferred ⟨stream, ⟨⟨values, []⟩, below⟩, store⟩ =
      .ok deferred ⟨stream, ⟨⟨values, []⟩, below⟩, store⟩ := applyPatches_of_pending h
  rw [resolvePending, resolveSince_apply]
  exact Run.bind_of_ok stay _

end Engine

/-! ## Fields and whole runs -/

namespace Format

theorem buildFields_of_given {field : Part} {rest : List Part} {name : String} {v : Value}
    {input : Record Value} {path : Path} {s s' : State}
    (plain : field.format.isEmbedded = false) (own : field.name? = some name)
    (given : Record.get? input name = some v)
    (run : Codec.buildFields input path (field :: rest) s = .ok () s') :
    ∃ built s₁, field.build v (path.member name) s = .ok built s₁ ∧
      Codec.buildFields input path rest { s₁ with context := s₁.context.insert name built } =
        .ok () s' := by
  simp only [Codec.buildFields, plain, own, Bool.false_eq_true, if_false, Codec.fieldInput,
    given] at run
  rw [Run.bind_of_ok (Run.pure_apply v s)] at run
  obtain ⟨built, s₁, here, run⟩ := Run.bind_eq_ok_iff.mp run
  exact ⟨built, s₁, here, run⟩

/-- The engine that runs formats inside of a run. -/
def inner (defs : Definitions) : Engine := .level defs (Engine.depthLimit - 1)

theorem build_of_buildBytes {defs : Definitions} {f : Format} {params : Record Value}
    {store : LazyStore} {u w : Value} {s : State}
    (h : f.buildBytes (.ofDefinitions defs) u params store = .ok w s) :
    ∃ s₁, (f.codec (inner defs) defs).build u .this ⟨.atEnd [], .ofParams params, store⟩ =
        .ok w s₁ ∧ (Engine.ofDefinitions defs).resolveSince 0 true s₁ = .ok () s := by
  obtain ⟨w', s₁, built, rest⟩ := Run.bind_eq_ok_iff.mp h
  obtain ⟨_, s₂, resolved, rest⟩ := Run.bind_eq_ok_iff.mp rest
  cases rest
  exact ⟨s₁, Run.tagged_eq_ok_iff.mp built, resolved⟩

/-- What leaves no patch behind is a whole run. -/
theorem buildBytes_of_build {defs : Definitions} {f : Format} {params : Record Value}
    {store : LazyStore} {u w : Value} {s : State} (settled : s.context.top.deferred = [])
    (built : (f.codec (inner defs) defs).build u .this ⟨.atEnd [], .ofParams params, store⟩ =
      .ok w s) : f.buildBytes (.ofDefinitions defs) u params store = .ok w s := by
  have resolved := (Engine.ofDefinitions defs).resolveSince_of_empty settled 0 true
  exact (Run.bind_of_ok (Run.tagged_of_ok built) _).trans (Run.bind_of_ok resolved _)

end Format

end BinaryFormat
