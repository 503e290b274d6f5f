import BinaryFormat.Proofs.FixedWidth
import BinaryFormat.Proofs.BackPatching.Layers

/-!
# One patch and what it writes

A field that is computed when it is built is built at once, or its bytes are reserved for a patch.
Where no lazy member is resolved on the way, a patch that is not computed yet leaves everything
as it is; one that is computed replaces its bytes and may be noted.
-/

namespace BinaryFormat

/-! ## Computing a value -/

namespace Patch

/-- Over frames without lazy parts the patch is computed, or fails, without resolving a lazy
member. -/
def Quiet (e : Engine) (p : Patch) : Prop :=
  ∀ (frames : List (Record Value)) (path : Path) (store : LazyStore), EagerFrames frames →
    (∃ v, p.compute e.resolver ⟨frames, none, none⟩ path store = .ok v store) ∨
      ∃ failure, p.compute e.resolver ⟨frames, none, none⟩ path store = .error failure store

/-- The patch calls no function of the caller. -/
def Hostless : Patch → Prop
  | value expr => expr.Hostless
  | checksum data _ => data.Hostless

theorem quiet_of_hostless (e : Engine) {p : Patch} (h : p.Hostless) : p.Quiet e := by
  intro frames path store eager
  have clear : (⟨frames, none, none⟩ : Scope).Eager := ⟨eager, nofun, nofun⟩
  cases p with
  | value expr =>
      rcases Expr.answers_evaluate e clear h path with ⟨v, -, same⟩ | ⟨failure, -, same⟩
      · exact .inl ⟨v, by rw [compute, same]; rfl⟩
      · exact .inr ⟨failure, by rw [compute, same]; rfl⟩
  | checksum data hash =>
      rcases Expr.answers_evaluate e clear h path with ⟨v, -, same⟩ | ⟨failure, -, same⟩
      · cases digested : Checksum.digest hash v with
        | ok digest => exact .inl ⟨digest, by rw [compute, same, pure_bind, digested]; rfl⟩
        | error fault =>
            exact .inr ⟨fault.atPath path, by rw [compute, same, pure_bind, digested]; rfl⟩
      · exact .inr ⟨failure, by rw [compute, same]; rfl⟩

end Patch

namespace Format

/-- A field of this kind that is computed when it is built. -/
def computedBy (of : Format) : Patch → Format
  | .value expr => .rebuild of expr
  | .checksum data hash => .checksum of hash data

theorem facade_computedBy (of : Format) (p : Patch) (v : Value) :
    Facade (of.computedBy p) (.constant of v) := by
  cases p <;> exact ⟨rfl, rfl, rfl⟩

/-- Building the value writes these bytes, by whatever engine and wherever. -/
def Writes (defs : Definitions) (of : Format) (v : Value) (stored : List UInt8) : Prop :=
  ∀ (e : Engine) (path : Path) (data : List UInt8) (pos : Nat) (ctx : Context) (store : LazyStore),
    ∃ w, (of.codec e defs).build v path ⟨.growing data pos, ctx, store⟩ =
      .ok w ⟨.growing (Medium.overlay data pos stored) (pos + stored.length), ctx, store⟩

theorem Writes.unique {defs : Definitions} {of : Format} {v : Value} {stored stored' : List UInt8}
    (h : of.Writes defs v stored) (h' : of.Writes defs v stored') : stored = stored' := by
  obtain ⟨_, first⟩ := h .exhausted .this [] 0 default .empty
  obtain ⟨_, second⟩ := h' .exhausted .this [] 0 default .empty
  rw [first] at second
  injection second with _ same
  have same := congrArg (fun s : State => s.stream.data) same
  simpa [Stream.growing, Stream.data, Medium.overlay] using same

/-- A component that a patch can fill writes a value that it takes as the same bytes
everywhere. -/
theorem Patchable.writes {of : Format} {width : Nat} (cell : of.Patchable width)
    {defs : Definitions} {e : Engine} {v w : Value} {path : Path} {data : List UInt8} {pos : Nat}
    {ctx : Context} {store : LazyStore} {s : State}
    (run : (of.codec e defs).build v path ⟨.growing data pos, ctx, store⟩ = .ok w s) :
    ∃ stored, stored.length = width ∧ of.Writes defs v stored ∧ w.Eager ∧
      s = ⟨.growing (Medium.overlay data pos stored) (pos + width), ctx, store⟩ := by
  cases cell with
  | integer narrow signed endian =>
      obtain ⟨n, k, same, positive, -, isNumber, fits, rfl, rfl⟩ := Codec.integer_of_build run
      obtain rfl : width = n := Int.ofNat.inj same
      refine ⟨_, by rw [Integer.length_inOrder, Bytes.length_ofNat],
        fun e path data pos ctx store => ⟨.int k, ?_⟩, trivial, rfl⟩
      have pattern : Integer.checkedPattern k (width * 8) signed =
          .ok (Integer.toPattern k (width * 8)) := by rw [Integer.checkedPattern, if_pos fits]
      rw [codec, Codec.build_integer e signed endian positive narrow, isNumber,
        Run.bind_ofExcept_ok, pattern, Run.bind_ofExcept_ok, Run.bind_of_ok (Run.write_growing _)]
      rfl
  | bytes room =>
      obtain ⟨stored, same, -, rfl, rfl, rfl⟩ := Codec.bytes_of_build run
      obtain rfl : width = stored.length := Int.ofNat.inj same
      refine ⟨stored, rfl, fun e path data pos ctx store => ⟨.bytes stored, ?_⟩, trivial, rfl⟩
      simp only [codec, Codec.bytes]
      rw [Run.bind_of_ok (Codec.evalSize_const e path _ room)]
      simp only [ne_eq, not_true_eq_false, if_false]
      rw [Run.bind_of_ok (Run.write_growing _)]
      rfl

private theorem Patchable.size {of : Format} {width : Nat} (cell : of.Patchable width) (e : Engine)
    (defs : Definitions) (ctx : Context) (path : Path) (store : LazyStore) :
    (of.codec e defs).size ctx path store = .ok width store := by
  cases cell with
  | integer narrow signed endian =>
      exact e.staticSize_const (Nat.le_trans narrow (by decide)) ctx path store
  | bytes room => exact e.staticSize_const room ctx path store

variable {defs : Definitions} {e : Engine} {of : Format} {width : Nat} {p : Patch} {u w : Value}
  {path : Path} {data : List UInt8} {pos : Nat} {ctx : Context} {store : LazyStore} {s : State}

/-- A field that is computed is built from its value, or its bytes are reserved. -/
theorem Patchable.of_computedBy (cell : of.Patchable width) (quiet : p.Quiet e)
    (eager : EagerFrames ctx.frames)
    (run : ((of.computedBy p).codec e defs).build u path ⟨.growing data pos, ctx, store⟩ =
      .ok w s) :
    (∃ v, (of.codec e defs).build v path ⟨.growing data pos, ctx, store⟩ = .ok w s) ∨
    (∃ failure, p.compute e.resolver ctx.scope path store = .error failure store ∧
      failure.fault.isPending = true) ∧ w = .none ∧
    s = ⟨.growing (Medium.overlay data pos (List.replicate width 0)) (pos + width),
      ctx.defer (Codec.reservation ⟨of, of.codec e defs⟩ p path pos width), store⟩ := by
  have known : (⟨of, of.codec e defs⟩ : Part).codec.size ctx path store = .ok width store :=
    cell.size e defs ctx path store
  have now := Codec.sizeNow_of_ok (s := ⟨.growing data pos, ctx, store⟩) known
  have reserved (patch : Patch) (run : Codec.reserve ⟨of, of.codec e defs⟩ patch path
      ⟨.growing data pos, ctx, store⟩ = .ok w s) : w = .none ∧
      s = ⟨.growing (Medium.overlay data pos (List.replicate width 0)) (pos + width),
        ctx.defer (Codec.reservation ⟨of, of.codec e defs⟩ patch path pos width), store⟩ := by
    rw [Codec.reserve_apply patch known] at run
    cases run
    exact ⟨rfl, rfl⟩
  -- Over frames without lazy parts the patch has one outcome, and the field is built as that says.
  have outcome := quiet ctx.frames path store eager
  cases p with
  | value expr =>
      have eval := e.eval_apply expr path ⟨.growing data pos, ctx, store⟩
      simp only [computedBy, codec, Codec.rebuild] at run
      rcases outcome with ⟨v, computed⟩ | ⟨failure, computed⟩
      · rw [Run.lookup_of_ok computed] at eval
        rw [Run.bind_of_ok (Run.outcome_of_ok eval)] at run
        exact .inl ⟨v, run⟩
      · rw [Run.lookup_of_error computed] at eval
        rw [Run.bind_of_ok (Run.outcome_of_error eval)] at run
        dsimp only at run
        split at run
        · next waits =>
            rw [Run.bind_of_ok (Run.outcome_of_ok now)] at run
            exact .inr ⟨⟨failure, computed, waits⟩, reserved _ run⟩
        · cases run
  | checksum expr hash =>
      have eval : (e.eval expr path >>= fun input =>
          Run.ofExcept path (Checksum.digest hash input)) ⟨.growing data pos, ctx, store⟩ =
          Run.lookup ((Patch.checksum expr hash).compute e.resolver ctx.scope path)
            ⟨.growing data pos, ctx, store⟩ := by
        have first := e.eval_apply expr path ⟨.growing data pos, ctx, store⟩
        unfold Run.lookup at first ⊢
        dsimp only at first ⊢
        rw [Patch.compute]
        cases seen : expr.evaluate e.resolver ctx.scope path store with
        | ok x store' =>
            rw [seen] at first
            rw [Run.bind_of_ok first, Run.bind_of_ok seen]
            cases Checksum.digest hash x <;> rfl
        | error failure store' =>
            rw [seen] at first
            rw [Run.bind_of_error first, Run.bind_of_error seen]
      simp only [computedBy, codec, Codec.checksum] at run
      rcases outcome with ⟨v, computed⟩ | ⟨failure, computed⟩
      · rw [Run.lookup_of_ok computed] at eval
        rw [Run.bind_of_ok (Run.outcome_of_ok eval)] at run
        exact .inl ⟨v, run⟩
      · rw [Run.lookup_of_error computed] at eval
        rw [Run.bind_of_ok (Run.outcome_of_error eval)] at run
        dsimp only at run
        split at run
        · next waits => exact .inr ⟨⟨failure, computed, waits⟩, reserved _ run⟩
        · cases run

end Format

/-! ## Applying a patch -/

/-- Whatever the engine builds is what the format means, to some engine. -/
def Engine.Means (e : Engine) (defs : Definitions) : Prop :=
  ∀ (f : Format) (v : Value) (path : Path) (s s' : State) (w : Value),
    e.build f v path s = .ok w s' → ∃ e', (f.codec e' defs).build v path s = .ok w s'

theorem Engine.means_level (defs : Definitions) (n : Nat) : (level defs n).Means defs := by
  intro f v path s s' w run
  cases n with
  | zero => cases run
  | succ n => exact ⟨level defs n, run⟩

/-- A patch is noted in the innermost frame at most, and only where there is an entry for it. -/
theorem Context.noted_frame (frame : Record Value) (below : List Frame) (d : Deferred) (w : Value) :
    ∃ frame', Context.noted ⟨⟨frame, []⟩, below⟩ d w = ⟨⟨frame', []⟩, below⟩ ∧
      (frame' = frame ∨ d.scopes = [] ∧ ∃ name old, d.path.fieldName? = some name ∧
        Record.get? frame name = some old ∧ frame' = Record.insert frame name w) := by
  unfold noted
  split
  · next registered =>
      have here : d.scopes = [] := by simpa using (Bool.and_eq_true_iff.mp registered).1
      cases own : d.path.fieldName? with
      | none => exact ⟨frame, rfl, .inl rfl⟩
      | some name =>
          dsimp only
          split
          · next present =>
              obtain ⟨old, found⟩ := Option.isSome_iff_exists.mp present
              exact ⟨_, rfl, .inr ⟨here, name, old, rfl, found, rfl⟩⟩
          · exact ⟨frame, rfl, .inl rfl⟩
  · exact ⟨frame, rfl, .inl rfl⟩

section

variable {defs : Definitions} {e : Engine} {width : Nat} {d : Deferred} {frame : Record Value}
  {below : List Frame} {data : List UInt8} {pos : Nat} {store : LazyStore} {s : State}

/-- A patch that waits alone is left waiting, or applied; a strict resolution does not let it
wait. -/
theorem Engine.of_resolveSince (means : e.Means defs) (quiet : d.patch.Quiet e)
    (cell : d.field.Patchable width)
    (eager : EagerFrames (d.scopes.reverse ++ frame :: below.map Frame.values))
    {strict : Bool}
    (run : e.resolveSince 0 strict ⟨.growing data pos, ⟨⟨frame, [d]⟩, below⟩, store⟩ = .ok () s) :
    (strict = false ∧ (∃ failure, d.patch.compute e.resolver
          ⟨d.scopes.reverse ++ frame :: below.map Frame.values, none, none⟩ d.path store =
            .error failure store) ∧
      s = ⟨.growing data pos, ⟨⟨frame, [d]⟩, below⟩, store⟩) ∨
    ∃ v w stored, d.patch.compute e.resolver
        ⟨d.scopes.reverse ++ frame :: below.map Frame.values, none, none⟩ d.path store =
          .ok v store ∧
      d.field.Writes defs v stored ∧ w.Eager ∧
      s = ⟨.growing (Medium.overlay data d.offset stored) pos,
        Context.noted ⟨⟨frame, []⟩, below⟩ d w, store⟩ := by
  have applied : ∃ unresolved s₁, e.applyPatches strict [d]
      ⟨.growing data pos, ⟨⟨frame, []⟩, below⟩, store⟩ = .ok unresolved s₁ ∧
        s = { s₁ with
          context := s₁.context.withDeferred (s₁.context.top.deferred ++ unresolved) } := by
    rw [resolveSince_apply] at run
    obtain ⟨unresolved, s₁, applied, requeued⟩ := Run.bind_eq_ok_iff.mp run
    cases requeued
    exact ⟨unresolved, s₁, applied, rfl⟩
  obtain ⟨unresolved, s₁, applied, rfl⟩ := applied
  -- The only patch on the queue has its value, or it has none and the resolution has to be lenient.
  rcases quiet _ d.path store eager with ⟨v, computed⟩ | ⟨failure, computed⟩
  · have now : e.applyPatches strict [d] ⟨.growing data pos, ⟨⟨frame, []⟩, below⟩, store⟩ = _ :=
      applyPatches_of_value computed
    obtain ⟨_, s₂, written, rest⟩ := Run.bind_eq_ok_iff.mp (now ▸ applied)
    obtain ⟨rfl, rfl⟩ := Run.pure_eq_ok_iff.mp rest
    obtain ⟨reached, s₃, w, s₄, sought, made, fills, rfl⟩ := applyPatch_of_ok written
    obtain rfl := Run.seek_growing sought
    obtain ⟨e', made⟩ := means _ _ _ _ _ _ made
    obtain ⟨stored, -, writes, clear, rfl⟩ := cell.writes made
    refine .inr ⟨v, w, stored, computed, writes, clear, ?_⟩
    obtain ⟨frame', shape, -⟩ := Context.noted_frame frame below d w
    simp only [shape]
    rfl
  · rcases applied_or_left_of_applyPatches applied with
      ⟨_, _, _, known, -⟩ | ⟨_, _, _, lenient, known, -, nothing, rfl⟩
    · cases known.symm.trans computed
    · cases known.symm.trans computed
      obtain ⟨rfl, rfl⟩ := Run.pure_eq_ok_iff.mp nothing
      exact .inl ⟨lenient, ⟨failure, computed⟩, rfl⟩

end

end BinaryFormat
