import BinaryFormat.Proofs.Growth

/-!
# Patches do not make a stream longer

A patch is applied over bytes that were reserved for it, and has to take exactly
these.  So the stream is as long afterwards as it was before, and what the patch
has queued lies within it as well.
-/

namespace BinaryFormat

variable {params : Record Value} {depth : Nat} {t : Traits} {base : State} {P : Nat → Prop}

namespace Codec

theorem fills_reserve {of : Part} {known : Option Nat} {patch : Patch} {path : Path} {p : Nat}
    (sized : of.codec.Measured params known) (prompt : of.format.Prompt params)
    (ruled : base.context.Ruled params depth) (guarded : t.guarded) (patches : ¬ t.free)
    (within : t.loose.Within of.format.traits) (simple : t.single → of.format.PatchFree)
    (anchored : base.context.Anchors t path) :
    (reserve of patch path).Fills params t base (· = p) fun _ => Sizes.Reaches known p := by
  refine Run.fills_of_keeps (keeps_reserve patches within simple anchored)
    fun s w s' grown filled start run => ?_
  obtain ⟨size, s₁, sizing, run⟩ := Run.bind_eq_ok_iff.mp run
  obtain ⟨store, lookup, rfl⟩ := Run.lookup_eq_ok_iff.mp sizing
  have counted := sized depth s.context path (Run.ruled_of_grows ruled grown guarded)
  have growable := filled.stream.growable
  obtain ⟨-, extended, pos, inside⟩ := Stream.extended_write growable (List.replicate size 0)
  rw [Run.bind_of_ok (Run.tell_apply _)] at run
  obtain ⟨_, s₂, wrote, run⟩ := Run.bind_eq_ok_iff.mp run
  cases (Run.write_of_growable (s := { s with store := store }) growable
    (List.replicate size 0) path).symm.trans wrote
  rw [List.length_replicate, start] at pos
  cases run
  refine ⟨⟨filled.stream.trans extended, fun d mem => ?_⟩, ?_⟩
  · obtain ⟨new, queued, -, -⟩ := grown.queue
    simp only [Context.defer, queued, Context.mark, List.append_assoc, List.drop_left] at mem
    rcases List.mem_append.mp mem with mem | mem
    · rw [← Context.drop_mark queued] at mem
      exact (filled.queued d mem).mono extended.longer
    · obtain rfl := List.mem_singleton.mp mem
      refine ⟨?_, prompt⟩
      dsimp only
      rw [start, ← pos]
      exact inside
  · dsimp only
    rw [pos]
    refine (Sizes.reaches_add p size).mono fun n known => ?_
    exact congrArg some (counted.eq_of_ok known lookup)

end Codec

/-- Building with settled sizes and no patched lengths fills a stream, at any level. -/
def Engine.Filling (params : Record Value) (e : Engine) : Prop :=
  ∀ (f : Format) v path (t : Traits) (base : State) depth, f.Prompt params →
    t.Within f.traits → t.guarded → ¬ t.still → base.context.Ruled params depth →
    base.context.Anchors t path →
    (e.build f v path).Fills params t base (fun _ => True) fun _ _ => True

namespace Engine

variable {e : Engine}

theorem setPos_of_seek {s s' : State} {offset reached : Nat} {path : Path}
    (growable : s.stream.Growable) (run : Run.seek (.start offset) path s = .ok reached s') :
    ∃ pos ≤ offset, s' = { s with stream := s.stream.setPos pos } := by
  obtain ⟨stream, ctx, store⟩ := s
  cases stream with
  | medium m =>
      obtain ⟨backing, data, pos⟩ := m
      obtain rfl : backing = .growing := growable
      exact ⟨offset, Nat.le_refl _, Run.seek_growing run⟩
  | view v outer =>
      have moved : v.seek (.start offset) = .ok { v with pos := offset % Nat.pow 2 64 } := by
        rw [View.seek, if_neg (by simp), Int.toNat_natCast]
      simp only [Run.seek, Stream.seek, moved] at run
      cases run
      exact ⟨_, Nat.mod_le _ _, rfl⟩

private theorem fills_applyPatch (he : e.Steady) (fills : e.Filling params) {d : Deferred}
    (value : Value)
    (ruled : base.context.Ruled params depth) (guarded : t.guarded) (moving : ¬ t.still)
    (inner : (t.guarded → t.single) ∨ base.context.below ≠ [])
    (placed : d.Placed t base.context) (fits : d.Fits params base.stream.span) :
    (e.applyPatch d value).Fills params t base P fun _ => P := by
  refine Run.fills_of_keeps (keeps_applyPatch he value moving inner placed)
    fun s _ s' grown filled start run => ?_
  obtain ⟨reached, s₁, built, s₂, sought, made, full, rfl⟩ := applyPatch_of_ok run
  have growable := filled.stream.growable
  obtain ⟨pos, early, rfl⟩ := setPos_of_seek growable sought
  have room := fits.within.trans filled.stream.longer
  have start' : pos ≤ s.stream.span := by omega
  have ruled' := Run.ruled_of_grows ruled grown guarded
  have loose := (Traits.within_loose moving).trans placed.within
  -- A simple patch queues nothing; for others the innermost frame is not the lowest one.
  have inside : ∃ u : Traits, u.Within d.field.traits ∧ u.guarded ∧ ¬ u.still ∧
      s.context.Anchors u d.path := by
    by_cases single : t.single
    · exact ⟨{ t with free := True }, ⟨loose.guarded, loose.single,
        fun _ => (placed.simple single).1, loose.still⟩, guarded, moving, fun _ => Or.inl trivial⟩
    · refine ⟨t, loose, guarded, moving, fun _ => Or.inr (Or.inl ?_)⟩
      rw [grown.below]
      exact inner.resolve_left fun h => single (h guarded)
  obtain ⟨u, within, guarded', moving', anchored⟩ := inside
  have growable' := growable.setPos start'
  obtain ⟨further, extended, -⟩ :=
    (fills d.field value d.path u { s with stream := s.stream.setPos pos } depth fits.field within
      guarded' moving' ruled' anchored).of_ok (.refl _) (.refl growable') trivial made
  -- Of a patch that ends before where it starts, only this is known.
  have stop : s₂.stream.pos ≤ s.stream.span := by
    unfold Size.sub at full
    split at full <;> omega
  obtain ⟨patched, same⟩ := extended.stream.patched growable start' stop
  refine ⟨⟨filled.stream.trans patched, fun d' mem => ?_⟩, ?_⟩
  · dsimp only at mem ⊢
    rw [(s₂.context.kept_noted d built).deferred,
      State.drop_mark_of_grows (s := s) grown further] at mem
    rw [Stream.span_setPos]
    rcases List.mem_append.mp mem with mem | mem
    · exact (filled.queued d' mem).mono same.ge
    · exact extended.queued d' mem
  · exact (Stream.pos_setPos _ _).symm ▸ start

private theorem fills_applyPatches (he : e.Steady) (fills : e.Filling params) (strict : Bool)
    (ruled : base.context.Ruled params depth) (guarded : t.guarded) (moving : ¬ t.still)
    (inner : (t.guarded → t.single) ∨ base.context.below ≠ []) {pending : List Deferred}
    (placed : ∀ d ∈ pending, d.Placed t base.context)
    (fits : ∀ d ∈ pending, d.Fits params base.stream.span) :
    (e.applyPatches strict pending).Fills params t base P fun _ => P := by
  induction pending with
  | nil => exact Run.fills_pure fun _ => id
  | cons d rest ih =>
      have later := ih (fun d' mem => placed d' (List.mem_cons_of_mem d mem))
        fun d' mem => fits d' (List.mem_cons_of_mem d mem)
      have known : ∀ ctx : Context, Run.Fills params t base P (fun _ => P)
          (Run.lookup (d.patch.compute e.resolver (ctx.scopeOf d) d.path)).outcome := by
        refine fun ctx => Run.fills_outcome Run.keeps_lookup fun s => ?_
        unfold Run.after Run.lookup
        cases d.patch.compute e.resolver (ctx.scopeOf d) d.path s.store <;> exact ⟨rfl, rfl⟩
      rw [applyPatches]
      refine fun s => Run.Fills.bind (known s.context) (fun found => ?_) s
      cases found with
      | ok value =>
          have here := placed d List.mem_cons_self
          exact .bind (fills_applyPatch he fills value ruled guarded moving inner here
            (fits d List.mem_cons_self)) fun _ => later
      | error failure =>
          exact Run.fills_ite (fun _ => .bind later fun _ => Run.fills_pure fun _ => id)
            fun _ => Run.fills_throw

/-- Patches that are resolved or stay pending lie within the stream, as those they queue. -/
theorem fills_resolveSince (he : e.Steady) (fills : e.Filling params) (strict : Bool)
    (ruled : base.context.Ruled params depth) (guarded : t.guarded) (moving : ¬ t.still)
    (inner : (t.guarded → t.single) ∨ base.context.below ≠ []) :
    (e.resolveSince base.context.mark strict).Fills params t base P fun _ => P := by
  refine Run.fills_of_keeps (keeps_resolveSince he strict (absurd · moving) inner)
    fun s _ s' grown filled start run => ?_
  obtain ⟨new, queued, placed, -⟩ := grown.queue
  have pending : s.context.top.deferred.drop base.context.mark = new := Context.drop_mark queued
  have cleared : base.context.Grows t (s.context.discardSince base.context.mark) :=
    grown.discardSince
  have kept : (s.context.discardSince base.context.mark).top.deferred =
      base.context.top.deferred := Context.take_mark queued
  rw [resolveSince_apply, pending] at run
  obtain ⟨unresolved, s₁, applied, run⟩ := Run.bind_eq_ok_iff.mp run
  cases run
  have left := sublist_of_applyPatches applied
  have growable := filled.stream.growable
  have fits : ∀ d ∈ new, d.Fits params s.stream.span := pending ▸ filled.queued
  have applies : (e.applyPatches strict new).Fills params t
      { s with context := s.context.discardSince base.context.mark } P fun _ => P :=
    fills_applyPatches he fills strict (Run.ruled_of_grows ruled cleared guarded) guarded moving
      (inner.imp_right fun some => by rwa [cleared.below])
      (fun d mem => (placed d mem).of_below cleared.below.symm) fits
  obtain ⟨further, filled', reached⟩ := applies.of_ok (.refl _) (.refl growable) start applied
  obtain ⟨new', queued', -, -⟩ := further.queue
  refine ⟨⟨filled.stream.trans filled'.stream, fun d mem => ?_⟩, reached⟩
  have since : s₁.context.top.deferred.drop
      (s.context.discardSince base.context.mark).mark = new' := Context.drop_mark queued'
  dsimp only [Context.withDeferred] at mem
  rw [queued', kept, List.append_assoc, Context.mark, List.drop_left] at mem
  rcases List.mem_append.mp mem with mem | mem
  · rw [← since] at mem
    exact filled'.queued d mem
  · exact (fits d (left.subset mem)).mono filled'.stream.longer

/-- A strict resolution leaves nothing behind that it could not resolve. -/
theorem resolved_of_strict {pending unresolved : List Deferred} {s s' : State}
    (run : e.applyPatches true pending s = .ok unresolved s') : unresolved = [] := by
  induction pending generalizing s s' unresolved with
  | nil =>
      obtain ⟨rfl, -⟩ := Run.pure_eq_ok_iff.mp run
      rfl
  | cons d rest ih =>
      rcases applied_or_left_of_applyPatches run with ⟨_, _, _, -, -, later⟩ | ⟨_, _, _, lenient, -⟩
      · exact ih later
      · cases lenient

/-- Simple patches that are resolved strictly leave the queue as it was before them. -/
theorem queue_of_resolveSince (he : e.Steady) {ctx : Context} {s s' : State} (single : t.single)
    (moving : ¬ t.still) (grown : ctx.Grows t s.context)
    (run : e.resolveSince ctx.mark true s = .ok () s') :
    s'.context.top.deferred = ctx.top.deferred := by
  obtain ⟨new, queued, placed, -⟩ := grown.queue
  have cleared := grown.discardSince
  have kept : (s.context.discardSince ctx.mark).top.deferred = ctx.top.deferred :=
    Context.take_mark queued
  rw [resolveSince_apply, Context.drop_mark queued] at run
  obtain ⟨unresolved, s₁, applied, run⟩ := Run.bind_eq_ok_iff.mp run
  obtain rfl := resolved_of_strict applied
  cases run
  -- Building the fields queues nothing, as they have no patches of their own.
  have free : ∀ d ∈ new, d.Placed { t with free := True } ctx := fun d mem =>
    ⟨(placed d mem).depth, ⟨(placed d mem).within.guarded, (placed d mem).within.single,
      fun _ => ((placed d mem).simple single).1, False.elim⟩, (placed d mem).simple⟩
  have start : ctx.Grows { t with free := True } (s.context.discardSince ctx.mark) :=
    ⟨cleared.below, ⟨[], by rw [kept, List.append_nil], by simp, fun _ => rfl⟩, cleared.names,
      cleared.outermost, cleared.entries⟩
  obtain ⟨after, -⟩ := (keeps_applyPatches he true (t := { t with free := True }) moving
    (Or.inl fun _ => single) new free).of_ok
      (s := { s with context := s.context.discardSince ctx.mark }) start applied
  obtain ⟨none, queued', -, nothing⟩ := after.queue
  rw [nothing trivial, List.append_nil] at queued'
  simpa [Context.withDeferred] using queued'

end Engine

end BinaryFormat
