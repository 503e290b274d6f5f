import BinaryFormat.Proofs.Deferral
import BinaryFormat.Proofs.Frames

/-!
# Patches are applied within their frames

Applying a patch adds at most the entry that it was reserved for to the
innermost frame.  A resolution leaves the patches that were queued before its
mark alone and keeps those that are still pending.
-/

namespace BinaryFormat

variable {e : Engine} {t : Traits} {base : Context}

/-- The value of a patch is noted on the frame that registered it, which is not the lowest
one. -/
private theorem Context.Grows.noted {ctx : Context} {d : Deferred} (h : base.Grows t ctx)
    (placed : d.Placed t base) (built : Value) (moving : ¬ t.still)
    (inner : (t.guarded → t.single) ∨ base.below ≠ []) : base.Grows t (ctx.noted d built) := by
  unfold Context.noted
  split
  · rename_i own
    obtain ⟨fresh, -⟩ := Bool.and_eq_true_iff.mp own
    cases named : d.path.fieldName? with
    | none => exact h
    | some name =>
        have free : t.guarded → base.below ≠ [] ∨ Record.isPrivate name = true := by
          intro guarded
          refine Or.inl fun bottom => ?_
          have lowest : d.depth = 0 := by
            rw [placed.depth, bottom, List.isEmpty_iff.mp fresh]
            rfl
          rcases inner with single | some
          · rw [(placed.simple (single guarded)).2 lowest] at named
            cases named
          · exact some bottom
        dsimp only
        split
        · exact h.insert moving free built
        · exact h
  · exact h

namespace Engine

theorem keeps_applyPatch (he : e.Steady) {d : Deferred} (value : Value) (moving : ¬ t.still)
    (inner : (t.guarded → t.single) ∨ base.below ≠ []) (placed : d.Placed t base) :
    (e.applyPatch d value).Keeps (Context.Grows t base) := by
  have built : (e.build d.field value d.path).Keeps (Context.Grows t base) := by
    have within := (Traits.within_loose moving).trans placed.within
    by_cases single : t.single
    · -- A patch of a component without patches queues none.
      have free : Traits.Within { t with free := True } d.field.traits :=
        ⟨within.guarded, within.single, fun _ => (placed.simple single).1, within.still⟩
      have alone := fun ctx => he.build d.field value d.path _ ctx free fun _ => Or.inl trivial
      refine Run.keeps_of_start alone Context.Grows.refl fun ctx ctx' grown more => ?_
      exact grown.trans (more.mono ⟨id, id, fun _ => trivial, id⟩)
    · refine he.build d.field value d.path t base within fun claimed => ?_
      have guarded : t.guarded := claimed.resolve_right single
      exact Or.inr (Or.inl (inner.resolve_left fun h => single (h guarded)))
  refine .bind Run.keeps_tell fun back => .bind Run.keeps_seek fun _ => .bind built fun w =>
    .bind Run.keeps_tell fun reached => .bind Run.keeps_goTo fun _ => ?_
  refine Run.keeps_guard ?_
  exact Run.keeps_modify fun _ grown => grown.noted placed w moving inner

theorem keeps_applyPatches (he : e.Steady) (strict : Bool) (moving : ¬ t.still)
    (inner : (t.guarded → t.single) ∨ base.below ≠ []) (pending : List Deferred)
    (placed : ∀ d ∈ pending, d.Placed t base) :
    (e.applyPatches strict pending).Keeps (Context.Grows t base) := by
  induction pending with
  | nil => exact Run.keeps_pure
  | cons d rest ih =>
      have later := ih fun d' hd' => placed d' (List.mem_cons_of_mem d hd')
      unfold applyPatches
      refine .bind Run.keeps_context fun ctx => .bind (Run.keeps_lookup.outcome) fun found => ?_
      cases found with
      | ok value =>
          have here := placed d List.mem_cons_self
          exact .bind (keeps_applyPatch he value moving inner here) fun _ => later
      | error failure =>
          refine Run.keeps_ite (.bind later fun _ => Run.keeps_pure) ?_
          exact Run.keeps_throw

theorem sublist_of_applyPatches {strict : Bool} {pending unresolved : List Deferred}
    {s s' : State} (run : e.applyPatches strict pending s = .ok unresolved s') :
    unresolved.Sublist pending := by
  induction pending generalizing unresolved s s' with
  | nil =>
      obtain ⟨rfl, -⟩ := Run.pure_eq_ok_iff.mp run
      exact List.Sublist.refl _
  | cons d rest ih =>
      rcases applied_or_left_of_applyPatches run with
        ⟨_, _, _, -, -, later⟩ | ⟨_, _, _, -, -, -, later, rfl⟩
      · exact (ih later).cons d
      · exact (ih later).cons_cons d

/-- A resolution changes nothing that was queued before its mark. -/
theorem keeps_resolveSince (he : e.Steady) (strict : Bool) (moving : t.still → t.free)
    (inner : (t.guarded → t.single) ∨ base.below ≠ []) :
    (e.resolveSince base.mark strict).Keeps (Context.Grows t base) := by
  intro s hs
  obtain ⟨new, queued, placed, free⟩ := hs.queue
  have applied : (e.applyPatches strict new).Keeps (Context.Grows t base) := by
    by_cases still : t.still
    · rw [free (moving still)]
      exact Run.keeps_pure
    · exact keeps_applyPatches he strict still inner new placed
  have pending : s.context.top.deferred.drop base.mark = new := Context.drop_mark queued
  have cleared : base.Grows t (s.context.discardSince base.mark) := hs.discardSince
  rw [Run.after, resolveSince_apply, pending]
  cases run : e.applyPatches strict new
      { s with context := s.context.discardSince base.mark } with
  | error failure s' =>
      rw [Run.bind_of_error run]
      have stop := applied.of_error (s := { s with context := s.context.discardSince base.mark })
        cleared run
      exact stop
  | ok unresolved s' =>
      rw [Run.bind_of_ok run]
      obtain ⟨grown, alike⟩ := applied.of_ok
        (s := { s with context := s.context.discardSince base.mark }) cleared run
      have left := sublist_of_applyPatches run
      obtain ⟨new', queued', placed', free'⟩ := grown.queue
      refine ⟨grown.withDeferred ⟨new' ++ unresolved, ?_, ?_, ?_⟩, alike⟩
      · rw [queued', List.append_assoc]
      · intro d hd
        rcases List.mem_append.mp hd with hd | hd
        · exact placed' d hd
        · exact placed d (left.subset hd)
      · intro none
        rw [free none] at left
        rw [free' none, List.sublist_nil.mp left, List.append_nil]

theorem keeps_resolvePending (he : e.Steady) (inner : base.below ≠ [])
    (fresh : base.top.deferred = []) :
    e.resolvePending.Keeps (Context.Grows t.loose base) := by
  have mark : base.mark = 0 := by rw [Context.mark, fresh]; rfl
  have kept := keeps_resolveSince (t := t.loose) he false False.elim (Or.inr inner)
  rwa [mark] at kept

end Engine

namespace Codec

variable {t : Traits} {base : Context}

theorem keeps_reserve {of : Part} {patch : Patch} {path : Path} (some : ¬ t.free)
    (within : t.loose.Within of.format.traits) (simple : t.single → of.format.PatchFree)
    (anchored : base.Anchors t path) :
    (reserve of patch path).Keeps (Context.Grows t base) := by
  refine .bind of.codec.keeps_sizeNow fun size => .bind Run.keeps_tell fun offset =>
    .bind Run.keeps_write fun _ => .bind ?_ fun _ => Run.keeps_pure
  exact Run.keeps_modify fun ctx grown => grown.defer rfl some within simple anchored

end Codec

end BinaryFormat
