import BinaryFormat.Proofs.BackPatching.Arrival

/-!
# Layers with a frame

A structure resolves what waits in its frame when its members have been built: a patch is applied
there, or it leaves with the frame.  The members behind the component come to the same, whether
its value is in place or a patch for it waits.
-/

namespace BinaryFormat

open Format (labelOf notedAs parts NestedAll OverlooksAll)
open Run (InStep)

variable {e : Engine} {defs : Definitions} {of : Format} {width : Nat} {p : Patch} {v : Value}
  {stored : List UInt8} {layers : List Layer} {layer : Layer} {f g : Format} {path : Path}
  {ctx : Context} {s : State}

/-! ## The end of a frame -/

/-- The frames of members around a component that was built to different values. -/
def Layer.Fields (layers : List Layer) (place : Path) (frame frame' : Record Value) : Prop :=
  Record.Alike (labelOf layers) (notedAs layers place) (Format.Alike layers place) frame frame' ∧
    Value.EagerFields frame

theorem Layer.notes_fields (layers : List Layer) (place : Path) :
    Context.Notes (Layer.Fields layers place) := fun _ _ name _ related eager =>
  ⟨related.1.insert (.inl rfl), related.2.insert name eager⟩

private theorem Deferred.Waits.leave {d : Deferred} {place : Path}
    (here : layer.place (labelOf layers) path = place) {frame : Record Value}
    (eager : Value.EagerFields frame) (h : d.Waits of width p layers place) :
    Deferred.Waits of width p (layer :: layers) path { d with scopes := frame :: d.scopes } := by
  subst here
  refine ⟨h.field, h.patch, h.size, h.path, nofun, fun other mem => ?_⟩
  rcases List.mem_cons.mp mem with rfl | mem
  · exact eager
  · exact h.eager other mem

theorem EagerFrames.append {frames frames' : List (Record Value)} (h : EagerFrames frames)
    (h' : EagerFrames frames') : EagerFrames (frames ++ frames') := fun frame mem =>
  (List.mem_append.mp mem).elim (h frame) (h' frame)

theorem EagerFrames.reverse {frames : List (Record Value)} (h : EagerFrames frames) :
    EagerFrames frames.reverse := fun frame mem => h frame (List.mem_reverse.mp mem)

/-- The patch that waits in the frame is applied with its value or leaves the frame; in the run in
which the value is in place nothing happens. -/
private theorem Layer.leaves {place : Path} {queue : List Deferred} {offset : Nat}
    {bytes : List UInt8}
    {s₁ s₂ t₁ : State} (means : e.Means defs) (quiet : p.Quiet e) (cell : of.Patchable width)
    (writes : of.Writes defs v stored)
    (here : layer.place (labelOf layers) path = place) (idle : ctx.top.deferred = [])
    (clear : EagerFrames ctx.frames)
    (left : Outstanding of width p stored layers place queue offset bytes)
    (abreast : s₁.Abreast offset bytes (Context.Entered (Layer.Fields layers place) queue []
      (ctx.top :: ctx.below) (ctx.top :: ctx.below)) t₁)
    (resolved : e.resolvePending s₁ = .ok () s₂) :
    (∀ d v' store, queue = [d] →
      d.patch.compute e.resolver (s₁.context.scopeOf d) d.path s₁.store = .ok v' store →
        s₂.context.pop = ctx ∧ ∃ filling, of.Writes defs v' filling) ∧
    ((s₂.context.pop = ctx → ∀ d v' store, queue = [d] →
        d.patch.compute e.resolver (s₁.context.scopeOf d) d.path s₁.store = .ok v' store → v' = v) →
      Layer.Fields layers place s₂.context.innermost t₁.context.innermost ∧
        State.Met of width p stored (layer :: layers) path ctx
          { s₂ with context := s₂.context.pop } { t₁ with context := t₁.context.pop }) := by
  obtain ⟨⟨data, pos, behind, inside, streams, streams'⟩,
    ⟨frame, frame', alike, contexts, contexts'⟩, stores⟩ := abreast
  obtain ⟨stream, now, store⟩ := s₁
  obtain ⟨stream', now', store'⟩ := t₁
  obtain ⟨⟨values, _⟩, below⟩ := ctx
  dsimp only at streams streams' contexts contexts' stores idle
  subst streams streams' contexts contexts' stores idle
  cases left with
  | nothing =>
      rw [e.resolvePending_of_empty rfl] at resolved
      cases resolved
      exact ⟨nofun, fun _ => ⟨alike, [], 0, [], .nothing, ⟨data, pos, behind, inside, rfl, rfl⟩,
        ⟨rfl, rfl⟩, rfl⟩⟩
  | @patch d waits =>
      have room : EagerFrames (d.scopes.reverse ++ frame ::
          List.map Frame.values (⟨values, []⟩ :: below)) :=
        waits.eager.reverse.append fun other mem => by
          rcases List.mem_cons.mp mem with rfl | mem
          · exact alike.2
          · exact clear other mem
      -- The patch goes on waiting and leaves the frame, or it is applied and perhaps noted here.
      rcases e.of_resolveSince means (waits.patch ▸ quiet) (waits.field ▸ cell) room resolved with
        ⟨-, ⟨failure, computed⟩, rfl⟩ | ⟨v', w, filling, computed, fills, eager, rfl⟩
      · refine ⟨fun d' v' store' same now => ?_, fun _ => ⟨alike, _, _, _,
          .patch (waits.leave here alike.2), ⟨data, pos, behind, inside, rfl, rfl⟩, ⟨rfl, rfl⟩,
            rfl⟩⟩
        cases same
        cases computed.symm.trans now
      · obtain ⟨frame₂, shape, entry⟩ := Context.noted_frame frame (⟨values, []⟩ :: below) d w
        have fills : of.Writes defs v' filling := waits.field ▸ fills
        rw [shape]
        refine ⟨fun d' v₁ store' same now => ?_, fun settles => ?_⟩
        · cases same
          cases computed.symm.trans now
          exact ⟨rfl, filling, fills⟩
        · obtain rfl : v' = v := settles rfl d v' store rfl computed
          obtain rfl : filling = stored := fills.unique writes
          refine ⟨?_, [], 0, [], .nothing, Stream.replaced_self _ _, ⟨rfl, rfl⟩, rfl⟩
          rcases entry with rfl | ⟨inner, name, old, own, there, rfl⟩
          · exact alike
          · have noted : notedAs layers place = some name := by
              rw [notedAs, waits.inner inner, ← waits.path]
              exact own
            exact ⟨alike.1.replace noted there, alike.2.insert name eager⟩

/-! ## What a layer makes of its component -/

namespace Layer

section

variable (e defs of width p v stored layers path)

/-- The component of the layer is built from `u` in the state `s₁`.  A patch that is left there
leaves the layer, too, or is applied where the layer ends.  If it has the value that the other
format knows, the layer comes to the like of what it comes to with that format. -/
def CarriesAt (layer : Layer) (f g : Format) (w b : Value) (s s' : State) (u : Value)
    (s₁ : State) : Prop :=
  ∃ b₁ s₂, (f.codec e defs).build u (layer.place (labelOf layers) path) s₁ = .ok b₁ s₂ ∧
    (s₂.context = s₁.context → s'.context = s.context ∧
      ∀ v', ¬ layer.Computes e defs f w path s v') ∧
    ∀ b₂ t₂, (g.codec e defs).build u (layer.place (labelOf layers) path) s₁ = .ok b₂ t₂ →
      State.Alongside of width p stored layers (layer.place (labelOf layers) path) s₁.context
        b₁ b₂ s₂ t₂ →
      (∀ v', layer.Computes e defs f w path s v' →
        s'.context = s.context ∧ ∃ filling, of.Writes defs v' filling) ∧
      ((s'.context = s.context → ∀ v', layer.Computes e defs f w path s v' → v' = v) →
        ∃ b' t', ((layer.around g).codec e defs).build w path s = .ok b' t' ∧
          State.Alongside of width p stored (layer :: layers) path s.context b b' s' t')

/-- The layer carries along what its component leaves. -/
def Carries (layer : Layer) (f g : Format) : Prop :=
  ∀ ⦃w s b s' u s₁⦄, s.Calm → w.Eager →
    ((layer.around f).codec e defs).build w path s = .ok b s' →
    layer.Enters e defs f w path s u s₁ →
    u.Eager ∧ s₁.Calm ∧ layer.CarriesAt e defs of width p v stored layers path f g w b s s' u s₁

end

/-- Only a layer with a frame computes anything. -/
theorem isFrame_of_computes {w : Value} (h : layer.Computes e defs f w path s v) :
    layer.isFrame = true := by
  obtain ⟨s₁, d, store, gathered, -⟩ := h
  cases gathered with
  | struct => rfl
  | items listed =>
      cases layer with
      | sequence | focused => rfl
      | _ => cases listed

theorem Passes.carries (flat : layer.isFrame = false)
    (h : layer.Passes e defs of width p stored layers f g) :
    layer.Carries e defs of width p v stored layers path f g := by
  intro w s b s' u s₁ calm eager run entered
  have never (v' : Value) : ¬ layer.Computes e defs f w path s v' := fun computed =>
    absurd (isFrame_of_computes computed) (by rw [flat]; exact Bool.false_ne_true)
  obtain ⟨clear, calm₁, b₁, s₂, built, dead, alive⟩ := h calm eager run entered
  exact ⟨clear, calm₁, b₁, s₂, built, fun same => ⟨dead same, never⟩,
    fun b₂ t₂ known met => ⟨fun v' now => absurd now (never v'), fun _ => alive b₂ t₂ known met⟩⟩

/-- The members that are built with the component among them. -/
theorem carries_of_members {ρ : Type} (m m' : Run ρ) (wrap : ρ × Record Value → Value)
    (inputs : Record Value) (good : ρ → ρ → Prop) {w u b : Value} {s₀ s₁ s' : State}
    (means : e.Means defs) (quiet : p.Quiet e) (cell : of.Patchable width)
    (writes : of.Writes defs v stored) (calm : s.Calm) (same : s₀.context = s.context)
    (split : ((layer.around f).codec e defs).build w path s =
      (do
        let x ← Run.inFrame inputs do
          let r ← m
          e.resolvePending
          return r
        return wrap x) s₀)
    (split' : ((layer.around g).codec e defs).build w path s =
      (do
        let x ← Run.inFrame inputs do
          let r ← m'
          e.resolvePending
          return r
        return wrap x) s₀)
    (gathers : ∀ s₃, layer.Gathers e defs f w path s s₃ ↔
      ∃ r, m { s₀ with context := s₀.context.push inputs } = .ok r s₃)
    (wraps : ∀ r r' frame frame', good r r' →
      Fields layers (layer.place (labelOf layers) path) frame frame' →
      (wrap (r, frame)).Eager ∧
        Format.Alike (layer :: layers) path (wrap (r, frame)) (wrap (r', frame')))
    (members : ∀ r s₃, m { s₀ with context := s₀.context.push inputs } = .ok r s₃ → ∃ b₁ s₂,
      (f.codec e defs).build u (layer.place (labelOf layers) path) s₁ = .ok b₁ s₂ ∧
      (s₂.context = s₁.context → s₃.context.top.deferred = [] ∧
        s₃.context.below = s.context.top :: s.context.below) ∧
      ∀ b₂ t₂, (g.codec e defs).build u (layer.place (labelOf layers) path) s₁ = .ok b₂ t₂ →
        State.Alongside of width p stored layers (layer.place (labelOf layers) path) s₁.context
          b₁ b₂ s₂ t₂ →
        ∃ r' t₃ queue offset bytes,
          m' { s₀ with context := s₀.context.push inputs } = .ok r' t₃ ∧ good r r' ∧
          Outstanding of width p stored layers (layer.place (labelOf layers) path) queue offset
            bytes ∧
          s₃.Abreast offset bytes (Context.Entered
            (Fields layers (layer.place (labelOf layers) path)) queue []
            (s.context.top :: s.context.below) (s.context.top :: s.context.below)) t₃)
    (run : ((layer.around f).codec e defs).build w path s = .ok b s') :
    layer.CarriesAt e defs of width p v stored layers path f g w b s s' u s₁ := by
  rw [split] at run
  obtain ⟨x, s₅, framed, last⟩ := Run.bind_eq_ok_iff.mp run
  obtain ⟨rfl, rfl⟩ := Run.pure_eq_ok_iff.mp last
  obtain ⟨s₄, inside, frame, rfl⟩ := Run.ok_of_inFrame framed
  obtain ⟨r, s₃, built, rest⟩ := Run.bind_eq_ok_iff.mp inside
  obtain ⟨_, s₄', resolved, last⟩ := Run.bind_eq_ok_iff.mp rest
  obtain ⟨result, rfl⟩ := Run.pure_eq_ok_iff.mp last
  obtain ⟨r₀, frame₀⟩ := x
  dsimp only at result frame
  subst result frame
  -- The members are run once, so the state that they leave is determined.
  have gathered {s₃'} (h : layer.Gathers e defs f w path s s₃') : s₃' = s₃ := by
    obtain ⟨r', again⟩ := (gathers s₃').mp h
    rw [built] at again
    cases again
    rfl
  obtain ⟨b₁, s₂, child, dead, alive⟩ := members r s₃ built
  refine ⟨b₁, s₂, child, fun still => ?_, fun b₂ t₂ known met => ?_⟩
  · obtain ⟨empty, below⟩ := dead still
    rw [e.resolvePending_of_empty empty] at resolved
    cases resolved
    refine ⟨?_, ?_⟩
    · obtain ⟨stream, ⟨⟨values, queue⟩, under⟩, store⟩ := s₃
      obtain ⟨stream', ⟨⟨values', queue'⟩, under'⟩, store'⟩ := s
      obtain rfl : queue = [] := empty
      obtain rfl : queue' = [] := calm.idle
      obtain rfl : under = _ := below
      rfl
    · rintro v' ⟨s₃', d, store, gathered', waits, -⟩
      rw [gathered gathered', empty] at waits
      cases waits
  · obtain ⟨r', t₃, queue, offset, bytes, again, fine, left, abreast⟩ := alive b₂ t₂ known met
    have queued : s₃.context.top.deferred = queue := by
      obtain ⟨-, ⟨frame, frame', -, here, -⟩, -⟩ := abreast
      rw [here]
    have idle : t₃.context.top.deferred = [] := by
      obtain ⟨-, ⟨frame, frame', -, -, there⟩, -⟩ := abreast
      rw [there]
    obtain ⟨applied, ends⟩ := leaves means quiet cell writes rfl calm.idle calm.eager left abreast
      resolved
    refine ⟨?_, fun settles => ?_⟩
    · rintro v' ⟨s₃', d, store, gathered', waits, now⟩
      obtain rfl := gathered gathered'
      exact applied d v' store (queued.symm.trans waits) now
    obtain ⟨fields, met'⟩ := ends fun still d v' store waits now =>
      settles still v' ⟨s₃, d, store, (gathers s₃).mpr ⟨r, built⟩, queued.trans waits, now⟩
    obtain ⟨clear, alike⟩ := wraps r r' _ _ fine fields
    -- In the other run the value is in place and nothing waits, so the frame is simply left.
    have framed' : Run.inFrame inputs (do
          let r ← m'
          e.resolvePending
          return r) s₀ =
        .ok (r', t₃.context.innermost) { t₃ with context := t₃.context.pop } := by
      refine Run.inFrame_of_ok ?_
      rw [Run.bind_of_ok again, Run.bind_of_ok (e.resolvePending_of_empty idle)]
      rfl
    refine ⟨wrap (r', t₃.context.innermost), _, ?_, clear, alike, met'⟩
    rw [split', Run.bind_of_ok framed']
    rfl

end Layer

end BinaryFormat
