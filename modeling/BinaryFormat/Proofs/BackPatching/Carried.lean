import BinaryFormat.Proofs.BackPatching.Entering

/-!
# Layers that carry a patch along

A layer without a frame of its own passes the patch of its component on: it stays where it is,
or it is moved with the bytes of the scratch buffer that the component was built in.  The run in
which the value is in place comes along.
-/

namespace BinaryFormat

open Format (labelOf parts)
open Run (InStep inStep_tell)

variable {e : Engine} {defs : Definitions} {of : Format} {width : Nat} {p : Patch}
  {stored : List UInt8} {layers : List Layer} {layer : Layer} {f g : Format} {path : Path}
  {ctx : Context} {s t : State}

/-! ## Through one layer -/

private theorem Deferred.Waits.outer {d : Deferred} (flat : layer.isFrame = false)
    (h : d.Waits of width p layers (layer.place (labelOf layers) path)) :
    d.Waits of width p (layer :: layers) path :=
  ⟨h.field, h.patch, h.size, h.path, fun none => by simp [flat, h.inner none], h.eager⟩

namespace State

private theorem Met.outer (flat : layer.isFrame = false)
    (h : s.Met of width p stored layers (layer.place (labelOf layers) path) ctx t) :
    s.Met of width p stored (layer :: layers) path ctx t := by
  obtain ⟨queue, offset, bytes, left, abreast⟩ := h
  cases left with
  | nothing => exact ⟨[], 0, [], .nothing, abreast⟩
  | patch waits => exact ⟨_, _, _, .patch (waits.outer flat), abreast⟩

/-- What comes behind the component comes to the same. -/
private theorem Met.step {α : Type} {good : α → Prop} {x : Run α} {a : α} {s' : State}
    (h : s.Met of width p stored layers path ctx t)
    (steps : ∀ {offset bytes queue}, InStep good
      (Abreast offset bytes (Context.These (ctx.withDeferred queue) ctx)) x x)
    (run : x s = .ok a s') :
    ∃ t', x t = .ok a t' ∧ s'.Met of width p stored layers path ctx t' := by
  obtain ⟨queue, offset, bytes, left, abreast⟩ := h
  obtain ⟨t', ran, -, abreast'⟩ := steps.of_ok abreast run
  exact ⟨t', ran, queue, offset, bytes, left, abreast'⟩

private theorem Met.length (h : s.Met of width p stored layers path ctx t) :
    s.stream.data.length = t.stream.data.length := by
  obtain ⟨queue, offset, bytes, -, ⟨data, pos, -, inside, same, same'⟩, -, -⟩ := h
  rw [same, same']
  exact (Medium.length_overlay_of_le inside).symm

private theorem Met.frames (h : s.Met of width p stored layers path ctx t) :
    s.context.frames = t.context.frames := by
  obtain ⟨queue, offset, bytes, -, -, ⟨here, there⟩, -⟩ := h
  rw [here, there]
  rfl

private theorem Met.store (h : s.Met of width p stored layers path ctx t) : s.store = t.store := by
  obtain ⟨queue, offset, bytes, -, -, -, stores⟩ := h
  exact stores

end State

private theorem Run.splice_growing (bytes : List UInt8) (mark : Nat) (place : Path)
    (data : List UInt8)
    (pos : Nat) (ctx : Context) (store : LazyStore) :
    Run.splice bytes mark place ⟨.growing data pos, ctx, store⟩ =
      .ok () ⟨.growing (Medium.overlay data pos bytes) (pos + bytes.length),
        ctx.rebaseSince mark pos, store⟩ := rfl

private theorem Context.rebaseSince_idle (idle : ctx.top.deferred = []) (base : Nat) :
    ctx.rebaseSince 0 base = ctx := by
  obtain ⟨⟨values, queue⟩, below⟩ := ctx
  obtain rfl : queue = [] := idle
  rfl

/-- A patch that was left in a scratch buffer moves with its bytes. -/
private theorem State.Met.splice (h : s.Met of width p stored layers path ctx t)
    (idle : ctx.top.deferred = []) (tail : List UInt8) {place : Path} {data : List UInt8}
    {pos : Nat} {store : LazyStore} {s' : State}
    (run : Run.splice (s.stream.data ++ tail) 0 place ⟨.growing data pos, s.context, store⟩ =
      .ok () s') :
    ∃ t', Run.splice (t.stream.data ++ tail) 0 place ⟨.growing data pos, t.context, store⟩ =
        .ok () t' ∧ s'.Met of width p stored layers path ctx t' := by
  obtain ⟨stream, now, _⟩ := s
  obtain ⟨stream', now', _⟩ := t
  obtain ⟨queue, offset, bytes, left, ⟨units, reached, -, inside, same, same'⟩, ⟨here, there⟩,
    -⟩ := h
  dsimp only at same same' here there run ⊢
  subst same same' here there
  rw [Run.splice_growing] at run ⊢
  cases run
  refine ⟨_, rfl, ?_⟩
  rw [Context.rebaseSince_idle idle]
  cases left with
  | nothing =>
      have plain : Medium.overlay units 0 [] = units := by simp [Medium.overlay]
      refine ⟨[], 0, [], .nothing, ?_, ⟨rfl, rfl⟩, rfl⟩
      rw [show (Stream.growing (Medium.overlay units 0 []) reached).data = units from plain]
      exact Stream.replaced_self _ _
  | @patch d waits =>
      have inside : d.offset + stored.length ≤ units.length := inside
      have longer : (units ++ tail).length = units.length + tail.length := List.length_append
      refine ⟨[{ d with offset := d.offset + pos }], d.offset + pos, stored,
        .patch (d := { d with offset := d.offset + pos }) ⟨waits.field, waits.patch, waits.size,
          waits.path, waits.inner, waits.eager⟩, ⟨Medium.overlay data pos (units ++ tail),
            pos + (units ++ tail).length, by omega, ?_, rfl, ?_⟩, ⟨rfl, rfl⟩, rfl⟩
      · rw [Medium.length_overlay]
        omega
      · have moved : Medium.overlay units d.offset stored ++ tail =
            Medium.overlay (units ++ tail) d.offset stored := Medium.overlay_followed inside tail
        have same : (Medium.overlay (units ++ tail) d.offset stored).length =
            (units ++ tail).length := Medium.length_overlay_of_le (by omega)
        show Stream.growing (Medium.overlay data pos (Medium.overlay units d.offset stored ++ tail))
          (pos + (Medium.overlay units d.offset stored ++ tail).length) = _
        rw [moved, same, Medium.overlay_within (by omega)]

/-! ## Layers without a scratch buffer -/

namespace Layer

section

variable (e defs of width p stored layers)

/-- The component of the layer is built from `u` in the state `s₁`.  What it leaves the layer passes
on, and with the other format in its place the layer comes to the like of it. -/
def PassesAt (layer : Layer) (f g : Format) (path : Path) (w b : Value) (s s' : State) (u : Value)
    (s₁ : State) : Prop :=
  ∃ b₁ s₂, (f.codec e defs).build u (layer.place (labelOf layers) path) s₁ = .ok b₁ s₂ ∧
    (s₂.context = s₁.context → s'.context = s.context) ∧
    ∀ b₂ t₂, (g.codec e defs).build u (layer.place (labelOf layers) path) s₁ = .ok b₂ t₂ →
      State.Alongside of width p stored layers (layer.place (labelOf layers) path) s₁.context
        b₁ b₂ s₂ t₂ →
      ∃ b' t', ((layer.around g).codec e defs).build w path s = .ok b' t' ∧
        State.Alongside of width p stored (layer :: layers) path s.context b b' s' t'

/-- The layer passes on what its component comes to. -/
def Passes (layer : Layer) (f g : Format) : Prop :=
  ∀ ⦃w path s b s' u s₁⦄, s.Calm → w.Eager →
    ((layer.around f).codec e defs).build w path s = .ok b s' →
    layer.Enters e defs f w path s u s₁ →
    u.Eager ∧ s₁.Calm ∧ layer.PassesAt e defs of width p stored layers f g path w b s s' u s₁

end

theorem passes_named (name : String) :
    (named name).Passes e defs of width p stored layers f g := by
  intro w path s b s' u s₁ calm eager run entered
  cases entered with
  | items listed => cases listed
  | named =>
      exact ⟨eager, calm, b, s', run, id, fun b₂ t₂ known met =>
        ⟨b₂, t₂, known, met.eager, met.alike, met.met.outer rfl⟩⟩

theorem passes_documented (docs : String) :
    (documented docs).Passes e defs of width p stored layers f g := by
  intro w path s b s' u s₁ calm eager run entered
  cases entered with
  | items listed => cases listed
  | documented =>
      exact ⟨eager, calm, b, s', run, id, fun b₂ t₂ known met =>
        ⟨b₂, t₂, known, met.eager, met.alike, met.met.outer rfl⟩⟩

private theorem carried_of_filled {w b : Value} {s₁ s' : State} (behind : Run Unit)
    (flat : layer.isFrame = false) (stay : layer.place (labelOf layers) path = path)
    (opens : ∀ b b', Format.Alike layers path b b' → Format.Alike (layer :: layers) path b b')
    (same : s₁.context = s.context)
    (keeps : ∀ ctx, behind.Keeps (· = ctx))
    (steps : ∀ {offset bytes queue}, InStep (fun _ => True)
      (State.Abreast offset bytes (Context.These (s.context.withDeferred queue) s.context))
      behind behind)
    (split : ∀ h : Format, ((layer.around h).codec e defs).build w path s =
      (do
        let b ← (h.codec e defs).build w path
        behind
        return b) s₁)
    (run : ((layer.around f).codec e defs).build w path s = .ok b s') :
    layer.PassesAt e defs of width p stored layers f g path w b s s' w s₁ := by
  rw [split] at run
  obtain ⟨b₁, s₂, built, rest⟩ := Run.bind_eq_ok_iff.mp run
  obtain ⟨_, s₃, filled, last⟩ := Run.bind_eq_ok_iff.mp rest
  obtain ⟨rfl, rfl⟩ := Run.pure_eq_ok_iff.mp last
  rw [PassesAt, stay, same, split]
  refine ⟨b₁, s₂, built, fun dead => ((keeps _).of_ok dead filled).1, fun b₂ t₂ known met => ?_⟩
  obtain ⟨t', filled', met'⟩ := met.met.step steps filled
  refine ⟨b₂, t', ?_, met.eager, opens _ _ met.alike, State.Met.outer flat (stay.symm ▸ met')⟩
  rw [Run.bind_of_ok known, Run.bind_of_ok filled']
  rfl

private theorem steps_fill {C : Context → Context → Prop} {offset : Nat} {bytes : List UInt8}
    (n start : Nat) (fill : Fill) (path : Path) :
    InStep (fun _ => True) (State.Abreast offset bytes C)
      (do
        let used := Size.sub (← Run.tell) start
        Codec.writeFill fill (← Codec.remainder n used path) path : Run Unit)
      (do
        let used := Size.sub (← Run.tell) start
        Codec.writeFill fill (← Codec.remainder n used path) path : Run Unit) :=
  inStep_tell.bind fun _ _ => (Codec.inStep_remainder _ _ path).bind fun _ _ =>
    Run.inStep_write _ path

theorem passes_padded (length : Expr) (fill : Fill) :
    (padded length fill).Passes e defs of width p stored layers f g := by
  intro w path s b s' u s₁ calm eager run entered
  cases entered with
  | items listed => cases listed
  | @padded _ _ n _ _ _ _ sized =>
      obtain ⟨calm₁, same⟩ := calm.of_keeps e.keeps_evalSize sized
      refine ⟨eager, calm₁, carried_of_filled (do
          let used := Size.sub (← Run.tell) s₁.stream.pos
          Codec.writeFill fill (← Codec.remainder n used path) path) rfl rfl
        (fun _ _ alike => alike) same (fun _ => .bind Run.keeps_tell fun _ =>
          .bind (Codec.keeps_remainder _ _ path) fun _ => Codec.keeps_writeFill fill _ path)
        (steps_fill n _ fill path) (fun h => ?_) run⟩
      simp only [around, Format.codec, Codec.padded, bind_assoc]
      rw [Run.bind_of_ok sized, Run.bind_of_ok (Run.tell_apply s₁)]

theorem passes_aligned (modulus : Expr) (fill : Fill) :
    (aligned modulus fill).Passes e defs of width p stored layers f g := by
  intro w path s b s' u s₁ calm eager run entered
  cases entered with
  | items listed => cases listed
  | @aligned _ _ n _ _ _ _ multiple =>
      obtain ⟨calm₁, same⟩ := calm.of_keeps (Codec.keeps_evalModulus modulus path) multiple
      refine ⟨eager, calm₁, carried_of_filled (do
          let used := Size.sub (← Run.tell) s₁.stream.pos
          Codec.writeFill fill (Codec.toMultiple used n) path) rfl rfl (fun _ _ alike => alike)
        same (fun _ => .bind Run.keeps_tell fun _ => Codec.keeps_writeFill fill _ path)
        (inStep_tell.bind fun _ _ => Run.inStep_write _ path) (fun h => ?_) run⟩
      simp only [around, Format.codec, Codec.aligned, bind_assoc]
      rw [Run.bind_of_ok multiple, Run.bind_of_ok (Run.tell_apply s₁)]

end Layer

/-- Whether bytes can be copied depends on how many there are. -/
private theorem Codec.copySince_growing {start pos : Nat} {data bytes : List UInt8}
    {store : LazyStore}
    {s' : State} (run : copySince start path ⟨.growing data pos, ctx, store⟩ = .ok bytes s') :
    s' = ⟨.growing data (start + Size.sub pos start), ctx, store⟩ ∧
      ∀ (data' : List UInt8) (ctx' : Context) (store' : LazyStore), data'.length = data.length →
        ∃ bytes', copySince start path ⟨.growing data' pos, ctx', store'⟩ =
          .ok bytes' ⟨.growing data' (start + Size.sub pos start), ctx', store'⟩ := by
  have copied (data : List UInt8) (ctx : Context) (store : LazyStore) :
      copySince start path ⟨.growing data pos, ctx, store⟩ =
        if ((data.drop start).take (Size.sub pos start)).length = Size.sub pos start then
          .ok ((data.drop start).take (Size.sub pos start))
            ⟨.growing data (start + ((data.drop start).take (Size.sub pos start)).length), ctx,
              store⟩
        else .error ((Fault.shortage (.read (Size.sub pos start)
          ((data.drop start).take (Size.sub pos start)).length)).atPath path)
            ⟨.growing data (start + ((data.drop start).take (Size.sub pos start)).length), ctx,
              store⟩ := rfl
  rw [copied] at run
  split at run
  · next enough =>
      cases run
      refine ⟨by rw [enough], fun data' ctx' store' same => ?_⟩
      have enough' : ((data'.drop start).take (Size.sub pos start)).length =
          Size.sub pos start := by
        rw [List.length_take, List.length_drop] at enough ⊢
        rw [same, enough]
      rw [copied, if_pos enough', enough']
      exact ⟨_, rfl⟩
  · cases run

namespace Layer

theorem passes_rawCopy : rawCopy.Passes e defs of width p stored layers f g := by
  intro w path s b s' u s₁ calm eager run entered
  cases entered with
  | items listed => cases listed
  | @rawCopy input _ _ _ _ _ given value present =>
      obtain ⟨calm₁, same⟩ := calm.of_keeps e.keeps_containerInput given
      have clear : u.Eager :=
        ((Engine.inStep_containerInput eager path).alone calm.alone given).1.get? value
      -- Whichever format is the component, the layer does the same up to it.
      have split (h : Format) : ((Layer.around .rawCopy h).codec e defs).build w path s =
          (do
            let built ← Part.build ⟨h, h.codec e defs⟩ u path
            let stop ← Run.tell
            let data ← Codec.copySince s₁.stream.pos path
            return Codec.rawRecord data built s₁.stream.pos stop) s₁ := by
        simp only [around, Format.codec, Codec.rawCopy]
        rw [Run.bind_of_ok given, Run.bind_of_ok (Run.tell_apply s₁)]
        simp only [value, Option.getD_some, present, Bool.not_false, if_true]
      rw [split] at run
      obtain ⟨b₁, s₂, built, rest⟩ := Run.bind_eq_ok_iff.mp run
      rw [Run.bind_of_ok (Run.tell_apply s₂)] at rest
      obtain ⟨bytes, s₃, copied, last⟩ := Run.bind_eq_ok_iff.mp rest
      obtain ⟨rfl, rfl⟩ := Run.pure_eq_ok_iff.mp last
      refine ⟨clear, calm₁, b₁, s₂, Part.build_eq_ok_iff.mp built, fun dead => ?_,
        fun b₂ t₂ known met => ?_⟩
      · exact ((Codec.keeps_copySince _ path).of_ok (P := (· = s.context)) (dead.trans same)
          copied).1
      · obtain ⟨sound, -, queue, offset, stuff, left, ⟨data, pos, behind, inside, first, second⟩,
          ⟨here, there⟩, stores⟩ := met
        obtain ⟨stream, now, store⟩ := s₂
        obtain ⟨stream', now', store'⟩ := t₂
        dsimp only at first second here there stores
        subst first second here there stores
        obtain ⟨rfl, again⟩ := Codec.copySince_growing copied
        obtain ⟨bytes', copied'⟩ := again _ s₁.context store (Medium.length_overlay_of_le inside)
        refine ⟨Codec.rawRecord bytes' b₂ s₁.stream.pos pos,
          ⟨.growing (Medium.overlay data offset stuff) (s₁.stream.pos +
            Size.sub pos s₁.stream.pos), s₁.context, store⟩, ?_,
          Codec.eager_rawRecord sound _ _ _, trivial,
          State.Met.outer rfl ⟨queue, offset, stuff, left,
            ⟨data, _, behind.trans (Size.le_add_of_sub_eq rfl), inside, rfl, rfl⟩,
            ⟨by rw [same], same⟩, rfl⟩⟩
        rw [split, Run.bind_of_ok (Part.build_eq_ok_iff.mpr known),
          Run.bind_of_ok (Run.tell_apply _), Run.bind_of_ok copied']
        rfl

end Layer

/-! ## Layers with a scratch buffer -/

theorem Codec.buildScratch_eq_ok_iff {c : Codec} {v : Value} {r : Value × List UInt8} {s' : State} :
    c.buildScratch v path s = .ok r s' ↔
      ∃ s₁, c.build v path { s with stream := .memory [] } = .ok r.1 s₁ ∧ r.2 = s₁.stream.data ∧
        s' = { s₁ with stream := s.stream } := by
  constructor
  · intro run
    obtain ⟨⟨b, stream⟩, s₂, inside, last⟩ := Run.bind_eq_ok_iff.mp run
    obtain ⟨rfl, rfl⟩ := Run.pure_eq_ok_iff.mp last
    obtain ⟨s₁, built, rfl, rfl⟩ := Run.ok_of_onStream inside
    exact ⟨s₁, built, rfl, rfl⟩
  · rintro ⟨s₁, built, bytes, rfl⟩
    obtain ⟨b, data⟩ := r
    obtain rfl : data = s₁.stream.data := bytes
    have inside : Run.onStream (.memory []) (c.build v path) s =
        .ok (b, s₁.stream) { s₁ with stream := s.stream } := Run.onStream_of_ok built
    rw [Codec.buildScratch, Run.bind_of_ok inside]
    rfl

private theorem State.Calm.mark {s : State} (calm : s.Calm) : Run.mark s = .ok 0 s := by
  rw [Run.mark, Context.mark, calm.idle]
  rfl

private theorem Run.context_of_splice {bytes : List UInt8} {place : Path} {s' : State}
    (idle : s.context.top.deferred = []) (run : Run.splice bytes 0 place s = .ok () s') :
    s'.context = s.context := by
  obtain ⟨_, s₁, told, run⟩ := Run.bind_eq_ok_iff.mp run
  cases told
  obtain ⟨_, s₁, written, last⟩ := Run.bind_eq_ok_iff.mp run
  obtain ⟨same, -⟩ := (Run.keeps_write (P := (· = s.context))).of_ok rfl written
  cases last
  rw [← same] at idle ⊢
  exact Context.rebaseSince_idle idle _

namespace Layer

theorem passes_fixedSized (length : Expr) :
    (fixedSized length).Passes e defs of width p stored layers f g := by
  intro w path s b s' u s₁ calm eager run entered
  cases entered with
  | items listed => cases listed
  | @fixedSized _ n _ _ _ s₀ sized =>
      obtain ⟨calm₀, same⟩ := calm.of_keeps e.keeps_evalSize sized
      -- Whichever format is the component, the layer does the same up to it.
      have split (h : Format) :
          ((Layer.around (.fixedSized length) h).codec e defs).build w path s = (do
            let made ← (h.codec e defs).buildScratch w path
            if n < made.2.length then
              Run.modifyContext (·.discardSince 0)
              Run.fail (.misfit (.block made.2.length n)) path
            Run.splice (made.2 ++ List.replicate (n - made.2.length) 0) 0 path
            return made.1) s₀ := by
        simp only [around, Format.codec, Codec.fixedSized]
        rw [Run.bind_of_ok sized, Run.bind_of_ok calm₀.mark]
      rw [split] at run
      obtain ⟨⟨b₁, units⟩, s₃, scratch, rest⟩ := Run.bind_eq_ok_iff.mp run
      obtain ⟨s₂, built, rfl, rfl⟩ := Codec.buildScratch_eq_ok_iff.mp scratch
      dsimp only at rest
      split at rest
      · cases rest
      next fits =>
      obtain ⟨_, s₃, copied, last⟩ := Run.bind_eq_ok_iff.mp rest
      obtain ⟨rfl, rfl⟩ := Run.pure_eq_ok_iff.mp last
      refine ⟨eager, calm₀.scratch, b₁, s₂, built, fun dead => ?_, fun b₂ t₂ known met => ?_⟩
      · exact (Run.context_of_splice (by rw [dead]; exact calm₀.idle) copied).trans
          (dead.trans same)
      · obtain ⟨data, pos, growing⟩ := calm₀.growing
        rw [growing] at copied
        -- Both payloads are of one length, so both fit and are filled up alike.
        have long := met.met.length
        obtain ⟨t', copied', met'⟩ := met.met.splice calm₀.idle _ copied
        refine ⟨b₂, t', ?_, met.eager, met.alike, State.Met.outer rfl (same ▸ met')⟩
        have scratch' : (g.codec e defs).buildScratch w path s₀ =
            .ok (b₂, t₂.stream.data) { t₂ with stream := s₀.stream } :=
          Codec.buildScratch_eq_ok_iff.mpr ⟨t₂, known, rfl, rfl⟩
        rw [split, Run.bind_of_ok scratch']
        dsimp only
        rw [if_neg (by rwa [← long]), growing, ← long, ← met.met.store, Run.bind_of_ok copied']
        rfl

theorem passes_prefixed {length : Format} (nested : length.Nested) (inclusive lenient : Bool) :
    (prefixed length inclusive lenient).Passes e defs of width p stored layers f g := by
  intro w path s b s' u s₁ calm eager run entered
  cases entered with
  | items listed => cases listed
  | prefixed =>
      have split (h : Format) :
          ((Layer.around (.prefixed length inclusive lenient) h).codec e defs).build w path s =
          (do
            let made ← (h.codec e defs).buildScratch w path
            let own ← Codec.overhead ⟨length, length.codec e defs⟩ inclusive path
            let _ ← Part.build ⟨length, length.codec e defs⟩
              (.ofNat (Size.add made.2.length own)) path
            Run.splice made.2 0 path
            return made.1) s := by
        simp only [around, Format.codec, Codec.prefixed]
        rw [Run.bind_of_ok calm.mark]
      rw [split] at run
      obtain ⟨⟨b₁, units⟩, s₃, scratch, rest⟩ := Run.bind_eq_ok_iff.mp run
      obtain ⟨s₂, built, rfl, rfl⟩ := Codec.buildScratch_eq_ok_iff.mp scratch
      dsimp only at rest
      obtain ⟨own, s₄, counted, rest⟩ := Run.bind_eq_ok_iff.mp rest
      obtain ⟨_, s₅, noted, rest⟩ := Run.bind_eq_ok_iff.mp rest
      obtain ⟨_, s₆, copied, last⟩ := Run.bind_eq_ok_iff.mp rest
      obtain ⟨rfl, rfl⟩ := Run.pure_eq_ok_iff.mp last
      -- The length is built in the same way, whatever waits.
      obtain ⟨data, pos, growing⟩ := calm.growing
      have ahead {t₂ : State} (frames : t₂.context.frames = s₂.context.frames)
          (stores : s₂.store = t₂.store) :
          ∃ data' pos' store', s₅ = ⟨.growing data' pos', s₂.context, store'⟩ ∧
            ∃ t₄ w', Codec.overhead ⟨length, length.codec e defs⟩ inclusive path
              { t₂ with stream := s.stream } = .ok own t₄ ∧
            Part.build ⟨length, length.codec e defs⟩
              (.ofNat (Size.add s₂.stream.data.length own)) path
              t₄ = .ok w' ⟨.growing data' pos', t₂.context, store'⟩ := by
        have alone := Format.unaware_codec e defs nested
          (Format.overlooks_refl e s₂.context.frames nested)
        have start : State.Abreast 0 [] (Context.These s₂.context t₂.context)
            { s₂ with stream := s.stream } { t₂ with stream := s.stream } :=
          ⟨by rw [growing]; exact Stream.replaced_self data pos, ⟨rfl, rfl⟩, stores⟩
        obtain ⟨t₄, counted', -, later⟩ := (Codec.inStep_overhead (p := ⟨length, _⟩) alone rfl
          frames inclusive path).of_ok start counted
        obtain ⟨t₅, noted', -, ends⟩ := (alone.build rfl frames (v := .ofNat _) trivial
          path).tagged.of_ok later noted
        obtain ⟨same, data', pos', reached⟩ := Stream.eq_of_replaced_nil ends.stream
        obtain ⟨stream, now, store⟩ := s₅
        obtain ⟨stream', now', store'⟩ := t₅
        obtain ⟨-, ⟨here, there⟩, kept⟩ := ends
        dsimp only at same reached here there kept
        subst reached same here there kept
        exact ⟨data', pos', _, rfl, t₄, _, counted', noted'⟩
      refine ⟨eager, calm.scratch, b₁, s₂, built, fun dead => ?_, fun b₂ t₂ known met => ?_⟩
      · obtain ⟨data', pos', store', rfl, -⟩ := ahead rfl rfl
        exact (Run.context_of_splice (by dsimp only; rw [dead]; exact calm.idle) copied).trans dead
      · obtain ⟨data', pos', store', rfl, t₄, w', counted', noted'⟩ :=
          ahead met.met.frames.symm met.met.store
        have long := met.met.length
        have scratch' : (g.codec e defs).buildScratch w path s =
            .ok (b₂, t₂.stream.data) { t₂ with stream := s.stream } :=
          Codec.buildScratch_eq_ok_iff.mpr ⟨t₂, known, rfl, rfl⟩
        rw [← List.append_nil s₂.stream.data] at copied
        obtain ⟨t', copied', met'⟩ := met.met.splice calm.idle [] copied
        refine ⟨b₂, t', ?_, met.eager, met.alike, State.Met.outer rfl met'⟩
        rw [split, Run.bind_of_ok scratch']
        dsimp only
        rw [Run.bind_of_ok counted', ← long, Run.bind_of_ok noted']
        rw [List.append_nil] at copied'
        rw [Run.bind_of_ok copied']
        rfl

end Layer

/-! ## Choices -/

namespace Codec

/-- The name and the value of a tagged value. -/
def called? (v : Value) : Option (String × Value) := do
  let fields ← v.fields?
  let name ← (← Record.get? fields "name").str?
  return (name, (Record.get? fields "value").getD .none)

theorem namedAlternative?_eq (ps : List Part) (v : Value) :
    namedAlternative? ps v =
      (called? v).bind fun c => (ps.find? (·.name? == some c.1)).map fun q => (q, c.2) := by
  unfold namedAlternative? called?
  simp only [Option.bind_eq_bind, Option.pure_def, Option.bind_assoc, Option.bind_some,
    Option.map_eq_bind, Function.comp_def]

theorem firstBuilt_append (tagged : Bool) (v : Value) (ps qs : List Part) (store : LazyStore) :
    firstBuilt tagged v path s (ps ++ qs) store =
      match firstBuilt tagged v path s ps store with
      | .impossible store' => firstBuilt tagged v path s qs store'
      | reached => reached := by
  induction ps generalizing store with
  | nil => rfl
  | cons p rest ih =>
      simp only [List.cons_append, firstBuilt]
      split
      · rfl
      · split
        · rfl
        · exact ih _

private theorem tryBuild_of_scratch {q : Part} {u b : Value} {s₁ : State} (calm : s.Calm)
    (tagged : Bool)
    (built : q.codec.build u path { s with stream := .memory [] } = .ok b s₁) :
    tryBuild tagged q u path s =
      (do
        Run.splice s₁.stream.data 0 path
        return tag tagged q b) { s₁ with stream := s.stream } := by
  have scratch : q.codec.buildScratch u path s =
      .ok (b, s₁.stream.data) { s₁ with stream := s.stream } :=
    buildScratch_eq_ok_iff.mpr ⟨s₁, built, rfl, rfl⟩
  rw [tryBuild, Run.bind_of_ok calm.mark, Run.bind_of_ok (Run.outcome_of_ok scratch)]

end Codec

namespace Layer

variable {before after : List Format}

section

variable (of width p stored layers before after) (tagged : Bool)

private theorem tried {u b₁ : Value} {s₂ : State} (same : f.name? = g.name?) (calm : s.Calm)
    (built : (f.codec e defs).build u path { s with stream := .memory [] } = .ok b₁ s₂) :
    ∃ b s', Codec.tryBuild tagged ⟨f, f.codec e defs⟩ u path s = .ok b s' ∧
      (s₂.context = s.context → s'.context = s.context) ∧
      ∀ b₂ t₂, (g.codec e defs).build u path { s with stream := .memory [] } = .ok b₂ t₂ →
        State.Alongside of width p stored layers path s.context b₁ b₂ s₂ t₂ →
        ∃ b' t', Codec.tryBuild tagged ⟨g, g.codec e defs⟩ u path s = .ok b' t' ∧
          State.Alongside of width p stored (.select before after tagged :: layers) path s.context
            b b' s' t' := by
  obtain ⟨data, pos, growing⟩ := calm.growing
  obtain ⟨s', copied⟩ : ∃ s', Run.splice s₂.stream.data 0 path { s₂ with stream := s.stream } =
      .ok () s' := ⟨_, by rw [growing]; exact Run.splice_growing _ _ _ _ _ _ _⟩
  refine ⟨Codec.tag tagged ⟨f, f.codec e defs⟩ b₁, s', ?_, fun dead => ?_,
    fun b₂ t₂ known met => ?_⟩
  · rw [Codec.tryBuild_of_scratch calm tagged built, Run.bind_of_ok copied]
    rfl
  · exact (Run.context_of_splice (by rw [dead]; exact calm.idle) copied).trans dead
  · rw [growing, ← List.append_nil s₂.stream.data] at copied
    obtain ⟨t', copied', met'⟩ := met.met.splice calm.idle [] copied
    rw [List.append_nil, ← growing, met.met.store] at copied'
    refine ⟨Codec.tag tagged ⟨g, g.codec e defs⟩ b₂, t', ?_,
      Codec.eager_tag tagged _ met.eager, ?_, State.Met.outer rfl met'⟩
    · rw [Codec.tryBuild_of_scratch calm tagged known, Run.bind_of_ok copied']
      rfl
    · unfold Codec.tag Part.name?
      dsimp only
      rw [← same]
      cases tagged with
      | true => exact ⟨_, b₁, b₂, rfl, rfl, met.alike⟩
      | false => exact met.alike

end

private theorem select_of_named {u w : Value}
    (other : Codec.namedAlternative? (parts e defs before) w = none)
    (chosen : Codec.namedAlternative? [⟨f, f.codec e defs⟩] w = some (⟨f, f.codec e defs⟩, u))
    (same : f.name? = g.name?) :
    (Codec.select (parts e defs (before ++ g :: after)) true).build w path =
      Codec.tryBuild true ⟨g, g.codec e defs⟩ u path := by
  have named : Codec.namedAlternative? (parts e defs (before ++ g :: after)) w =
      some (⟨g, g.codec e defs⟩, u) := by
    rw [Codec.namedAlternative?_eq] at other chosen ⊢
    obtain ⟨c, called, chosen⟩ := Option.bind_eq_some_iff.mp chosen
    rw [called, Option.bind_some] at other ⊢
    have none := Option.map_eq_none_iff.mp other
    have mine : (f.name? == some c.1) = true ∧ c.2 = u := by
      rw [List.find?_singleton] at chosen
      split at chosen
      · next mine =>
          cases chosen
          exact ⟨mine, rfl⟩
      · cases chosen
    rw [Format.parts_append, List.find?_append, none, Option.none_or, parts]
    rw [List.find?_cons_of_pos (by show (g.name? == some c.1) = true; rw [← same]; exact mine.1)]
    rw [← mine.2]
    rfl
  simp only [Codec.select, named, if_true]

/-- On a stream that grows the alternatives are tried until one can be built. -/
theorem reached_of_calm {ps : List Part} {w : Value} {tagged : Bool}
    (steady : ∀ q ∈ ps, q.codec.Steady ⟨False, False, False, True⟩) (calm : s.Calm) :
    Codec.Attempt.Reached s (Codec.firstBuilt tagged w path s ps s.store)
      (Codec.buildFirst tagged w path ps s) := by
  obtain ⟨data, pos, growing⟩ := calm.growing
  refine Codec.reached_buildFirst steady fun _ _ _ _ _ _ _ => ?_
  rw [growing]
  exact Stream.takes_growing _ _ _

private theorem select_of_refused {tagged : Bool} {w b : Value} {store : LazyStore} {s' : State}
    (steady : ∀ q ∈ parts e defs (before ++ g :: after), q.codec.Steady ⟨False, False, False, True⟩)
    (calm : s.Calm)
    (unnamed : tagged = true →
      Codec.namedAlternative? (parts e defs (before ++ g :: after)) w = none)
    (refused : Codec.firstBuilt tagged w path s (parts e defs before) s.store = .impossible store)
    (tried : Codec.tryBuild tagged ⟨g, g.codec e defs⟩ w path { s with store := store } =
      .ok b s') :
    (Codec.select (parts e defs (before ++ g :: after)) tagged).build w path s = .ok b s' := by
  have mine : Codec.firstBuilt tagged w path s (parts e defs (before ++ g :: after)) s.store =
      .built ⟨g, g.codec e defs⟩ b s' := by
    rw [Format.parts_append, Codec.firstBuilt_append, refused]
    simp only [parts, Codec.firstBuilt, tried]
  have first : Codec.buildFirst tagged w path (parts e defs (before ++ g :: after)) s =
      .ok (some b) s' := by
    have reached := mine ▸ reached_of_calm steady calm
    generalize Codec.buildFirst tagged w path _ s = r at reached ⊢
    cases reached
    rfl
  have none : (if tagged then Codec.namedAlternative? (parts e defs (before ++ g :: after)) w
      else none) = none := by
    split
    · next yes => exact unnamed yes
    · rfl
  simp only [Codec.select, none]
  rw [Run.bind_of_ok first]
  rfl

private theorem unnamed_congr {w : Value} (same : f.name? = g.name?)
    (unnamed : Codec.namedAlternative? (parts e defs (before ++ f :: after)) w = none) :
    Codec.namedAlternative? (parts e defs (before ++ g :: after)) w = none := by
  rw [Codec.namedAlternative?_eq] at unnamed ⊢
  cases called : Codec.called? w with
  | none => rfl
  | some c =>
      rw [called, Option.bind_some] at unnamed
      rw [Option.bind_some, Option.map_eq_none_iff, List.find?_eq_none]
      intro q mem
      have others := List.find?_eq_none.mp (Option.map_eq_none_iff.mp unnamed)
      rw [Format.parts_append] at mem others
      rcases List.mem_append.mp mem with mem | mem
      · exact others q (List.mem_append_left _ mem)
      · rcases List.mem_cons.mp mem with rfl | mem
        · have mine := others ⟨f, f.codec e defs⟩ (List.mem_append_right _ List.mem_cons_self)
          rwa [Part.name?, ← same]
        · exact others q (List.mem_append_right _ (List.mem_cons_of_mem _ mem))

theorem passes_select (tagged : Bool) (same : f.name? = g.name?)
    (steady : ∀ q ∈ parts e defs (before ++ f :: after),
      q.codec.Steady ⟨False, False, False, True⟩)
    (steady' : ∀ q ∈ parts e defs (before ++ g :: after),
      q.codec.Steady ⟨False, False, False, True⟩) :
    (select before after tagged).Passes e defs of width p stored layers f g := by
  intro w path s b s' u s₁ calm eager run entered
  cases entered with
  | items listed => cases listed
  | selectNamed other chosen fits =>
      obtain ⟨b', s'', attempt, dead, alive⟩ :=
        tried of width p stored layers before after true same calm fits
      have run : (Codec.select (parts e defs (before ++ f :: after)) true).build w path s =
          .ok b s' := run
      rw [select_of_named other chosen rfl, attempt] at run
      cases run
      refine ⟨(Codec.eager_of_namedAlternative eager chosen).2, calm.scratch, _, _, fits, dead,
        fun b₂ t₂ known met => ?_⟩
      obtain ⟨b', t', again, met'⟩ := alive b₂ t₂ known met
      refine ⟨b', t', ?_, met'⟩
      rw [← again, ← select_of_named other chosen same]
      rfl
  | @selectFirst _ _ _ _ b₁ _ _ s₂ store unnamed refused fits =>
      have calm' : State.Calm { s with store := store } := ⟨calm.growing, calm.idle, calm.eager⟩
      obtain ⟨b', s'', attempt, dead, alive⟩ :=
        tried of width p stored layers before after tagged same calm' fits
      have first := select_of_refused steady calm unnamed refused attempt
      have run : (Codec.select (parts e defs (before ++ f :: after)) tagged).build w path s =
          .ok b s' := run
      rw [first] at run
      cases run
      refine ⟨eager, calm'.scratch, _, _, fits, dead, fun b₂ t₂ known met => ?_⟩
      obtain ⟨b', t', again, met'⟩ := alive b₂ t₂ known met
      exact ⟨b', t', select_of_refused steady' calm (fun yes => unnamed_congr same (unnamed yes))
        refused again, met'⟩

end Layer

end BinaryFormat
