import BinaryFormat.Proofs.BackPatching.Framed

/-!
# Members behind a component

Structures, sequences and sequences with a focus build their members one after the other and note
them in their frame.  What the members behind the component come to does not depend on what it
was built to, as far as they do not read it.
-/

namespace BinaryFormat

open Format (labelOf notedAs parts NestedAll OverlooksAll Unseen)
open Run (InStep)

variable {e : Engine} {defs : Definitions} {of : Format} {width : Nat} {p : Patch} {v : Value}
  {stored : List UInt8} {layers : List Layer} {layer : Layer} {f g : Format} {path : Path}
  {ctx : Context} {s t : State} {before after : List Format}

private theorem Codec.abreast_noteItem {F : Record Value → Record Value → Prop}
    {frame : Record Value}
    {queue queue' : List Deferred} {below below' : List Frame} {offset : Nat} {bytes : List UInt8}
    {s' : State} (q q' : Part) (b b' : Value) (names : q.name? = q'.name?)
    (fits : ∀ name, q.name? = some name →
      F (Record.insert frame name b) (Record.insert frame name b'))
    (plain : q.name? = none → F frame frame)
    (abreast : s.Abreast offset bytes
      (Context.These ⟨⟨frame, queue⟩, below⟩ ⟨⟨frame, queue'⟩, below'⟩) t)
    (run : noteItem q b s = .ok () s') :
    ∃ t', noteItem q' b' t = .ok () t' ∧
      s'.Abreast offset bytes (Context.Entered F queue queue' below below') t' := by
  obtain ⟨streams, ⟨here, there⟩, stores⟩ := abreast
  unfold noteItem at run ⊢
  rw [← names]
  cases called : q.name? with
  | none =>
      rw [called] at run
      cases run
      exact ⟨t, rfl, streams, ⟨frame, frame, plain called, here, there⟩, stores⟩
  | some name =>
      rw [called] at run
      cases run
      refine ⟨_, rfl, streams, ⟨_, _, fits name called, ?_, ?_⟩, stores⟩
      · rw [here]
        rfl
      · rw [there]
        rfl

private theorem Context.notes_eq : Context.Notes fun frame frame' => frame' = frame := by
  rintro frame _ name v rfl -
  rfl

section

variable (of width p stored g)

/-- The component is noted, and the members behind it are built. -/
theorem Layer.members_behind {σ : Type} (rest : Run σ) (good : σ → Prop) {place : Path}
    {frame : Record Value} {below : List Frame} {b₁ : Value} {r : σ} {s₁ s₂ s₂' s₃ : State}
    (steps : ∀ {F : Record Value → Record Value → Prop} {queue queue' offset bytes},
      Context.Notes F → (∀ frame frame', F frame frame' →
        OverlooksAll e (frame :: below.map Frame.values) (frame' :: below.map Frame.values) after) →
      InStep good (State.Abreast offset bytes (Context.Entered F queue queue' below below)) rest
        rest)
    (behind : NestedAll after) (unseen : Unseen e layers place after) (same : f.name? = g.name?)
    (label : f.name? = labelOf layers) (here : s₁.context = ⟨⟨frame, []⟩, below⟩)
    (eager : Value.EagerFields frame) (growing : ∃ data pos, s₂.stream = .growing data pos)
    (noted : Codec.noteItem ⟨f, f.codec e defs⟩ b₁ s₂ = .ok () s₂') (run : rest s₂' = .ok r s₃) :
    (s₂.context = s₁.context → s₃.context.top.deferred = [] ∧ s₃.context.below = below) ∧
      ∀ b₂ t₂, State.Alongside of width p stored layers place s₁.context b₁ b₂ s₂ t₂ →
        ∃ t₂' t₃ queue offset bytes, Codec.noteItem ⟨g, g.codec e defs⟩ b₂ t₂ = .ok () t₂' ∧
          rest t₂' = .ok r t₃ ∧ good r ∧
          Outstanding of width p stored layers place queue offset bytes ∧
          s₃.Abreast offset bytes (Context.Entered (Layer.Fields layers place) queue [] below below)
            t₃ := by
  constructor
  · intro still
    obtain ⟨data, pos, growing⟩ := growing
    -- Without a patch the run is compared with itself.
    have alone : s₂.Abreast 0 [] (Context.These ⟨⟨frame, []⟩, below⟩ ⟨⟨frame, []⟩, below⟩) s₂ :=
      ⟨by rw [growing]; exact Stream.replaced_self data pos,
        ⟨still.trans here, still.trans here⟩, rfl⟩
    obtain ⟨t', -, abreast⟩ := Codec.abreast_noteItem (F := fun frame frame' => frame' = frame)
      ⟨f, f.codec e defs⟩ ⟨f, f.codec e defs⟩ b₁ b₁ rfl (fun _ _ => rfl) (fun _ => rfl) alone noted
    obtain ⟨t₃, -, -, -, ⟨_, _, -, there, -⟩, -⟩ := (steps Context.notes_eq
      (by rintro frame _ rfl; exact Format.overlooksAll_refl e _ behind)).of_ok abreast run
    rw [there]
    exact ⟨rfl, rfl⟩
  · rintro b₂ t₂ ⟨clear, alike, queue, offset, bytes, left, streams, ⟨now, now'⟩, stores⟩
    rw [here] at now now'
    obtain ⟨t₂', second, abreast⟩ := Codec.abreast_noteItem (F := Layer.Fields layers place)
      ⟨f, f.codec e defs⟩ ⟨g, g.codec e defs⟩ b₁ b₂ same
      (fun name called => ⟨(Record.Alike.refl frame).insert
        (.inr (.inl ⟨label.symm.trans called, alike⟩)), eager.insert name clear⟩)
      (fun _ => ⟨Record.Alike.refl frame, eager⟩) ⟨streams, ⟨now, now'⟩, stores⟩ noted
    obtain ⟨t₃, again, fine, abreast'⟩ := (steps (Layer.notes_fields layers place)
      fun frame frame' related => unseen frame frame' _ related.1).of_ok abreast run
    exact ⟨t₂', t₃, queue, offset, bytes, second, again, fine, left, abreast'⟩

end

theorem Codec.growing_of_build {u b : Value} {s' : State}
    (steady : (f.codec e defs).Steady ⟨False, False, False, True⟩) (calm : s.Calm)
    (run : (f.codec e defs).build u path s = .ok b s') :
    ∃ data pos, s'.stream = .growing data pos := by
  have anchored : s.context.Anchors ⟨False, False, False, True⟩ path := by
    rintro (claimed | claimed) <;> exact claimed.elim
  obtain ⟨data, pos, growing⟩ := calm.growing
  have alike := ((steady.build u path s.context anchored).of_ok (.refl _) run).2
  rw [growing] at alike
  exact Stream.growing_of_alike alike

/-- What reads nothing that differs leaves a calm state in a frame of its own. -/
theorem State.Calm.entered {α : Type} {x : Run α} {good : α → Prop} {inputs : Record Value} {a : α}
    {s' : State} (calm : s.Calm) (eager : Value.EagerFields inputs)
    (steps : InStep good (State.Abreast 0 [] (Context.Entered Context.Same [] []
      (s.context.top :: s.context.below) (s.context.top :: s.context.below))) x x)
    (run : x { s with context := s.context.push inputs } = .ok a s') :
    good a ∧ s'.Calm ∧ ∃ frame, s'.context = ⟨⟨frame, []⟩, s.context.top :: s.context.below⟩ ∧
      Value.EagerFields frame := by
  obtain ⟨data, pos, growing⟩ := calm.growing
  have start : State.Abreast 0 [] (Context.Entered Context.Same [] []
      (s.context.top :: s.context.below) (s.context.top :: s.context.below))
      { s with context := s.context.push inputs } { s with context := s.context.push inputs } :=
    ⟨by rw [growing]; exact Stream.replaced_self data pos,
      ⟨inputs, inputs, ⟨rfl, eager⟩, rfl, rfl⟩, rfl⟩
  obtain ⟨fine, ⟨data', pos', -, -, growing', -⟩, ⟨frame, _, ⟨rfl, clear⟩, here, -⟩, -⟩ :=
    steps.alone start run
  refine ⟨fine, ⟨⟨data', pos', growing'⟩, by rw [here], ?_⟩, _, here, clear⟩
  rw [here]
  intro other mem
  rcases List.mem_cons.mp mem with rfl | mem
  · exact clear
  · exact calm.eager other mem

/-! ## Structures -/

namespace Codec

private theorem eager_inputOf {input : Record Value} {q : Part} {u : Value} {s' : State}
    (eager : Value.EagerFields input) (run : inputOf input q path s = .ok u s') : u.Eager := by
  unfold inputOf at run
  cases called : q.name? with
  | none =>
      rw [called] at run
      obtain ⟨rfl, -⟩ := Run.pure_eq_ok_iff.mp run
      trivial
  | some name =>
      rw [called] at run
      exact ((inStep_fieldInput (P := fun _ _ => True) eager q name _).alone trivial run).1

private theorem state_of_inputOf {input : Record Value} {q : Part} {u : Value} {s' : State}
    (run : inputOf input q path s = .ok u s') : s' = s := by
  unfold inputOf fieldInput at run
  cases called : q.name? with
  | none =>
      rw [called] at run
      exact (Run.pure_eq_ok_iff.mp run).2.symm
  | some name =>
      rw [called] at run
      dsimp only at run
      cases found : Record.get? input name with
      | some v =>
          rw [found] at run
          exact (Run.pure_eq_ok_iff.mp run).2.symm
      | none =>
          rw [found] at run
          dsimp only at run
          cases supplied : q.format.isSelfSupplying with
          | true =>
              rw [supplied] at run
              exact (Run.pure_eq_ok_iff.mp run).2.symm
          | false =>
              rw [supplied] at run
              cases run

private theorem buildFields_cons {q : Part} (flat : q.format.isEmbedded = false)
    (input : Record Value)
    (path : Path) (rest : List Part) :
    buildFields input path (q :: rest) = (do
      let u ← inputOf input q path
      let built ← q.build u (path.memberIf q.name?)
      noteItem q built
      buildFields input path rest) := by
  rw [buildFields, if_neg (Bool.eq_false_iff.mp flat)]
  unfold inputOf noteItem
  cases q.name? with
  | none => rfl
  | some name => rfl

/-- The input of a field goes by its name and by whether it may be left out. -/
private theorem inputOf_congr {input : Record Value} (name : f.name? = g.name?)
    (supplied : f.isSelfSupplying = g.isSelfSupplying) (c c' : Codec) :
    inputOf input ⟨f, c⟩ path = inputOf input ⟨g, c'⟩ path := by
  unfold inputOf fieldInput Part.name?
  dsimp only
  rw [name, supplied]

end Codec

namespace Layer

theorem carries_struct (overwrite : Bool) (means : e.Means defs) (quiet : p.Quiet e)
    (cell : of.Patchable width) (writes : of.Writes defs v stored) (facade : Format.Facade f g)
    (label : f.name? = labelOf layers) (flat : f.isEmbedded = false)
    (steady : (f.codec e defs).Steady ⟨False, False, False, True⟩) (ahead : NestedAll before)
    (behind : NestedAll after)
    (unseen : Unseen e layers (path.memberIf (labelOf layers)) after) :
    (struct before after overwrite).Carries e defs of width p v stored layers path f g := by
  intro w s b s' u s₁ calm eager run entered
  cases entered with
  | items listed => cases listed
  | @struct _ _ _ input _ _ _ _ s₀ _ given done supplied =>
      obtain ⟨calm₀, same⟩ := calm.of_keeps e.keeps_containerInput given
      have clear := ((Engine.inStep_containerInput eager path).alone calm.alone given).1
      obtain ⟨-, calm₁, frame, here, eagerFrame⟩ := calm₀.entered clear
        (Codec.inStep_buildFields Context.notes_same clear path (parts e defs before) fun q mem =>
          have each (frames : List (Record Value)) := Format.unaware_parts e defs ahead
            (Format.overlooksAll_refl e frames ahead) q mem
          ⟨by rintro frame _ ⟨rfl, -⟩; exact (each _).1, (each []).2⟩) done
      refine ⟨Codec.eager_inputOf clear supplied, calm₁,
        carries_of_members (Codec.buildFields input path (parts e defs (before ++ f :: after)))
          (Codec.buildFields input path (parts e defs (before ++ g :: after)))
          (fun x => .container x.2) input (fun _ _ => True) means quiet cell writes calm same
          ?_ ?_ ?_ ?_ ?_ run⟩
      · simp only [around, Format.codec, Codec.struct]
        rw [Run.bind_of_ok given]
        simp
      · simp only [around, Format.codec, Codec.struct]
        rw [Run.bind_of_ok given]
        simp
      · intro s₃
        constructor
        · intro gathered
          cases gathered with
          | items listed => cases listed
          | struct given' done' =>
              cases given.symm.trans given'
              exact ⟨(), done'⟩
        · rintro ⟨_, built⟩
          exact .struct given built
      · intro _ _ frame frame' _ fields
        exact ⟨fields.2, frame, frame', rfl, rfl, fields.1⟩
      -- The fields in front lead to `s₁` in both runs; the component and what is behind it is left.
      · intro _ s₃ built
        rw [Codec.buildFields_of_done done, Codec.buildFields_cons flat, Run.bind_of_ok supplied]
          at built
        obtain ⟨b₁, s₂, child, built⟩ := Run.bind_eq_ok_iff.mp built
        obtain ⟨_, s₂', noted, rest⟩ := Run.bind_eq_ok_iff.mp built
        have place : path.memberIf (Part.name? ⟨f, f.codec e defs⟩) =
            path.memberIf (labelOf layers) := congrArg path.memberIf label
        rw [place] at child
        have child := Part.build_eq_ok_iff.mp child
        obtain ⟨dead, alive⟩ := members_behind of width p stored g
          (Codec.buildFields input path (parts e defs after)) (fun _ => True)
          (fun notes agree => Codec.inStep_buildFields notes clear path _ fun q mem =>
            ⟨fun frame frame' related => (Format.unaware_parts e defs behind
              (agree frame frame' related) q mem).1,
              (Format.unaware_parts e defs behind (Format.overlooksAll_refl e [] behind) q mem).2⟩)
          behind unseen facade.name label here eagerFrame
          (Codec.growing_of_build steady calm₁ child) noted rest
        rw [same] at dead alive
        refine ⟨b₁, s₂, child, dead, fun b₂ t₂ known met => ?_⟩
        obtain ⟨t₂', t₃, queue, offset, bytes, noted', rest', -, left, abreast⟩ := alive b₂ t₂ met
        refine ⟨(), t₃, queue, offset, bytes, ?_, trivial, left, abreast⟩
        have place' : path.memberIf (Part.name? ⟨g, g.codec e defs⟩) =
            path.memberIf (labelOf layers) := congrArg path.memberIf (facade.name.symm.trans label)
        have flat' : g.isEmbedded = false := facade.embedded.symm.trans flat
        rw [Codec.buildFields_of_done done, Codec.buildFields_cons flat',
          ← Codec.inputOf_congr facade.name facade.selfSupplying, Run.bind_of_ok supplied, place',
          Run.bind_of_ok (Part.build_of_ok known), Run.bind_of_ok noted']
        exact rest'

theorem enters_struct (overwrite : Bool) (flat : f.isEmbedded = false) {w b : Value} {s' : State}
    (run : (((struct before after overwrite).around f).codec e defs).build w path s = .ok b s') :
    ∃ u s₁, (struct before after overwrite).Enters e defs f w path s u s₁ := by
  obtain ⟨input, s₀, given, run⟩ := Run.bind_eq_ok_iff.mp run
  obtain ⟨x, s₁, framed, -⟩ := Run.bind_eq_ok_iff.mp run
  obtain ⟨s₂, inside, -, -⟩ := Run.ok_of_inFrame framed
  obtain ⟨_, s₃, built, -⟩ := Run.bind_eq_ok_iff.mp inside
  rw [Format.parts_append, Codec.buildFields_append] at built
  obtain ⟨_, s₄, done, rest⟩ := Run.bind_eq_ok_iff.mp built
  rw [parts, Codec.buildFields_cons flat] at rest
  obtain ⟨u, s₅, supplied, -⟩ := Run.bind_eq_ok_iff.mp rest
  obtain rfl := Codec.state_of_inputOf supplied
  exact ⟨u, s₅, .struct given done supplied⟩

end Layer

end BinaryFormat
