import BinaryFormat.Proofs.Growth.Envelopes

/-!
# The size law

Where every length, count, modulus, condition and key is a literal or a
parameter, a format whose size can be computed moves the stream by exactly this
size: when it is parsed, and, as long as no patch is queued behind the back of a
view or of a transformation, when it is built.
-/

namespace BinaryFormat

namespace Format

variable {params : Record Value} {e : Engine}

private theorem strict_within_child {f of : Format} {t : Traits} (h : t.Within f.traits)
    (moving : ¬ t.still) (guarded : f.Guarded → of.Guarded ∧ of.Single)
    (single : f.Single → of.Single) (free : f.PatchFree → of.PatchFree) :
    t.strict.Within of.traits where
  guarded g := (guarded (h.guarded g)).1
  single := Or.rec (fun g => (guarded (h.guarded g)).2) fun s => single (h.single s)
  free n := free (h.free n)
  still := (absurd · moving)

mutual

private theorem filling_codec (he : e.Steady) (fills : e.Filling params) (defs : Definitions)
    (t : Traits) (guarded : t.guarded) (moving : ¬ t.still) :
    (f : Format) → f.Settled params → f.All IsPrompt → t.Within f.traits →
      (f.codec e defs).Filling params t (f.sizeIn params)
  | bytes _, h, _, _ => Codec.filling_bytes guarded h
  | integer _ signed endian, h, _, _ => Codec.filling_integer guarded h signed endian
  | bitInteger _ signed swapped, h, _, _ => Codec.filling_bitInteger guarded h signed swapped
  | padding _ fill, h, _, _ => Codec.filling_padding guarded h fill
  | fixedText _ encoding pad side trim, h, _, _ =>
      Codec.filling_fixedText guarded h encoding pad side trim
  | flag, _, _, _ => Codec.filling_flag
  | pass, _, _, _ => Codec.filling_pass
  | tell, _, _, _ => Codec.filling_tell
  | computed expr, _, _, _ => Codec.filling_computed expr
  | check condition, _, _, _ => Codec.filling_check condition
  | peek of, _, _, _ => Codec.filling_peek ⟨of, _⟩
  | named _ of, h, l, w => filling_codec he fills defs t guarded moving of h l.2
      (within_child w And.right And.right And.right w.still)
  | documented _ of, h, l, w => filling_codec he fills defs t guarded moving of h l.2
      (within_child w And.right And.right And.right w.still)
  | embedded of, h, l, w => filling_codec he fills defs t guarded moving of h l.2
      (within_child w And.right And.right And.right w.still)
  | constant of value, h, l, w =>
      Codec.filling_constant (filling_codec he fills defs t guarded moving of h l.2
        (within_child w And.right And.right And.right w.still)) value
  | fallback of value, h, l, w =>
      Codec.filling_fallback (filling_codec he fills defs t guarded moving of h l.2
        (within_child w And.right And.right And.right w.still)) value
  | rebuild of expr, h, l, w =>
      have within : t.Within of.traits := within_child w And.right And.right And.right w.still
      have computed := computable w (steady_codec he defs t of within) And.left And.right And.right
        And.left
      Codec.filling_rebuild guarded computed (regular_codec e defs of h).measured ⟨h, l.2⟩
        (filling_codec he fills defs t guarded moving of h l.2 within) expr
  | checksum of hash data, h, l, w =>
      have within : t.Within of.traits := within_child w And.right And.right And.right w.still
      have computed := computable w (steady_codec he defs t of within) And.left And.right And.right
        And.left
      Codec.filling_checksum guarded computed (regular_codec e defs of h).measured ⟨h, l.2⟩
        (filling_codec he fills defs t guarded moving of h l.2 within) hash data
  | validated of rule, h, l, w =>
      Codec.filling_validated (filling_codec he fills defs t guarded moving of h l.2
        (within_child w And.right And.right And.right w.still)) rule
  | labelled of labels unlabelled, h, l, w =>
      Codec.filling_labelled (filling_codec he fills defs t guarded moving of h l.2
        (within_child w And.right And.right And.right w.still)) labels unlabelled
  | mapped of table, h, l, w =>
      Codec.filling_mapped (filling_codec he fills defs t guarded moving of h l.2
        (within_child w And.right And.right And.right w.still)) table
  | flagSet of flags strict, h, l, w =>
      Codec.filling_flagSet (filling_codec he fills defs t guarded moving of h l.2
        (within_child w And.right And.right And.right w.still)) flags strict
  | padded _ of fill, h, l, w =>
      Codec.filling_padded h.1 guarded (filling_codec he fills defs t guarded moving of h.2 l.2
        (within_child w And.right And.right And.right w.still)) fill
  | aligned _ of fill, h, l, w =>
      Codec.filling_aligned h.1 guarded (filling_codec he fills defs t guarded moving of h.2 l.2
        (within_child w And.right And.right And.right w.still)) fill
  | fixedSized length of, h, l, w =>
      Codec.filling_fixedSized (steady_codec he defs t (fixedSized length of) w) guarded h.1
        (filling_codec he fills defs t guarded moving of h.2 l.2
          (within_child w And.right And.right And.right w.still))
  | array _ of discard, h, l, w =>
      Codec.filling_array h.1 guarded moving (filling_codec he fills defs t guarded moving of h.2
        l.2 (within_child w And.right And.right And.right (absurd · moving))) discard
  | range _ _ of discard, h, l, w =>
      Codec.filling_range h.1 h.2.1 guarded moving (filling_codec he fills defs t guarded moving of
        h.2.2 l.2 (within_child w And.right And.right And.right (absurd · moving))) discard
  | struct members overwrite, h, l, w =>
      have members := filling_parts he fills defs t.loose guarded id members h l.2
        (loose_within_child w And.right And.right And.right)
      (Codec.filling_struct he fills guarded members overwrite).fitted
  | sequence members, h, l, w =>
      have members := filling_parts he fills defs t.loose guarded id members h l.2
        (loose_within_child w And.right And.right And.right)
      (Codec.filling_sequence he fills guarded members).fitted
  | focused focus members, h, l, w =>
      have members := filling_parts he fills defs t.loose guarded id members h l.2
        (loose_within_child w And.right And.right And.right)
      (Codec.filling_focused he fills guarded members focus).fitted
  | select alternatives tagged, h, l, w => by
      have within : t.Within (traitsOf alternatives) :=
        within_child w And.right And.right And.right w.still
      exact Codec.filling_select (steady_parts he defs t alternatives within)
        (steady_parts he defs .unclaimed alternatives (Traits.unclaimed_within _)) guarded
        (filling_parts he fills defs t guarded moving alternatives h l.2 within)
  | branch _ yes no, h, l, w =>
      have yes := filling_codec he fills defs t guarded moving yes h.2.1 l.2.1
        (within_child w (·.2.1) (·.2.1) (·.2.1) (absurd · moving))
      have no := filling_codec he fills defs t guarded moving no h.2.2 l.2.2
        (within_child w (·.2.2) (·.2.2) (·.2.2) (absurd · moving))
      Codec.filling_branch h.1 guarded yes no
  | switch _ cases otherwise, h, l, w =>
      have each := filling_cases he fills defs t guarded moving cases h.2.1 l.2.1
        (within_child w (·.2.1) (·.2.1) (·.2.1) (absurd · moving))
      have other := filling_partIf he fills defs t guarded moving otherwise h.2.2 l.2.2
        (within_child w (·.2.2) (·.2.2) (·.2.2) (absurd · moving))
      Codec.filling_switch h.1 guarded (regular_cases e defs cases h.2.1).1
        fun _ _ value chosen => Codec.switchSize_of_caseOf each other value chosen
  | prefixed length of inclusive lenient, h, l, w => by
      obtain ⟨_, settled, settled'⟩ := h
      have first := filling_codec he fills defs { t with free := True } guarded moving length
        settled l.2.1 ⟨fun g => (w.guarded g).2.1, fun s => (w.single s).2.1, fun _ => l.1,
          (absurd · moving)⟩
      have payload := filling_codec he fills defs t guarded moving of settled' l.2.2
        (within_child w (·.2.2) (·.2.2) (·.2.2) (absurd · moving))
      exact (Codec.filling_prefixed
        (steady_codec he defs t (prefixed length of inclusive lenient) w) guarded first
        payload).fitted
  | transformed of transform extent, h, l, w => by
      obtain ⟨bounded, settled, inner⟩ := h
      exact Codec.filling_transformed (steady_codec he defs t (transformed of transform extent) w)
        he fills guarded moving settled bounded (regular_codec e defs of inner).measured
        (filling_codec he fills defs t.strict guarded moving of inner l.2
          (strict_within_child w moving (fun g => ⟨g.2, g.1⟩) And.right And.right))
  | recoded of recoding checked, h, l, w =>
      (Codec.filling_recoded (steady_codec he defs t (recoded of recoding checked) w) he fills
        guarded moving (filling_codec he fills defs t.strict guarded moving of h l.2
          (strict_within_child w moving (fun g => ⟨g.2, g.1⟩) And.right And.right))).fitted

theorem filling_parts (he : e.Steady) (fills : e.Filling params) (defs : Definitions)
    (t : Traits) (guarded : t.guarded) (moving : ¬ t.still) :
    (fs : List Format) → SettledAll params fs → AllOf IsPrompt fs → t.Within (traitsOf fs) →
      Codec.FillingAll params t (parts e defs fs) (sizesIn params fs)
  | [], _, _, _ => .nil
  | f :: rest, h, l, w =>
      .cons
        (filling_codec he fills defs t guarded moving f h.1 l.1
          ⟨fun g => (w.guarded g).1, fun s => (w.single s).1, fun n => (w.free n).1,
            (absurd · moving)⟩)
        (filling_parts he fills defs t guarded moving rest h.2 l.2
          ⟨fun g => (w.guarded g).2, fun s => (w.single s).2, fun n => (w.free n).2,
            (absurd · moving)⟩)

theorem filling_cases (he : e.Steady) (fills : e.Filling params) (defs : Definitions)
    (t : Traits) (guarded : t.guarded) (moving : ¬ t.still) :
    (cases : List (Value × Format)) → SettledCases params cases → AllCases IsPrompt cases →
      t.Within (traitsOfCases cases) →
      Codec.CasesWith (fun p known => p.codec.Filling params t known) (casesOf e defs cases)
        (sizesOfCasesIn params cases)
  | [], _, _, _ => .nil
  | (_, f) :: rest, h, l, w =>
      .cons
        ⟨rfl, filling_codec he fills defs t guarded moving f h.2.1 l.1
          ⟨fun g => (w.guarded g).1, fun s => (w.single s).1, fun n => (w.free n).1,
            (absurd · moving)⟩⟩
        (filling_cases he fills defs t guarded moving rest h.2.2 l.2
          ⟨fun g => (w.guarded g).2, fun s => (w.single s).2, fun n => (w.free n).2,
            (absurd · moving)⟩)

theorem filling_partIf (he : e.Steady) (fills : e.Filling params) (defs : Definitions)
    (t : Traits) (guarded : t.guarded) (moving : ¬ t.still) :
    (otherwise : Option Format) → SettledIf params otherwise → AllIf IsPrompt otherwise →
      t.Within (traitsIf otherwise) →
      Option.Rel (fun p known => p.codec.Filling params t known) (partIf e defs otherwise)
        (sizeIfIn params otherwise)
  | none, _, _, _ => .none
  | some f, h, l, w =>
      .some (filling_codec he fills defs t guarded moving f h l
        ⟨w.guarded, w.single, w.free, (absurd · moving)⟩)

end

end Format

namespace Engine

variable {params : Record Value}

private theorem filling_exhausted : exhausted.Filling params :=
  fun _ _ _ _ _ _ _ _ _ _ _ _ => Run.fills_fail

private theorem filling_level (defs : Definitions) (n : Nat) : (level defs n).Filling params := by
  induction n with
  | zero => exact filling_exhausted
  | succ n ih =>
      intro f v path t base depth prompt within guarded moving ruled anchored
      have filling := f.filling_codec (steady_level defs n) ih defs t guarded moving
        prompt.settled prompt.lengths within
      exact Run.fills_from fun p _ =>
        (filling.build v path depth base p ruled anchored).mono (fun _ => id) fun _ _ _ => trivial

/-- However patches are resolved, the position is set back. -/
private theorem pos_of_applyPatches {e : Engine} {strict : Bool}
    {pending unresolved : List Deferred}
    {s s' : State} (run : e.applyPatches strict pending s = .ok unresolved s') :
    s'.stream.pos = s.stream.pos := by
  induction pending generalizing s s' unresolved with
  | nil =>
      obtain ⟨-, rfl⟩ := Run.pure_eq_ok_iff.mp run
      rfl
  | cons d rest ih =>
      rcases applied_or_left_of_applyPatches run with
        ⟨_, _, _, -, applied, later⟩ | ⟨_, store, _, -, -, -, later, -⟩
      · obtain ⟨_, _, _, s₂, -, -, -, rfl⟩ := applyPatch_of_ok applied
        exact (ih later).trans (s₂.stream.pos_setPos _)
      · exact ih (s := { s with store := store }) later

private theorem pos_of_resolveSince {e : Engine} {mark : Nat} {strict : Bool} {s s' : State}
    (run : e.resolveSince mark strict s = .ok () s') : s'.stream.pos = s.stream.pos := by
  rw [resolveSince_apply] at run
  obtain ⟨unresolved, s₁, applied, run⟩ := Run.bind_eq_ok_iff.mp run
  cases run
  have stays := pos_of_applyPatches applied
  exact stays

end Engine

namespace Format

/-- What a format takes by its size is what it moves the stream by, if no sum or product of sizes
in it passes the largest size: whenever it is parsed, from any position of a byte string, and
whenever it is built at any position of one that grows, if patches inside of views and
transformations are simple and lengths are not patched. -/
theorem advances_by_size (defs : Definitions) (f : Format) (params : Record Value)
    (settled : f.Settled params) (fits : (f.sizeIn params).isSome) {n : Nat}
    {store store' : LazyStore}
    (sized : f.sizeOf (.ofDefinitions defs) params store = .ok n store') :
    (∀ (m : Medium) (store : LazyStore) v s,
      f.parseStream (.ofDefinitions defs) params (.medium m) store = .ok v s →
        s.stream.pos = m.pos + n) ∧
    (f.Guarded → f.All IsPrompt → ∀ v (data : List UInt8) (pos : Nat) (store : LazyStore) built s,
      f.buildStream (.ofDefinitions defs) v params (.growing data pos) store = .ok built s →
        s.stream.pos = pos + n) := by
  obtain ⟨measured, paced⟩ := regular_codec (inner defs) defs f settled
  obtain ⟨m, known⟩ := Option.isSome_iff_exists.mp fits
  have size : n = m :=
    (measured 0 (.ofParams params) .this (Context.ruled_ofParams params)).eq_of_ok known sized
  subst size
  refine ⟨fun m store v s parsed => ?_, fun guarded prompt v data pos store built s made => ?_⟩
  · obtain ⟨-, -, reached⟩ := (paced.parse .this 0 (.medium m) m.pos).of_ok
      (s := ⟨.medium m, .ofParams params, store⟩) (Context.ruled_ofParams params) (.refl _) rfl
      (Run.tagged_eq_ok_iff.mp parsed)
    exact reached.2 n known
  · obtain ⟨w, s₁, tagged, made⟩ := Run.bind_eq_ok_iff.mp made
    obtain ⟨_, s₂, resolved, last⟩ := Run.bind_eq_ok_iff.mp made
    obtain ⟨-, rfl⟩ := Run.pure_eq_ok_iff.mp last
    have filling : (f.codec (inner defs) defs).Filling params ⟨True, False, False, False⟩
        (f.sizeIn params) :=
      f.filling_codec (Engine.steady_level defs _) (Engine.filling_level defs _) defs _ trivial id
        settled prompt ⟨fun _ => guarded, False.elim, False.elim, False.elim⟩
    obtain ⟨-, -, reached⟩ := (filling.build v .this 0
      ⟨.growing data pos, .ofParams params, store⟩ pos (Context.ruled_ofParams params)
      fun _ => Or.inr (Or.inr rfl)).of_ok (.refl _) (.refl rfl) rfl (Run.tagged_eq_ok_iff.mp tagged)
    rw [Engine.pos_of_resolveSince resolved]
    exact reached.2 n known

/-- A number that is known last and stands first, two nibbles, and a block the length of which is
a parameter. -/
def headed : Format :=
  struct [named "head" (rebuild (unsigned 1 .big) (.attr .this "last")),
    named "pair" (bitwise (sequence [nibble, nibble])),
    named "block" (fixedSized (.attr (.attr .this "_params") "n")
      (prefixed (unsigned 1 .big) (bytes (.const (.int 1))) false false)),
    named "last" (unsigned 1 .big)] false

theorem advances_by_size_headed :
    headed.Settled [("n", .int 3)] ∧ (headed.sizeIn [("n", .int 3)]).isSome ∧ headed.Guarded ∧
    headed.All IsPrompt ∧
    (∃ store, headed.sizeOf (.ofDefinitions []) [("n", .int 3)] .empty = .ok 6 store) ∧
    (∃ v s, headed.parseStream (.ofDefinitions []) [("n", .int 3)]
        (.medium ⟨.fixed, [255, 7, 0x12, 1, 9, 0, 7], 1⟩) .empty = .ok v s ∧
      s.stream.pos = 1 + 6) ∧
    ∃ built s, headed.buildStream (.ofDefinitions [])
        (.container [("pair", .list [.int 1, .int 2]), ("block", .bytes [9]), ("last", .int 7)])
        [("n", .int 3)] (.growing [255] 1) .empty = .ok built s ∧ s.stream.pos = 1 + 6 := by
  have settled : headed.Settled [("n", .int 3)] :=
    ⟨trivial, ⟨trivial, trivial, trivial⟩, ⟨⟨rfl, by decide⟩, rfl, trivial, trivial⟩, trivial,
      trivial⟩
  have fits : (headed.sizeIn [("n", .int 3)]).isSome := by decide +kernel
  have guarded : headed.Guarded := by
    simp [headed, bitwise, nibble, bits, unsigned, Guarded, All, AllOf, IsGuarded, Single,
      IsSimple]
  have prompt : headed.All IsPrompt := by
    simp [headed, bitwise, nibble, bits, unsigned, All, AllOf, IsPrompt, PatchFree, IsDirect]
  have sized : headed.sizeOf (.ofDefinitions []) [("n", .int 3)] .empty = .ok 6 .empty := rfl
  obtain ⟨parses, builds⟩ := advances_by_size [] headed [("n", .int 3)] settled fits sized
  have parsed : Run.left? (headed.parseStream (.ofDefinitions []) [("n", .int 3)]
      (.medium ⟨.fixed, [255, 7, 0x12, 1, 9, 0, 7], 1⟩) .empty) =
        some ([255, 7, 0x12, 1, 9, 0, 7], 7) := by decide +kernel
  have built : Run.left? (headed.buildStream (.ofDefinitions [])
      (.container [("pair", .list [.int 1, .int 2]), ("block", .bytes [9]), ("last", .int 7)])
      [("n", .int 3)] (.growing [255] 1) .empty) =
        some ([255, 7, 0x12, 1, 9, 0, 7], 7) := by decide +kernel
  obtain ⟨v, s, parsed, -⟩ := Run.ok_of_left? parsed
  obtain ⟨w, s', built, -⟩ := Run.ok_of_left? built
  exact ⟨settled, fits, guarded, prompt, ⟨_, sized⟩, ⟨v, s, parsed, parses _ _ v s parsed⟩,
    w, s', built, builds guarded prompt _ _ _ _ w s' built⟩

/-- A view in which building the patch for one field queues another patch. -/
def leakyView : Format :=
  prefixed (unsigned 1 .big) (struct [
    named "x" (bitwise (struct [
      named "p" octet,
      named "a" (rebuild (rebuild octet (.attr .this "z"))
        (.binary .add (.attr .this "b") (.const (.int 1)))),
      named "b" (rebuild octet (.attr .this "c")),
      named "c" (computed (.const (.int 5)))] false)),
    named "z" (computed (.const (.int 7)))] false) false false

/-- The patch that is queued while those of the view are resolved leaves the view with an offset
in bits, and is applied behind the end of the payload. -/
theorem leakyView_advances_further :
    leakyView.Settled [] ∧
    (∃ store, leakyView.sizeOf (.ofDefinitions []) [] .empty = .ok 4 store) ∧
    Run.left? (leakyView.buildBytes (.ofDefinitions [])
      (.container [("x", .container [("p", .int 1)])]) [] .empty) =
        some ([16, 1, 0, 5, 0, 0, 0, 0, 0, 0, 0, 0, 0, 0, 1, 1, 1], 17) :=
  ⟨⟨rfl, trivial, ⟨trivial, trivial, trivial, trivial, trivial⟩, trivial, trivial⟩,
    ⟨.empty, rfl⟩, by decide +kernel⟩

end Format

end BinaryFormat
