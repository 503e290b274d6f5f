import BinaryFormat.Proofs.Access.Formats

/-!
# Engines of all levels match

Engines of any two levels above a mark come to the same from matching states, as far as
neither leaves the mark.  The induction is on how much is found, since what is known by
then was found by shorter runs of engines of other levels, and below it on the levels.
-/

namespace BinaryFormat

section

variable {ε S α : Type} [HoldsStore S] [Refusal ε] {q : Setting} {w : World} {A : Likeness α}
  {x y : EStateM ε S α}

private theorem concurs_of_lasts (alone : ¬ q.Compares) (left : Lasts x) (right : Lasts y) :
    Concurs q w A x y :=
  ⟨left, right, fun _ _ allowed => absurd allowed.compares alone⟩

private theorem concurs_of_marked (left : Lasts x) (right : Lasts y)
    (marked : (∀ s, ¬ (store (ending (x s))).Clear q.mark) ∨
      ∀ t, ¬ (store (ending (y t))).Clear q.mark) : Concurs q w A x y := by
  refine ⟨left, right, fun {s t} _ _ allowed => ?_⟩
  rcases marked with marked | marked
  · exact absurd allowed.1 (marked s)
  · exact absurd allowed.2.1 (marked t)

end

namespace Engine

variable {q : Setting} {w : World} {e bottom : Engine} {defs : Definitions} {n n' : Nat}

/-! ## Stores only grow -/

/-- Whatever the engine runs makes the store grow. -/
structure Growing (e : Engine) : Prop where
  parse : e.Lasting
  size : ∀ f ctx path, Lasts (e.size f ctx path)
  forceMember : ∀ v, Lasts (e.forceMember v)

theorem Growing.concurs (growing : e.Growing) (alone : ¬ q.Compares) : e.Matches q e where
  left := growing.parse
  right := growing.parse
  parse f _ path := concurs_of_lasts alone (growing.parse f path) (growing.parse f path)
  size f _ _ _ _ path := concurs_of_lasts alone (growing.size f _ path) (growing.size f _ path)
  resolver := by
    have resolve : ∀ {w : World} {h k : Handle}, w.Related h k → ∀ i,
        Concurs q w .value (Lookup.resolve e.parse h i) (Lookup.resolve e.parse k i) :=
      fun _ _ => concurs_of_lasts alone (lasts_resolve growing.parse) (lasts_resolve growing.parse)
    exact ⟨resolve, Value.concurs_forceWith ⟨resolve, fun _ =>
      concurs_of_lasts alone (growing.forceMember _) (growing.forceMember _)⟩⟩

private theorem growing_above (defs : Definitions) (growing : bottom.Growing) (n : Nat) :
    (above defs bottom n).Growing := by
  induction n with
  | zero => exact growing
  | succ n ih =>
      have alone := Setting.not_compares ⟨defs, []⟩
      have concur := ih.concurs alone
      have codec : ∀ f : Format, (f.codec (above defs bottom n) defs).Matches ⟨⟨defs, []⟩, none⟩
          (f.codec (above defs bottom n) defs) := fun f =>
        f.matches_codec concur (fun c => absurd c alone) fun c => absurd c alone
      refine ⟨fun f path => ?_, fun f ctx path => ?_, fun v => ?_⟩
      · exact ((codec f).parse (w := .apart) path).left
      · exact ((codec f).size (w := .apart) (Likeness.Reflexive.refl (A := .context) ctx) path).left
      · exact (concur.resolver.force (w := .apart)
          (Likeness.Reflexive.refl (A := .value) v)).left

private theorem growing_exhausted : exhausted.Growing :=
  ⟨fun _ _ _ => .refl _, fun _ _ _ _ => .refl _, fun _ _ => .refl _⟩

private theorem growing_tripwire (mark : List UInt8) : (tripwire mark).Growing :=
  ⟨fun _ _ s => LazyStore.grown_add s.store _, fun _ _ _ σ => LazyStore.grown_add σ _,
    fun _ σ => LazyStore.grown_add σ _⟩

theorem growing_level (defs : Definitions) (n : Nat) : (level defs n).Growing := by
  rw [level_eq_above]
  exact growing_above defs growing_exhausted n

private theorem growing_engine (l : Lineage) (n : Nat) : (l.engine n).Growing :=
  growing_above l.defs (growing_tripwire l.mark) n

/-! ## Levels that match -/

/-- Engines of two levels that match, and that force members alike. -/
structure Counterparts (q : Setting) (n n' : Nat) : Prop where
  engines : (q.engine n).Matches q (q.engine n')
  forceMember : ∀ {w : World} {v v' : Value}, v.Matches w.Related v' →
    Concurs q w .value ((q.engine n).forceMember v) ((q.engine n').forceMember v')

/-- Two levels match if they parse, size and force alike. -/
private theorem counterparts_of
    (agrees : ∀ most, q.limit = some most → ∀ less < most, q.Agrees less)
    (parse : ParsesAlike q (q.engine n) (q.engine n'))
    (size : ∀ {w : World} (f : Format), (q.Compares → f.Uniform) → ∀ {ctx ctx' : Context},
      ctx.Matches w.Related ctx' → ∀ path,
        Concurs q w .same ((q.engine n).size f ctx path) ((q.engine n').size f ctx' path))
    (force : ∀ {w : World} {v v' : Value}, v.Matches w.Related v' →
      Concurs q w .value ((q.engine n).forceMember v) ((q.engine n').forceMember v')) :
    Counterparts q n n' := by
  have left := (growing_engine q.toLineage n).parse
  have right := (growing_engine q.toLineage n').parse
  have peers : Peers q n n' := ⟨left, right, parse, agrees⟩
  exact ⟨⟨left, right, parse, size, concurs_resolve peers,
    Value.concurs_forceWith ⟨concurs_resolve peers, force⟩⟩, force⟩

/-- The engine of the lowest level matches any, since it leaves a mark. -/
private theorem counterparts_of_lowest
    (agrees : ∀ most, q.limit = some most → ∀ less < most, q.Agrees less)
    (lowest : n = 0 ∨ n' = 0) : Counterparts q n n' := by
  have growing := growing_engine q.toLineage n
  have growing' := growing_engine q.toLineage n'
  refine counterparts_of agrees (fun f _ path => ?_) (fun f _ _ _ _ path => ?_) fun _ => ?_
  · refine concurs_of_marked (growing.parse f path) (growing'.parse f path) ?_
    rcases lowest with rfl | rfl
    · exact .inl fun s => LazyStore.not_clear_add q.mark s.store
    · exact .inr fun t => LazyStore.not_clear_add q.mark t.store
  · refine concurs_of_marked (growing.size f _ path) (growing'.size f _ path) ?_
    rcases lowest with rfl | rfl
    · exact .inl fun σ => LazyStore.not_clear_add q.mark σ
    · exact .inr fun τ => LazyStore.not_clear_add q.mark τ
  · refine concurs_of_marked (growing.forceMember _) (growing'.forceMember _) ?_
    rcases lowest with rfl | rfl
    · exact .inl fun σ => LazyStore.not_clear_add q.mark σ
    · exact .inr fun τ => LazyStore.not_clear_add q.mark τ

/-- All levels match as far as so much is found, if they do as far as less is. -/
private theorem counterparts (known : q.Compares → Definitions.Uniform q.defs)
    (agrees : ∀ most, q.limit = some most → ∀ less < most, q.Agrees less) :
    ∀ n n' : Nat, Counterparts q n n'
  | 0, _ => counterparts_of_lowest agrees (.inl rfl)
  | _ + 1, 0 => counterparts_of_lowest agrees (.inr rfl)
  | n + 1, n' + 1 => by
      have below := counterparts known agrees n n'
      refine counterparts_of agrees (fun f uniform path => ?_)
        (fun f uniform _ _ contexts path => ?_) below.engines.resolver.force
      · exact (f.matches_codec below.engines known uniform).parse path
      · exact (f.matches_codec below.engines known uniform).size contexts path

end Engine

/-- Engines of all levels parse alike, however much is found. -/
private theorem Lineage.agrees {l : Lineage} (known : Definitions.Uniform l.defs) (most : Nat) :
    l.Agrees most := by
  induction most using Nat.strong_induction_on with
  | _ most ih =>
      intro n n'
      refine (Engine.counterparts (q := l.upTo most) (fun _ => known) ?_ n n').engines.parse
      intro most' limit less within
      cases limit
      exact ih less within

theorem Lineage.matches {l : Lineage} (known : Definitions.Uniform l.defs) (most n n' : Nat) :
    (l.engine n).Matches (l.upTo most) (l.engine n') :=
  (Engine.counterparts (q := l.upTo most) (fun _ => known)
    (fun _ _ less _ => Lineage.agrees known less) n n').engines

end BinaryFormat
