import BinaryFormat.Proofs.FrameDiscipline
import BinaryFormat.Proofs.Twins.Formats

/-!
# Failed alternatives leave no trace

A selection runs its alternatives one after the other and moves back in between.  What an
alternative that failed has left behind is no more than an index in the innermost frame and
units that a view has fetched ahead; alternatives that read named fields alone cannot
tell.  So the selection comes to what its alternatives come to when each of them is run by
itself, from where the selection started.

Members of lazy values are named by their place in the store, which alternatives share: one
that failed may have added to it, or have resolved members that were there before.
-/

namespace BinaryFormat

/-! ## What is left behind -/

private theorem Record.unindexed_erase {α : Type} (fields : Record α) :
    unindexed (erase fields "_index") = unindexed fields := by
  induction fields with
  | nil => rfl
  | cons entry rest ih =>
      obtain ⟨key, old⟩ := entry
      by_cases index : key = "_index"
      · simp [erase, unindexed, index]
      · rw [erase, if_neg index]
        simp only [unindexed, List.filter_cons] at ih ⊢
        rw [ih]

namespace Context

variable {before after : Context}

/-- A run that parses leaves no more behind in its frames than an index. -/
private theorem SameOuter.unindexedAll (h : before.SameOuter after)
    (others : Record.erase after.innermost "_index" = Record.erase before.innermost "_index") :
    Record.unindexedAll after.frames = Record.unindexedAll before.frames := by
  have top := congrArg Record.unindexed others
  rw [Record.unindexed_erase, Record.unindexed_erase] at top
  have outer : after.below.map Frame.values = before.below.map Frame.values := h.outer
  simp only [frames, Record.unindexedAll, List.map_cons, outer]
  rw [show Record.unindexed after.top.values = Record.unindexed before.top.values from top]

end Context

namespace Codec

/-! ## Alternatives by themselves -/

/-- What several alternatives come to. -/
inductive Verdict where
  /-- An alternative has a value and ends at a position. -/
  | found (alternative : Part) (v : Value) (pos : Nat)
  /-- An alternative fails for good. -/
  | refused (failure : Failure)
  | unmatched

/-- What the first alternative comes to that does not fail, or that fails for good.  Every
alternative starts over from the stream and the context of `s`. -/
def firstOf (path : Path) (s : State) : List Part → LazyStore → Verdict
  | [], _ => .unmatched
  | p :: rest, store =>
    match p.parse path { s with store := store } with
    | .ok v s' => .found p v s'.stream.pos
    | .error failure s' =>
      if failure.fault.isExplicit then .refused failure else firstOf path s rest s'.store

variable {admitted : String → Prop} {s s₁ : State} {store : LazyStore}

/-- Over the same units as a state, with other indices in the frames. -/
def beside (admitted : String → Prop) (s : State) : Pairing admitted true where
  streams := Stream.Same s.stream.isView s.stream.plain
  faithful := Stream.faithful_same _ _
  depth := 0

private theorem beside_refl (admitted : String → Prop) (s : State) :
    (beside admitted s).States s s :=
  ⟨s.stream.same_refl, .refl _, .refl _⟩

/-- What a failed alternative leaves is beside what it started from, once the selection has
moved back. -/
private theorem beside_after {p : Part} (steady : p.codec.Steady .unclaimed) {path : Path}
    {failure : Failure} {s₁' s₂' : State}
    (paired : (beside admitted s).States s₁ { s with store := store })
    (failed : p.parse path s₁ = .error failure s₁')
    (left : (beside admitted s).States s₁' s₂') :
    (beside admitted s).States { s₁' with stream := s₁'.stream.setPos s.stream.pos }
      { s with store := s₂'.store } where
  stream := by
    obtain ⟨_, here, -⟩ := left.stream
    refine ⟨s.stream.pos, here.setPos s.stream.pos, ?_, rfl⟩
    rw [← Stream.pos_plain]
  context := by
    obtain ⟨outer, others⟩ := steady.sameOuter_parse path s₁
    have ends : ((p.codec.parse path).after s₁).context = s₁'.context := by
      cases ended : p.codec.parse path s₁ with
      | ok v t =>
          rw [Part.parse, Run.tagged_of_ok ended] at failed
          cases failed
      | error e t =>
          rw [Part.parse, Run.tagged_of_error ended] at failed
          cases failed
          simp only [Run.after, ended]
    rw [ends] at outer others
    have same := (outer.unindexedAll others).trans paired.context.unindexed
    exact ⟨fun tight => absurd tight (by simp), same, rfl⟩
  store := left.store

/-- A run over the alternatives comes to their verdict. -/
inductive Verdict.Reached (tagged : Bool) (start : Nat) :
    Verdict → EStateM.Result Failure State (Option Value) → Prop
  | found (p : Part) (v : Value) (s' : State) :
      Reached tagged start (.found p v s'.stream.pos) (.ok (some (tag tagged p v)) s')
  | refused (failure : Failure) (s' : State) :
      Reached tagged start (.refused failure) (.error failure s')
  | unmatched {s' : State} (back : s'.stream.pos = start) :
      Reached tagged start .unmatched (.ok none s')

private theorem reached_parseFirst (tagged : Bool) (path : Path) {ps : List Part}
    (fair : ∀ p ∈ ps, p.codec.Fair admitted true) (steady : ∀ p ∈ ps, p.codec.Steady .unclaimed)
    (paired : (beside admitted s).States s₁ { s with store := store }) :
    (firstOf path s ps store).Reached tagged s.stream.pos
      (parseFirst tagged s.stream.pos path ps s₁) := by
  induction ps generalizing s₁ store with
  | nil => exact .unmatched ((beside admitted s).faithful.pos paired.stream)
  | cons p rest ih =>
      have outcomes := (fair p List.mem_cons_self).parsePart path s₁ _ paired
      rw [firstOf, parseFirst]
      cases here : p.parse path s₁ with
      | ok v s₁' =>
          rw [here] at outcomes
          obtain ⟨_, s₂', there, rfl, states⟩ := outcomes.of_ok
          rw [there, Run.bind_of_ok (Run.outcome_of_ok here)]
          dsimp only
          rw [← (beside admitted s).faithful.pos states.stream]
          exact .found p v s₁'
      | error failure s₁' =>
          rw [here] at outcomes
          obtain ⟨s₂', there, states⟩ := outcomes.of_error
          rw [there, Run.bind_of_ok (Run.outcome_of_error here)]
          dsimp only
          cases explicit : failure.fault.isExplicit with
          | true => exact .refused failure s₁'
          | false =>
              exact ih (fun p mem => fair p (List.mem_cons_of_mem _ mem))
                (fun p mem => steady p (List.mem_cons_of_mem _ mem))
                (beside_after (steady p List.mem_cons_self) paired here states)

end Codec

namespace Format

private theorem allOf_of_forall {P : Format → Prop} {fs : List Format} (h : ∀ f ∈ fs, f.All P) :
    AllOf P fs := by
  induction fs with
  | nil => trivial
  | cons f rest ih =>
      exact ⟨h f List.mem_cons_self, ih fun g mem => h g (List.mem_cons_of_mem f mem)⟩

/-- A selection comes to what the first of its alternatives comes to, run by itself from where the
selection starts, that has a value or fails for good: to its value, tagged with its name, and its
position, or to its failure.  If there is none, it fails as a selection and is back where it
started. -/
theorem select_traceless {admitted : String → Prop} {defs : Definitions}
    (known : Definitions.Named admitted defs) (n : Nat) {alternatives : List Format}
    (named : ∀ f ∈ alternatives, f.Named admitted) (tagged : Bool) (path : Path) (s : State) :
    let verdict := Codec.firstOf path s (parts (.level defs n) defs alternatives) s.store
    let selected := ((select alternatives tagged).codec (.level defs n) defs).parse path s
    (∀ p v pos, verdict = .found p v pos →
      ∃ s', selected = .ok (Codec.tag tagged p v) s' ∧ s'.stream.pos = pos) ∧
    (∀ failure, verdict = .refused failure → ∃ s', selected = .error failure s') ∧
    (verdict = .unmatched → ∃ s', selected =
      .error ((Fault.noAlternative (.parsed alternatives.length)).atPath path) s' ∧
        s'.stream.pos = s.stream.pos) := by
  intro verdict selected
  have fair : ∀ p ∈ parts (.level defs n) defs alternatives, p.codec.Fair admitted true :=
    fun p mem => (fair_parts (Engine.fair_level known n) known alternatives
      (fun _ => allOf_of_forall named) p mem).codec
  have steady : ∀ p ∈ parts (.level defs n) defs alternatives, p.codec.Steady .unclaimed :=
    steady_parts (Engine.steady_level defs n) defs .unclaimed alternatives
      (Traits.unclaimed_within _)
  -- Each alternative starts beside where the selection did, which it cannot tell from starting
  -- over.
  have first := Codec.reached_parseFirst tagged path fair steady (Codec.beside_refl admitted s)
  have begun : Run.tell s = .ok s.stream.pos s := rfl
  change verdict.Reached _ _ _ at first
  generalize verdict = verdict at first
  simp only [selected, codec, Codec.select, Run.bind_of_ok begun]
  cases ended : Codec.parseFirst tagged s.stream.pos path
      (parts (.level defs n) defs alternatives) s with
  | ok found s' =>
      rw [ended] at first
      rw [Run.bind_of_ok ended, length_parts]
      refine ⟨fun p v pos same => ?_, fun failure same => ?_, fun same => ?_⟩
      · subst same
        cases first
        exact ⟨s', rfl, rfl⟩
      · subst same
        cases first
      · subst same
        cases first with
        | unmatched back => exact ⟨s', rfl, back⟩
  | error failure s' =>
      rw [ended] at first
      rw [Run.bind_of_error ended]
      refine ⟨fun p v pos same => ?_, fun failure same => ?_, fun same => ?_⟩
      · subst same
        cases first
      · subst same
        cases first
        exact ⟨s', rfl⟩
      · subst same
        cases first

/-- A record of a kind that is refused behind its first byte, before a number that fits. -/
def sevenOrWide : List Format :=
  [struct [named "kind" (unsigned 1 .big), check (.binary .eq (.field "kind") (.const (.int 7)))]
      false,
    named "wide" (unsigned 2 .big)]

theorem select_traceless_wide :
    (∀ f ∈ sevenOrWide, f.Named fun _ => False) ∧
      ∃ s', ((select sevenOrWide true).codec (.level [] 0) []).parse .this
          ⟨.memory [1, 2, 3], .ofParams [], .empty⟩ =
        .ok (.container [("name", .str "wide"), ("value", .int 258)]) s' ∧ s'.stream.pos = 2 := by
  have known : Definitions.Named (fun _ => False) [] := fun _ none => none.elim
  have named : ∀ f ∈ sevenOrWide, f.Named fun _ => False := by
    intro f mem
    simp only [sevenOrWide, List.mem_cons, List.not_mem_nil, or_false] at mem
    rcases mem with rfl | rfl
    · exact ⟨trivial, ⟨trivial, rfl⟩, rfl, trivial⟩
    · exact ⟨trivial, rfl⟩
  have traceless := select_traceless known 0 named true .this
    ⟨.memory [1, 2, 3], .ofParams [], .empty⟩
  exact ⟨named, traceless.1 ⟨.named "wide" (unsigned 2 .big), _⟩ (.int 258) 2 rfl⟩

end Format

end BinaryFormat
