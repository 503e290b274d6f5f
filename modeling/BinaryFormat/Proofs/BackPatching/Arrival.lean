import BinaryFormat.Proofs.BackPatching.Carried

/-!
# Coming to the component

A layer without a frame of its own comes to its component, or it leaves nothing waiting.
-/

namespace BinaryFormat

open Format (parts NestedAll)

variable {e : Engine} {defs : Definitions} {layer : Layer} {f : Format} {path : Path} {s : State}
  {before after : List Format}

private theorem Context.eq_of_calm {ctx ctx' : Context}
    (h : ctx.Calm ⟨False, False, False, True⟩ ctx') :
    ctx' = ctx := by
  obtain ⟨⟨values, queue⟩, below⟩ := ctx
  obtain ⟨⟨values', queue'⟩, below'⟩ := ctx'
  obtain rfl : values' = values := h.entries trivial
  obtain rfl : queue' = queue := h.quiet.deferred
  obtain rfl : below' = below := h.quiet.below
  rfl

/-- The alternative that is built is the one in the middle, after those in front of it have failed,
or another one. -/
private theorem Codec.firstBuilt_split {tagged : Bool} {v b : Value} {ps qs : List Part}
    {own q : Part}
    {store : LazyStore} {s' : State}
    (built : firstBuilt tagged v path s (ps ++ own :: qs) store = .built q b s') :
    (∃ store₁, (q ∈ ps ∨ q ∈ qs) ∧ tryBuild tagged q v path { s with store := store₁ } = .ok b s') ∨
      ∃ store₁, firstBuilt tagged v path s ps store = .impossible store₁ ∧
        tryBuild tagged own v path { s with store := store₁ } = .ok b s' := by
  have among {qs : List Part} {store : LazyStore}
      (built : firstBuilt tagged v path s qs store = .built q b s') :
      ∃ store₁, q ∈ qs ∧ tryBuild tagged q v path { s with store := store₁ } = .ok b s' := by
    induction qs generalizing store with
    | nil => cases built
    | cons first rest ih =>
        rw [firstBuilt] at built
        split at built
        · next made =>
            cases built
            exact ⟨store, List.mem_cons_self, made⟩
        · split at built
          · cases built
          · obtain ⟨store₁, mem, made⟩ := ih built
            exact ⟨store₁, List.mem_cons_of_mem _ mem, made⟩
  -- Only where all alternatives in front are impossible does the search come to the one in the
  -- middle.
  rw [firstBuilt_append] at built
  cases front : firstBuilt tagged v path s ps store with
  | impossible store₁ =>
      rw [front] at built
      dsimp only at built
      rw [firstBuilt] at built
      split at built
      · next made =>
          cases built
          exact .inr ⟨store₁, rfl, made⟩
      · split at built
        · cases built
        · obtain ⟨store₂, mem, made⟩ := among built
          exact .inl ⟨store₂, .inr mem, made⟩
  | built q' b' s'' =>
      rw [front] at built
      cases built
      obtain ⟨store₁, mem, made⟩ := among front
      exact .inl ⟨store₁, .inl mem, made⟩
  | refused failure store₁ =>
      rw [front] at built
      cases built

private theorem Codec.context_of_tryBuild {tagged : Bool} {q : Part} {v b : Value} {s' : State}
    (unaware : q.codec.Unaware s.context.frames s.context.frames) (calm : s.Calm) (eager : v.Eager)
    (run : tryBuild tagged q v path s = .ok b s') : s'.context = s.context :=
  ((inStep_tryBuild unaware rfl rfl tagged eager path).alone calm.alone run).2.context.1

private theorem Codec.build_of_tryBuild {tagged : Bool} {q : Part} {v b : Value} {s' : State}
    (run : tryBuild tagged q v path s = .ok b s') :
    ∃ w s₁, q.codec.build v path { s with stream := .memory [] } = .ok w s₁ := by
  obtain ⟨_, _, _, scratch, -⟩ := scratch_of_tryBuild run
  obtain ⟨s₁, built, -⟩ := buildScratch_eq_ok_iff.mp scratch
  exact ⟨_, s₁, built⟩

namespace Layer

variable {w b : Value} {s' : State}

private theorem named_split {ps qs : List Part} {own q : Part} {u : Value}
    (named : Codec.namedAlternative? (ps ++ own :: qs) w = some (q, u)) :
    (q ∈ ps ∨ q ∈ qs) ∨ Codec.namedAlternative? ps w = none ∧ q = own ∧
      Codec.namedAlternative? [own] w = some (own, u) := by
  rw [Codec.namedAlternative?_eq] at named
  obtain ⟨c, called, named⟩ := Option.bind_eq_some_iff.mp named
  obtain ⟨q', found, same⟩ := Option.map_eq_some_iff.mp named
  cases same
  rw [List.find?_append] at found
  cases front : ps.find? (·.name? == some c.1) with
  | some q' =>
      rw [front, Option.some_or] at found
      cases found
      exact .inl (.inl (List.mem_of_find?_eq_some front))
  | none =>
      rw [front, Option.none_or, List.find?_cons] at found
      split at found
      · next mine =>
          cases found
          refine .inr ⟨?_, rfl, ?_⟩
          · rw [Codec.namedAlternative?_eq, called, Option.bind_some, front]
            rfl
          · rw [Codec.namedAlternative?_eq, called, Option.bind_some, List.find?_cons, mine]
            rfl
      · exact .inl (.inr (List.mem_of_find?_eq_some found))

/-- A choice comes to an alternative, or another one is built. -/
private theorem enters_select (tagged : Bool)
    (steady : ∀ q ∈ parts e defs (before ++ f :: after),
      q.codec.Steady ⟨False, False, False, True⟩)
    (ahead : NestedAll before) (behind : NestedAll after) (calm : s.Calm) (eager : w.Eager)
    (run : (((select before after tagged).around f).codec e defs).build w path s = .ok b s') :
    (∃ u s₁, (select before after tagged).Enters e defs f w path s u s₁) ∨
      s'.context = s.context := by
  have others (q : Part) (mem : q ∈ parts e defs before ∨ q ∈ parts e defs after) :
      q.codec.Unaware s.context.frames s.context.frames := by
    rcases mem with mem | mem
    · exact (Format.unaware_parts e defs ahead (Format.overlooksAll_refl e _ ahead) q mem).1
    · exact (Format.unaware_parts e defs behind (Format.overlooksAll_refl e _ behind) q mem).1
  have split : parts e defs (before ++ f :: after) =
      parts e defs before ++ ⟨f, f.codec e defs⟩ :: parts e defs after := Format.parts_append ..
  have run : (Codec.select (parts e defs (before ++ f :: after)) tagged).build w path s =
      .ok b s' := run
  rcases Codec.attempt_of_select run with
    ⟨q, u, isTagged, named, tried⟩ | ⟨unnamed, first⟩
  · subst isTagged
    have clear := (Codec.eager_of_namedAlternative eager named).2
    rcases named_split (split ▸ named) with mem | ⟨front, rfl, mine⟩
    · exact .inr (Codec.context_of_tryBuild (others q mem) calm clear tried)
    · obtain ⟨w', s₂, fits⟩ := Codec.build_of_tryBuild tried
      exact .inl ⟨u, _, .selectNamed front mine fits⟩
  · have reached := first ▸ reached_of_calm steady calm
    generalize chosen : Codec.firstBuilt tagged w path s (parts e defs (before ++ f :: after))
      s.store = attempt at reached
    cases reached with
    | built q =>
        rw [split] at chosen
        rcases Codec.firstBuilt_split chosen with ⟨store, mem, made⟩ | ⟨store, refused, made⟩
        · exact .inr (Codec.context_of_tryBuild (s := { s with store := store })
            (others q mem) ⟨calm.growing, calm.idle, calm.eager⟩ eager made)
        · obtain ⟨w', s₂, fits⟩ := Codec.build_of_tryBuild made
          exact .inl ⟨w, _, .selectFirst unnamed refused fits⟩

private theorem enters_rawCopy (steady : (f.codec e defs).Steady ⟨False, False, False, True⟩)
    (calm : s.Calm)
    (run : ((rawCopy.around f).codec e defs).build w path s = .ok b s') :
    (∃ u s₁, rawCopy.Enters e defs f w path s u s₁) ∨ s'.context = s.context := by
  obtain ⟨input, s₁, given, rest⟩ := Run.bind_eq_ok_iff.mp run
  obtain ⟨-, same⟩ := calm.of_keeps e.keeps_containerInput given
  rw [Run.bind_of_ok (Run.tell_apply s₁)] at rest
  dsimp only at rest
  split at rest
  · next present =>
      cases value : Record.get? input "value" with
      | none =>
          rw [value] at present
          cases present
      | some u =>
          rw [value] at present
          exact .inl ⟨u, s₁, .rawCopy given value (by simpa using present)⟩
  · cases supplied : (Record.get? input "data").bind Value.bytes? with
    | none =>
        rw [supplied] at rest
        cases rest
    | some data =>
        rw [supplied] at rest
        have keeps : (do
            Run.write data path
            let stop ← Run.tell
            let parsed ← (f.codec e defs).parseSlice data path
            return Codec.rawRecord data parsed.1 s₁.stream.pos stop : Run Value).Keeps
              (Context.Calm ⟨False, False, False, True⟩ s.context) :=
          .bind Run.keeps_write fun _ => .bind Run.keeps_tell fun _ =>
            .bind (Codec.keeps_parseSlice (steady.parse path _)) fun _ => Run.keeps_pure
        exact .inr (Context.eq_of_calm (keeps.of_ok (by rw [same]; exact .refl _) rest).1)

/-- A layer without a frame of its own comes to its component, or nothing waits behind it. -/
theorem enters_of_run (flat : layer.isFrame = false)
    (steady : (f.codec e defs).Steady ⟨False, False, False, True⟩)
    (alternatives : ∀ before after tagged, layer = .select before after tagged →
      NestedAll before ∧ NestedAll after ∧ ∀ q ∈ parts e defs (before ++ f :: after),
        q.codec.Steady ⟨False, False, False, True⟩)
    (calm : s.Calm) (eager : w.Eager)
    (run : ((layer.around f).codec e defs).build w path s = .ok b s') :
    (∃ u s₁, layer.Enters e defs f w path s u s₁) ∨ s'.context = s.context := by
  cases layer with
  | struct | sequence | focused => cases flat
  | named => exact .inl ⟨_, _, .named⟩
  | documented => exact .inl ⟨_, _, .documented⟩
  | prefixed => exact .inl ⟨_, _, .prefixed⟩
  | fixedSized =>
      obtain ⟨n, s₁, sized, -⟩ := Run.bind_eq_ok_iff.mp run
      exact .inl ⟨_, _, .fixedSized sized⟩
  | padded =>
      obtain ⟨n, s₁, sized, -⟩ := Run.bind_eq_ok_iff.mp run
      exact .inl ⟨_, _, .padded sized⟩
  | aligned =>
      obtain ⟨n, s₁, multiple, -⟩ := Run.bind_eq_ok_iff.mp run
      exact .inl ⟨_, _, .aligned multiple⟩
  | rawCopy => exact enters_rawCopy steady calm run
  | select before after tagged =>
      obtain ⟨ahead, behind, steady⟩ := alternatives before after tagged rfl
      exact enters_select tagged steady ahead behind calm eager run

end Layer

end BinaryFormat
