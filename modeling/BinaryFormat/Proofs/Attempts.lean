import BinaryFormat.Proofs.FrameDiscipline

/-!
# Failed attempts to build

An alternative of a selection is built beside the stream.  If it fails, the
stream, the queue of patches and the frames below are what they were; so are the
entries of the innermost frame, if the alternative notes none there.  Where the
finished bytes find room, a selection therefore builds what the first of its
alternatives builds that can be built from where the selection started.
-/

namespace BinaryFormat

/-! ## Room -/

namespace Stream

/-- All of the bytes can be written at the position. -/
def Takes (s : Stream) (data : List UInt8) : Prop := (s.write data).1 = none

theorem takes_growing (contents : List UInt8) (pos : Nat) (data : List UInt8) :
    (growing contents pos).Takes data := rfl

private theorem takes_fixed {contents data : List UInt8} {pos : Nat}
    (room : pos + data.length ≤ contents.length) :
    (Stream.medium ⟨.fixed, contents, pos⟩).Takes data := by
  have whole : ¬ (data.take (contents.length - pos)).length < data.length := by
    rw [List.length_take, Nat.min_eq_right (by omega)]
    exact Nat.lt_irrefl _
  rw [Takes, Stream.write, Medium.write]
  dsimp only
  rw [if_neg whole]

end Stream

namespace Codec

variable {p : Part} {tagged : Bool} {u w : Value} {path : Path} {s s' : State}
  {failure : Failure} {data : List UInt8}

/-! ## One attempt -/

private theorem stream_buildScratch (c : Codec) (u : Value) (path : Path) (s : State) :
    ((c.buildScratch u path).after s).stream = s.stream := by
  rw [Run.after, buildScratch]
  cases run : Run.onStream (.memory []) (c.build u path) s with
  | ok result s₁ =>
      obtain ⟨s₂, -, -, rfl⟩ := Run.ok_of_onStream run
      rw [Run.bind_of_ok run]
      rfl
  | error failure s₁ =>
      rw [Run.bind_of_error run]
      unfold Run.onStream at run
      split at run
      · cases run
      · cases run
        rfl

private theorem tryBuild_of_error
    {s₁ : State} (failed : p.codec.buildScratch u path s = .error failure s₁) :
    tryBuild tagged p u path s =
      .error failure { s₁ with context := s₁.context.discardSince s.context.mark } := by
  have marked : Run.mark s = .ok s.context.mark s := rfl
  rw [tryBuild, Run.bind_of_ok marked, Run.bind_of_ok (Run.outcome_of_error failed)]
  rfl

private theorem tryBuild_of_ok {s₁ : State}
    (made : p.codec.buildScratch u path s = .ok (w, data) s₁)
    (room : s.stream.Takes data) :
    tryBuild tagged p u path s = .ok (tag tagged p w)
      ⟨(s.stream.write data).2, s₁.context.rebaseSince s.context.mark s.stream.pos, s₁.store⟩ := by
  have marked : Run.mark s = .ok s.context.mark s := rfl
  have same : s₁.stream = s.stream := by
    have kept := stream_buildScratch p.codec u path s
    rwa [Run.after, made] at kept
  obtain ⟨stream, ctx, store⟩ := s₁
  obtain rfl : stream = s.stream := same
  have written : Run.write data path ⟨s.stream, ctx, store⟩ =
      .ok () ⟨(s.stream.write data).2, ctx, store⟩ := by
    rw [Run.write]
    rcases fault : s.stream.write data with ⟨_ | fault, stream⟩
    · rfl
    · rw [Stream.Takes, fault] at room
      cases room
  rw [tryBuild, Run.bind_of_ok marked, Run.bind_of_ok (Run.outcome_of_ok made)]
  dsimp only
  rw [Run.splice]
  simp only [bind_assoc]
  rw [Run.bind_of_ok (Run.tell_apply _), Run.bind_of_ok written]
  rfl

/-- A failed attempt leaves the stream, the queue and the frames below as they were. -/
theorem untouched_of_tryBuild {still : Prop}
    (steady : p.codec.Steady ⟨False, False, False, still⟩)
    (room : ∀ w data s₁, p.codec.buildScratch u path s = .ok (w, data) s₁ →
      s.stream.Takes data)
    (failed : tryBuild tagged p u path s = .error failure s') :
    s'.stream = s.stream ∧ s'.context.below = s.context.below ∧
      s'.context.top.deferred = s.context.top.deferred ∧
      (still → s'.context.innermost = s.context.innermost) := by
  cases made : p.codec.buildScratch u path s with
  | ok result s₁ =>
      rw [tryBuild_of_ok made (room _ _ _ made)] at failed
      cases failed
  | error failure' s₁ =>
      have anchored : s.context.Anchors ⟨False, False, False, still⟩ path := by
        rintro (claimed | claimed) <;> exact claimed.elim
      have kept := (keeps_buildScratch (steady.build u path s.context anchored)).of_error
        (Context.Grows.refl _) made
      have stream := stream_buildScratch p.codec u path s
      rw [Run.after, made] at stream
      rw [tryBuild_of_error made] at failed
      cases failed
      obtain ⟨new, queued, -⟩ := kept.1.queue
      exact ⟨stream, kept.1.below, Context.take_mark queued, kept.1.entries⟩

/-- An attempt succeeds only by building its alternative beside the stream and copying it over. -/
theorem scratch_of_tryBuild (run : tryBuild tagged p u path s = .ok w s') :
    ∃ built data s₁, p.codec.buildScratch u path s = .ok (built, data) s₁ ∧
      Run.splice data s.context.mark path s₁ = .ok () s' ∧ w = tag tagged p built := by
  have marked : Run.mark s = .ok s.context.mark s := rfl
  rw [tryBuild, Run.bind_of_ok marked] at run
  cases scratch : p.codec.buildScratch u path s with
  | error failure s₁ =>
      rw [Run.bind_of_ok (Run.outcome_of_error scratch)] at run
      cases run
  | ok made s₁ =>
      rw [Run.bind_of_ok (Run.outcome_of_ok scratch)] at run
      obtain ⟨built, data⟩ := made
      obtain ⟨_, s₂, spliced, last⟩ := Run.bind_eq_ok_iff.mp run
      obtain ⟨rfl, rfl⟩ := Run.pure_eq_ok_iff.mp last
      exact ⟨built, data, s₁, rfl, spliced, rfl⟩

/-! ## All attempts -/

theorem tried_of_buildFirst {rest : List Part}
    (run : buildFirst tagged u path (p :: rest) s = .ok (some w) s') :
    tryBuild tagged p u path s = .ok w s' ∨
      ∃ failure s₁, tryBuild tagged p u path s = .error failure s₁ ∧
        buildFirst tagged u path rest s₁ = .ok (some w) s' := by
  rw [buildFirst] at run
  cases tried : tryBuild tagged p u path s with
  | ok built s₁ =>
      rw [Run.bind_of_ok (Run.outcome_of_ok tried)] at run
      cases run
      exact .inl rfl
  | error failure s₁ =>
      rw [Run.bind_of_ok (Run.outcome_of_error tried)] at run
      dsimp only at run
      split at run
      · cases run
      · exact .inr ⟨failure, s₁, rfl, run⟩

/-- What a selection builds is the alternative that the value names or, if it names none, the
first that can be built. -/
theorem attempt_of_select {alternatives : List Part}
    (run : (select alternatives tagged).build u path s = .ok w s') :
    (∃ q inner, tagged = true ∧ namedAlternative? alternatives u = some (q, inner) ∧
      tryBuild tagged q inner path s = .ok w s') ∨
    (tagged = true → namedAlternative? alternatives u = none) ∧
      buildFirst tagged u path alternatives s = .ok (some w) s' := by
  cases chosen : if tagged then namedAlternative? alternatives u else none with
  | some choice =>
      simp only [select, chosen] at run
      cases tagged with
      | false => cases chosen
      | true => exact .inl ⟨choice.1, choice.2, rfl, chosen, run⟩
  | none =>
      simp only [select, chosen] at run
      obtain ⟨found, s₁, first, run⟩ := Run.bind_eq_ok_iff.mp run
      cases found with
      | none =>
          obtain ⟨text, s₂, -, run⟩ := Run.bind_eq_ok_iff.mp run
          cases run
      | some built =>
          obtain ⟨rfl, rfl⟩ := Run.pure_eq_ok_iff.mp run
          exact .inr ⟨fun named => by rwa [if_pos named] at chosen, first⟩

/-- What several attempts come to. -/
inductive Attempt where
  /-- An alternative was built. -/
  | built (alternative : Part) (w : Value) (s : State)
  /-- An alternative failed for good. -/
  | refused (failure : Failure) (store : LazyStore)
  | impossible (store : LazyStore)

/-- What the first alternative comes to that can be built, or that fails for good.  Every
alternative starts over from the stream and the context of `s`. -/
def firstBuilt (tagged : Bool) (v : Value) (path : Path) (s : State) :
    List Part → LazyStore → Attempt
  | [], store => .impossible store
  | p :: rest, store =>
    match tryBuild tagged p v path { s with store := store } with
    | .ok w s' => .built p w s'
    | .error failure s' =>
      if failure.fault.isExplicit then .refused failure s'.store
      else firstBuilt tagged v path s rest s'.store

private theorem failed_of_impossible {v : Value} {ps : List Part} {store store' : LazyStore}
    (none : firstBuilt tagged v path s ps store = .impossible store') :
    ∀ p ∈ ps, ∃ store₁ failure s', tryBuild tagged p v path { s with store := store₁ } =
      .error failure s' := by
  induction ps generalizing store with
  | nil => exact fun _ mem => nomatch mem
  | cons p rest ih =>
      rw [firstBuilt] at none
      cases run : tryBuild tagged p v path { s with store := store } with
      | ok w s' =>
          rw [run] at none
          cases none
      | error failure s' =>
          rw [run] at none
          dsimp only at none
          split at none
          · cases none
          · intro q mem
            rcases List.mem_cons.mp mem with rfl | mem
            · exact ⟨store, failure, s', run⟩
            · exact ih none q mem

/-- What a run over the alternatives yields, and the state that it leaves. -/
inductive Attempt.Reached (s : State) :
    Attempt → EStateM.Result Failure State (Option Value) → Prop
  | built (p : Part) (w : Value) (s' : State) : Reached s (.built p w s') (.ok (some w) s')
  | refused (failure : Failure) (store : LazyStore) :
      Reached s (.refused failure store) (.error failure { s with store := store })
  | impossible (store : LazyStore) :
      Reached s (.impossible store) (.ok none { s with store := store })

theorem reached_buildFirst {v : Value} {ps : List Part} {store : LazyStore}
    (steady : ∀ p ∈ ps, p.codec.Steady ⟨False, False, False, True⟩)
    (room : ∀ p ∈ ps, ∀ store w data s₁,
      p.codec.buildScratch v path { s with store := store } = .ok (w, data) s₁ →
        s.stream.Takes data) :
    (firstBuilt tagged v path s ps store).Reached s
      (buildFirst tagged v path ps { s with store := store }) := by
  induction ps generalizing store with
  | nil => exact .impossible store
  | cons p rest ih =>
      rw [firstBuilt, buildFirst]
      cases run : tryBuild tagged p v path { s with store := store } with
      | ok w s' =>
          rw [Run.bind_of_ok (Run.outcome_of_ok run)]
          exact .built p w s'
      | error failure s' =>
          obtain ⟨stream, below, queue, entries⟩ := untouched_of_tryBuild
            (steady p List.mem_cons_self) (room p List.mem_cons_self store) run
          have back : s' = { s with store := s'.store } := by
            obtain ⟨stream', ⟨⟨values, deferred⟩, below'⟩, store'⟩ := s'
            obtain ⟨stream₀, ⟨⟨values₀, deferred₀⟩, below₀⟩, store₀⟩ := s
            obtain rfl : stream' = stream₀ := stream
            obtain rfl : below' = below₀ := below
            obtain rfl : deferred = deferred₀ := queue
            obtain rfl : values = values₀ := entries trivial
            rfl
          rw [Run.bind_of_ok (Run.outcome_of_error run)]
          dsimp only
          cases explicit : failure.fault.isExplicit with
          | true =>
              rw [back]
              exact .refused failure s'.store
          | false =>
              rw [back]
              exact ih (fun q mem => steady q (List.mem_cons_of_mem p mem))
                (fun q mem => room q (List.mem_cons_of_mem p mem))

/-- Where the finished bytes of an alternative find room. -/
def HasRoom (c : Codec) (u : Value) (path : Path) (s : State) : Prop :=
  ∀ store w data s₁, c.buildScratch u path { s with store := store } = .ok (w, data) s₁ →
    s.stream.Takes data

end Codec

namespace Format

theorem mem_of_mem_parts {e : Engine} {defs : Definitions} {fs : List Format} {p : Part}
    (mem : p ∈ parts e defs fs) : p.format ∈ fs ∧ p.codec = p.format.codec e defs := by
  induction fs with
  | nil => exact absurd mem List.not_mem_nil
  | cons f rest ih =>
      rcases List.mem_cons.mp mem with rfl | mem
      · exact ⟨List.mem_cons_self, rfl⟩
      · exact ⟨List.mem_cons_of_mem f (ih mem).1, (ih mem).2⟩

/-- An attempt that fails, and whose bytes would have found room, leaves the stream, the queue of
patches and the frames below as they were.  So a selection of alternatives that note nothing
around them builds what the first of them builds from where the selection started; it fails as a
selection only if none of them can be built there, and leaves no trace then. -/
theorem select_atomic (defs : Definitions) (n : Nat) (tagged : Bool) (path : Path) (s : State) :
    (∀ (f : Format) (u : Value) (failure : Failure) (s' : State),
      (f.codec (.level defs n) defs).HasRoom u path s →
      Codec.tryBuild tagged ⟨f, f.codec (.level defs n) defs⟩ u path s = .error failure s' →
        s'.stream = s.stream ∧ s'.context.top.deferred = s.context.top.deferred ∧
        s'.context.below = s.context.below ∧
        (f.Still → s'.context.innermost = s.context.innermost)) ∧
    ∀ (alternatives : List Format) (v : Value), (∀ f ∈ alternatives, f.Still) →
      (∀ f ∈ alternatives, (f.codec (.level defs n) defs).HasRoom v path s) →
      let verdict :=
        Codec.firstBuilt tagged v path s (parts (.level defs n) defs alternatives) s.store
      let selected := ((select alternatives tagged).codec (.level defs n) defs).build v path s
      (∀ p u, tagged = true →
        Codec.namedAlternative? (parts (.level defs n) defs alternatives) v = some (p, u) →
          selected = Codec.tryBuild tagged p u path s) ∧
      (tagged = false ∨
        Codec.namedAlternative? (parts (.level defs n) defs alternatives) v = none →
        (∀ p w s', verdict = .built p w s' → selected = .ok w s') ∧
        (∀ failure store, verdict = .refused failure store →
          selected = .error failure { s with store := store }) ∧
        ∀ store, verdict = .impossible store →
          (∀ p ∈ parts (.level defs n) defs alternatives, ∃ store₁ failure s',
            Codec.tryBuild tagged p v path { s with store := store₁ } = .error failure s') ∧
          ∃ text, selected =
            .error ((Fault.noAlternative (.built alternatives.length text)).atPath path)
              { s with store := store }) := by
  have steady : ∀ (f : Format) (still : Prop), (still → f.Still) →
      (f.codec (.level defs n) defs).Steady ⟨False, False, False, still⟩ := fun f still h =>
    steady_codec (Engine.steady_level defs n) defs _ f ⟨False.elim, False.elim, False.elim, h⟩
  constructor
  · intro f u failure s' room failed
    obtain ⟨stream, below, queue, entries⟩ :=
      Codec.untouched_of_tryBuild (steady f f.Still id) (room s.store) failed
    exact ⟨stream, queue, below, entries⟩
  · intro alternatives v still room verdict selected
    -- What fails leaves nothing behind, so the run goes as the verdict on the alternatives says.
    have first : verdict.Reached s (Codec.buildFirst tagged v path
        (parts (.level defs n) defs alternatives) s) := by
      refine Codec.reached_buildFirst (fun p mem => ?_) fun p mem => ?_
      · obtain ⟨mem, same⟩ := mem_of_mem_parts mem
        rw [same]
        exact steady p.format True fun _ => still _ mem
      · obtain ⟨mem, same⟩ := mem_of_mem_parts mem
        rw [same]
        exact room _ mem
    have failed : ∀ store, verdict = .impossible store →
        ∀ p ∈ parts (.level defs n) defs alternatives, ∃ store₁ failure s',
          Codec.tryBuild tagged p v path { s with store := store₁ } = .error failure s' :=
      fun store same => Codec.failed_of_impossible same
    refine ⟨fun p u isTagged found => ?_, fun unnamed => ?_⟩
    · subst isTagged
      simp only [selected, codec, Codec.select, if_true, found]
    · have untagged : (if tagged = true then
          Codec.namedAlternative? (parts (.level defs n) defs alternatives) v else none) =
          none := by
        rcases unnamed with rfl | unnamed
        · rfl
        · rw [unnamed, ite_self]
      simp only [selected, codec, Codec.select, untagged]
      generalize verdict = verdict at first failed
      cases ended : Codec.buildFirst tagged v path (parts (.level defs n) defs alternatives) s with
      | ok found s' =>
          rw [ended] at first
          rw [Run.bind_of_ok ended, length_parts]
          refine ⟨fun p w s'' same => ?_, fun failure store same => ?_, fun store same => ?_⟩
          · subst same
            cases first
            rfl
          · subst same
            cases first
          · refine ⟨failed store same, ?_⟩
            subst same
            cases first
            exact ⟨_, rfl⟩
      | error failure s' =>
          rw [ended] at first
          rw [Run.bind_of_error ended]
          refine ⟨fun p w s'' same => ?_, fun failure store same => ?_, fun store same => ?_⟩
          · subst same
            cases first
          · subst same
            cases first
            rfl
          · subst same
            cases first

/-- A fixed number of bytes to write. -/
def fixedState (count : Nat) : State :=
  ⟨.medium ⟨.fixed, List.replicate count 0, 0⟩, .ofParams [], .empty⟩

/-- A number that is too large for an octet is written as a word. -/
theorem select_atomic_word :
    (unsigned 1 .big).Still ∧ (unsigned 2 .big).Still ∧
    ∃ s', ((select [unsigned 1 .big, unsigned 2 .big] false).codec (.level [] 1) []).build
        (.int 300) .this (fixedState 3) = .ok (.int 300) s' ∧
      s'.stream = .medium ⟨.fixed, [1, 44, 0], 2⟩ := by
  have still : ∀ f ∈ [unsigned 1 .big, unsigned 2 .big], f.Still := by
    intro f mem
    simp only [List.mem_cons, List.not_mem_nil, or_false] at mem
    rcases mem with rfl | rfl <;> exact trivial
  have room : ∀ f ∈ [unsigned 1 .big, unsigned 2 .big],
      (f.codec (.level [] 1) []).HasRoom (.int 300) .this (fixedState 3) := by
    intro f mem store w data s₁ made
    simp only [List.mem_cons, List.not_mem_nil, or_false] at mem
    rcases mem with rfl | rfl
    · cases made
    · have run : ((unsigned 2 .big).codec (.level [] 1) []).buildScratch (.int 300) .this
          { fixedState 3 with store := store } =
            .ok (.int 300, [1, 44]) { fixedState 3 with store := store } := rfl
      cases run.symm.trans made
      exact Stream.takes_fixed (by decide)
  obtain ⟨-, chosen⟩ := (select_atomic [] 1 false .this (fixedState 3)).2 _ _ still room
  exact ⟨trivial, trivial, _, (chosen (Or.inl rfl)).1 ⟨unsigned 2 .big, _⟩ (.int 300) _ rfl, rfl⟩

/-- A word that finds no room behind the first of its bytes leaves this byte behind, and what
comes after it cannot be built any more. -/
theorem select_word_without_room :
    let selected := ((select [unsigned 2 .big, unsigned 1 .big] false).codec (.level [] 1) []).build
      (.int 5) .this
    Run.left? (selected (fixedState 1)) = none ∧
      (selected.after (fixedState 1)).stream.pos = 1 ∧
      Run.left? (((unsigned 1 .big).codec (.level [] 1) []).build (.int 5) .this (fixedState 1)) =
        some ([5], 1) := by
  refine ⟨by decide +kernel, by decide +kernel, by decide +kernel⟩

end Format

end BinaryFormat
