import BinaryFormat.Proofs.Deferral
import BinaryFormat.Proofs.Frames.Formats

/-!
# The scope of a deferred expression

A patch takes along the frames that it has left, and the frames below stay
where they are, so its expression sees the frames that it was registered under.
The index of an element is an entry of the frame around the repeater, though,
and the elements behind it note theirs in the same place.
-/

namespace BinaryFormat

/-- The index of the element at hand. -/
def Expr.elementIndex : Expr := .attr .this "_index"

namespace Context

theorem scopeOf_pop {ctx : Context} (inner : ctx.below ≠ []) (d : Deferred) :
    ctx.pop.scopeOf { d with scopes := ctx.top.values :: d.scopes } = ctx.scopeOf d := by
  obtain ⟨top, below⟩ := ctx
  cases below with
  | nil => exact absurd rfl inner
  | cons next rest => simp [scopeOf, pop, frames]

/-- In the scope of a patch the index at hand is a given one. -/
def SeesIndex (ctx : Context) (d : Deferred) (i : Nat) : Prop :=
  ∀ (r : Resolver) (path : Path) (store : LazyStore),
    Expr.elementIndex.evaluate r (ctx.scopeOf d) path store = .ok (.ofNat i) store

/-- The index that the nearest frame binds. -/
def nearestIndex? (frames : List (Record Value)) : Option Value :=
  frames.findSome? (Record.get? · "_index")

/-- Frames that bind no index of their own show that of the frames below them. -/
theorem seesIndex_iff {ctx : Context} {d : Deferred} {i : Nat}
    (unbound : ∀ frame ∈ d.scopes, Record.get? frame "_index" = none) :
    ctx.SeesIndex d i ↔ nearestIndex? ctx.frames = some (.ofNat i) := by
  have left : d.scopes.reverse.findSome? (Record.get? · "_index") = none :=
    List.findSome?_eq_none_iff.mpr fun frame h => unbound frame (List.mem_reverse.mp h)
  have seen : (ctx.scopeOf d).frames.findSome? (Record.get? · "_index") =
      nearestIndex? ctx.frames := by
    rw [scopeOf, List.findSome?_append, left, Option.none_or, nearestIndex?]
  cases index : nearestIndex? ctx.frames with
  | none =>
      rw [index] at seen
      refine ⟨fun sees => ?_, fun h => nomatch h⟩
      have value := sees (Engine.ofDefinitions []).resolver .this .empty
      simp [Expr.elementIndex, Expr.evaluate, Expr.denote, Expr.member, Denoted.ofFrame, seen,
        Lookup.atPath, Lookup.ofExcept, bind, EStateM.bind, pure, EStateM.pure, throw,
        throwThe, MonadExceptOf.throw, EStateM.throw] at value
  | some v =>
      rw [index] at seen
      have value : ∀ (r : Resolver) (path : Path) (store : LazyStore),
          Expr.elementIndex.evaluate r (ctx.scopeOf d) path store = .ok v store := by
        intro r path store
        simp [Expr.elementIndex, Expr.evaluate, Expr.denote, Expr.member, Denoted.ofFrame, seen,
          Lookup.atPath, Lookup.ofExcept, bind, EStateM.bind, pure, EStateM.pure,
          Denoted.toValue]
      refine ⟨fun sees => ?_, fun h r path store => ?_⟩
      · have same := (value (Engine.ofDefinitions []).resolver .this .empty).symm.trans
          (sees _ .this .empty)
        cases same
        rfl
      · cases h
        exact value r path store

private theorem nearestIndex?_of_index? {ctx : Context} {v : Value} (index : ctx.index? = some v) :
    nearestIndex? ctx.frames = some v := by
  rw [index?, innermost] at index
  rw [nearestIndex?, frames, List.findSome?_cons, index]

end Context

/-! ## Runs of elements -/

/-- Elements are built from an index on, one value after the other.  Behind each of them lazy
values may be resolved. -/
inductive ElementRuns (p : Part) (path : Path) :
    Nat → State → List Value → List Value → State → Prop where
  | done {i : Nat} {s : State} : ElementRuns p path i s [] [] s
  | next {i : Nat} {u w : Value} {us ws : List Value} {s s₁ s' : State} (store : LazyStore)
      (built : p.build u (path.element i)
        { s with context := s.context.insert "_index" (.ofNat i) } = .ok w s₁)
      (rest : ElementRuns p path (i + 1) { s₁ with store := store } us ws s') :
      ElementRuns p path i s (u :: us) (w :: ws) s'

/-- In a run over all elements the one at an index is built from `u` as `w`: those in front of it
lead to the state that its index is noted in, and those behind it go on from where it ends. -/
structure ElementAt (p : Part) (path : Path) (us ws : List Value) (s s' : State) (i : Nat)
    (u w : Value) (s₁ s₂ : State) : Prop where
  given : us[i]? = some u
  made : ws[i]? = some w
  before : ElementRuns p path 0 s (us.take i) (ws.take i) s₁
  built : p.codec.build u (path.element i)
    { s₁ with context := s₁.context.insert "_index" (.ofNat i) } = .ok w s₂
  behind : ∃ store, ElementRuns p path (i + 1) { s₂ with store := store } (us.drop (i + 1))
    (ws.drop (i + 1)) s'

namespace ElementRuns

variable {p : Part} {path : Path} {e : Engine} {t : Traits} {i : Nat} {us ws : List Value}
  {s s' : State}

private theorem of_buildElements (run : Codec.buildElements p path i us s = .ok ws s') :
    ElementRuns p path i s us ws s' := by
  induction us generalizing i s ws with
  | nil =>
      obtain ⟨rfl, rfl⟩ := Run.pure_eq_ok_iff.mp run
      exact .done
  | cons v rest ih =>
      obtain ⟨_, s₁, noted, run⟩ := Run.bind_eq_ok_iff.mp run
      cases noted
      obtain ⟨w, s₂, built, run⟩ := Run.bind_eq_ok_iff.mp run
      obtain ⟨others, s₃, later, run⟩ := Run.bind_eq_ok_iff.mp run
      obtain ⟨rfl, rfl⟩ := Run.pure_eq_ok_iff.mp run
      exact .next s₂.store built (ih later)

private theorem store_of_isLast {last : Expr} {v : Value} {items : List Value} {b : Bool}
    (run : Codec.isLast e last v items path s = .ok b s') :
    ∃ store, s' = { s with store := store } :=
  let ⟨store, _, same⟩ := Run.lookup_eq_ok_iff.mp run
  ⟨store, same⟩

/-- The last element ends the run, and the values behind it are left. -/
private theorem of_buildUntil {last : Expr} {items all done : List Value}
    (run : Codec.buildUntil e last p path i items done s = .ok all s') :
    ∃ us ws s₁ store, us <+: items ∧ all = done.reverse ++ ws ∧
      ElementRuns p path i s us ws s₁ ∧ s' = { s₁ with store := store } := by
  induction items generalizing i s done with
  | nil => cases run
  | cons v rest ih =>
      obtain ⟨_, s₁, noted, run⟩ := Run.bind_eq_ok_iff.mp run
      cases noted
      obtain ⟨w, s₂, built, run⟩ := Run.bind_eq_ok_iff.mp run
      obtain ⟨stop, s₃, judged, run⟩ := Run.bind_eq_ok_iff.mp run
      obtain ⟨store, rfl⟩ := store_of_isLast judged
      cases stop with
      | true =>
          obtain ⟨rfl, rfl⟩ := Run.pure_eq_ok_iff.mp run
          exact ⟨[v], [w], s₂, store, List.prefix_cons_inj v |>.mpr List.nil_prefix,
            List.reverse_cons, .next s₂.store built .done, rfl⟩
      | false =>
          obtain ⟨us, ws, s₄, store', front, rfl, later, rfl⟩ := ih run
          refine ⟨v :: us, w :: ws, s₄, store', (List.prefix_cons_inj v).mpr front, ?_,
            .next store built later, rfl⟩
          rw [List.reverse_cons, List.append_assoc]
          rfl

/-- Elements queue their patches behind the others.  Where they note no index themselves, the
one that the repetition noted last stays. -/
private theorem grows (runs : ElementRuns p path i s us ws s') (steady : p.codec.Steady t) :
    s.context.Grows t.loose s'.context ∧ (t.still →
      s'.context.index? = if ws = [] then s.context.index? else
        some (.ofNat (i + (ws.length - 1)))) := by
  induction runs with
  | done => exact ⟨.refl _, fun _ => (if_pos rfl).symm⟩
  | @next i u w us ws s s₁ s' store built rest ih =>
      obtain ⟨later, last⟩ := ih
      have noted : s.context.Grows t.loose (s.context.insert "_index" (.ofNat i)) :=
        (Context.Grows.refl _).insert id (fun _ => Or.inr (by decide)) _
      obtain ⟨grown, -⟩ := (steady.build u (path.element i) _
        (Context.anchors_element path i)).of_ok (Context.Grows.refl _)
        (Part.build_eq_ok_iff.mp built)
      refine ⟨(noted.trans (grown.mono t.loose_within)).trans later, fun still => ?_⟩
      have own : s₁.context.index? = some (.ofNat i) := by
        rw [grown.index still]
        exact Record.get?_insert_self _ _ _
      rw [last still, if_neg (List.cons_ne_nil w ws)]
      cases ws with
      | nil => exact own
      | cons other more =>
          rw [if_neg (List.cons_ne_nil other more)]
          congr 2
          simp only [List.length_cons]
          omega

/-- A run over elements splits at each of them. -/
private theorem split (runs : ElementRuns p path i s us ws s') {k : Nat} (here : k < ws.length) :
    ∃ u w s₁ s₂ store, us[k]? = some u ∧ ws[k]? = some w ∧
      ElementRuns p path i s (us.take k) (ws.take k) s₁ ∧
      p.build u (path.element (i + k))
        { s₁ with context := s₁.context.insert "_index" (.ofNat (i + k)) } = .ok w s₂ ∧
      ElementRuns p path (i + k + 1) { s₂ with store := store } (us.drop (k + 1))
        (ws.drop (k + 1)) s' := by
  induction runs generalizing k with
  | done => exact absurd here (Nat.not_lt_zero k)
  | @next i u w us ws s s₁ s' store built rest ih =>
      cases k with
      | zero => exact ⟨u, w, s, s₁, store, rfl, rfl, .done, built, rest⟩
      | succ k =>
          obtain ⟨u', w', s₂, s₃, store', given, made, before, built', behind⟩ :=
            ih (Nat.lt_of_succ_lt_succ here)
          rw [Nat.add_right_comm i 1 k] at built' behind
          exact ⟨u', w', s₂, s₃, store', given, made, .next store built before, built', behind⟩

private theorem elementAt (runs : ElementRuns p path 0 s us ws s') (here : i < ws.length) :
    ∃ u w s₁ s₂, ElementAt p path us ws s s' i u w s₁ s₂ := by
  obtain ⟨u, w, s₁, s₂, store, given, made, before, built, behind⟩ := runs.split here
  rw [Nat.zero_add] at built behind
  exact ⟨u, w, s₁, s₂, given, made, before, Part.build_eq_ok_iff.mp built, store, behind⟩

end ElementRuns

/-- What becomes of an element's patches and of its index once all elements are built. -/
private theorem ElementAt.patches {p : Part} {path : Path} {us ws : List Value} {s s' s₁ s₂ : State}
    {i : Nat} {u w : Value} {t : Traits} (element : ElementAt p path us ws s s' i u w s₁ s₂)
    (steady : p.codec.Steady t) :
    (∃ new, s₂.context.top.deferred = s₁.context.top.deferred ++ new) ∧
      s₂.context.Grows t.loose s'.context ∧
      (t.still → s₂.context.index? = some (.ofNat i) ∧
        s'.context.index? = some (.ofNat (ws.length - 1))) := by
  obtain ⟨store, behind⟩ := element.behind
  obtain ⟨grown, -⟩ := (steady.build u (path.element i) _
    (Context.anchors_element path i)).of_ok (Context.Grows.refl _) element.built
  obtain ⟨new, queued, -⟩ := grown.queue
  obtain ⟨kept, last⟩ := behind.grows steady
  refine ⟨⟨new, queued⟩, kept, fun still => ?_⟩
  have here : s₂.context.index? = some (.ofNat i) := by
    rw [grown.index still]
    exact Record.get?_insert_self _ _ _
  have within : i < ws.length := (List.getElem?_eq_some_iff.mp element.made).1
  refine ⟨here, (last still).trans ?_⟩
  by_cases final : ws.drop (i + 1) = []
  · rw [if_pos final, here]
    have count := List.drop_eq_nil_iff.mp final
    congr 2
    omega
  · rw [if_neg final, List.length_drop]
    have count := mt List.drop_eq_nil_iff.mpr final
    congr 2
    omega

namespace Format

/-- Repetitions of a format. -/
def Repeats (of : Format) : Format → Prop
  | array _ f _ | range _ _ f _ | greedyRange f _ | repeatUntil _ f _ | prefixedArray _ f => f = of
  | _ => False

/-- What stands in front of the elements of a repetition is done, and there are values for them:
more than are built only where the last element is looked for. -/
inductive Prepares (e : Engine) (defs : Definitions) (v : Value) (path : Path) :
    Format → State → List Value → State → Prop
  | array {count : Expr} {of : Format} {discard : Bool} {items : List Value} {s s₁ s₂ : State}
      (sized : e.evalSize count path s = .ok items.length s₁)
      (given : e.listInput v path s₁ = .ok items s₂) :
      Prepares e defs v path (.array count of discard) s items s₂
  | range {least most : Expr} {of : Format} {discard : Bool} {low high : Nat}
      {items : List Value} {s s₁ s₂ : State}
      (bounded : Codec.bounds e least (some most) path s = .ok (low, high) s₁)
      (given : e.listInput v path s₁ = .ok items s₂)
      (within : low ≤ items.length ∧ items.length ≤ high) :
      Prepares e defs v path (.range least most of discard) s items s₂
  | greedyRange {of : Format} {discard : Bool} {low high : Nat} {items : List Value}
      {s s₁ s₂ : State}
      (bounded : Codec.bounds e (.const (.int 0)) none path s = .ok (low, high) s₁)
      (given : e.listInput v path s₁ = .ok items s₂)
      (within : low ≤ items.length ∧ items.length ≤ high) :
      Prepares e defs v path (.greedyRange of discard) s items s₂
  | repeatUntil {last : Expr} {of : Format} {discard : Bool} {items : List Value} {s s₁ : State}
      (given : e.listInput v path s = .ok items s₁) :
      Prepares e defs v path (.repeatUntil last of discard) s items s₁
  | prefixedArray {count of : Format} {items : List Value} {n : Value} {s s₁ s₂ : State}
      (given : e.listInput v path s = .ok items s₁)
      (counted : Part.build ⟨count, count.codec e defs⟩ (.ofNat items.length) path s₁ = .ok n s₂) :
      Prepares e defs v path (.prefixedArray count of) s items s₂

variable {e : Engine} {defs : Definitions} {of f : Format} {v w : Value} {path : Path}
  {s s' : State}

private theorem elementRuns_of_buildRange {p : Part} {least : Expr} {most : Option Expr}
    (run : Codec.buildRange e least most p v path s = .ok w s') :
    ∃ low high s₁ items s₀ ws, Codec.bounds e least most path s = .ok (low, high) s₁ ∧
      e.listInput v path s₁ = .ok items s₀ ∧ (low ≤ items.length ∧ items.length ≤ high) ∧
      w = .list ws ∧ ElementRuns p path 0 s₀ items ws s' := by
  obtain ⟨⟨low, high⟩, s₁, bounded, run⟩ := Run.bind_eq_ok_iff.mp run
  obtain ⟨items, s₂, given, run⟩ := Run.bind_eq_ok_iff.mp run
  obtain ⟨inside, run⟩ := Run.guard_eq_ok_iff.mp run
  obtain ⟨ws, s₃, built, run⟩ := Run.bind_eq_ok_iff.mp run
  obtain ⟨rfl, rfl⟩ := Run.pure_eq_ok_iff.mp run
  rw [not_or, Nat.not_lt, Nat.not_lt] at inside
  exact ⟨low, high, s₁, items, s₂, ws, bounded, given, inside, rfl, .of_buildElements built⟩

private theorem elementRuns_of_build (repeats : Repeats of f)
    (run : (f.codec e defs).build v path s = .ok w s') :
    ∃ items s₀ us ws s₁ store, Prepares e defs v path f s items s₀ ∧ us <+: items ∧
      w = .list ws ∧ ElementRuns ⟨of, of.codec e defs⟩ path 0 s₀ us ws s₁ ∧
      s' = { s₁ with store := store } := by
  cases f with
  | array count f discard =>
      obtain rfl : f = of := repeats
      obtain ⟨n, s₁, sized, run⟩ := Run.bind_eq_ok_iff.mp run
      obtain ⟨items, s₂, given, run⟩ := Run.bind_eq_ok_iff.mp run
      obtain ⟨same, run⟩ := Run.guard_eq_ok_iff.mp run
      obtain ⟨ws, s₃, built, run⟩ := Run.bind_eq_ok_iff.mp run
      obtain ⟨rfl, rfl⟩ := Run.pure_eq_ok_iff.mp run
      obtain rfl : items.length = n := not_not.mp same
      exact ⟨items, s₂, items, ws, s₃, s₃.store, .array sized given, List.prefix_refl items, rfl,
        .of_buildElements built, rfl⟩
  | range least most f discard =>
      obtain rfl : f = of := repeats
      obtain ⟨low, high, s₁, items, s₀, ws, bounded, given, within, rfl, runs⟩ :=
        elementRuns_of_buildRange run
      exact ⟨items, s₀, items, ws, s', s'.store, .range bounded given within,
        List.prefix_refl items, rfl, runs, rfl⟩
  | greedyRange f discard =>
      obtain rfl : f = of := repeats
      obtain ⟨low, high, s₁, items, s₀, ws, bounded, given, within, rfl, runs⟩ :=
        elementRuns_of_buildRange run
      exact ⟨items, s₀, items, ws, s', s'.store, .greedyRange bounded given within,
        List.prefix_refl items, rfl, runs, rfl⟩
  | repeatUntil last f discard =>
      obtain rfl : f = of := repeats
      obtain ⟨items, s₁, given, run⟩ := Run.bind_eq_ok_iff.mp run
      obtain ⟨all, s₂, built, run⟩ := Run.bind_eq_ok_iff.mp run
      obtain ⟨rfl, rfl⟩ := Run.pure_eq_ok_iff.mp run
      obtain ⟨us, ws, s₃, store, front, same, runs, rfl⟩ := ElementRuns.of_buildUntil built
      obtain rfl : all = ws := same
      exact ⟨items, s₁, us, all, s₃, store, .repeatUntil given, front, rfl, runs, rfl⟩
  | prefixedArray count f =>
      obtain rfl : f = of := repeats
      obtain ⟨items, s₁, given, run⟩ := Run.bind_eq_ok_iff.mp run
      obtain ⟨n, s₂, counted, run⟩ := Run.bind_eq_ok_iff.mp run
      obtain ⟨ws, s₃, built, run⟩ := Run.bind_eq_ok_iff.mp run
      obtain ⟨rfl, rfl⟩ := Run.pure_eq_ok_iff.mp run
      exact ⟨items, s₂, items, ws, s₃, s₃.store, .prefixedArray given counted,
        List.prefix_refl items, rfl, .of_buildElements built, rfl⟩
  | _ => exact repeats.elim

/-- What each element of a run over all of them queues stays queued, in the frames that it was
queued under.  Right behind its element a patch sees the index of the element, and that of the
last element once all are built. -/
def KeepsPatches (p : Part) (path : Path) (us ws : List Value) (s s' : State) : Prop :=
  ∀ i < ws.length, ∃ u w s₁ s₂ new, ElementAt p path us ws s s' i u w s₁ s₂ ∧
    s₂.context.top.deferred = s₁.context.top.deferred ++ new ∧
    (∀ d ∈ new, d ∈ s'.context.top.deferred) ∧
    s'.context.below = s₂.context.below ∧
    (∀ name, Record.isPrivate name = false →
      Record.get? s'.context.innermost name = none →
      Record.get? s₂.context.innermost name = none) ∧
    (p.format.Still → ∀ d : Deferred,
      (∀ frame ∈ d.scopes, Record.get? frame "_index" = none) →
      s₂.context.SeesIndex d i ∧ (s'.context.SeesIndex d i ↔ i + 1 = ws.length))

/-- A repetition is built as a run over its elements that keeps their patches. -/
theorem keepsPatches_of_build {n : Nat} (repeats : Repeats of f)
    (run : (f.codec (.level defs n) defs).build v path s = .ok w s') :
    ∃ items s₀ us ws s₁ store, Prepares (.level defs n) defs v path f s items s₀ ∧
      us <+: items ∧ w = .list ws ∧ s' = { s₁ with store := store } ∧
      ElementRuns ⟨of, of.codec (.level defs n) defs⟩ path 0 s₀ us ws s₁ ∧
      KeepsPatches ⟨of, of.codec (.level defs n) defs⟩ path us ws s₀ s₁ := by
  obtain ⟨items, s₀, us, ws, s₁, store, prepared, front, rfl, runs, rfl⟩ :=
    elementRuns_of_build repeats run
  have steady : (of.codec (.level defs n) defs).Steady ⟨False, False, False, of.Still⟩ :=
    steady_codec (Engine.steady_level defs n) defs _ of ⟨False.elim, False.elim, False.elim, id⟩
  refine ⟨items, s₀, us, ws, s₁, store, prepared, front, rfl, rfl, runs, fun i h => ?_⟩
  obtain ⟨u, w, s₂, s₃, element⟩ := runs.elementAt h
  obtain ⟨⟨new, queued⟩, grown, index⟩ := element.patches steady
  obtain ⟨more, kept, -⟩ := grown.queue
  refine ⟨u, w, s₂, s₃, new, element, queued, fun d hd => ?_, grown.below, grown.names,
    fun still d unbound => ?_⟩
  · rw [kept, queued]
    exact List.mem_append_left _ (List.mem_append_right _ hd)
  · obtain ⟨own, last⟩ := index still
    rw [Context.seesIndex_iff unbound, Context.seesIndex_iff unbound,
      Context.nearestIndex?_of_index? own, Context.nearestIndex?_of_index? last]
    refine ⟨rfl, fun same => ?_, fun eq => ?_⟩
    · injection same with same
      injection same with same
      have := Int.ofNat.inj same
      omega
    · rw [← eq, Nat.add_sub_cancel]

end Format

end BinaryFormat
