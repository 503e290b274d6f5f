import BinaryFormat.Proofs.Access.Levels
import BinaryFormat.Proofs.Access.Requests
import BinaryFormat.Proofs.Positions

/-!
# Lazy members in any order

A caller parses, and makes requests of the values at hand.  Whatever was done before, a
request comes to the same value or the same failure, up to what is known of the lazy
values inside.  Runs that are cut off at the lowest level of engines do not count: it
stands for the end of the call stack.
-/

namespace BinaryFormat

open Relation (ReflTransGen)

/-! ## Sessions -/

/-- The run comes to a result without coming to the lowest level: it does whatever engine stands
there. -/
def Settles {ρ : Type} (defs : Definitions) (n : Nat) (run : Engine → ρ) (r : ρ) : Prop :=
  ∀ bottom, run (Engine.above defs bottom n) = r

/-- The run of a level does not come to the lowest one. -/
def Uncut {ρ : Type} (defs : Definitions) (n : Nat) (run : Engine → ρ) : Prop :=
  Settles defs n run (run (Engine.level defs n))

private theorem Settles.level {ρ : Type} {defs : Definitions} {n : Nat} {run : Engine → ρ} {r : ρ}
    (settles : Settles defs n run r) : run (Engine.level defs n) = r := by
  rw [Engine.level_eq_above]
  exact settles _

private theorem Settles.uncut {ρ : Type} {defs : Definitions} {n : Nat} {run : Engine → ρ} {r : ρ}
    (settles : Settles defs n run r) : Uncut defs n run :=
  fun bottom => (settles bottom).trans settles.level.symm

private theorem Engine.above_add (defs : Definitions) (bottom : Engine) (n k : Nat) :
    above defs bottom (n + k) = above defs (above defs bottom k) n := by
  induction n with
  | zero => rw [Nat.zero_add, above]
  | succ n ih => rw [Nat.succ_add, above, above, ih]

/-- A run that is not cut off comes to the same at all levels above. -/
theorem Settles.higher {ρ : Type} {defs : Definitions} {n : Nat} {run : Engine → ρ} {r : ρ}
    (settles : Settles defs n run r) (k : Nat) : Settles defs (n + k) run r := by
  intro bottom
  rw [Engine.above_add]
  exact settles _

/-- A step of a session: the caller parses something, or makes a request. -/
inductive Proceeds (defs : Definitions) (n : Nat) (σ : LazyStore) : LazyStore → Prop
  | parse {f : Format} {params : Record Value} {stream : Stream} (uniform : f.Uniform)
      (inside : Value.FieldsInside σ params)
      (uncut : Uncut defs n fun e => f.parseStream e params stream σ) :
      Proceeds defs n σ (store (ending (f.parseStream (.level defs n) params stream σ)))
  | request {a : Request} (inside : ∀ v ∈ a.given, v.Inside σ)
      (uncut : Uncut defs n fun e => a.run e.resolver σ) :
      Proceeds defs n σ (store (ending (a.run (Engine.level defs n).resolver σ)))

/-- All that a caller does, step by step. -/
abbrev Session (defs : Definitions) (n : Nat) : LazyStore → LazyStore → Prop :=
  ReflTransGen (Proceeds defs n)

/-- Matching responses or matching failures. -/
inductive ResponsesMatch : EStateM.Result Failure LazyStore Response →
    EStateM.Result Failure LazyStore Response → Prop
  | ok {a b : Response} {σ τ : LazyStore} (matched : a.Matches (Similar σ τ) b) :
      ResponsesMatch (.ok a σ) (.ok b τ)
  | error {f g : Failure} {σ τ : LazyStore} (failures : f.Matches g) :
      ResponsesMatch (.error f σ) (.error g τ)

section

variable {defs : Definitions} {n : Nat} {mark : List UInt8} {l : Lineage} {σ σ' τ : LazyStore}

/-! ### Stores only grow -/

private theorem lasts_request (defs : Definitions) (n : Nat) (a : Request) :
    Lasts (a.run (Engine.level defs n).resolver) := by
  have alone := Setting.not_compares ⟨defs, []⟩
  exact (a.concurs_run (w := .apart) ((Engine.growing_level defs n).concurs alone).resolver
    fun v _ => Likeness.Reflexive.refl (A := .value) v).left

private theorem Proceeds.grown (step : Proceeds defs n σ σ') : σ.Grown σ' := by
  cases step with
  | @parse f params stream =>
      exact lasts_tagged ((Engine.growing_level defs n).parse f .this) ⟨stream, .ofParams params, σ⟩
  | @request a => exact lasts_request defs n a σ

private theorem Session.grown (session : Session defs n σ σ') : σ.Grown σ' := by
  induction session with
  | refl => exact .refl σ
  | tail _ step ih => exact ih.trans step.grown

/-! ### What is known has its provenance -/

private theorem Sound.self_similar (sound : Sound l σ) {h : Handle}
    (inside : h < σ.entries.length) :
    Similar σ σ h h := by
  have there : σ.members? h = some (σ.entries[h]).members := by
    rw [LazyStore.members?, List.getElem?_eq_getElem inside, Option.map_some]
  exact sound.similar there

private theorem Sound.matches_self (sound : Sound l σ) (grown : σ.Grown σ') {v : Value}
    (inside : v.Inside σ) : v.Matches (Similar σ σ') v :=
  inside.matches_self fun _ inside => (sound.self_similar inside).grown (.refl σ) grown

private theorem OutcomesMatch.sound {ε S α : Type} [HoldsStore S] [Refusal ε] {q : Setting}
    {A : Likeness α}
    {r r' : EStateM.Result ε S α} (outcomes : OutcomesMatch q A r r') :
    Sound q.toLineage (store (ending r)) := by
  cases outcomes with
  | ok _ ends => exact ends.left
  | error _ ends => exact ends.left

/-- A request comes to the same in a store and in a later one, if it leaves no mark. -/
private theorem requests_meet (uniform : defs.Uniform) (sound : Sound ⟨defs, mark⟩ σ)
    (sound' : Sound ⟨defs, mark⟩ σ') (grown : σ.Grown σ') {a : Request}
    (inside : ∀ v ∈ a.given, v.Inside σ) (uncut : Uncut defs n fun e => a.run e.resolver σ)
    (uncut' : Uncut defs n fun e => a.run e.resolver σ')
    (clear : (ending (a.run (Engine.level defs n).resolver σ)).Clear mark)
    (clear' : (ending (a.run (Engine.level defs n).resolver σ')).Clear mark) :
    ∃ most, OutcomesMatch (Lineage.upTo ⟨defs, mark⟩ most) .response
      (a.run (Engine.level defs n).resolver σ) (a.run (Engine.level defs n).resolver σ') := by
  have same : a.run (Engine.above defs (.tripwire mark) n).resolver σ =
      a.run (Engine.level defs n).resolver σ := uncut (.tripwire mark)
  have same' : a.run (Engine.above defs (.tripwire mark) n).resolver σ' =
      a.run (Engine.level defs n).resolver σ' := uncut' (.tripwire mark)
  rw [← same] at clear ⊢
  rw [← same'] at clear' ⊢
  exact ⟨_, (a.concurs_run (w := .pair σ σ') (Lineage.matches (l := ⟨defs, mark⟩) uniform _ n
    n).resolver fun v given => sound.matches_self grown (inside v given)).meets (.refl _)
      ⟨sound, sound', trivial⟩ ⟨clear, clear', _, rfl, Nat.le_refl _⟩⟩

private theorem parses_meet (uniform : defs.Uniform) (sound : Sound ⟨defs, mark⟩ σ) {f : Format}
    {params : Record Value} {stream : Stream} (known : f.Uniform)
    (inside : Value.FieldsInside σ params)
    (uncut : Uncut defs n fun e => f.parseStream e params stream σ)
    (clear : (store (ending (f.parseStream (.level defs n) params stream σ))).Clear mark) :
    ∃ most, OutcomesMatch (Lineage.upTo ⟨defs, mark⟩ most) .value
      (f.parseStream (.level defs n) params stream σ)
      (f.parseStream (.level defs n) params stream σ) := by
  have same : f.parseStream (.above defs (.tripwire mark) n) params stream σ =
      f.parseStream (.level defs n) params stream σ := uncut (.tripwire mark)
  rw [← same] at clear ⊢
  have contexts : Context.Matches (Similar σ σ) (.ofParams params) (.ofParams params) :=
    .cons (inside.matches_self fun _ inside => sound.self_similar inside) .nil
  exact ⟨_, (Run.concurs_tagged ((Lineage.matches (l := ⟨defs, mark⟩) uniform _ n n).parse
    (w := .pair σ σ) f (fun _ => known) .this)).meets (s := ⟨stream, .ofParams params, σ⟩)
      (t := ⟨stream, .ofParams params, σ⟩) (.refl _) ⟨sound, sound, rfl, contexts⟩
        ⟨clear, clear, _, rfl, Nat.le_refl _⟩⟩

/-- A step that leaves no mark leaves a sound store. -/
private theorem Proceeds.sound (uniform : defs.Uniform) (step : Proceeds defs n σ σ')
    (sound : Sound ⟨defs, mark⟩ σ) (clear : σ'.Clear mark) : Sound ⟨defs, mark⟩ σ' := by
  cases step with
  | parse known inside uncut =>
      obtain ⟨most, outcomes⟩ := parses_meet uniform sound known inside uncut clear
      exact outcomes.sound
  | request inside uncut =>
      obtain ⟨most, outcomes⟩ := requests_meet uniform sound sound (.refl σ) inside uncut uncut
        clear clear
      exact outcomes.sound

private theorem sound_empty : Sound l .empty :=
  .intro (fun _ _ known => nomatch known) (fun _ _ known => nomatch known)
    fun _ _ _ _ _ known => nomatch known

private theorem Session.sound (uniform : defs.Uniform) (session : Session defs n .empty σ)
    (clear : σ.Clear mark) : Sound ⟨defs, mark⟩ σ := by
  induction session with
  | refl => exact sound_empty
  | tail _ step ih => exact step.sound uniform (ih (clear.earlier step.grown)) clear

/-! ### Marks that are in no store -/

private theorem LazyStore.exists_clear (σ τ : LazyStore) : ∃ mark, σ.Clear mark ∧ τ.Clear mark := by
  let held := (σ.entries ++ τ.entries).map fun entry => entry.members.data
  -- A byte string that is longer than all of these together is none of them.
  have longer : ∀ data ∈ held, data ≠ 0 :: held.flatten := by
    rintro data mem rfl
    have short := (List.sublist_flatten_of_mem mem).length_le
    rw [List.length_cons] at short
    omega
  refine ⟨0 :: held.flatten, fun h m known => longer _ ?_, fun h m known => longer _ ?_⟩
  all_goals
    obtain ⟨entry, here, rfl⟩ := Option.map_eq_some_iff.mp known
    refine List.mem_map_of_mem (List.mem_append.mpr ?_)
  · exact .inl (List.mem_of_getElem? here)
  · exact .inr (List.mem_of_getElem? here)

/-! ## Sizes that are evaluated again -/

/-- A state that arises in a session: what is known of lazy members has its provenance, and the
frames hold no others. -/
structure State.Arises (defs : Definitions) (s : State) : Prop where
  sound : ∀ mark, s.store.Clear mark → Sound ⟨defs, mark⟩ s.store
  inside : ∀ frame ∈ s.context.frames, Value.FieldsInside s.store frame

theorem Session.arises (uniform : defs.Uniform) (session : Session defs n .empty σ)
    {ctx : Context} (inside : ∀ frame ∈ ctx.frames, Value.FieldsInside σ frame)
    (stream : Stream) : State.Arises defs ⟨stream, ctx, σ⟩ :=
  ⟨fun _ => session.sound uniform, inside⟩

/-- The size can be evaluated again: the functions of the caller treat all handles alike, the
state arises in a session, and neither evaluation is cut off. -/
structure Repeatable (defs : Definitions) (n : Nat) (x : Expr) (path : Path) (s : State) :
    Prop where
  definitions : defs.Uniform
  expression : x.Uniform
  arises : s.Arises defs
  uncut : Uncut defs n fun e => e.evalSize x path s
  uncut' : ∀ k s', (Engine.level defs n).evalSize x path s = .ok k s' →
    Uncut defs n fun e => e.evalSize x path s'

/-- Evaluating a literal asks no lazy member. -/
theorem Repeatable.literal (uniform : defs.Uniform) {k : Nat} {path : Path} {s : State}
    (arises : s.Arises defs) (small : k ≤ Value.maxSize) :
    Repeatable defs n (.const (.int k)) path s where
  definitions := uniform
  expression := trivial
  arises := arises
  uncut _ := (Codec.evalSize_const _ path s small).trans
    (Codec.evalSize_const _ path s small).symm
  uncut' _ s' _ _ := (Codec.evalSize_const _ path s' small).trans
    (Codec.evalSize_const _ path s' small).symm

theorem Repeatable.again {x : Expr} {path : Path} {s s' : State} {k : Nat}
    (h : Repeatable defs n x path s) (ran : (Engine.level defs n).evalSize x path s = .ok k s') :
    ∃ s'', (Engine.level defs n).evalSize x path s' = .ok k s'' := by
  have uncut' := h.uncut' k s' ran
  have looks := (Engine.level defs n).looks_evalSize x path s
  rw [Run.after_of_ok ran] at looks
  have grown : s.store.Grown s'.store := by
    have alone := Setting.not_compares ⟨defs, []⟩
    have lasts := (Engine.concurs_evalSize (w := .apart)
      ((Engine.growing_level defs n).concurs alone) (fun _ => h.expression) path).left s
    rw [ran] at lasts
    exact lasts
  obtain ⟨mark, clear, clear'⟩ := LazyStore.exists_clear s'.store
    (store (ending ((Engine.level defs n).evalSize x path s')))
  have same : (Lineage.engine ⟨defs, mark⟩ n).evalSize x path s = .ok k s' :=
    (h.uncut (.tripwire mark)).trans ran
  have same' : (Lineage.engine ⟨defs, mark⟩ n).evalSize x path s' =
      (Engine.level defs n).evalSize x path s' := uncut' (.tripwire mark)
  rw [← same'] at clear' ⊢
  have sound := h.arises.sound mark (clear.earlier grown)
  have frames (τ : LazyStore) (on : s.store.Grown τ) :
      s.context.Matches (Similar s.store τ) s.context :=
    List.forall₂_same.mpr fun frame mem => (h.arises.inside frame mem).matches_self
      fun _ inside => (sound.self_similar inside).grown (.refl _) on
  have concur (most : Nat) (w : World) : Concurs (Lineage.upTo ⟨defs, mark⟩ most) w .same
      ((Lineage.engine ⟨defs, mark⟩ n).evalSize x path)
      ((Lineage.engine ⟨defs, mark⟩ n).evalSize x path) :=
    Engine.concurs_evalSize (Lineage.matches (l := ⟨defs, mark⟩) h.definitions most n n)
      (fun _ => h.expression) path
  -- The first evaluation leaves a sound store, from which the second one does as the first did.
  have sound' : Sound ⟨defs, mark⟩ s'.store := by
    have once := (concur _ (.pair s.store s.store)).meets (s := s) (t := s) (.refl _)
      ⟨sound, sound, rfl, frames _ (.refl _)⟩
      ⟨by rw [same]; exact clear, by rw [same]; exact clear, _, rfl, Nat.le_refl _⟩
    rw [same] at once
    exact once.sound
  have twice := (concur _ (.pair s.store s'.store)).meets (s := s) (t := s') (.refl _)
    ⟨sound, sound', looks.1.symm, looks.2 ▸ frames _ grown⟩
    ⟨by rw [same]; exact clear, clear', _, rfl, Nat.le_refl _⟩
  rw [same] at twice
  generalize (Lineage.engine ⟨defs, mark⟩ n).evalSize x path s' = result at twice
  cases twice with
  | ok equal _ => exact ⟨_, by rw [equal]⟩

/-! ## The order of requests -/

/-- Once a member of a structure or sequence was found, the named ones before it are known. -/
private theorem Session.known_before (uniform : defs.Uniform) (session : Session defs n .empty σ)
    {h : Handle} {m : Members} {i j : Nat} {v : Value} {slot : Slot}
    (members : σ.members? h = some m) (chained : m.chained = true)
    (run : (Engine.level defs n).resolver.resolve h i σ = .ok v τ) (less : j < i)
    (here : m.slots[j]? = some slot) (named : slot.name ≠ none) : (τ.cached? h j).isSome := by
  have run : Lookup.resolve (Engine.level defs n).parse h i σ = .ok v τ := run
  cases known : σ.cached? h i with
  | some w =>
      -- It was found before, by a run that is accounted for.
      rw [Codec.resolve_of_cached members known] at run
      cases run
      obtain ⟨mark, clear, -⟩ := LazyStore.exists_clear σ σ
      exact (session.sound uniform clear).known_before members chained known less here named
  | none =>
      -- It is found now, by walking up to it.
      rw [Codec.resolve_of_uncached members chained known] at run
      exact known_of_chain (Engine.growing_level defs n).parse members List.drop_zero run
        (Nat.zero_le j) (by rwa [Nat.zero_add]) here named

/-- The order in which lazy members are read does not matter.  A request comes to a matching
response or a matching failure whatever was done since; what is known of a member stays as it is,
so no less is resolved later; and once a member of a structure or sequence was found, the named
ones before it are known. -/
theorem Session.order_irrelevant (uniform : defs.Uniform) (session : Session defs n .empty σ)
    (later : Session defs n σ σ') :
    (∀ a : Request, (∀ v ∈ a.given, v.Inside σ) → (Uncut defs n fun e => a.run e.resolver σ) →
      (Uncut defs n fun e => a.run e.resolver σ') →
      ResponsesMatch (a.run (Engine.level defs n).resolver σ)
        (a.run (Engine.level defs n).resolver σ')) ∧
    (∀ h i v, σ.cached? h i = some v → σ'.cached? h i = some v) ∧
    (∀ h, σ.resolved h ≤ σ'.resolved h) ∧
    (∀ h m i v τ, σ'.members? h = some m → m.chained = true →
      (Engine.level defs n).resolver.resolve h i σ' = .ok v τ →
      ∀ j < i, ∀ slot, m.slots[j]? = some slot → slot.name ≠ none → (τ.cached? h j).isSome) := by
  have grown := later.grown
  refine ⟨fun a inside uncut uncut' => ?_, fun h i v => grown.cached, grown.resolved_le, ?_⟩
  · have step := lasts_request defs n a σ
    have step' := lasts_request defs n a σ'
    obtain ⟨mark, clear, clear'⟩ := LazyStore.exists_clear
      (ending (a.run (Engine.level defs n).resolver σ))
      (ending (a.run (Engine.level defs n).resolver σ'))
    obtain ⟨most, outcomes⟩ := requests_meet uniform (session.sound uniform (clear.earlier step))
      (Session.sound uniform (session.trans later) (clear'.earlier step')) grown inside uncut uncut'
      clear clear'
    generalize a.run (Engine.level defs n).resolver σ = r at outcomes
    generalize a.run (Engine.level defs n).resolver σ' = r' at outcomes
    cases outcomes with
    | ok matched _ => exact .ok matched
    | error failures _ => exact .error failures
  · intro h m i v τ members chained run j less slot here named
    exact Session.known_before uniform (session.trans later) members chained run less here named

end

/-- The store behind two flags that are read lazily, with what was found of them. -/
def LazyStore.twoFlags (found : List (Nat × Value)) : LazyStore :=
  ⟨[⟨⟨[1, 0], 0, (Context.ofParams []).push [],
    [⟨some "a", 0, .named "a" .flag, Path.this.member "a", none, none⟩,
      ⟨some "b", 1, .named "b" .flag, Path.this.member "b", none, none⟩], true⟩, found⟩]⟩

/-- The second of two flags is read first. -/
theorem Session.order_irrelevant_flags :
    let σ : LazyStore := .twoFlags []
    let σ' : LazyStore := .twoFlags [(1, .bool false), (0, .bool true)]
    Session [] 3 .empty σ ∧ Session [] 3 σ σ' ∧
      ResponsesMatch ((Request.member 0 "a").run (Engine.level [] 3).resolver σ)
        ((Request.member 0 "a").run (Engine.level [] 3).resolver σ') ∧
      σ'.resolved 0 = 2 ∧ (σ'.cached? 0 0).isSome := by
  intro σ σ'
  have uniform : Definitions.Uniform [] := fun _ => trivial
  let pair : Format := .lazyStruct [.named "a" .flag, .named "b" .flag]
  have known : pair.Uniform := ⟨trivial, ⟨trivial, trivial⟩, ⟨trivial, trivial⟩, trivial⟩
  have empty : Value.FieldsInside .empty [] := trivial
  have parsed : Settles [] 3 (fun e => pair.parseStream e [] (.memory [1, 0]) .empty)
        (.ok (.lazyContainer 0 ["a", "b"]) ⟨(Stream.memory [1, 0]).setPos 2, .ofParams [], σ⟩) :=
    fun _ => rfl
  have session : Session [] 3 .empty σ := by
    have step := Proceeds.parse known empty parsed.uncut
    rw [parsed.level] at step
    exact .single step
  have inside : ∀ name, ∀ v ∈ (Request.member 0 name).given, v.Inside σ := by
    intro name v given
    cases List.mem_singleton.mp given
    exact Nat.zero_lt_one
  have second : Settles [] 3 (fun e => (Request.member 0 "b").run e.resolver σ)
      (.ok (.value (.bool false)) σ') := fun _ => rfl
  have later : Session [] 3 σ σ' := by
    have step := Proceeds.request (inside "b") second.uncut
    rw [second.level] at step
    exact .single step
  have first : Settles [] 3 (fun e => (Request.member 0 "a").run e.resolver σ)
      (.ok (.value (.bool true)) (.twoFlags [(0, .bool true)])) := fun _ => rfl
  have again : Settles [] 3 (fun e => (Request.member 0 "a").run e.resolver σ')
      (.ok (.value (.bool true)) σ') := fun _ => rfl
  have found : Settles [] 3 (fun e => e.resolver.resolve 0 1 σ') (.ok (.bool false) σ') :=
    fun _ => rfl
  obtain ⟨responses, -, -, before⟩ := Session.order_irrelevant uniform session later
  exact ⟨session, later, responses _ (inside "a") first.uncut again.uncut, rfl,
    before 0 _ 1 _ _ rfl rfl found.level 0 Nat.zero_lt_one _ rfl (by decide)⟩

end BinaryFormat
