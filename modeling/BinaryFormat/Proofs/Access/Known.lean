import BinaryFormat.Proofs.Access.Expressions

/-!
# Members that are known

What was found of a member by one run matches what was found of it by another, of
whatever levels the engines were: the member is the same, the contexts show members
before it that match, and both runs were shorter than what has been found since.
-/

namespace BinaryFormat

/-! ## Parsing a member -/

/-- What an engine parses makes the store grow. -/
def Engine.Lasting (e : Engine) : Prop := ∀ f path, Lasts (e.parse f path)

/-- Two engines parse alike whatever treats matching values alike. -/
def Engine.ParsesAlike (q : Setting) (e e' : Engine) : Prop :=
  ∀ {w : World} (f : Format), (q.Compares → f.Uniform) → ∀ path,
    Concurs q w .value (e.parse f path) (e'.parse f path)

/-- A run over a stream and in a context of its own, of which only the result matters. -/
def Lookup.detached {α : Type} (stream : Stream) (ctx : Context) (x : Run α) : Lookup Failure α :=
  fun σ =>
    match x ⟨stream, ctx, σ⟩ with
    | .ok a s => .ok a s.store
    | .error e s => .error e s.store

section

variable {q : Setting} {w : World} {α : Type} {A : Likeness α} {x y : Run α} {stream : Stream}
  {ctx ctx' : Context} {e e' : Engine} {slot slot' : Slot} {R : Handle → Handle → Prop}

private theorem store_ending_detached (σ : LazyStore) :
    ending (Lookup.detached stream ctx x σ) = store (ending (x ⟨stream, ctx, σ⟩)) := by
  unfold Lookup.detached
  cases x ⟨stream, ctx, σ⟩ <;> rfl

private theorem lasts_detached (lasts : Lasts x) : Lasts (Lookup.detached stream ctx x) := by
  intro σ
  rw [store_ending_detached]
  exact lasts ⟨stream, ctx, σ⟩

private theorem concurs_detached (h : Concurs q w A x y) (contexts : ctx.Matches w.Related ctx') :
    Concurs q w A (Lookup.detached stream ctx x) (Lookup.detached stream ctx' y) := by
  refine ⟨lasts_detached h.left, lasts_detached h.right, fun {σ τ} here meeting allowed => ?_⟩
  rw [store_ending_detached, store_ending_detached] at allowed
  have outcomes := h.meets (s := ⟨stream, ctx, σ⟩) (t := ⟨stream, ctx', τ⟩) here
    ⟨meeting.left, meeting.right, rfl, contexts.mono here.related⟩ allowed
  unfold Lookup.detached
  generalize x ⟨stream, ctx, σ⟩ = r at outcomes
  generalize y ⟨stream, ctx', τ⟩ = r' at outcomes
  cases outcomes with
  | ok related ends => exact .ok related ⟨ends.left, ends.right, trivial⟩
  | error faults ends => exact .error faults ⟨ends.left, ends.right, trivial⟩

/-- The context in which a member is parsed, where it stands in a context. -/
def Slot.indexed (slot : Slot) (ctx : Context) : Context :=
  match slot.index with
  | some i => ctx.insert "_index" (.ofNat i)
  | none => ctx

private theorem Slot.parse_eq_detached (parse : Format → Path → Run Value) (slot : Slot)
    (data : List UInt8) (base : Nat) (ctx : Context) :
    slot.parse parse data base ctx =
      Lookup.detached (.medium ⟨.snapshot base, data, slot.offset⟩) (slot.indexed ctx)
        (Run.tagged (parse slot.format slot.path)) := by
  funext σ
  unfold Slot.parse Lookup.detached Slot.indexed
  cases slot.index with
  | none =>
      dsimp only
      cases Run.tagged (parse slot.format slot.path) ⟨_, ctx, σ⟩ <;> rfl
  | some i =>
      dsimp only
      cases Run.tagged (parse slot.format slot.path) ⟨_, ctx.insert "_index" (.ofNat i), σ⟩ <;> rfl

private theorem Slot.Matches.indexed (same : slot.Matches R slot')
    (contexts : ctx.Matches w.Related ctx') :
    (slot.indexed ctx).Matches w.Related (slot'.indexed ctx') := by
  unfold Slot.indexed
  rw [same.index]
  cases slot'.index with
  | none => exact contexts
  | some i => exact contexts.insert "_index" (Value.matches_ofNat i)

theorem lasts_tagged (lasts : Lasts x) : Lasts (Run.tagged x) := by
  intro s
  have grown := lasts s
  unfold Run.tagged
  cases run : x s <;> rw [run] at grown <;> exact grown

theorem lasts_slot_parse (lasting : e.Lasting) (slot : Slot) (data : List UInt8) (base : Nat)
    (ctx : Context) : Lasts (slot.parse e.parse data base ctx) := by
  rw [Slot.parse_eq_detached]
  exact lasts_detached (lasts_tagged (lasting slot.format slot.path))

theorem concurs_slot_parse (alike : Engine.ParsesAlike q e e')
    (uniform : q.Compares → slot.format.Uniform) (same : slot.Matches R slot')
    (contexts : ctx.Matches w.Related ctx') (data : List UInt8) (base : Nat) :
    Concurs q w .value (slot.parse e.parse data base ctx)
      (slot'.parse e'.parse data base ctx') := by
  rw [Slot.parse_eq_detached, Slot.parse_eq_detached, ← same.offset, ← same.format, ← same.path]
  exact concurs_detached (Run.concurs_tagged (alike slot.format uniform slot.path))
    (same.indexed contexts)

end

/-! ## Slots at an index -/

theorem List.Forall₂.getElem? {α β : Type} {P : α → β → Prop} {as : List α} {bs : List β}
    (h : List.Forall₂ P as bs) (i : Nat) : Option.Rel P as[i]? bs[i]? := by
  induction h generalizing i with
  | nil => exact .none
  | cons first _ ih =>
      cases i with
      | zero => exact .some first
      | succ i => exact ih i

theorem Members.Matches.slot {R : Handle → Handle → Prop} {m m' : Members} {i : Nat}
    {slot slot' : Slot} (matched : m.Matches R m') (here : m.slots[i]? = some slot)
    (there : m'.slots[i]? = some slot') : slot.Matches R slot' := by
  have related := List.Forall₂.getElem? matched.slots i
  rw [here, there] at related
  cases related with
  | some same => exact same

theorem Similar.members_match {σ τ : LazyStore} {h k : Handle} {m m' : Members}
    (similar : Similar σ τ h k) (here : σ.members? h = some m) (there : τ.members? k = some m') :
    m.Matches (Similar σ τ) m' := by
  obtain ⟨n, n', here', there', matched⟩ := similar.members
  rw [here] at here'
  rw [there] at there'
  cases here'
  cases there'
  exact matched

/-! ## Provenance and matching -/

namespace Lineage

variable (l : Lineage)

/-- The setting in which runs that find so much are compared. -/
def upTo (most : Nat) : Setting := ⟨l, some most⟩

/-- Engines of all levels parse alike, as far as no more is found. -/
def Agrees (most : Nat) : Prop :=
  ∀ n n', Engine.ParsesAlike (l.upTo most) (l.engine n) (l.engine n')

end Lineage

section

variable {l : Lineage} {most : Nat}

/-- Values that were found of one member match. -/
def ValuesMatch (l : Lineage) (most i : Nat) : Prop :=
  ∀ {σ σ' τ τ' : LazyStore} {h k : Handle} {v v' : Value}, Genuine l σ h i v → Genuine l τ k i v' →
    σ.Grown σ' → τ.Grown τ' → Similar σ' τ' h k → σ'.Clear l.mark → τ'.Clear l.mark →
    σ.size + τ.size ≤ most → v.Matches (Similar σ' τ') v'

/-- The contexts that a member sees match if the values of the members before it do. -/
theorem Seen.matches : ∀ {i : Nat} {σ τ : LazyStore} {h k : Handle} {m m' : Members}
    {ctx ctx' : Context}, (∀ j < i, ValuesMatch l most j) → Seen l σ h m i ctx →
      Seen l τ k m' i ctx' → σ.members? h = some m → τ.members? k = some m' → Similar σ τ h k →
      σ.Clear l.mark → τ.Clear l.mark → σ.size + τ.size ≤ most →
        ctx.Matches (Similar σ τ) ctx' := by
  intro i
  -- By the number of members in front: a member sees what the one before it saw, and that one if it
  -- has a name.
  induction i with
  | zero =>
      intro σ τ h k m m' ctx ctx' _ seen seen' here there similar _ _ _
      have matched := similar.members_match here there
      cases seen <;> cases seen' <;> exact matched.context
  | succ i ih =>
      intro σ τ h k m m' ctx ctx' below seen seen' here there similar clear clear' within
      have matched := similar.members_match here there
      have before : ∀ {ctx ctx'}, Seen l σ h m i ctx → Seen l τ k m' i ctx' →
          ctx.Matches (Similar σ τ) ctx' := fun seen seen' =>
        ih (fun j less => below j (Nat.lt_succ_of_lt less)) seen seen' here there similar clear
          clear' within
      cases seen with
      | unchained _ free =>
          have free' := matched.chained.symm.trans free
          cases seen' with
          | unchained => exact matched.context
          | unnamed _ chained | named _ chained => exact absurd chained (by simp [free'])
      | unnamed earlier chained at_i nameless =>
          have chained' := matched.chained.symm.trans chained
          cases seen' with
          | unchained _ free => exact absurd free (by simp [chained'])
          | unnamed earlier' => exact before earlier earlier'
          | named _ _ at_i' called =>
              have same := (matched.slot at_i at_i').name
              rw [nameless, called] at same
              cases same
      | named earlier chained at_i called value =>
          have chained' := matched.chained.symm.trans chained
          cases seen' with
          | unchained _ free => exact absurd free (by simp [chained'])
          | unnamed _ _ at_i' nameless =>
              have same := (matched.slot at_i at_i').name
              rw [called, nameless] at same
              cases same
          | named earlier' _ at_i' called' value' =>
              have same := (matched.slot at_i at_i').name
              rw [called, called'] at same
              cases same
              exact (before earlier earlier').insert _ (below i (Nat.lt_succ_self i) value value'
                (.refl σ) (.refl τ) similar clear clear' within)

theorem Sound.similar {σ : LazyStore} {h : Handle} {m : Members} (sound : Sound l σ)
    (here : σ.members? h = some m) : Similar σ σ h h := by
  obtain ⟨similar, -, -⟩ := sound
  exact similar h m here

private theorem matches_of_runs {σ σ' τ τ' : LazyStore} {h k : Handle} {m m' : Members}
    {i n n' : Nat}
    {slot slot' : Slot} {ctx ctx' : Context} {v v' : Value} (agrees : l.Agrees (σ'.size + τ'.size))
    (sound : Sound l σ) (sound' : Sound l τ) (similar : Similar σ τ h k)
    (members : σ.members? h = some m) (members' : τ.members? k = some m')
    (here : m.slots[i]? = some slot) (there : m'.slots[i]? = some slot')
    (contexts : ctx.Matches (Similar σ τ) ctx') (clear : σ'.Clear l.mark) (clear' : τ'.Clear l.mark)
    (run : slot.parse (l.engine n).parse m.data m.base ctx σ = .ok v σ')
    (run' : slot'.parse (l.engine n').parse m'.data m'.base ctx' τ = .ok v' τ') :
    v.Matches (Similar σ' τ') v' := by
  have matched := similar.members_match members members'
  rw [← matched.data, ← matched.base] at run'
  have concur := concurs_slot_parse (w := .pair σ τ) (agrees n n')
    (fun _ => matched.uniform slot (List.mem_of_getElem? here)) (matched.slot here there) contexts
    m.data m.base
  have outcomes := concur.meets (s := σ) (t := τ) (.refl _) ⟨sound, sound', trivial⟩
  rw [run, run'] at outcomes
  cases outcomes ⟨clear, clear', _, rfl, Nat.le_refl _⟩ with
  | ok related => exact related

/-- What was found of one member by any two runs matches. -/
theorem valuesMatch_of_agrees (agrees : ∀ less ≤ most, l.Agrees less) (i : Nat) :
    ValuesMatch l most i := by
  -- The members in front are settled, so two runs of this one have started from contexts that
  -- match.
  induction i using Nat.strong_induction_on with
  | _ i ih =>
      intro σ σ' τ τ' h k v v' genuine genuine' left right similar clear clear' within
      -- The slots match: either both members were parsed on the spot, or both were found by a run.
      cases genuine with
      | @scanned _ _ m _ slot _ members here cache =>
          have matched := fun {m' : Members} (members' : τ'.members? k = some m') =>
            similar.members_match (left.members members) members'
          cases genuine' with
          | @scanned _ _ m' _ slot' _ members' here' cache' =>
              have caches := ((matched (right.members members')).slot here here').cache
              rw [cache, cache'] at caches
              cases caches with
              | some same => exact same
          | @ran _ _ _ _ m' _ _ slot' _ _ _ members' here' cache' _ _ since later =>
              have grown := (since.trans later).trans right
              have caches := ((matched (grown.members members')).slot here here').cache
              rw [cache, cache'] at caches
              cases caches
      | @ran _ σ₀ σ₁ _ m _ n slot ctx _ sound members here cache seen run since later =>
          have grown := (since.trans later).trans left
          have matched := fun {m' : Members} (members' : τ'.members? k = some m') =>
            similar.members_match (grown.members members) members'
          cases genuine' with
          | @scanned _ _ m' _ slot' _ members' here' cache' =>
              have caches := ((matched (right.members members')).slot here here').cache
              rw [cache, cache'] at caches
              cases caches
          | @ran _ τ₀ τ₁ _ m' _ n' slot' ctx' _ sound' members' here' cache' seen' run' since'
              later' =>
              have grown' := (since'.trans later').trans right
              have before : Similar σ₀ τ₀ h k :=
                similar.earlier grown grown' (sound.similar members) (sound'.similar members')
              have shorter := later.size
              have shorter' := later'.size
              have shorter₀ := since.size
              have shorter₀' := since'.size
              have contexts := Seen.matches ih seen seen' members members' before
                (clear.earlier grown) (clear'.earlier grown') (by omega)
              exact (matches_of_runs (agrees _ (by omega)) sound sound' before members members'
                here here' contexts (clear.earlier (later.trans left))
                (clear'.earlier (later'.trans right)) run run').mono fun _ _ similar =>
                  similar.grown (later.trans left) (later'.trans right)

end

end BinaryFormat
