import BinaryFormat.Codec.Envelope
import BinaryFormat.Proofs.Access.Provenance

/-!
# Runs that concur

Two runs concur if, wherever they start from states that match and have come from a
given pair of stores, they come to results that match or fail with faults that
match, in states that match again.  This is said of runs that leave no mark and do not
find more than a limit; all runs make their stores grow.
-/

namespace BinaryFormat

/-! ## What states and failures share -/

/-- States that hold a store of lazy members. -/
class HoldsStore (S : Type) where
  store : S → LazyStore
  /-- What else there is matches. -/
  Matches : (Handle → Handle → Prop) → S → S → Prop

export HoldsStore (store)

instance : HoldsStore LazyStore := ⟨id, fun _ _ _ => True⟩

instance : HoldsStore State :=
  ⟨State.store, fun R s t => s.stream = t.stream ∧ s.context.Matches R t.context⟩

/-- Faults and failures. -/
class Refusal (ε : Type) where
  Matches : ε → ε → Prop
  refl : ∀ e, Matches e e

instance : Refusal Fault := ⟨Fault.Matches, .refl⟩

instance : Refusal Failure := ⟨Failure.Matches, .refl⟩

/-- When two results match. -/
structure Likeness (α : Type) where
  Holds : (Handle → Handle → Prop) → α → α → Prop
  mono : ∀ {R S : Handle → Handle → Prop}, (∀ h k, R h k → S h k) →
    ∀ {a b}, Holds R a b → Holds S a b

/-- Where all handles stand for each other, a result matches itself. -/
class Likeness.Reflexive {α : Type} (A : Likeness α) : Prop where
  refl : ∀ a, A.Holds (fun _ _ => True) a a

namespace Likeness

variable {α β : Type} {A : Likeness α} {B : Likeness β}

/-- Results without handles are the same. -/
def same : Likeness α := ⟨fun _ => Eq, fun _ _ _ same => same⟩

def value : Likeness Value := ⟨Value.Matches, fun more _ _ matched => matched.mono more⟩

def items : Likeness (List Value) := ⟨Value.ItemsMatch, fun more _ _ matched => matched.mono more⟩

def fields : Likeness (Record Value) :=
  ⟨Value.FieldsMatch, fun more _ _ matched => matched.mono more⟩

def option (A : Likeness α) : Likeness (Option α) where
  Holds R := Option.Rel (A.Holds R)
  mono more _ _
    | .none => .none
    | .some related => .some (A.mono more related)

def both (A : Likeness α) (B : Likeness β) : Likeness (α × β) where
  Holds R a b := A.Holds R a.1 b.1 ∧ B.Holds R a.2 b.2
  mono more _ _ related := ⟨A.mono more related.1, B.mono more related.2⟩

def result {ε : Type} [Refusal ε] (A : Likeness α) : Likeness (Except ε α) where
  Holds R := ResultsMatch Refusal.Matches (A.Holds R)
  mono more _ _
    | .ok related => .ok (A.mono more related)
    | .error related => .error related

def context : Likeness Context := ⟨Context.Matches, fun more _ _ matched => matched.mono more⟩

def scope : Likeness Scope where
  Holds := Scope.Matches
  mono more _ _ matched := ⟨matched.frames.mono more, (option value).mono more matched.object,
    (option items).mono more matched.list⟩

def slots : Likeness (List Slot) where
  Holds R := List.Forall₂ (Slot.Matches R)
  mono more _ _ matched := matched.imp fun _ _ slot => slot.mono more

/-! ### Reflexivity -/

instance : (same : Likeness α).Reflexive := ⟨fun _ => rfl⟩

instance : value.Reflexive := ⟨Value.matches_self fun _ => trivial⟩

instance : items.Reflexive := ⟨Value.itemsMatch_self fun _ => trivial⟩

instance : fields.Reflexive := ⟨Value.fieldsMatch_self fun _ => trivial⟩

instance [A.Reflexive] : A.option.Reflexive where
  refl
    | none => .none
    | some a => .some (Reflexive.refl a)

instance [A.Reflexive] [B.Reflexive] : (A.both B).Reflexive :=
  ⟨fun a => ⟨Reflexive.refl a.1, Reflexive.refl a.2⟩⟩

instance {ε : Type} [Refusal ε] [A.Reflexive] : (A.result (ε := ε)).Reflexive where
  refl
    | .ok a => .ok (Reflexive.refl a)
    | .error e => .error (Refusal.refl e)

private theorem framesMatch_self (frames : List (Record Value)) :
    FramesMatch (fun _ _ => True) frames frames :=
  List.forall₂_same.mpr fun frame _ => Value.fieldsMatch_self (fun _ => trivial) frame

instance : context.Reflexive := ⟨fun ctx => framesMatch_self ctx.frames⟩

instance : scope.Reflexive := ⟨fun scope => ⟨framesMatch_self scope.frames,
  Reflexive.refl (A := option value) scope.object, Reflexive.refl (A := option items) scope.list⟩⟩

instance : slots.Reflexive := ⟨fun _ => List.forall₂_same.mpr fun slot _ =>
  ⟨rfl, rfl, rfl, rfl, rfl, Reflexive.refl (A := option value) slot.cache⟩⟩

end Likeness

/-! ## Worlds -/

/-- How far two runs have come: to a pair of stores, or apart. -/
inductive World where
  | apart
  | pair (σ τ : LazyStore)

namespace World

/-- Which handles stand for each other; of runs that have come apart nothing is known. -/
def Related : World → Handle → Handle → Prop
  | apart => fun _ _ => True
  | pair σ τ => Similar σ τ

/-- The stores have grown, or the runs have come apart. -/
inductive Leads : World → World → Prop
  | apart (w : World) : Leads w apart
  | grown {σ σ' τ τ' : LazyStore} (left : σ.Grown σ') (right : τ.Grown τ') :
      Leads (pair σ τ) (pair σ' τ')

variable {w w' w'' : World}

theorem Leads.refl : ∀ w : World, w.Leads w
  | .apart => .apart .apart
  | .pair σ τ => .grown (.refl σ) (.refl τ)

theorem Leads.trans (first : w.Leads w') (second : w'.Leads w'') : w.Leads w'' := by
  cases second with
  | apart => exact .apart w
  | grown left right =>
      cases first with
      | grown left' right' => exact .grown (left'.trans left) (right'.trans right)

/-- What is known of the two stores. -/
def Holds (P Q : LazyStore → Prop) : World → Prop
  | apart => True
  | pair σ τ => P σ ∧ Q τ

theorem Leads.holds {P Q : LazyStore → Prop} (later : w.Leads w') (h : w.Holds P Q)
    (left : ∀ {σ σ' : LazyStore}, σ.Grown σ' → P σ → P σ')
    (right : ∀ {τ τ' : LazyStore}, τ.Grown τ' → Q τ → Q τ') : w'.Holds P Q := by
  cases later with
  | apart => trivial
  | grown here there => exact ⟨left here h.1, right there h.2⟩

/-- All handles stand for each other: the runs have come apart. -/
def Total (w : World) : Prop := ∀ h k, w.Related h k

theorem eq_apart_of_total (total : w.Total) : w = apart := by
  cases w with
  | apart => rfl
  | pair σ τ =>
      obtain ⟨m, m', here, -, -⟩ := Similar.members (total σ.entries.length 0)
      exact absurd (LazyStore.lt_of_members here) (Nat.lt_irrefl _)

theorem Leads.related (later : w.Leads w') : ∀ h k, w.Related h k → w'.Related h k := by
  intro h k related
  cases later with
  | apart => trivial
  | grown left right => exact related.grown left right

theorem Leads.total (later : w.Leads w') (total : w.Total) : w'.Total :=
  fun h k => later.related h k (total h k)

theorem Leads.not_total {σ τ : LazyStore} (later : w.Leads (.pair σ τ)) : ¬ w.Total := by
  intro total
  cases eq_apart_of_total (later.total total)

end World

/-- Matching results of which something is known, unless the runs have come apart. -/
def Likeness.such {α : Type} (A : Likeness α) (P : α → Prop) : Likeness α where
  Holds R a b := A.Holds R a b ∧ ((∀ h k, R h k) ∨ P a ∧ P b)
  mono more _ _ related :=
    ⟨A.mono more related.1, related.2.imp_left fun total h k => more h k (total h k)⟩

instance {α : Type} {A : Likeness α} {P : α → Prop} [A.Reflexive] : (A.such P).Reflexive :=
  ⟨fun a => ⟨Likeness.Reflexive.refl a, .inl fun _ _ => trivial⟩⟩

/-- Handles that stand for each other. -/
def Likeness.handle : Likeness Handle := ⟨fun R => R, fun more _ _ related => more _ _ related⟩

instance : Likeness.handle.Reflexive := ⟨fun _ => trivial⟩

/-! ## Concurring runs -/

section

variable {ε S α β : Type} [HoldsStore S] [Refusal ε]

/-- The state in which a run ends. -/
def ending : EStateM.Result ε S α → S
  | .ok _ s | .error _ s => s

/-- A run that makes the store grow. -/
def Lasts (x : EStateM ε S α) : Prop := ∀ s, (store s).Grown (store (ending (x s)))

/-- Matching states with all that is known accounted for. -/
structure Meeting (q : Setting) (s t : S) : Prop where
  left : Sound q.toLineage (store s)
  right : Sound q.toLineage (store t)
  states : HoldsStore.Matches (Similar (store s) (store t)) s t

/-- Matching results or matching failures, in matching states. -/
inductive OutcomesMatch (q : Setting) (A : Likeness α) :
    EStateM.Result ε S α → EStateM.Result ε S α → Prop
  | ok {a b : α} {s t : S} (related : A.Holds (Similar (store s) (store t)) a b)
      (ends : Meeting q s t) : OutcomesMatch q A (.ok a s) (.ok b t)
  | error {e f : ε} {s t : S} (faults : Refusal.Matches e f) (ends : Meeting q s t) :
      OutcomesMatch q A (.error e s) (.error f t)

/-- Runs that have matching outcomes from matching states, once they have come to a world. -/
structure Concurs (q : Setting) (w : World) (A : Likeness α) (x y : EStateM ε S α) : Prop where
  left : Lasts x
  right : Lasts y
  meets : ∀ {s t : S}, w.Leads (.pair (store s) (store t)) → Meeting q s t →
    q.Allows (store (ending (x s))) (store (ending (y t))) → OutcomesMatch q A (x s) (y t)

variable {q : Setting} {w : World} {A : Likeness α} {B : Likeness β} {x y : EStateM ε S α}
  {f g : α → EStateM ε S β}

omit [Refusal ε] in
theorem Lasts.bind (h : Lasts x) (next : ∀ {s a s'}, x s = .ok a s' → Lasts (f a)) :
    Lasts (x >>= f) := by
  intro s
  have first := h s
  cases run : x s with
  | ok a s' =>
      rw [Run.bind_of_ok run]
      rw [run] at first
      exact first.trans (next run s')
  | error e s' =>
      rw [Run.bind_of_error run]
      rw [run] at first
      exact first

/-- The runs that follow may rely on what is known of each of the first ones by itself. -/
theorem Concurs.bind_of (h : Concurs q w A x y) (P Q : α → LazyStore → Prop)
    (lasts : ∀ {s a s'}, x s = .ok a s' → Lasts (f a))
    (lasts' : ∀ {t b t'}, y t = .ok b t' → Lasts (g b))
    (left : ∀ {s t a s'}, w.Leads (.pair (store s) (store t)) → Meeting q s t → x s = .ok a s' →
      P a (store s'))
    (right : ∀ {s t b t'}, w.Leads (.pair (store s) (store t)) → Meeting q s t → y t = .ok b t' →
      Q b (store t'))
    (next : ∀ w', w.Leads w' → ∀ a b, A.Holds w'.Related a b → w'.Holds (P a) (Q b) →
      Concurs q w' B (f a) (g b)) :
    Concurs q w B (x >>= f) (y >>= g) := by
  refine ⟨h.left.bind lasts, h.right.bind lasts', ?_⟩
  intro s t here meeting allowed
  -- What follows only makes the stores grow, so the first runs are compared as well.
  have first : q.Allows (store (ending (x s))) (store (ending (y t))) := by
    refine allowed.earlier ?_ ?_
    · cases run : x s with
      | ok a s' => rw [Run.bind_of_ok run]; exact lasts run s'
      | error e s' => rw [Run.bind_of_error run]; exact .refl _
    · cases run : y t with
      | ok b t' => rw [Run.bind_of_ok run]; exact lasts' run t'
      | error e t' => rw [Run.bind_of_error run]; exact .refl _
  have outcomes := h.meets here meeting first
  have grown := h.left s
  have grown' := h.right t
  cases runs : x s with
  | ok a s' =>
      rw [runs] at outcomes grown
      cases runs' : y t with
      | error e t' =>
          rw [runs'] at outcomes
          cases outcomes
      | ok b t' =>
          rw [runs'] at outcomes grown'
          rw [Run.bind_of_ok runs, Run.bind_of_ok runs'] at allowed ⊢
          cases outcomes with
          | ok related ends =>
              exact (next (.pair (store s') (store t')) (here.trans (.grown grown grown')) a b
                related ⟨left here meeting runs, right here meeting runs'⟩).meets (.refl _) ends
                  allowed
  | error e s' =>
      rw [runs] at outcomes
      cases runs' : y t with
      | ok b t' =>
          rw [runs'] at outcomes
          cases outcomes
      | error e' t' =>
          rw [runs'] at outcomes
          rw [Run.bind_of_error runs, Run.bind_of_error runs']
          cases outcomes with
          | error faults ends => exact .error faults ends

theorem Concurs.bind_known [A.Reflexive] (h : Concurs q w A x y) (P Q : α → LazyStore → Prop)
    (left : ∀ {s t a s'}, w.Leads (.pair (store s) (store t)) → Meeting q s t → x s = .ok a s' →
      P a (store s'))
    (right : ∀ {s t b t'}, w.Leads (.pair (store s) (store t)) → Meeting q s t → y t = .ok b t' →
      Q b (store t'))
    (next : ∀ w', w.Leads w' → ∀ a b, A.Holds w'.Related a b → w'.Holds (P a) (Q b) →
      Concurs q w' B (f a) (g b)) :
    Concurs q w B (x >>= f) (y >>= g) := by
  have apart : ∀ a, Concurs q .apart B (f a) (g a) :=
    fun a => next .apart (.apart w) a a (Likeness.Reflexive.refl a) trivial
  exact h.bind_of P Q (fun _ => (apart _).left) (fun _ => (apart _).right) left right next

theorem Concurs.bind [A.Reflexive] (h : Concurs q w A x y)
    (next : ∀ w', w.Leads w' → ∀ a b, A.Holds w'.Related a b → Concurs q w' B (f a) (g b)) :
    Concurs q w B (x >>= f) (y >>= g) :=
  h.bind_known (fun _ _ => True) (fun _ _ => True) (fun _ _ _ => trivial) (fun _ _ _ => trivial)
    fun w' later a b related _ => next w' later a b related

theorem Concurs.bind_option [A.Reflexive] {x y : EStateM ε S (Option α)}
    {f g : Option α → EStateM ε S β} (h : Concurs q w (.option A) x y)
    (found : ∀ w', w.Leads w' → ∀ a b, A.Holds w'.Related a b →
      Concurs q w' B (f (some a)) (g (some b)))
    (missing : ∀ w', Concurs q w' B (f none) (g none)) :
    Concurs q w B (x >>= f) (y >>= g) :=
  h.bind fun w' later _ _ same => by
    cases same with
    | none => exact missing w'
    | some related => exact found w' later _ _ related

/-- If nothing is compared, it is enough that the stores grow. -/
theorem Concurs.when (h : q.Compares → Concurs q w A x y) (apart : Concurs q .apart A x y) :
    Concurs q w A x y :=
  ⟨apart.left, apart.right, fun here meeting allowed =>
    (h allowed.compares).meets here meeting allowed⟩

theorem concurs_apart (left : Lasts x) (right : Lasts y) : Concurs q .apart A x y :=
  ⟨left, right, nofun⟩

theorem Concurs.later {w' : World} (h : Concurs q w A x y) (later : w.Leads w') :
    Concurs q w' A x y :=
  ⟨h.left, h.right, fun here => h.meets (later.trans here)⟩

theorem Concurs.both (h : Concurs q w .same x y)
    (next : ∀ w', w.Leads w' → ∀ a, Concurs q w' B (f a) (g a)) :
    Concurs q w B (x >>= f) (y >>= g) :=
  h.bind fun w' later a _ same => same ▸ next w' later a

theorem concurs_pure {a b : α} (related : A.Holds w.Related a b) :
    Concurs q w A (pure a : EStateM ε S α) (pure b) := by
  exact ⟨fun s => .refl _, fun s => .refl _, fun here meeting _ =>
    .ok (A.mono here.related related) meeting⟩

theorem concurs_throw {e f : ε} (faults : Refusal.Matches e f) :
    Concurs q w A (throw e : EStateM ε S α) (throw f) :=
  ⟨fun _ => .refl _, fun _ => .refl _, fun _ meeting _ => .error faults meeting⟩

theorem concurs_ite {c : Prop} [Decidable c] {x' y' : EStateM ε S α} (h : Concurs q w A x y)
    (h' : Concurs q w A x' y') :
    Concurs q w A (if c then x else x') (if c then y else y') := by
  by_cases holds : c
  · rwa [if_pos holds, if_pos holds]
  · rwa [if_neg holds, if_neg holds]

theorem Concurs.imp {A' : Likeness α} (h : Concurs q w A x y)
    (weaker : ∀ R a b, A.Holds R a b → A'.Holds R a b) : Concurs q w A' x y := by
  refine ⟨h.left, h.right, fun here meeting allowed => ?_⟩
  have outcomes := h.meets here meeting allowed
  generalize x _ = r at outcomes
  generalize y _ = r' at outcomes
  cases outcomes with
  | ok related ends => exact .ok (weaker _ _ _ related) ends
  | error faults ends => exact .error faults ends

/-- A run that starts another one in a state that it has prepared, and hands on what comes of
it. -/
private theorem Concurs.within {S' ε' : Type} [HoldsStore S'] [Refusal ε'] {x' y' : EStateM ε' S' β}
    (h : Concurs q w A x y) (enter : S' → S) (entered : ∀ s, store (enter s) = store s)
    (matched : ∀ {R} {s t : S'}, HoldsStore.Matches R s t →
      HoldsStore.Matches R (enter s) (enter t))
    (left : ∀ s, store (ending (x' s)) = store (ending (x (enter s))))
    (right : ∀ s, store (ending (y' s)) = store (ending (y (enter s))))
    (outcomes : ∀ s t, Meeting q s t → OutcomesMatch q A (x (enter s)) (y (enter t)) →
      OutcomesMatch q B (x' s) (y' t)) : Concurs q w B x' y' := by
  refine ⟨fun s => ?_, fun s => ?_, fun {s t} here meeting allowed => outcomes s t meeting ?_⟩
  · rw [left, ← entered s]
    exact h.left (enter s)
  · rw [right, ← entered s]
    exact h.right (enter s)
  · rw [left, right] at allowed
    refine h.meets ?_ ⟨?_, ?_, ?_⟩ allowed
    · rw [entered, entered]
      exact here
    · rw [entered]
      exact meeting.left
    · rw [entered]
      exact meeting.right
    · rw [entered, entered]
      exact matched meeting.states

end

/-! ## Lookups -/

/-- The slots behind a handle. -/
def LazyStore.slots (σ : LazyStore) (handle : Handle) : List Slot :=
  ((σ.members? handle).map Members.slots).getD []

private theorem Similar.slots {σ τ : LazyStore} {h k : Handle} (similar : Similar σ τ h k) :
    List.Forall₂ (Slot.Matches (Similar σ τ)) (σ.slots h) (τ.slots k) := by
  obtain ⟨m, m', here, there, matched⟩ := similar.members
  rw [LazyStore.slots, LazyStore.slots, here, there]
  exact matched.slots

namespace Lookup

variable {q : Setting} {w : World} {ε α β : Type} [Refusal ε] {A : Likeness α} {B : Likeness β}

theorem concurs_outcome {x y : Lookup ε α} (h : Concurs q w A x y) :
    Concurs q w (.result A) x.outcome y.outcome := by
  have ended : ∀ (x : Lookup ε α) s, ending (x.outcome s) = ending (x s) := by
    intro x s
    unfold Lookup.outcome
    cases x s <;> rfl
  refine h.within id (fun _ => rfl) id (fun s => by rw [ended]; rfl)
    (fun s => by rw [ended]; rfl) ?_
  intro s t _ outcomes
  unfold Lookup.outcome
  simp only [id] at outcomes
  generalize x s = r at outcomes
  generalize y t = r' at outcomes
  cases outcomes with
  | ok related ends => exact .ok (.ok related) ends
  | error faults ends => exact .ok (.error faults) ends

theorem concurs_atPath {x y : Lookup Fault α} (h : Concurs q w A x y) (path : Path) :
    Concurs q w A (x.atPath path) (y.atPath path) := by
  have ended : ∀ (x : Lookup Fault α) s, ending (x.atPath path s) = ending (x s) := by
    intro x s
    unfold Lookup.atPath
    cases x s <;> rfl
  refine h.within id (fun _ => rfl) id (fun s => by rw [ended]; rfl)
    (fun s => by rw [ended]; rfl) ?_
  intro s t _ outcomes
  unfold Lookup.atPath
  simp only [id] at outcomes
  generalize x s = r at outcomes
  generalize y t = r' at outcomes
  cases outcomes with
  | ok related ends => exact .ok related ends
  | error faults ends => exact .error (Fault.Matches.atPath faults path) ends

theorem concurs_unplaced {x y : Lookup Failure α} (h : Concurs q w A x y) :
    Concurs q w A x.unplaced y.unplaced := by
  have ended : ∀ (x : Lookup Failure α) s, ending (x.unplaced s) = ending (x s) := by
    intro x s
    unfold Lookup.unplaced
    cases x s <;> rfl
  refine h.within id (fun _ => rfl) id (fun s => by rw [ended]; rfl)
    (fun s => by rw [ended]; rfl) ?_
  intro s t _ outcomes
  unfold Lookup.unplaced
  simp only [id] at outcomes
  generalize x s = r at outcomes
  generalize y t = r' at outcomes
  cases outcomes with
  | ok related ends => exact .ok related ends
  | error faults ends => exact .error faults.fault ends

theorem concurs_ofExcept {x y : Except ε α}
    (h : ResultsMatch Refusal.Matches (A.Holds w.Related) x y) :
    Concurs q w A (ofExcept x) (ofExcept y) := by
  cases h with
  | ok related => exact concurs_pure related
  | error faults => exact concurs_throw faults

/-- The text of a value depends on what is resolved of it; what comes of the text must not. -/
theorem concurs_dump {v v' : Value} (h : v.Matches w.Related v') {f g : String → Lookup ε α}
    (next : ∀ s s', Value.ShownAlike s s' → Concurs q w A (f s) (g s')) :
    Concurs q w A (dump v >>= f) (dump v' >>= g) where
  left σ := (next _ _ (h.shown σ.resolved σ.resolved)).left σ
  right σ := (next _ _ (h.shown σ.resolved σ.resolved)).right σ
  meets here meeting allowed := (next _ _ (h.shown _ _)).meets here meeting allowed

/-- The slots behind a handle are looked up. -/
def slotsOf (handle : Handle) : Lookup ε (List Slot) := fun σ => .ok (σ.slots handle) σ

theorem concurs_slotsOf {h k : Handle} (related : w.Related h k) :
    Concurs q w .slots (slotsOf h : Lookup ε (List Slot)) (slotsOf k) where
  left _ := .refl _
  right _ := .refl _
  meets here meeting _ := .ok (here.related h k related).slots meeting

theorem concurs_seen {f : List Slot → α} {h k : Handle} (related : w.Related h k)
    (seen : ∀ R slots slots', List.Forall₂ (Slot.Matches R) slots slots' → f slots = f slots') :
    Concurs q w .same (fun σ => .ok (f (σ.slots h)) σ : Lookup ε α)
      (fun σ => .ok (f (σ.slots k)) σ) where
  left _ := .refl _
  right _ := .refl _
  meets here meeting _ := .ok (seen _ _ _ (here.related h k related).slots) meeting

end Lookup

/-! ## Runs -/

namespace Run

variable {q : Setting} {w : World} {α β : Type} {A : Likeness α} {B : Likeness β} {x y : Run α}

theorem concurs_fail {f f' : Fault} (faults : f.Matches f') (path : Path) :
    Concurs q w A (fail f path : Run α) (fail f' path) :=
  concurs_throw (faults.atPath path)

theorem concurs_refused (fault : Fault) (path : Path) :
    Concurs q w A (fail fault path : Run α) (fail fault path) :=
  concurs_fail (.refl fault) path

theorem concurs_ofExcept (path : Path) {r r' : Except Fault α}
    (h : ResultsMatch Fault.Matches (A.Holds w.Related) r r') :
    Concurs q w A (ofExcept path r) (ofExcept path r') := by
  cases h with
  | ok related => exact concurs_pure related
  | error faults => exact concurs_fail faults path

theorem lasts_ofExcept (path : Path) (result : Except Fault α) : Lasts (ofExcept path result) := by
  cases result <;> exact fun _ => .refl _

theorem lasts_settle (result : Except Failure α) : Lasts (settle result) := by
  cases result <;> exact fun _ => .refl _

theorem concurs_result (path : Path) (result : Except Fault α) :
    Concurs q w .same (ofExcept path result) (ofExcept path result) := by
  cases result with
  | ok a => exact concurs_pure rfl
  | error fault => exact concurs_refused fault path

theorem concurs_settle {r r' : Except Failure α}
    (h : ResultsMatch Failure.Matches (A.Holds w.Related) r r') :
    Concurs q w A (settle r) (settle r') := by
  cases h with
  | ok related => exact concurs_pure related
  | error faults => exact concurs_throw faults

theorem concurs_guard {c : Prop} [Decidable c] {fault : Fault} {path : Path}
    (h : Concurs q w A x y) :
    Concurs q w A
      (do
        if c then Run.fail fault path
        x)
      (do
        if c then Run.fail fault path
        y) :=
  concurs_ite ((concurs_refused fault path).both fun _ later _ => h.later later) h

theorem concurs_outcome (h : Concurs q w A x y) :
    Concurs q w (.result A) (outcome x) (outcome y) := by
  have ended : ∀ (x : Run α) s, ending (outcome x s) = ending (x s) := by
    intro x s
    unfold Run.outcome
    cases x s <;> rfl
  refine h.within id (fun _ => rfl) id (fun s => by rw [ended]; rfl)
    (fun s => by rw [ended]; rfl) ?_
  intro s t _ outcomes
  unfold Run.outcome
  simp only [id] at outcomes
  generalize x s = r at outcomes
  generalize y t = r' at outcomes
  cases outcomes with
  | ok related ends => exact .ok (.ok related) ends
  | error faults ends => exact .ok (.error faults) ends

theorem concurs_tagged (h : Concurs q w A x y) : Concurs q w A (tagged x) (tagged y) := by
  have ended : ∀ (x : Run α) s, ending (tagged x s) = ending (x s) := by
    intro x s
    unfold Run.tagged
    cases x s <;> rfl
  refine h.within id (fun _ => rfl) id (fun s => by rw [ended]; rfl)
    (fun s => by rw [ended]; rfl) ?_
  intro s t meeting outcomes
  have streams : s.stream = t.stream := meeting.states.1
  unfold Run.tagged
  simp only [id] at outcomes
  rw [streams]
  generalize x s = r at outcomes
  generalize y t = r' at outcomes
  cases outcomes with
  | ok related ends => exact .ok related ends
  | error faults ends => exact .error (Failure.Matches.withOffset faults _) ends

/-! ### Lookups and the context -/

theorem store_of_lookup {x : Lookup Failure α} {s s' : State} {a : α}
    (run : lookup x s = .ok a s') : x s.store = .ok a s'.store := by
  obtain ⟨store, found, rfl⟩ := lookup_eq_ok_iff.mp run
  exact found

theorem run_of_outcome {ε : Type} {x : Lookup ε α} {σ σ' : LazyStore} {a : α}
    (run : x.outcome σ = .ok (.ok a) σ') : x σ = .ok a σ' := by
  unfold Lookup.outcome at run
  cases inner : x σ with
  | ok b σ =>
      rw [inner] at run
      cases run
      rfl
  | error e σ =>
      rw [inner] at run
      cases run

theorem concurs_lookup {x y : Lookup Failure α} (h : Concurs q w A x y) :
    Concurs q w A (lookup x) (lookup y) := by
  have ended : ∀ (x : Lookup Failure α) s, (ending (lookup x s)).store = ending (x s.store) := by
    intro x s
    unfold lookup
    cases x s.store <;> rfl
  refine h.within State.store (fun _ => rfl) (fun _ => trivial) (ended x) (ended y) ?_
  intro s t meeting outcomes
  obtain ⟨streams, contexts⟩ := meeting.states
  have left := h.left s.store
  have right := h.right t.store
  unfold lookup
  generalize x s.store = r at outcomes left
  generalize y t.store = r' at outcomes right
  cases outcomes with
  | ok related ends =>
      exact .ok related ⟨ends.left, ends.right, streams,
        contexts.mono fun _ _ similar => similar.grown left right⟩
  | error faults ends =>
      exact .error faults ⟨ends.left, ends.right, streams,
        contexts.mono fun _ _ similar => similar.grown left right⟩

theorem concurs_dump {v v' : Value} (h : v.Matches w.Related v') {f g : String → Run α}
    (next : ∀ s s', Value.ShownAlike s s' → Concurs q w A (f s) (g s')) :
    Concurs q w A (dump v >>= f) (dump v' >>= g) where
  left s := (next _ _ (h.shown s.store.resolved s.store.resolved)).left s
  right s := (next _ _ (h.shown s.store.resolved s.store.resolved)).right s
  meets here meeting allowed := (next _ _ (h.shown _ _)).meets here meeting allowed

theorem concurs_context : Concurs q w .context context context :=
  ⟨fun _ => .refl _, fun _ => .refl _, fun _ meeting _ => .ok meeting.states.2 meeting⟩

theorem concurs_scope : Concurs q w .scope scope scope :=
  ⟨fun _ => .refl _, fun _ => .refl _, fun _ meeting _ =>
    .ok (Context.Matches.scope meeting.states.2) meeting⟩

theorem concurs_insert (name : String) {v v' : Value} (h : v.Matches w.Related v') :
    Concurs q w .same (insert name v) (insert name v') :=
  ⟨fun _ => .refl _, fun _ => .refl _, fun here meeting _ =>
    .ok rfl ⟨meeting.left, meeting.right, meeting.states.1,
      meeting.states.2.insert name (h.mono here.related)⟩⟩

theorem concurs_inFrame (h : Concurs q w A x y) :
    Concurs q w (.both A .fields) (inFrame [] x) (inFrame [] y) := by
  have ended : ∀ (x : Run α) s, (ending (inFrame [] x s)).store =
      (ending (x { s with context := s.context.push [] })).store := by
    intro x s
    unfold inFrame
    cases x { s with context := s.context.push [] } <;> rfl
  refine h.within (fun s => { s with context := s.context.push [] }) (fun _ => rfl)
    (fun matched => ⟨matched.1, matched.2.push .nil⟩) (ended x) (ended y) ?_
  intro s t _ outcomes
  unfold inFrame
  generalize x { s with context := s.context.push [] } = r at outcomes
  generalize y { t with context := t.context.push [] } = r' at outcomes
  cases outcomes with
  | ok related ends =>
      exact .ok ⟨related, Context.Matches.innermost ends.states.2⟩
        ⟨ends.left, ends.right, ends.states.1, Context.Matches.pop ends.states.2⟩
  | error faults ends =>
      exact .error faults ⟨ends.left, ends.right, ends.states.1, Context.Matches.pop ends.states.2⟩

/-! ### The stream -/

private theorem concurs_stream (step : Stream → Except Failure α × Stream) {x : Run α}
    (h : ∀ s, x s =
      match (step s.stream).1 with
      | .ok a => .ok a { s with stream := (step s.stream).2 }
      | .error e => .error e { s with stream := (step s.stream).2 }) : Concurs q w .same x x := by
  have ended : ∀ s, (ending (x s)).store = s.store := by
    intro s
    rw [h]
    split <;> rfl
  have lasts : Lasts x := fun s => by
    have same : store (ending (x s)) = store s := ended s
    rw [same]
    exact .refl _
  refine ⟨lasts, lasts, fun {s t} _ meeting _ => ?_⟩
  obtain ⟨streams, contexts⟩ := meeting.states
  rw [h, h, streams]
  split
  · exact .ok rfl ⟨meeting.left, meeting.right, rfl, contexts⟩
  · exact .error (.refl _) ⟨meeting.left, meeting.right, rfl, contexts⟩

theorem concurs_tell : Concurs q w .same tell tell :=
  concurs_stream (fun stream => (.ok stream.pos, stream)) fun _ => rfl

theorem concurs_goTo (pos : Nat) : Concurs q w .same (goTo pos) (goTo pos) :=
  concurs_stream (fun stream => (.ok (), stream.setPos pos)) fun _ => rfl

theorem concurs_size : Concurs q w .same size size :=
  concurs_stream (fun stream => (.ok stream.size.1, stream.size.2)) fun _ => rfl

theorem concurs_available : Concurs q w .same available available :=
  concurs_stream (fun stream => (.ok stream.available, stream)) fun _ => rfl

theorem concurs_readAll : Concurs q w .same readAll readAll :=
  concurs_stream (fun stream => (.ok (stream.read none).1, (stream.read none).2)) fun _ => rfl

theorem concurs_read (count : Nat) (path : Path) :
    Concurs q w .same (Run.read count path) (Run.read count path) := by
  refine concurs_stream (fun stream =>
    (if (stream.read (some count)).1.length = count then .ok (stream.read (some count)).1
      else .error ((Fault.shortage (.read count (stream.read (some count)).1.length)).atPath path),
      (stream.read (some count)).2)) fun s => ?_
  unfold Run.read
  dsimp only
  split <;> rfl

theorem concurs_seek (dest : SeekTo) (path : Path) :
    Concurs q w .same (seek dest path) (seek dest path) := by
  refine concurs_stream (fun stream =>
    ((stream.seek dest).1.mapError fun fault => (Fault.stream fault).atPath path,
      (stream.seek dest).2)) fun s => ?_
  unfold Run.seek
  dsimp only
  cases (s.stream.seek dest).1 <;> rfl

theorem concurs_onStream (h : Concurs q w A x y) (stream : Stream) :
    Concurs q w (.both A .same) (onStream stream x) (onStream stream y) := by
  have ended : ∀ (x : Run α) s, (ending (onStream stream x s)).store =
      (ending (x { s with stream := stream })).store := by
    intro x s
    unfold onStream
    cases x { s with stream := stream } <;> rfl
  refine h.within (fun s => { s with stream := stream }) (fun _ => rfl)
    (fun matched => ⟨rfl, matched.2⟩) (ended x) (ended y) ?_
  intro s t meeting outcomes
  have streams : s.stream = t.stream := meeting.states.1
  unfold onStream
  generalize x { s with stream := stream } = r at outcomes
  generalize y { t with stream := stream } = r' at outcomes
  cases outcomes with
  | ok related ends =>
      exact .ok ⟨related, ends.states.1⟩ ⟨ends.left, ends.right, streams, ends.states.2⟩
  | error faults ends =>
      exact .error faults ⟨ends.left, ends.right, streams, ends.states.2⟩

theorem concurs_inView (h : Concurs q w A x y) (recoding : Recoding) (path : Path) :
    Concurs q w A (Codec.inView recoding path x) (Codec.inView recoding path y) := by
  have ended : ∀ (x : Run α) s, (ending (Codec.inView recoding path x s)).store =
      (ending (x { s with stream := s.stream.viewed recoding })).store := by
    intro x s
    unfold Codec.inView
    dsimp only
    cases x { s with stream := s.stream.viewed recoding } with
    | error e s' => rfl
    | ok a s' =>
        dsimp only
        split <;> rfl
  refine h.within (fun s => { s with stream := s.stream.viewed recoding }) (fun _ => rfl)
    (fun matched => ⟨congrArg (·.viewed recoding) matched.1, matched.2⟩) (ended x) (ended y) ?_
  intro s t meeting outcomes
  have streams : s.stream = t.stream := meeting.states.1
  unfold Codec.inView
  dsimp only
  rw [streams] at outcomes ⊢
  generalize x { s with stream := t.stream.viewed recoding } = r at outcomes
  generalize y { t with stream := t.stream.viewed recoding } = r' at outcomes
  cases outcomes with
  | @ok a b s' t' related ends =>
      have inner : s'.stream = t'.stream := ends.states.1
      dsimp only
      rw [inner]
      split
      · exact .ok related ⟨ends.left, ends.right, rfl, ends.states.2⟩
      · exact .error (.refl _) ⟨ends.left, ends.right, rfl, ends.states.2⟩
  | @error e f s' t' faults ends =>
      have inner : s'.stream = t'.stream := ends.states.1
      dsimp only
      rw [inner]
      exact .error faults ⟨ends.left, ends.right, rfl, ends.states.2⟩

end Run

end BinaryFormat
