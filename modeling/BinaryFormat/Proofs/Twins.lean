import BinaryFormat.Proofs.Frames
import BinaryFormat.Proofs.Lazy.Rows
import BinaryFormat.Proofs.Twins.Streams

/-!
# Twin runs

Two runs of one format may start from states that differ in what the format does
not look at: the index that a repeater has left in a frame, the units that a view
has fetched ahead, and the snapshots that lazy members took of either.  Such states
are paired here; a run that comes to the same from paired states is fair.
-/

namespace BinaryFormat

/-! ## Outcomes -/

section

variable {ε σ α β γ δ : Type} {S : σ → σ → Prop} {A : α → β → Prop} {B : γ → δ → Prop}

/-- Related results in related states, or the same failure. -/
inductive Outcomes (S : σ → σ → Prop) (A : α → β → Prop) :
    EStateM.Result ε σ α → EStateM.Result ε σ β → Prop
  | ok {a : α} {b : β} {s t : σ} (related : A a b) (states : S s t) :
      Outcomes S A (.ok a s) (.ok b t)
  | error (e : ε) {s t : σ} (states : S s t) : Outcomes S A (.error e s) (.error e t)

theorem Outcomes.of_ok {a : α} {s : σ} {r : EStateM.Result ε σ β}
    (h : Outcomes S A (.ok a s) r) : ∃ b t, r = .ok b t ∧ A a b ∧ S s t := by
  cases h with
  | ok related states => exact ⟨_, _, rfl, related, states⟩

theorem Outcomes.of_error {e : ε} {s : σ} {r : EStateM.Result ε σ β}
    (h : Outcomes S A (.error e s) r) : ∃ t, r = .error e t ∧ S s t := by
  cases h with
  | error e states => exact ⟨_, rfl, states⟩

/-- From related states, both have related outcomes. -/
def Twins (S : σ → σ → Prop) (A : α → β → Prop) (x : EStateM ε σ α) (y : EStateM ε σ β) : Prop :=
  ∀ s t, S s t → Outcomes S A (x s) (y t)

theorem twins_pure {a : α} {b : β} (related : A a b) :
    Twins S A (pure a : EStateM ε σ α) (pure b) := fun _ _ states => .ok related states

theorem twins_throw (e : ε) : Twins S A (throw e : EStateM ε σ α) (throw e : EStateM ε σ β) :=
  fun _ _ states => .error e states

theorem Twins.bind {x : EStateM ε σ α} {y : EStateM ε σ β} {f : α → EStateM ε σ γ}
    {g : β → EStateM ε σ δ} (h : Twins S A x y) (next : ∀ a b, A a b → Twins S B (f a) (g b)) :
    Twins S B (x >>= f) (y >>= g) := by
  intro s t states
  have first := h s t states
  cases hx : x s with
  | ok a s' =>
      rw [hx] at first
      obtain ⟨b, t', hy, related, states⟩ := first.of_ok
      rw [Run.bind_of_ok hx, Run.bind_of_ok hy]
      exact next a b related s' t' states
  | error e s' =>
      rw [hx] at first
      obtain ⟨t', hy, states⟩ := first.of_error
      rw [Run.bind_of_error hx, Run.bind_of_error hy]
      exact .error e states

theorem Twins.both {x y : EStateM ε σ α} {f : α → EStateM ε σ γ} {g : α → EStateM ε σ δ}
    (h : Twins S Eq x y) (next : ∀ a, Twins S B (f a) (g a)) :
    Twins S B (x >>= f) (y >>= g) :=
  h.bind fun a _ same => same ▸ next a

/-- The same, and known to have a property. -/
def Agreed (P : α → Prop) (a b : α) : Prop := a = b ∧ P a

theorem Twins.agreed {P : α → Prop} {x y : EStateM ε σ α} {f : α → EStateM ε σ γ}
    {g : α → EStateM ε σ δ} (h : Twins S (Agreed P) x y)
    (next : ∀ a, P a → Twins S B (f a) (g a)) : Twins S B (x >>= f) (y >>= g) :=
  h.bind fun a _ both => both.1 ▸ next a both.2

private theorem Outcomes.imp {A' : α → β → Prop} {r : EStateM.Result ε σ α}
    {r' : EStateM.Result ε σ β}
    (h : Outcomes S A r r') (weaker : ∀ a b, A a b → A' a b) : Outcomes S A' r r' := by
  cases h with
  | ok related states => exact .ok (weaker _ _ related) states
  | error e states => exact .error e states

theorem Twins.imp {A' : α → β → Prop} {x : EStateM ε σ α} {y : EStateM ε σ β}
    (h : Twins S A x y) (weaker : ∀ a b, A a b → A' a b) : Twins S A' x y :=
  fun s t states => (h s t states).imp weaker

theorem twins_ite {c : Prop} [Decidable c] {x x' : EStateM ε σ α} {y y' : EStateM ε σ β}
    (h : Twins S A x y) (h' : Twins S A x' y') :
    Twins S A (if c then x else x') (if c then y else y') := by
  by_cases holds : c
  · rwa [if_pos holds, if_pos holds]
  · rwa [if_neg holds, if_neg holds]

end

/-! ## Expressions that read named fields -/

/-- Names that lead from a frame to a frame. -/
def Record.isFrameName (name : String) : Bool := name == "_" || name == "_root" || name == "_params"

namespace Expr

/-- The name that a key spells out. -/
def spelled? : Expr → Option String
  | const (.str name) => some name
  | _ => none

theorem eq_of_spelled {key : Expr} {name : String} (h : key.spelled? = some name) :
    key = const (.str name) := by
  unfold spelled? at h
  split at h
  · cases h
    rfl
  · cases h

/-- Whether an expression is a path from the innermost frame to a frame. -/
def isFrame : Expr → Bool
  | this => true
  | attr base name => base.isFrame && Record.isFrameName name
  | index base key => base.isFrame && key.spelled?.any Record.isFrameName
  | _ => false

mutual

/-- Whether an expression reads frames only through named fields other than the index. -/
def isNamed : Expr → Bool
  | const _ | object | list => true
  | attr base name => if base.isFrame then !Record.isReserved name else isNamed base
  | index base key =>
    if base.isFrame then key.spelled?.any (!Record.isReserved ·) else isNamed base && isNamed key
  | binary _ left right => isNamed left && isNamed right
  | unary _ operand => isNamed operand
  | call _ args => areNamed args
  | this | host _ => false

def areNamed : List Expr → Bool
  | [] => true
  | e :: rest => isNamed e && areNamed rest

end

end Expr

/-! ## Formats that read named fields -/

namespace Record

/-- The frames without their indices. -/
def unindexedAll (frames : List (Record Value)) : List (Record Value) := frames.map unindexed

end Record

namespace Transform

def IsNamed : Transform → Prop
  | xor key => key.isNamed
  | rotateLeft amount _ => amount.isNamed
  | reverseBytes | reverseBits => True

end Transform

def Extent.IsNamed : Extent → Prop
  | fixed size => size.isNamed
  | ofChild | toEnd => True

def Rule.IsNamed : Rule → Prop
  | satisfies predicate => predicate.isNamed
  | oneOf _ | noneOf _ => True

/-- A conversion that does not look at the indices in the frames. -/
def ScopedConversion.IsNamed (conversion : ScopedConversion) : Prop :=
  ∀ fs gs, Record.unindexedAll fs = Record.unindexedAll gs → ∀ path v,
    conversion.decode ⟨fs, none, none⟩ path v = conversion.decode ⟨gs, none, none⟩ path v

namespace Format

/-- The expressions that a component evaluates when it is parsed read named fields alone, and
what it refers to is admitted. -/
def IsNamed (admitted : String → Prop) : Format → Prop
  | bytes x | integer x _ _ | bitInteger x _ _ | fixedText x _ _ _ _ | array x _ _
  | repeatUntil x _ _ | branch x _ _ | switch x _ _ | seek x _ | pointer x _ | padding x _
  | padded x _ _ | aligned x _ _ | fixedSized x _ | computed x | check x | checksum _ _ x
  | convertedBy _ x _ | lazyArray x _ => x.isNamed
  | range least most _ _ | lazyRange least most _ => least.isNamed ∧ most.isNamed
  | transformed _ transform extent => transform.IsNamed ∧ extent.IsNamed
  | convertedIn _ conversion => conversion.IsNamed
  | validated _ rule => rule.IsNamed
  | reference name => admitted name
  | _ => True

/-- Every component reads named fields alone. -/
def Named (admitted : String → Prop) (f : Format) : Prop := f.All (IsNamed admitted)

end Format

/-! ## Paired states -/

/-- Frames that differ in no more than the indices, and not at all if they are not `loose` or
among the innermost ones up to a depth. -/
structure PairedFrames (loose : Bool) (depth : Nat) (fs gs : List (Record Value)) : Prop where
  tight : loose = false → fs = gs
  unindexed : Record.unindexedAll fs = Record.unindexedAll gs
  near : fs.take depth = gs.take depth

namespace PairedFrames

variable {loose : Bool} {depth : Nat} {fs gs : List (Record Value)}

private theorem refl (fs : List (Record Value)) :
    PairedFrames loose depth fs fs := ⟨fun _ => rfl, rfl, rfl⟩

theorem shallow (h : PairedFrames loose depth fs gs) : PairedFrames loose 0 fs gs :=
  ⟨h.tight, h.unindexed, rfl⟩

private theorem push (h : PairedFrames loose depth fs gs) (values : Record Value) :
    PairedFrames loose (depth + 1) (values :: fs) (values :: gs) where
  tight exact := by rw [h.tight exact]
  unindexed := by
    have same := h.unindexed
    simp only [Record.unindexedAll, List.map_cons] at same ⊢
    rw [same]
  near := by rw [List.take_succ_cons, List.take_succ_cons, h.near]

private theorem tail {f g : Record Value} (h : PairedFrames loose (depth + 1) (f :: fs) (g :: gs)) :
    f = g ∧ PairedFrames loose depth fs gs := by
  obtain ⟨tight, unindexed, near⟩ := h
  simp only [Record.unindexedAll, List.map_cons, List.take_succ_cons, List.cons.injEq] at *
  exact ⟨near.1, fun exact => (tight exact).2, unindexed.2, near.2⟩

private theorem lessen (h : PairedFrames loose (depth + 1) fs gs) :
    PairedFrames loose depth fs gs := by
  refine ⟨h.tight, h.unindexed, ?_⟩
  have near := congrArg (List.take depth) h.near
  simpa [List.take_take] using near

end PairedFrames

/-- The frames of two contexts are paired. -/
def PairedContexts (loose : Bool) (depth : Nat) (ctx ctx' : Context) : Prop :=
  PairedFrames loose depth ctx.frames ctx'.frames

namespace PairedContexts

variable {loose : Bool} {depth : Nat} {ctx ctx' : Context}

theorem refl (ctx : Context) : PairedContexts loose depth ctx ctx := PairedFrames.refl _

theorem push (h : PairedContexts loose depth ctx ctx') (values : Record Value) :
    PairedContexts loose (depth + 1) (ctx.push values) (ctx'.push values) :=
  PairedFrames.push h values

theorem insert (h : PairedContexts loose depth ctx ctx') (name : String) (v : Value) :
    PairedContexts loose depth (ctx.insert name v) (ctx'.insert name v) := by
  obtain ⟨⟨top, queue⟩, below⟩ := ctx
  obtain ⟨⟨top', queue'⟩, below'⟩ := ctx'
  obtain ⟨tight, unindexed, near⟩ := h
  simp only [Context.frames, Record.unindexedAll, List.map_cons, List.cons.injEq] at tight unindexed
  refine ⟨fun exact => ?_, ?_, ?_⟩
  · obtain ⟨rfl, same⟩ := tight exact
    simp only [Context.frames, Context.insert, same]
  · simp only [Context.frames, Context.insert, Record.unindexedAll, List.map_cons, List.cons.injEq]
    refine ⟨?_, unindexed.2⟩
    by_cases index : name = "_index"
    · subst index
      rw [Record.unindexed_insert_index, Record.unindexed_insert_index, unindexed.1]
    · rw [Record.unindexed_insert index, Record.unindexed_insert index, unindexed.1]
  · cases depth with
    | zero => rfl
    | succ depth =>
        simp only [Context.frames, List.take_succ_cons, List.cons.injEq] at near
        obtain ⟨rfl, below⟩ := near
        simp only [Context.frames, Context.insert, List.take_succ_cons, below]

theorem pop (h : PairedContexts loose (depth + 1) ctx ctx') :
    PairedContexts loose depth ctx.pop ctx'.pop := by
  obtain ⟨top, below⟩ := ctx
  obtain ⟨top', below'⟩ := ctx'
  have same := congrArg List.length h.unindexed
  simp only [Context.frames, Record.unindexedAll, List.length_map, List.length_cons] at same
  cases below with
  | nil =>
      obtain rfl : below' = [] := List.length_eq_zero_iff.mp (Nat.succ.inj same).symm
      exact h.lessen
  | cons next rest =>
      obtain ⟨next', rest', rfl⟩ := List.exists_cons_of_length_eq_add_one (Nat.succ.inj same).symm
      exact (PairedFrames.tail h).2

theorem innermost (h : PairedContexts loose (depth + 1) ctx ctx') :
    ctx.innermost = ctx'.innermost := (PairedFrames.tail h).1

end PairedContexts

/-- Members that differ in no more than the frames that they were found in; these differ only
if no format of a member can tell. -/
structure PairedMembers (admitted : String → Prop) (m m' : Members) : Prop where
  data : m.data = m'.data
  base : m.base = m'.base
  slots : m.slots = m'.slots
  chained : m.chained = m'.chained
  context : ∃ loose, PairedContexts loose 0 m.context m'.context ∧
    (loose = true → ∀ slot ∈ m.slots, slot.format.Named admitted)

/-- Paired members of which the same have been found since. -/
structure PairedEntries (admitted : String → Prop) (a b : LazyEntry) : Prop where
  members : PairedMembers admitted a.members b.members
  found : a.found = b.found

def PairedStores (admitted : String → Prop) (store store' : LazyStore) : Prop :=
  List.Forall₂ (PairedEntries admitted) store.entries store'.entries

section

variable {admitted : String → Prop} {m m' : Members} {a b : LazyEntry} {store store' : LazyStore}

private theorem PairedMembers.refl (m : Members) : PairedMembers admitted m m :=
  ⟨rfl, rfl, rfl, rfl, false, .refl _, nofun⟩

private theorem PairedEntries.cached? (h : PairedEntries admitted a b) (i : Nat) :
    a.cached? i = b.cached? i := by
  rw [LazyEntry.cached?, LazyEntry.cached?, h.members.slots, h.found]

private theorem PairedEntries.resolved (h : PairedEntries admitted a b) :
    a.resolved = b.resolved := by
  simp only [LazyEntry.resolved, h.members.slots, h.cached?]

private theorem PairedEntries.remember (h : PairedEntries admitted a b) (i : Nat) (v : Value) :
    PairedEntries admitted (a.remember i v) (b.remember i v) where
  members := by
    rw [LazyEntry.members_remember, LazyEntry.members_remember]
    exact h.members
  found := by
    have cached := h.cached? i
    cases known : b.cached? i with
    | some old =>
        rw [LazyEntry.remember_of_known known, LazyEntry.remember_of_known (cached.trans known),
          h.found]
    | none =>
        rw [LazyEntry.remember_of_unknown known,
          LazyEntry.remember_of_unknown (cached.trans known), h.found]

theorem PairedStores.refl (store : LazyStore) : PairedStores admitted store store :=
  List.forall₂_same.mpr fun entry _ => ⟨.refl entry.members, rfl⟩

private theorem PairedStores.entry? (h : PairedStores admitted store store') (handle : Handle) :
    Option.Rel (PairedEntries admitted) store.entries[handle]? store'.entries[handle]? := by
  obtain ⟨entries⟩ := store
  obtain ⟨entries'⟩ := store'
  simp only [PairedStores] at h ⊢
  induction h generalizing handle with
  | nil => exact .none
  | cons paired _ ih =>
      cases handle with
      | zero => exact .some paired
      | succ handle => simpa only [List.getElem?_cons_succ] using ih handle

theorem PairedStores.members? (h : PairedStores admitted store store') (handle : Handle) :
    Option.Rel (PairedMembers admitted) (store.members? handle) (store'.members? handle) := by
  have entries := h.entry? handle
  unfold LazyStore.members?
  generalize store.entries[handle]? = found at entries
  generalize store'.entries[handle]? = found' at entries
  cases entries with
  | none => exact .none
  | some paired => exact .some paired.members

theorem PairedStores.cached? (h : PairedStores admitted store store') (handle : Handle) (i : Nat) :
    store.cached? handle i = store'.cached? handle i := by
  have entries := h.entry? handle
  unfold LazyStore.cached?
  generalize store.entries[handle]? = found at entries
  generalize store'.entries[handle]? = found' at entries
  cases entries with
  | none => rfl
  | some paired => exact paired.cached? i

theorem PairedStores.slots (h : PairedStores admitted store store') (handle : Handle) :
    (store.members? handle).map Members.slots = (store'.members? handle).map Members.slots := by
  have members := h.members? handle
  generalize store.members? handle = found at members
  generalize store'.members? handle = found' at members
  cases members with
  | none => rfl
  | some paired => simp only [Option.map_some, paired.slots]

theorem PairedStores.resolved (h : PairedStores admitted store store') :
    store.resolved = store'.resolved := by
  funext handle
  have entries := h.entry? handle
  unfold LazyStore.resolved
  generalize store.entries[handle]? = found at entries
  generalize store'.entries[handle]? = found' at entries
  cases entries with
  | none => rfl
  | some paired => simp only [Option.map_some, paired.resolved]

theorem PairedStores.remember (h : PairedStores admitted store store') (handle : Handle) (i : Nat)
    (v : Value) :
    PairedStores admitted (store.remember handle i v) (store'.remember handle i v) := by
  obtain ⟨entries⟩ := store
  obtain ⟨entries'⟩ := store'
  simp only [PairedStores, LazyStore.remember] at h ⊢
  induction h generalizing handle with
  | nil => simp
  | cons paired others ih =>
      cases handle with
      | zero => exact .cons (paired.remember i v) others
      | succ handle => exact .cons paired (ih handle)

theorem PairedStores.add (h : PairedStores admitted store store')
    (paired : PairedMembers admitted m m') :
    (store.add m).1 = (store'.add m').1 ∧ PairedStores admitted (store.add m).2 (store'.add m').2 :=
  ⟨h.length_eq, List.rel_append h (.cons ⟨paired, rfl⟩ .nil)⟩

end

/-- What the states of twin runs have in common: how their streams are related, and how many of
the innermost frames are the same. -/
structure Pairing (admitted : String → Prop) (loose : Bool) where
  streams : Stream → Stream → Prop
  faithful : Faithful streams
  depth : Nat

namespace Pairing

variable {admitted : String → Prop} {loose : Bool} (w : Pairing admitted loose)

structure States (s t : State) : Prop where
  stream : w.streams s.stream t.stream
  context : PairedContexts loose w.depth s.context t.context
  store : PairedStores admitted s.store t.store

/-- One frame further in. -/
def pushed : Pairing admitted loose := { w with depth := w.depth + 1 }

/-- Over a view of the stream. -/
def viewed : Pairing admitted loose :=
  { w with streams := Stream.Viewed w.streams, faithful := Stream.faithful_viewed w.faithful }

/-- Over the same stream. -/
def alone : Pairing admitted loose := { w with streams := Eq, faithful := faithful_eq }

end Pairing

end BinaryFormat
