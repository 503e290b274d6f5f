import BinaryFormat.Proofs.Access.Stores

/-!
# Where what is known comes from

Whatever is known of a lazy member was parsed on the spot or found by a run of its
format, in a store that is part of the present one and in a context that shows the
members before it.  The runs are those of engines of any level; below the lowest
level stands an engine that does nothing but leave a mark in the store, so that
a store without the mark shows that no run has come so deep.
-/

namespace BinaryFormat

/-! ## Engines over others -/

namespace Engine

/-- The engine so many levels above another. -/
def above (defs : Definitions) (bottom : Engine) : Nat → Engine
  | 0 => bottom
  | n + 1 =>
    { parse := fun f path => (f.codec (above defs bottom n) defs).parse path
      build := fun f v path => (f.codec (above defs bottom n) defs).build v path
      size := fun f ctx path => (f.codec (above defs bottom n) defs).size ctx path
      forceMember := fun v => (above defs bottom n).resolver.force v }

theorem level_eq_above (defs : Definitions) (n : Nat) : level defs n = above defs exhausted n := by
  induction n with
  | zero => rfl
  | succ n ih => rw [level, above, ih]

/-- Members that stand for nothing but the bytes of a mark. -/
def markMembers (mark : List UInt8) : Members := ⟨mark, 0, default, [], false⟩

/-- The engine that leaves a mark in the store whenever it is asked, and refuses everything. -/
def tripwire (mark : List UInt8) : Engine where
  parse _ path s := .error ((Fault.unevaluable .depth).atPath path)
    { s with store := (s.store.add (markMembers mark)).2 }
  build := exhausted.build
  size _ _ path store :=
    .error ((Fault.unevaluable .depth).atPath path) (store.add (markMembers mark)).2
  forceMember _ store :=
    .error ((Fault.unevaluable .depth).atPath .this) (store.add (markMembers mark)).2

end Engine

/-- The mark is nowhere in the store. -/
def LazyStore.Clear (mark : List UInt8) (σ : LazyStore) : Prop :=
  ∀ h m, σ.members? h = some m → m.data ≠ mark

theorem LazyStore.Clear.earlier {mark : List UInt8} {σ σ' : LazyStore} (clear : σ'.Clear mark)
    (grown : σ.Grown σ') : σ.Clear mark :=
  fun h m known => clear h m (grown.members known)

theorem LazyStore.not_clear_add (mark : List UInt8) (σ : LazyStore) :
    ¬ (σ.add (Engine.markMembers mark)).2.Clear mark :=
  fun clear => clear _ _ (LazyStore.members?_add_self σ _) rfl

/-! ## What is compared -/

/-- What the engines of all levels have in common: the formats that are referred to by name, and
the mark of the engine below the lowest level. -/
structure Lineage where
  defs : Definitions
  mark : List UInt8

/-- The engine of a level. -/
def Lineage.engine (l : Lineage) (n : Nat) : Engine :=
  Engine.above l.defs (Engine.tripwire l.mark) n

/-- Two runs are compared if they leave no mark and find no more than a limit; without a limit
none are compared. -/
structure Setting extends Lineage where
  limit : Option Nat

namespace Setting

/-- Whether there are runs that are compared. -/
def Compares (q : Setting) : Prop := ∃ most, q.limit = some most

/-- Whether runs that end in these stores are compared. -/
def Allows (q : Setting) (σ τ : LazyStore) : Prop :=
  σ.Clear q.mark ∧ τ.Clear q.mark ∧ ∃ most, q.limit = some most ∧ σ.size + τ.size ≤ most

variable {q : Setting} {σ σ' τ τ' : LazyStore}

theorem Allows.earlier (allowed : q.Allows σ' τ') (left : σ.Grown σ') (right : τ.Grown τ') :
    q.Allows σ τ := by
  obtain ⟨clear, clear', most, limit, within⟩ := allowed
  refine ⟨clear.earlier left, clear'.earlier right, most, limit, ?_⟩
  have shorter := left.size
  have shorter' := right.size
  omega

theorem Allows.compares (allowed : q.Allows σ τ) : q.Compares :=
  let ⟨_, _, most, limit, _⟩ := allowed
  ⟨most, limit⟩

theorem not_compares (l : Lineage) : ¬ Setting.Compares ⟨l, none⟩ :=
  fun ⟨_, limit⟩ => nomatch limit

end Setting

/-! ## Provenance -/

/-- Before a member that was parsed on the spot there is none that was not. -/
def Slot.Ordered (slots : List Slot) : Prop :=
  slots.Pairwise fun earlier slot => slot.cache.isSome → earlier.cache.isSome

mutual

/-- A store in which everything that is known of lazy members has its provenance. -/
inductive Sound (l : Lineage) : LazyStore → Prop
  | intro {σ : LazyStore}
      (similar : ∀ h m, σ.members? h = some m → Similar σ σ h h)
      (ordered : ∀ h m, σ.members? h = some m → m.chained = true → Slot.Ordered m.slots)
      (found : ∀ h m i slot v, σ.members? h = some m → m.slots[i]? = some slot →
        slot.cache = none → σ.cached? h i = some v → Found l σ h i v) : Sound l σ

/-- A value that was recorded behind a run. -/
inductive Found (l : Lineage) : LazyStore → Handle → Nat → Value → Prop
  | intro {σ before : LazyStore} {h : Handle} {i : Nat} {v : Value} (earlier : before.Grown σ)
      (fewer : before.size < σ.size) (genuine : Genuine l before h i v) : Found l σ h i v

/-- The value of a member, by its provenance. -/
inductive Genuine (l : Lineage) : LazyStore → Handle → Nat → Value → Prop
  | scanned {σ : LazyStore} {h : Handle} {m : Members} {i : Nat} {slot : Slot} {v : Value}
      (members : σ.members? h = some m) (here : m.slots[i]? = some slot)
      (cache : slot.cache = some v) : Genuine l σ h i v
  | ran {σ before after : LazyStore} {h : Handle} {m : Members} {i n : Nat} {slot : Slot}
      {ctx : Context} {v : Value} (sound : Sound l before) (members : before.members? h = some m)
      (here : m.slots[i]? = some slot) (cache : slot.cache = none) (seen : Seen l before h m i ctx)
      (run : slot.parse (l.engine n).parse m.data m.base ctx before = .ok v after)
      (since : before.Grown after) (later : after.Grown σ) : Genuine l σ h i v

/-- The context that a member sees: that of its record, with the named members before it. -/
inductive Seen (l : Lineage) : LazyStore → Handle → Members → Nat → Context → Prop
  | unchained {σ : LazyStore} {h : Handle} {m : Members} (i : Nat) (free : m.chained = false) :
      Seen l σ h m i m.context
  | first {σ : LazyStore} {h : Handle} {m : Members} (chained : m.chained = true) :
      Seen l σ h m 0 m.context
  | unnamed {σ : LazyStore} {h : Handle} {m : Members} {i : Nat} {slot : Slot} {ctx : Context}
      (before : Seen l σ h m i ctx) (chained : m.chained = true) (here : m.slots[i]? = some slot)
      (nameless : slot.name = none) : Seen l σ h m (i + 1) ctx
  | named {σ : LazyStore} {h : Handle} {m : Members} {i : Nat} {slot : Slot} {ctx : Context}
      {name : String} {v : Value} (before : Seen l σ h m i ctx) (chained : m.chained = true)
      (here : m.slots[i]? = some slot) (called : slot.name = some name)
      (value : Genuine l σ h i v) (known : (σ.cached? h i).isSome) :
      Seen l σ h m (i + 1) (ctx.insert name v)

end

section

variable {l : Lineage} {σ σ' τ : LazyStore} {h : Handle} {m : Members} {i : Nat} {v : Value}
  {ctx : Context}

theorem Genuine.grown (genuine : Genuine l σ h i v) (grown : σ.Grown σ') : Genuine l σ' h i v := by
  cases genuine with
  | scanned members here cache => exact .scanned (grown.members members) here cache
  | ran sound members here cache seen run since later =>
      exact .ran sound members here cache seen run since (later.trans grown)

theorem Found.grown (found : Found l σ h i v) (grown : σ.Grown σ') : Found l σ' h i v := by
  obtain ⟨earlier, fewer, genuine⟩ := found
  exact ⟨earlier.trans grown, fewer.trans_le grown.size, genuine⟩

theorem Seen.grown (seen : Seen l σ h m i ctx) (grown : σ.Grown σ') : Seen l σ' h m i ctx := by
  induction i generalizing ctx with
  | zero =>
      cases seen with
      | unchained _ free => exact .unchained 0 free
      | first chained => exact .first chained
  | succ i ih =>
      cases seen with
      | unchained _ free => exact .unchained _ free
      | unnamed before chained here nameless => exact .unnamed (ih before) chained here nameless
      | named before chained here called value known =>
          obtain ⟨w, known⟩ := Option.isSome_iff_exists.mp known
          exact .named (ih before) chained here called (value.grown grown)
            (Option.isSome_iff_exists.mpr ⟨w, grown.cached known⟩)

end

end BinaryFormat
