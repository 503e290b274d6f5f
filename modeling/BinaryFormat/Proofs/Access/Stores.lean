import BinaryFormat.Format.Meaning
import BinaryFormat.Proofs.Access.Matching
import BinaryFormat.Proofs.Frames

/-!
# Stores of lazy members

A store only grows: what it keeps of a lazy value never changes, and what is known
of a member stays known.  Two handles are similar if the lazy values behind them
were taken from the same bytes, in contexts that match up to similar handles; what
is known of their members does not count.
-/

namespace BinaryFormat

/-! ## Formats that treat matching values alike -/

namespace Expr

mutual

/-- No constant has a lazy part, and functions of the caller treat matching scopes alike. -/
def Uniform : Expr → Prop
  | const v => v.Eager
  | this | object | list => True
  | attr base _ => Uniform base
  | index base key => Uniform base ∧ Uniform key
  | binary _ left right => Uniform left ∧ Uniform right
  | unary _ operand => Uniform operand
  | call _ args => AllUniform args
  | host run => ∀ (R : Handle → Handle → Prop) (scope scope' : Scope), scope.Matches R scope' →
      ResultsMatch Failure.Matches (Value.Matches R) (run scope) (run scope')

def AllUniform : List Expr → Prop
  | [] => True
  | e :: rest => Uniform e ∧ AllUniform rest

end

end Expr

def Transform.Uniform : Transform → Prop
  | .xor key => key.Uniform
  | .rotateLeft amount _ => amount.Uniform
  | .reverseBytes | .reverseBits => True

def Extent.Uniform : Extent → Prop
  | .fixed size => size.Uniform
  | .ofChild | .toEnd => True

def Rule.Uniform : Rule → Prop
  | .satisfies predicate => predicate.Uniform
  | .oneOf values | .noneOf values => ∀ v ∈ values, v.Eager

/-- Matching values are decoded to matching ones. -/
def Conversion.Uniform (conversion : Conversion) : Prop :=
  ∀ (R : Handle → Handle → Prop) (v w : Value), v.Matches R w →
    ResultsMatch Fault.Matches (Value.Matches R) (conversion.decode v) (conversion.decode w)

def ScopedConversion.Uniform (conversion : ScopedConversion) : Prop :=
  ∀ (R : Handle → Handle → Prop) (scope scope' : Scope), scope.Matches R scope' →
    ∀ (path : Path) (v w : Value), v.Matches R w →
      ResultsMatch Failure.Matches (Value.Matches R) (conversion.decode scope path v)
        (conversion.decode scope' path w)

namespace Format

/-- The constants of a component have no lazy parts, and the functions that it was given treat
matching values alike. -/
def IsUniform : Format → Prop
  | bytes x | integer x _ _ | bitInteger x _ _ | fixedText x _ _ _ _ | array x _ _
  | repeatUntil x _ _ | branch x _ _ | seek x _ | pointer x _ | padding x _ | padded x _ _
  | aligned x _ _ | fixedSized x _ | computed x | check x | checksum _ _ x | convertedBy _ x _
  | lazyArray x _ => x.Uniform
  | range least most _ _ | lazyRange least most _ => least.Uniform ∧ most.Uniform
  | switch key cases _ => key.Uniform ∧ ∀ entry ∈ cases, entry.1.Eager
  | transformed _ transform extent => transform.Uniform ∧ extent.Uniform
  | constant _ value => value.Eager
  | converted _ conversion => conversion.Uniform
  | convertedIn _ conversion => conversion.Uniform
  | validated _ rule => rule.Uniform
  | mapped _ table => ∀ pair ∈ table, pair.1.Eager ∧ pair.2.Eager
  | _ => True

/-- Every component treats matching values alike. -/
def Uniform (f : Format) : Prop := f.All IsUniform

end Format

/-- What formats refer to by name treats matching values alike. -/
def Definitions.Uniform (defs : Definitions) : Prop :=
  ∀ name, ((Record.get? defs name).getD .pass).Uniform

/-! ## Growth -/

namespace LazyStore

variable {σ σ' σ'' : LazyStore} {h : Handle} {m m' : Members} {i : Nat} {v w : Value}

/-- How many values were found since their lazy values were put down. -/
def size (σ : LazyStore) : Nat := (σ.entries.map fun entry => entry.found.length).sum

/-- A store with more in it. -/
structure Grown (σ σ' : LazyStore) : Prop where
  members : ∀ {h m}, σ.members? h = some m → σ'.members? h = some m
  cached : ∀ {h i v}, σ.cached? h i = some v → σ'.cached? h i = some v
  size : σ.size ≤ σ'.size

theorem Grown.refl (σ : LazyStore) : σ.Grown σ := ⟨id, id, Nat.le_refl _⟩

theorem Grown.trans (first : σ.Grown σ') (second : σ'.Grown σ'') : σ.Grown σ'' :=
  ⟨fun known => second.members (first.members known),
    fun known => second.cached (first.cached known), first.size.trans second.size⟩

private theorem getElem?_add_of_lt (inside : h < σ.entries.length) (m : Members) :
    (σ.add m).2.entries[h]? = σ.entries[h]? :=
  List.getElem?_append_left inside

theorem lt_of_members (known : σ.members? h = some m) : h < σ.entries.length := by
  unfold members? at known
  by_contra outside
  rw [List.getElem?_eq_none (Nat.not_lt.mp outside)] at known
  cases known

private theorem lt_of_cached (known : σ.cached? h i = some v) : h < σ.entries.length := by
  unfold cached? at known
  by_contra outside
  rw [List.getElem?_eq_none (Nat.not_lt.mp outside)] at known
  cases known

private theorem members?_add_of_lt (inside : h < σ.entries.length) (m : Members) :
    (σ.add m).2.members? h = σ.members? h := by
  rw [members?, members?, getElem?_add_of_lt inside]

theorem cached?_add_of_lt (inside : h < σ.entries.length) (m : Members) (i : Nat) :
    (σ.add m).2.cached? h i = σ.cached? h i := by
  rw [cached?, cached?, getElem?_add_of_lt inside]

theorem grown_add (σ : LazyStore) (m : Members) : σ.Grown (σ.add m).2 where
  members known := by rwa [members?_add_of_lt (lt_of_members known)]
  cached known := by rwa [cached?_add_of_lt (lt_of_cached known)]
  size := by simp [size, add]

theorem members?_of_add (known : (σ.add m).2.members? h = some m') :
    σ.members? h = some m' ∨ h = σ.entries.length ∧ m' = m := by
  rcases Nat.lt_trichotomy h σ.entries.length with inside | rfl | outside
  · rw [members?_add_of_lt inside] at known
    exact .inl known
  · rw [members?_add_self] at known
    exact .inr ⟨rfl, (Option.some.inj known).symm⟩
  · have last : h < (σ.entries ++ [(⟨m, []⟩ : LazyEntry)]).length := lt_of_members known
    rw [List.length_append, List.length_singleton] at last
    exact absurd last (Nat.not_lt.mpr outside)

/-! ### Remembering -/

theorem remember_of_known (known : σ.cached? h i = some w) (v : Value) :
    σ.remember h i v = σ := by
  obtain ⟨entries⟩ := σ
  refine congrArg LazyStore.mk (List.ext_getElem? fun k => ?_)
  have there := getElem?_remember ⟨entries⟩ h k i v
  rw [remember] at there
  rw [there]
  cases entry : entries[k]? with
  | none => rfl
  | some entry' =>
      rw [Option.map_some]
      split
      · rename_i same
        subst same
        rw [cached?, entry, Option.bind_some] at known
        rw [LazyEntry.remember_of_known known]
      · rfl

private theorem sum_modify {α : Type} (f : α → α) (count : α → Nat) : ∀ (l : List α) (k : Nat)
    {a : α},
    l[k]? = some a → count (f a) = count a + 1 →
      ((l.modify k f).map count).sum = (l.map count).sum + 1
  | a :: rest, 0, _, here, more => by
      cases here
      rw [List.modify_zero_cons, List.map_cons, List.map_cons, List.sum_cons, List.sum_cons, more]
      omega
  | a :: rest, k + 1, _, here, more => by
      rw [List.modify_succ_cons, List.map_cons, List.map_cons, List.sum_cons, List.sum_cons,
        sum_modify f count rest k (by simpa using here) more]
      omega

theorem size_remember (there : σ.members? h = some m) (unknown : σ.cached? h i = none)
    (v : Value) : (σ.remember h i v).size = σ.size + 1 := by
  obtain ⟨entry, here, -⟩ := Option.map_eq_some_iff.mp there
  rw [cached?, here, Option.bind_some] at unknown
  refine sum_modify (LazyEntry.remember · i v) _ σ.entries h here ?_
  rw [LazyEntry.remember_of_unknown unknown, List.length_cons]

private theorem remember_of_absent (absent : σ.members? h = none) (i : Nat) (v : Value) :
    σ.remember h i v = σ := by
  obtain ⟨entries⟩ := σ
  refine congrArg LazyStore.mk (List.modify_eq_self ?_)
  exact List.getElem?_eq_none_iff.mp (Option.map_eq_none_iff.mp absent)

theorem grown_remember (σ : LazyStore) (h : Handle) (i : Nat) (v : Value) :
    σ.Grown (σ.remember h i v) where
  members known := by rwa [members?_remember]
  cached known := cached?_remember_of_known known h i v
  size := by
    cases there : σ.members? h with
    | none => rw [remember_of_absent there]
    | some m =>
        cases cached : σ.cached? h i with
        | some w => rw [remember_of_known cached]
        | none =>
            rw [size_remember there cached]
            exact Nat.le_succ _

theorem slot_of_cached (there : σ.members? h = some m) (known : σ.cached? h i = some v) :
    ∃ slot, m.slots[i]? = some slot := by
  obtain ⟨entry, here, rfl⟩ := Option.map_eq_some_iff.mp there
  rw [cached?, here, Option.bind_some] at known
  cases at_i : entry.members.slots[i]? with
  | none => simp [LazyEntry.cached?, at_i] at known
  | some slot => exact ⟨slot, rfl⟩

theorem isSome_cached?_remember {slot : Slot} (there : σ.members? h = some m)
    (here : m.slots[i]? = some slot) (v : Value) : ((σ.remember h i v).cached? h i).isSome := by
  obtain ⟨entry, known, rfl⟩ := Option.map_eq_some_iff.mp there
  rw [cached?, getElem?_remember, known, Option.map_some, Option.bind_some, if_pos rfl]
  exact LazyEntry.isSome_cached?_remember here v

theorem cached?_of_cache {slot : Slot} (there : σ.members? h = some m)
    (here : m.slots[i]? = some slot) (cache : slot.cache = some v) : σ.cached? h i = some v := by
  obtain ⟨entry, known, rfl⟩ := Option.map_eq_some_iff.mp there
  simp [cached?, known, LazyEntry.cached?, here, cache]

/-- Of a lazy value no less is resolved later. -/
theorem Grown.resolved_le (grown : σ.Grown σ') (h : Handle) : σ.resolved h ≤ σ'.resolved h := by
  unfold resolved
  cases here : σ.entries[h]? with
  | none => exact Nat.zero_le _
  | some entry =>
      have members : σ.members? h = some entry.members := by rw [members?, here]; rfl
      obtain ⟨entry', here', same⟩ := Option.map_eq_some_iff.mp (grown.members members)
      rw [here', Option.map_some, Option.map_some, Option.getD_some, Option.getD_some,
        LazyEntry.resolved, LazyEntry.resolved, same]
      refine List.countP_mono_left fun i _ known => ?_
      obtain ⟨v, known⟩ := Option.isSome_iff_exists.mp known
      have before : σ.cached? h i = some v := by rw [cached?, here]; exact known
      have after := grown.cached before
      rw [cached?, here', Option.bind_some] at after
      rw [after]
      rfl

end LazyStore

/-! ## Similar handles -/

/-- Members of one format at the same place. -/
structure Slot.Matches (R : Handle → Handle → Prop) (slot slot' : Slot) : Prop where
  name : slot.name = slot'.name
  offset : slot.offset = slot'.offset
  format : slot.format = slot'.format
  path : slot.path = slot'.path
  index : slot.index = slot'.index
  cache : Option.Rel (Value.Matches R) slot.cache slot'.cache

/-- Members of the same bytes, in contexts that match, of formats that treat matching values
alike. -/
structure Members.Matches (R : Handle → Handle → Prop) (m m' : Members) : Prop where
  data : m.data = m'.data
  base : m.base = m'.base
  chained : m.chained = m'.chained
  context : m.context.Matches R m'.context
  slots : List.Forall₂ (Slot.Matches R) m.slots m'.slots
  uniform : ∀ slot ∈ m.slots, slot.format.Uniform

section

variable {R S T : Handle → Handle → Prop} {slot slot' slot'' : Slot} {m m' m'' : Members}

theorem Slot.Matches.mono (h : slot.Matches R slot') (more : ∀ h k, R h k → S h k) :
    slot.Matches S slot' := by
  refine { h with cache := ?_ }
  have cache := h.cache
  generalize slot.cache = c at cache
  generalize slot'.cache = c' at cache
  cases cache with
  | none => exact .none
  | some value => exact .some (value.mono more)

private theorem Slot.Matches.symm (h : slot.Matches R slot') (flip : ∀ h k, R h k → S k h) :
    slot'.Matches S slot where
  name := h.name.symm
  offset := h.offset.symm
  format := h.format.symm
  path := h.path.symm
  index := h.index.symm
  cache := by
    have cache := h.cache
    generalize slot.cache = c at cache
    generalize slot'.cache = c' at cache
    cases cache with
    | none => exact .none
    | some value => exact .some (value.symm flip)

private theorem Slot.Matches.trans (h : slot.Matches R slot') (h' : slot'.Matches S slot'')
    (join : ∀ h k l, R h k → S k l → T h l) : slot.Matches T slot'' where
  name := h.name.trans h'.name
  offset := h.offset.trans h'.offset
  format := h.format.trans h'.format
  path := h.path.trans h'.path
  index := h.index.trans h'.index
  cache := by
    have first := h.cache
    have second := h'.cache
    generalize slot.cache = c at first
    generalize slot'.cache = c' at first second
    generalize slot''.cache = c'' at second
    cases first with
    | none =>
        cases second
        exact .none
    | some value =>
        cases second with
        | some value' => exact .some (value.trans join value')

private theorem Members.Matches.mono (h : m.Matches R m') (more : ∀ h k, R h k → S h k) :
    m.Matches S m' :=
  ⟨h.data, h.base, h.chained, h.context.mono more, h.slots.imp fun _ _ slot => slot.mono more,
    h.uniform⟩

theorem Members.Matches.symm (h : m.Matches R m') (flip : ∀ h k, R h k → S k h) :
    m'.Matches S m := by
  refine ⟨h.data.symm, h.base.symm, h.chained.symm, h.context.symm flip,
    h.slots.flip.imp fun _ _ slot => slot.symm flip, ?_⟩
  have uniform := h.uniform
  have slots := h.slots
  generalize m.slots = as at uniform slots
  generalize m'.slots = bs at slots
  induction slots with
  | nil => exact uniform
  | cons here _ ih =>
      rw [List.forall_mem_cons] at uniform ⊢
      exact ⟨here.format ▸ uniform.1, ih uniform.2⟩

theorem Members.Matches.trans (h : m.Matches R m') (h' : m'.Matches S m'')
    (join : ∀ h k l, R h k → S k l → T h l) : m.Matches T m'' := by
  refine ⟨h.data.trans h'.data, h.base.trans h'.base, h.chained.trans h'.chained,
    h.context.trans h'.context join, ?_, h.uniform⟩
  have first := h.slots
  have second := h'.slots
  generalize m.slots = as at first
  generalize m'.slots = bs at first second
  generalize m''.slots = cs at second
  induction first generalizing cs with
  | nil =>
      cases second
      exact .nil
  | cons here later ih =>
      cases second with
      | cons here' later' => exact .cons (here.trans here' join) (ih _ later')

end

/-- Related handles have matching members. -/
def Bisimulation (R : Handle → Handle → Prop) (σ τ : LazyStore) : Prop :=
  ∀ h k, R h k → ∃ m m', σ.members? h = some m ∧ τ.members? k = some m' ∧ m.Matches R m'

/-- Handles behind which is the same, as deep as one looks. -/
def Similar (σ τ : LazyStore) (h k : Handle) : Prop := ∃ R, Bisimulation R σ τ ∧ R h k

section

variable {σ σ' τ τ' υ : LazyStore} {h k l : Handle} {m m' : Members}

theorem Similar.members (similar : Similar σ τ h k) :
    ∃ m m', σ.members? h = some m ∧ τ.members? k = some m' ∧ m.Matches (Similar σ τ) m' := by
  obtain ⟨R, bisimulation, related⟩ := similar
  obtain ⟨m, m', here, there, matched⟩ := bisimulation h k related
  exact ⟨m, m', here, there, matched.mono fun _ _ related => ⟨R, bisimulation, related⟩⟩

theorem Similar.grown (left : σ.Grown σ') (right : τ.Grown τ') (similar : Similar σ τ h k) :
    Similar σ' τ' h k := by
  refine ⟨Similar σ τ, fun h k similar => ?_, similar⟩
  obtain ⟨m, m', here, there, matched⟩ := similar.members
  exact ⟨m, m', left.members here, right.members there, matched⟩

theorem Similar.symm (similar : Similar σ τ h k) : Similar τ σ k h := by
  refine ⟨fun k h => Similar σ τ h k, fun k h similar => ?_, similar⟩
  obtain ⟨m, m', here, there, matched⟩ := similar.members
  exact ⟨m', m, there, here, matched.symm fun _ _ similar => similar⟩

theorem Similar.trans (first : Similar σ τ h k) (second : Similar τ υ k l) : Similar σ υ h l := by
  refine ⟨fun h l => ∃ k, Similar σ τ h k ∧ Similar τ υ k l, ?_, k, first, second⟩
  rintro h l ⟨k, first, second⟩
  obtain ⟨m, m', here, there, matched⟩ := first.members
  obtain ⟨n, m'', there', beyond, matched'⟩ := second.members
  rw [there] at there'
  cases there'
  exact ⟨m, m'', here, beyond, matched.trans matched' fun _ k _ first second => ⟨k, first, second⟩⟩

theorem Similar.earlier (left : σ.Grown σ') (right : τ.Grown τ') (similar : Similar σ' τ' h k)
    (here : Similar σ σ h h) (there : Similar τ τ k k) : Similar σ τ h k := by
  have first : Similar σ σ' h h := here.grown (.refl σ) left
  have last : Similar τ' τ k k := (there.grown (.refl τ) right).symm
  exact (first.trans similar).trans last

theorem similar_add (matched : m.Matches (Similar σ τ) m') :
    Similar (σ.add m).2 (τ.add m').2 σ.entries.length τ.entries.length := by
  refine ⟨fun h k => Similar σ τ h k ∨ h = σ.entries.length ∧ k = τ.entries.length, ?_,
    .inr ⟨rfl, rfl⟩⟩
  rintro h k (similar | ⟨rfl, rfl⟩)
  · obtain ⟨n, n', here, there, matched⟩ := similar.members
    exact ⟨n, n', (LazyStore.grown_add σ m).members here, (LazyStore.grown_add τ m').members there,
      matched.mono fun _ _ => .inl⟩
  · exact ⟨m, m', LazyStore.members?_add_self σ m, LazyStore.members?_add_self τ m',
      matched.mono fun _ _ => .inl⟩

end

end BinaryFormat
