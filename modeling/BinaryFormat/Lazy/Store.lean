import BinaryFormat.Context

/-!
# The store of lazy members

A lazy value is a handle into this store.  Its entry keeps a snapshot of the
bytes that the value spans and of the context at the end of its parsing, and a
slot for every member: where it starts, its format, and its value if that was
parsed on the spot.  These never change; the values of members that are parsed
later are kept beside them, and never change either.
-/

namespace BinaryFormat

/-- A member that is parsed when it is first read. -/
structure Slot where
  name : Option String
  /-- Where the member starts in the input. -/
  offset : Nat
  format : Format
  path : Path
  /-- The index of an element. -/
  index : Option Nat := none
  /-- The value of a member that was parsed on the spot. -/
  cache : Option Value := none

/-- The members behind a lazy value. -/
structure Members where
  data : List UInt8
  /-- The offset of the first byte of `data` in the input. -/
  base : Nat
  context : Context
  slots : List Slot
  /-- Whether a member sees the members before it. -/
  chained : Bool

/-- What the store keeps for a lazy value. -/
structure LazyEntry where
  members : Members
  /-- The values found since, with the indices of their slots; the latest first. -/
  found : List (Nat × Value) := []

namespace LazyEntry

/-- The value of a member, if it is known. -/
def cached? (entry : LazyEntry) (i : Nat) : Option Value := do
  let slot ← entry.members.slots[i]?
  slot.cache.or (entry.found.lookup i)

/-- Records the value of a member unless it has one. -/
def remember (entry : LazyEntry) (i : Nat) (value : Value) : LazyEntry :=
  match entry.cached? i with
  | some _ => entry
  | none => { entry with found := (i, value) :: entry.found }

/-- How many members are resolved. -/
def resolved (entry : LazyEntry) : Nat :=
  (List.range entry.members.slots.length).countP fun i => (entry.cached? i).isSome

@[simp] theorem members_remember (entry : LazyEntry) (i : Nat) (value : Value) :
    (entry.remember i value).members = entry.members := by
  unfold remember
  split <;> rfl

variable {entry : LazyEntry} {i j : Nat} {v w : Value}

theorem remember_of_known (known : entry.cached? i = some w) : entry.remember i v = entry := by
  rw [remember, known]

theorem remember_of_unknown (unknown : entry.cached? i = none) :
    entry.remember i v = { entry with found := (i, v) :: entry.found } := by
  rw [remember, unknown]

private theorem cached?_cons (entry : LazyEntry) (i j : Nat) (v : Value) :
    cached? { entry with found := (i, v) :: entry.found } j =
      if j = i then entry.members.slots[i]?.bind fun slot => slot.cache.or (some v)
      else entry.cached? j := by
  by_cases same : j = i
  · subst same
    simp [cached?]
  · have other : (j == i) = false := beq_false_of_ne same
    simp [cached?, same, List.lookup_cons, other]

private theorem cached?_remember_of_known (known : entry.cached? j = some w) (i : Nat) (v : Value) :
    (entry.remember i v).cached? j = some w := by
  cases cached : entry.cached? i with
  | some old => rwa [remember_of_known cached]
  | none =>
      rw [remember_of_unknown cached, cached?_cons, if_neg, known]
      rintro rfl
      rw [known] at cached
      cases cached

private theorem cached?_of_remember (known : (entry.remember i v).cached? j = some w) :
    entry.cached? j = some w ∨ j = i ∧ w = v := by
  cases cached : entry.cached? i with
  | some old =>
      rw [remember_of_known cached] at known
      exact .inl known
  | none =>
      rw [remember_of_unknown cached, cached?_cons] at known
      split at known
      · rename_i same
        subst same
        cases at_j : entry.members.slots[j]? with
        | none => simp [at_j] at known
        | some slot =>
            have unknown : slot.cache.or (entry.found.lookup j) = none := by
              simpa [cached?, at_j] using cached
            have empty : slot.cache = none := (Option.or_eq_none_iff.mp unknown).1
            simp only [at_j, Option.bind_some, empty, Option.none_or, Option.some.injEq] at known
            exact .inr ⟨rfl, known.symm⟩
      · exact .inl known

theorem isSome_cached?_remember {slot : Slot} (here : entry.members.slots[i]? = some slot)
    (v : Value) : ((entry.remember i v).cached? i).isSome := by
  cases cached : entry.cached? i with
  | some old =>
      rw [remember_of_known cached, cached]
      rfl
  | none =>
      rw [remember_of_unknown cached, cached?_cons, if_pos rfl, here]
      cases cache : slot.cache <;> simp [cache]

end LazyEntry

/-- The lazy members of a session, by handle. -/
structure LazyStore where
  entries : List LazyEntry

namespace LazyStore

def empty : LazyStore := ⟨[]⟩

instance : Inhabited LazyStore := ⟨empty⟩

def add (store : LazyStore) (m : Members) : Handle × LazyStore :=
  (store.entries.length, ⟨store.entries ++ [⟨m, []⟩]⟩)

def members? (store : LazyStore) (handle : Handle) : Option Members :=
  store.entries[handle]?.map LazyEntry.members

def cached? (store : LazyStore) (handle : Handle) (i : Nat) : Option Value :=
  store.entries[handle]?.bind (·.cached? i)

def remember (store : LazyStore) (handle : Handle) (i : Nat) (value : Value) : LazyStore :=
  ⟨store.entries.modify handle (·.remember i value)⟩

/-- How many members of a lazy value are resolved. -/
def resolved (store : LazyStore) (handle : Handle) : Nat :=
  (store.entries[handle]?.map LazyEntry.resolved).getD 0

variable {store : LazyStore} {handle other : Handle} {i j : Nat} {v w : Value}

theorem getElem?_remember (store : LazyStore) (handle other : Handle) (i : Nat) (v : Value) :
    (store.remember handle i v).entries[other]? =
      store.entries[other]?.map fun entry =>
        if handle = other then entry.remember i v else entry := by
  rw [remember, List.getElem?_modify]
  split <;> simp [*]

@[simp] theorem members?_remember (store : LazyStore) (handle other : Handle) (i : Nat)
    (v : Value) : (store.remember handle i v).members? other = store.members? other := by
  rw [members?, members?, getElem?_remember, Option.map_map]
  congr 1
  funext entry
  simp only [Function.comp_apply]
  split <;> simp

theorem cached?_remember_of_known (known : store.cached? other j = some w) (handle : Handle)
    (i : Nat) (v : Value) : (store.remember handle i v).cached? other j = some w := by
  unfold cached? at known ⊢
  rw [getElem?_remember]
  cases there : store.entries[other]? with
  | none => simp [there] at known
  | some entry =>
      rw [there, Option.bind_some] at known
      rw [Option.map_some, Option.bind_some]
      split
      · exact LazyEntry.cached?_remember_of_known known i v
      · exact known

theorem cached?_of_remember (known : (store.remember handle i v).cached? other j = some w) :
    store.cached? other j = some w ∨ other = handle ∧ j = i ∧ w = v := by
  unfold cached? at known ⊢
  rw [getElem?_remember] at known
  cases there : store.entries[other]? with
  | none => simp [there] at known
  | some entry =>
      rw [there, Option.map_some, Option.bind_some] at known
      rw [Option.bind_some]
      split at known
      · rename_i same
        rcases LazyEntry.cached?_of_remember known with before | ⟨rfl, rfl⟩
        · exact .inl before
        · exact .inr ⟨same.symm, rfl, rfl⟩
      · exact .inl known

@[simp] theorem members?_add_self (store : LazyStore) (m : Members) :
    (store.add m).2.members? store.entries.length = some m := by
  show ((store.entries ++ [(⟨m, []⟩ : LazyEntry)])[store.entries.length]?).map LazyEntry.members = _
  rw [List.getElem?_concat_length]
  rfl

theorem cached?_add_self (store : LazyStore) (m : Members) (i : Nat) :
    (store.add m).2.cached? store.entries.length i = m.slots[i]?.bind Slot.cache := by
  show ((store.entries ++ [(⟨m, []⟩ : LazyEntry)])[store.entries.length]?).bind _ = _
  rw [List.getElem?_concat_length]
  cases at_i : m.slots[i]? <;> simp [LazyEntry.cached?, at_i]

end LazyStore

end BinaryFormat
