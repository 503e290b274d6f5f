/-!
# Records

An ordered attribute map, kept as the list of its entries.  Iteration follows
the order in which names were first inserted: inserting under a name that is
already present replaces the entry in place.  Names that start with an
underscore are private bookkeeping.
-/

namespace BinaryFormat

/-- An ordered attribute map.  Every operation below keeps the names distinct. -/
abbrev Record (α : Type) : Type := List (String × α)

namespace Record

variable {α : Type}

def get? : Record α → String → Option α
  | [], _ => none
  | (key, value) :: rest, name => if key = name then some value else get? rest name

def contains (fields : Record α) (name : String) : Bool := (fields.get? name).isSome

/-- Replaces the entry in place, or appends a new one. -/
def insert : Record α → String → α → Record α
  | [], name, value => [(name, value)]
  | (key, old) :: rest, name, value =>
      if key = name then (key, value) :: rest else (key, old) :: insert rest name value

/-- Drops the entry and keeps the order of the others. -/
def erase : Record α → String → Record α
  | [], _ => []
  | (key, value) :: rest, name => if key = name then rest else (key, value) :: erase rest name

/-- Inserts every entry of `other`, in order. -/
def extend (fields other : Record α) : Record α :=
  other.foldl (fun r entry => insert r entry.1 entry.2) fields

def ofList (entries : List (String × α)) : Record α := extend [] entries

def keys (fields : Record α) : List String := fields.map Prod.fst

/-- Whether a name is private bookkeeping. -/
def isPrivate (name : String) : Bool := name.toList.head? == some '_'

/-- The entries that are not private. -/
def visible (fields : Record α) : Record α := fields.filter fun entry => !isPrivate entry.1

@[simp] theorem get?_insert_self (fields : Record α) (name : String) (value : α) :
    get? (insert fields name value) name = some value := by
  induction fields with
  | nil => simp [insert, get?]
  | cons entry rest ih =>
      obtain ⟨key, old⟩ := entry
      by_cases h : key = name <;> simp [insert, get?, h, ih]

theorem get?_insert_of_ne {name other : String} (h : name ≠ other) (fields : Record α)
    (value : α) : get? (insert fields name value) other = get? fields other := by
  induction fields with
  | nil => simp [insert, get?, h]
  | cons entry rest ih =>
      obtain ⟨key, old⟩ := entry
      by_cases hk : key = name
      · simp [insert, get?, hk, h]
      · by_cases ho : key = other
        · simp [insert, get?, ho, Ne.symm h]
        · simp [insert, get?, hk, ho, ih]

@[simp] theorem erase_insert_self (fields : Record α) (name : String) (value : α) :
    erase (insert fields name value) name = erase fields name := by
  induction fields with
  | nil => simp [insert, erase]
  | cons entry rest ih =>
      obtain ⟨key, old⟩ := entry
      by_cases h : key = name <;> simp [insert, erase, h, ih]

theorem get?_erase_of_ne {name other : String} (h : name ≠ other) (fields : Record α) :
    get? (erase fields name) other = get? fields other := by
  induction fields with
  | nil => rfl
  | cons entry rest ih =>
      obtain ⟨key, old⟩ := entry
      by_cases hk : key = name
      · simp [erase, get?, hk, h]
      · by_cases ho : key = other
        · simp [erase, get?, ho, Ne.symm h]
        · simp [erase, get?, hk, ho, ih]

theorem insert_of_get? {fields : Record α} {name : String} {v : α}
    (h : get? fields name = some v) : insert fields name v = fields := by
  induction fields with
  | nil => cases h
  | cons entry rest ih =>
      obtain ⟨key, old⟩ := entry
      rw [get?] at h
      rw [insert]
      by_cases eq : key = name
      · rw [if_pos eq] at h ⊢
        rw [Option.some.inj h]
      · rw [if_neg eq] at h ⊢
        rw [ih h]

theorem mem_insert {fields : Record α} {name : String} {value : α} {entry : String × α}
    (mem : entry ∈ insert fields name value) : entry = (name, value) ∨ entry ∈ fields := by
  induction fields with
  | nil => simpa [insert] using mem
  | cons first rest ih =>
      obtain ⟨key, old⟩ := first
      by_cases h : key = name
      · simp only [insert, h, if_true, List.mem_cons] at mem ⊢
        exact mem.imp_right Or.inr
      · simp only [insert, h, if_false, List.mem_cons] at mem ⊢
        obtain mem | mem := mem
        · exact Or.inr (Or.inl mem)
        · exact (ih mem).imp_right Or.inr

theorem erase_sublist (fields : Record α) (name : String) :
    (erase fields name).Sublist fields := by
  induction fields with
  | nil => simp [erase]
  | cons entry rest ih =>
      obtain ⟨key, old⟩ := entry
      by_cases h : key = name <;> simp [erase, h, ih]

/-! ## Distinct names -/

theorem mem_keys_insert {fields : Record α} {name key : String} {value : α} :
    key ∈ keys (insert fields name value) ↔ key = name ∨ key ∈ keys fields := by
  induction fields with
  | nil => simp [insert, keys]
  | cons entry rest ih =>
      obtain ⟨first, old⟩ := entry
      by_cases h : first = name
      · simp [insert, keys, h]
      · simp only [insert, h, if_false, keys, List.map_cons, List.mem_cons] at ih ⊢
        rw [ih]
        constructor <;> rintro (h | h | h) <;> simp [h]

theorem insert_of_not_mem {fields : Record α} {name : String} (h : name ∉ keys fields) (v : α) :
    insert fields name v = fields ++ [(name, v)] := by
  induction fields with
  | nil => rfl
  | cons entry rest ih =>
      obtain ⟨key, old⟩ := entry
      simp only [keys, List.map_cons, List.mem_cons, not_or] at h
      have ne : ¬ key = name := fun eq => h.1 eq.symm
      rw [insert, if_neg ne, ih h.2]
      rfl

theorem nodup_insert {fields : Record α} (h : (keys fields).Nodup) (name : String)
    (value : α) : (keys (insert fields name value)).Nodup := by
  induction fields with
  | nil => simp [insert, keys]
  | cons entry rest ih =>
      obtain ⟨first, old⟩ := entry
      obtain ⟨hfirst, hrest⟩ := List.nodup_cons.1 h
      by_cases hn : first = name
      · simpa [insert, hn, keys] using h
      · simp only [insert, hn, if_false]
        refine List.nodup_cons.2 ⟨fun hm => ?_, ih hrest⟩
        rcases mem_keys_insert.1 hm with hm | hm
        · exact hn hm
        · exact hfirst hm

theorem nodup_erase {fields : Record α} (h : (keys fields).Nodup) (name : String) :
    (keys (erase fields name)).Nodup :=
  h.sublist ((erase_sublist fields name).map Prod.fst)

/-! ## Entries and names -/

theorem get?_eq_some_of_mem {fields : Record α} (distinct : (keys fields).Nodup)
    {key : String} {value : α} (h : (key, value) ∈ fields) : get? fields key = some value := by
  induction fields with
  | nil => cases h
  | cons entry rest ih =>
      obtain ⟨first, old⟩ := entry
      obtain ⟨fresh, distinct⟩ := List.nodup_cons.mp distinct
      rcases List.mem_cons.mp h with h | h
      · cases h
        simp [get?]
      · have ne : first ≠ key := by
          rintro rfl
          exact fresh (List.mem_map.mpr ⟨(first, value), h, rfl⟩)
        rw [get?, if_neg ne, ih distinct h]

theorem mem_of_get?_eq_some {fields : Record α} {key : String} {value : α}
    (h : get? fields key = some value) : (key, value) ∈ fields := by
  induction fields with
  | nil => cases h
  | cons entry rest ih =>
      obtain ⟨first, old⟩ := entry
      by_cases hk : first = key
      · rw [get?, if_pos hk] at h
        cases h
        rw [hk]
        exact List.mem_cons_self
      · rw [get?, if_neg hk] at h
        exact List.mem_cons_of_mem _ (ih h)

theorem mem_keys_iff {fields : Record α} {key : String} :
    key ∈ keys fields ↔ ∃ value, get? fields key = some value := by
  induction fields with
  | nil => simp [keys, get?]
  | cons entry rest ih =>
      obtain ⟨first, old⟩ := entry
      by_cases hk : first = key
      · simp [keys, get?, hk]
      · have ne : ¬ key = first := fun h => hk h.symm
        simp only [keys, List.map_cons, List.mem_cons, ne, false_or, get?, hk, if_false]
        exact ih

theorem not_mem_keys_iff {fields : Record α} {key : String} :
    key ∉ keys fields ↔ get? fields key = none := by
  rw [mem_keys_iff]
  cases get? fields key <;> simp

end Record

end BinaryFormat
