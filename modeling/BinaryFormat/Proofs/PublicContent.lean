import BinaryFormat.Format.Meaning
import BinaryFormat.Proofs.Agreement
import BinaryFormat.Proofs.Eager

/-!
# Public content

What equality of values is about: which public names a record has at each depth, and what
stands under them.  The order of entries, private entries and the difference between flags and
containers are no part of it.  Two values are equal just when their contents are, so equality
is an equivalence relation, although it looks the entries of one side up in the other and turns
round at each depth.
-/

namespace BinaryFormat

open Relation (ReflTransGen)

namespace Record

variable {α β : Type}

private theorem get?_map (f : α → β) (fields : Record α) (name : String) :
    get? (fields.map fun entry => (entry.1, f entry.2)) name = (get? fields name).map f := by
  induction fields with
  | nil => rfl
  | cons entry rest ih =>
      by_cases here : entry.1 = name <;> simp [get?, here, ih]

private theorem visible_map (f : α → β) (fields : Record α) :
    visible (fields.map fun entry => (entry.1, f entry.2)) =
      (visible fields).map fun entry => (entry.1, f entry.2) := by
  rw [visible, visible, List.filter_map]
  rfl

private theorem get?_perm {fields others : Record α} (perm : fields.Perm others)
    (distinct : (keys fields).Nodup) (name : String) : get? fields name = get? others name := by
  have distinct' : (keys others).Nodup := (perm.map Prod.fst).nodup_iff.mp distinct
  apply Option.ext
  intro value
  constructor
  · intro found
    exact get?_eq_some_of_mem distinct' (perm.mem_iff.mp (mem_of_get?_eq_some found))
  · intro found
    exact get?_eq_some_of_mem distinct (perm.mem_iff.mpr (mem_of_get?_eq_some found))

/-- A record without a public name of its own has the public names of one that is no longer. -/
private theorem mem_keys_of_length {fields others : Record α} (distinct : (keys fields).Nodup)
    (within : ∀ name, isPrivate name = false → name ∈ keys fields → name ∈ keys others)
    (length : (visible others).length ≤ (visible fields).length) {name : String}
    (shown : isPrivate name = false) (mem : name ∈ keys others) : name ∈ keys fields := by
  have subset : keys (visible fields) ⊆ keys (visible others) := by
    intro key
    rw [keys_visible, keys_visible, List.mem_filter, List.mem_filter, Bool.not_eq_true']
    rintro ⟨own, visible⟩
    exact ⟨within key visible own, visible⟩
  have once : (keys (visible fields)).Nodup := by
    rw [keys_visible]
    exact distinct.filter _
  have perm : (keys (visible fields)).Perm (keys (visible others)) := by
    apply (once.subperm subset).perm_of_length_le
    rwa [keys, keys, List.length_map, List.length_map]
  have found : name ∈ keys (visible others) := by
    rw [keys_visible, List.mem_filter]
    exact ⟨mem, by rw [shown]; rfl⟩
  rw [← perm.mem_iff, keys_visible, List.mem_filter] at found
  exact found.1

end Record

/-- What a value shows: an atom as it is, elements in order, and for each public name of a record
what it shows there. -/
inductive Content where
  | atom (v : Value)
  | list (items : List Content)
  | record (under : String → Option Content)

namespace Value

mutual

/-- No float, nothing lazy, and no name twice in a record. -/
def Comparable : Value → Prop
  | list items => ComparableItems items
  | container fields => (Record.keys fields).Nodup ∧ ComparableFields fields
  | flags fields => (Record.keys fields).Nodup ∧ ComparableFields fields
  | float _ => False
  | lazyContainer _ _ => False
  | lazyList _ _ => False
  | none => True
  | bool _ => True
  | int _ => True
  | bytes _ => True
  | str _ => True

def ComparableItems : List Value → Prop
  | [] => True
  | item :: rest => Comparable item ∧ ComparableItems rest

def ComparableFields : List (String × Value) → Prop
  | [] => True
  | (_, value) :: rest => Comparable value ∧ ComparableFields rest

end

mutual

/-- The public content of a value. -/
def content : Value → Content
  | list items => .list (contentItems items)
  | container fields => .record (contentFields fields)
  | flags fields => .record (contentFields fields)
  | v => .atom v

def contentItems : List Value → List Content
  | [] => []
  | item :: rest => content item :: contentItems rest

/-- What a record shows under a name; private entries are dropped. -/
def contentFields : List (String × Value) → String → Option Content
  | [], _ => .none
  | (key, value) :: rest, name =>
      if key = name ∧ Record.isPrivate key = false then some (content value)
      else contentFields rest name

end

private theorem comparableItems_iff {items : List Value} :
    ComparableItems items ↔ ∀ v ∈ items, v.Comparable := by
  induction items with
  | nil => simp [ComparableItems]
  | cons item rest ih => simp [ComparableItems, ih]

private theorem comparableFields_iff {fields : List (String × Value)} :
    ComparableFields fields ↔ ∀ entry ∈ fields, entry.2.Comparable := by
  induction fields with
  | nil => simp [ComparableFields]
  | cons entry rest ih => simp [ComparableFields, ih]

/-! ## The content of records -/

section Contents

variable {fs gs : List (String × Value)}

private theorem contentFields_of_shown {name : String} (shown : Record.isPrivate name = false)
    (fs : List (String × Value)) :
    contentFields fs name = (Record.get? fs name).map content := by
  induction fs with
  | nil => rfl
  | cons entry rest ih =>
      by_cases here : entry.1 = name <;> simp [contentFields, Record.get?, here, shown, ih]

private theorem contentFields_of_hidden {name : String} (hidden : Record.isPrivate name = true)
    (fs : List (String × Value)) : contentFields fs name = .none := by
  induction fs with
  | nil => rfl
  | cons entry rest ih =>
      have other : ¬(entry.1 = name ∧ Record.isPrivate entry.1 = false) := by
        rintro ⟨rfl, shown⟩
        simp [hidden] at shown
      rw [contentFields, if_neg other, ih]

private theorem contentFields_congr
    (same : ∀ name, Record.isPrivate name = false →
      (Record.get? fs name).map content = (Record.get? gs name).map content) :
    contentFields fs = contentFields gs := by
  funext name
  cases shown : Record.isPrivate name with
  | true => rw [contentFields_of_hidden shown, contentFields_of_hidden shown]
  | false =>
      rw [contentFields_of_shown shown, contentFields_of_shown shown]
      exact same name shown

/-- Counting the public entries of both sides and looking those of one side up in the other is
enough, since no name stands twice. -/
private theorem contentFields_eq_iff (distinct : (Record.keys fs).Nodup)
    (distinct' : (Record.keys gs).Nodup) :
    contentFields fs = contentFields gs ↔
      (Record.visible fs).length = (Record.visible gs).length ∧
        ∀ key v, (key, v) ∈ fs → Record.isPrivate key = false →
          ∃ w, Record.get? gs key = some w ∧ v.content = w.content := by
  constructor
  · intro same
    have each : ∀ key, Record.isPrivate key = false →
        (Record.get? fs key).map content = (Record.get? gs key).map content := by
      intro key shown
      rw [← contentFields_of_shown shown, ← contentFields_of_shown shown, same]
    constructor
    · apply Record.length_visible distinct distinct'
      intro key shown
      have both := congrArg Option.isSome (each key shown)
      rw [Option.isSome_map, Option.isSome_map, Bool.eq_iff_iff] at both
      simpa only [Record.mem_keys_iff, Option.isSome_iff_exists] using both
    · intro key v mem shown
      have here := each key shown
      rw [Record.get?_eq_some_of_mem distinct mem, Option.map_some, eq_comm,
        Option.map_eq_some_iff] at here
      obtain ⟨w, found, equal⟩ := here
      exact ⟨w, found, equal.symm⟩
  · rintro ⟨lengths, each⟩
    apply contentFields_congr
    intro name shown
    have within : ∀ key, Record.isPrivate key = false → key ∈ Record.keys fs →
        key ∈ Record.keys gs := by
      intro key visible own
      obtain ⟨v, held⟩ := Record.mem_keys_iff.mp own
      obtain ⟨w, found, -⟩ := each key v (Record.mem_of_get?_eq_some held) visible
      exact Record.mem_keys_iff.mpr ⟨w, found⟩
    cases held : Record.get? fs name with
    | some v =>
        obtain ⟨w, found, equal⟩ := each name v (Record.mem_of_get?_eq_some held) shown
        rw [found, Option.map_some, Option.map_some, equal]
    | none =>
        have absent : name ∉ Record.keys gs := fun mem =>
          Record.not_mem_keys_iff.mpr held
            (Record.mem_keys_of_length distinct within lengths.ge shown mem)
        rw [Record.not_mem_keys_iff.mp absent]

/-- Equality of records is that of their contents if equality of their values is. -/
private theorem same_iff_contentFields (distinct : (Record.keys fs).Nodup)
    (distinct' : (Record.keys gs).Nodup) (comparable : ComparableFields gs)
    (each : ∀ key v, (key, v) ∈ fs → ∀ {w : Value}, w.Comparable →
      (v.same w = true ↔ v.content = w.content)) :
    ((Record.visible fs).length = (Record.visible gs).length ∧ within fs gs = true) ↔
      contentFields fs = contentFields gs := by
  rw [contentFields_eq_iff distinct distinct', within_iff]
  apply and_congr_right
  intro _
  have agree : ∀ key v, (key, v) ∈ fs → ∀ w, Record.get? gs key = some w →
      (v.same w = true ↔ v.content = w.content) := fun key v mem w found =>
    each key v mem (comparableFields_iff.mp comparable _ (Record.mem_of_get?_eq_some found))
  exact forall₄_congr fun key v mem _ => exists_congr fun w =>
    and_congr_right (agree key v mem w)

end Contents

/-! ## Equality as a function of values -/

mutual

private theorem same_iff_content : ∀ {v w : Value}, v.Comparable → w.Comparable →
    (v.same w = true ↔ v.content = w.content)
  | list as, w, hv, hw => by
      cases w with
      | list bs => simpa [same, content] using sameItems_iff_content hv hw
      | _ => simp [same, content]
  | container fs, w, hv, hw | flags fs, w, hv, hw => by
      cases w with
      | container gs | flags gs =>
          have entries := same_iff_contentFields hv.1 hw.1 hw.2 (same_of_field hv.2)
          simpa [same, content] using entries
      | _ => simp [same, content]
  | none, w, _, _ | bool _, w, _, _ | int _, w, _, _ | bytes _, w, _, _ | str _, w, _, _ => by
      cases w <;> simp_all [same, content, Comparable]
  | float _, _, hv, _ | lazyContainer _ _, _, hv, _ | lazyList _ _, _, hv, _ => hv.elim

theorem sameItems_iff_content : ∀ {as bs : List Value}, ComparableItems as →
    ComparableItems bs → (sameItems as bs = true ↔ contentItems as = contentItems bs)
  | [], [], _, _ => by simp [sameItems]
  | [], _ :: _, _, _ | _ :: _, [], _, _ => by simp [sameItems, contentItems]
  | a :: as, b :: bs, ha, hb => by
      simp [sameItems, contentItems, same_iff_content ha.1 hb.1, sameItems_iff_content ha.2 hb.2]

private theorem same_of_field : ∀ {fs : List (String × Value)}, ComparableFields fs →
    ∀ key v, (key, v) ∈ fs → ∀ {w : Value}, w.Comparable →
      (v.same w = true ↔ v.content = w.content)
  | (_, value) :: rest, h, key, v, mem, w, hw => by
      rcases List.mem_cons.mp mem with here | later
      · cases here
        exact same_iff_content h.1 hw
      · exact same_of_field h.2 key v later hw

end

private theorem within_eq_all (fs gs : List (String × Value)) :
    within fs gs = (Record.visible fs).all fun entry =>
      (Record.get? gs entry.1).any fun w => entry.2.same w := by
  rw [Bool.eq_iff_iff, within_iff, List.all_eq_true]
  simp only [Record.visible, List.mem_filter, Bool.not_eq_true', Option.any_eq_true, Prod.forall,
    and_imp]

/-- Looking the entries up the other way round comes to the same where nothing is left over. -/
private theorem within_eq_all_flipped {fs gs : List (String × Value)}
    (distinct : (Record.keys fs).Nodup)
    (distinct' : (Record.keys gs).Nodup) (left : ComparableFields fs)
    (right : ComparableFields gs)
    (lengths : (Record.visible fs).length = (Record.visible gs).length) :
    within fs gs = (Record.visible gs).all fun entry =>
      (Record.get? fs entry.1).any fun v => v.same entry.2 := by
  rw [Bool.eq_iff_iff]
  calc within fs gs = true
      ↔ contentFields fs = contentFields gs := by
        simpa [lengths] using
          same_iff_contentFields distinct distinct' right (same_of_field left)
    _ ↔ contentFields gs = contentFields fs := eq_comm
    _ ↔ ∀ key w, (key, w) ∈ gs → Record.isPrivate key = false →
          ∃ v, Record.get? fs key = some v ∧ w.content = v.content := by
        rw [contentFields_eq_iff distinct' distinct, and_iff_right lengths.symm]
    _ ↔ ∀ key w, (key, w) ∈ gs → Record.isPrivate key = false →
          ∃ v, Record.get? fs key = some v ∧ v.same w = true := by
        have agree : ∀ key w, (key, w) ∈ gs → ∀ v, Record.get? fs key = some v →
            (w.content = v.content ↔ v.same w = true) := by
          intro key w mem v found
          have here := Record.mem_of_get?_eq_some found
          rw [same_of_field left key v here (comparableFields_iff.mp right _ mem), eq_comm]
        exact forall₄_congr fun key w mem _ => exists_congr fun v =>
          and_congr_right (agree key w mem v)
    _ ↔ _ := by
        simp only [Record.visible, List.all_eq_true, List.mem_filter, Bool.not_eq_true',
          Option.any_eq_true, Prod.forall, and_imp]

end Value

/-! ## Equality as it is computed -/

namespace Resolver

variable {r : Resolver}

private theorem comparers_eq_map (r : Resolver) (flipped : Bool) (fields : List (String × Value)) :
    r.comparers flipped fields =
      fields.map fun entry => (entry.1, r.compare flipped entry.2) := by
  induction fields with
  | nil => rfl
  | cons entry rest ih =>
      rw [comparers, ih]
      rfl

private theorem allOf_map {ε α : Type} {test : α → Lookup ε Bool} {answer : α → Bool}
    {items : List α}
    (same : ∀ item ∈ items, test item = pure (answer item)) :
    allOf (items.map test) = pure (items.all answer) := by
  induction items with
  | nil => rfl
  | cons item rest ih =>
      have later := ih fun other mem => same other (List.mem_cons_of_mem _ mem)
      rw [List.map_cons, allOf, same item List.mem_cons_self, later, pure_bind]
      cases told : answer item <;> simp [told]

/-- Whichever side is looked up in the other, the answer is that of `same`: the entries of the
other side are asked one depth further down, but by then equality is known to be symmetric. -/
private theorem compareEntries_of_comparable {fs gs : List (String × Value)} {flipped : Bool}
    (distinct : (Record.keys fs).Nodup) (distinct' : (Record.keys gs).Nodup)
    (left : Value.ComparableFields fs) (right : Value.ComparableFields gs)
    (each : ∀ key v, (key, v) ∈ fs → ∀ {w : Value}, w.Comparable →
      r.compare (!flipped) v w = pure (v.same w)) :
    compareEntries flipped (r.comparers (!flipped) fs) gs =
      pure ((Record.visible fs).length == (Record.visible gs).length && Value.within fs gs) := by
  have found : ∀ key v w, (key, v) ∈ fs → (key, w) ∈ gs →
      r.compare (!flipped) v w = pure (v.same w) := fun key v w here there =>
    each key v here (Value.comparableFields_iff.mp right _ there)
  rw [compareEntries, comparers_eq_map, Record.visible_map, List.length_map]
  by_cases lengths : (Record.visible fs).length = (Record.visible gs).length
  · rw [if_neg (not_not.mpr lengths), lengths, beq_self_eq_true, Bool.true_and]
    cases flipped with
    | true =>
        rw [if_pos rfl, Value.within_eq_all_flipped distinct distinct' left right lengths]
        apply allOf_map
        rintro ⟨key, w⟩ mem
        simp only [Record.get?_map]
        cases there : Record.get? fs key with
        | none => rfl
        | some v =>
            exact found key v w (Record.mem_of_get?_eq_some there) (List.mem_of_mem_filter mem)
    | false =>
        rw [if_neg Bool.false_ne_true, Value.within_eq_all, List.map_map]
        apply allOf_map
        rintro ⟨key, v⟩ mem
        simp only [Function.comp_apply]
        cases there : Record.get? gs key with
        | none => rfl
        | some w =>
            exact found key v w (List.mem_of_mem_filter mem) (Record.mem_of_get?_eq_some there)
  · rw [if_pos lengths, beq_false_of_ne lengths, Bool.false_and]

mutual

/-- On values without lazy parts a comparison asks no resolver, and both directions agree. -/
private theorem compare_eq_same : ∀ {v : Value}, v.Comparable → ∀ (flipped : Bool) {w : Value},
    w.Comparable → r.compare flipped v w = pure (v.same w)
  | .list as, hv, flipped, w, hw => by
      cases w with
      | list bs => exact compareItems_eq_same hv flipped hw
      | lazyContainer handle keys => exact hw.elim
      | lazyList handle length => exact hw.elim
      | _ => rfl
  | .container fs, hv, flipped, w, hw | .flags fs, hv, flipped, w, hw => by
      cases w with
      | container gs | flags gs =>
          exact compareEntries_of_comparable hv.1 hw.1 hv.2 hw.2 fun key v mem w hw =>
            compare_field hv.2 key v mem (!flipped) hw
      | lazyContainer handle keys => exact hw.elim
      | lazyList handle length => exact hw.elim
      | _ => rfl
  | .none, _, _, w, hw | .bool _, _, _, w, hw | .int _, _, _, w, hw | .bytes _, _, _, w, hw
  | .str _, _, _, w, hw => by
      cases w with
      | lazyContainer handle keys => exact hw.elim
      | lazyList handle length => exact hw.elim
      | _ => rfl
  | .float _, hv, _, _, _ | .lazyContainer _ _, hv, _, _, _ | .lazyList _ _, hv, _, _, _ => hv.elim

theorem compareItems_eq_same : ∀ {as : List Value}, Value.ComparableItems as →
    ∀ (flipped : Bool) {bs : List Value}, Value.ComparableItems bs →
      (if as.length = bs.length then r.compareItems flipped as bs else pure false) =
        pure (Value.sameItems as bs)
  | [], _, _, [], _ => rfl
  | [], _, _, _ :: _, _ | _ :: _, _, _, [], _ => rfl
  | a :: as, ha, flipped, b :: bs, hb => by
      have first := compare_eq_same ha.1 flipped hb.1
      have later := compareItems_eq_same ha.2 flipped hb.2
      rw [compareItems, first, pure_bind, Value.sameItems, List.length_cons, List.length_cons]
      cases told : a.same b <;> simp_all

theorem compare_field : ∀ {fs : List (String × Value)}, Value.ComparableFields fs →
    ∀ key v, (key, v) ∈ fs → ∀ (flipped : Bool) {w : Value}, w.Comparable →
      r.compare flipped v w = pure (v.same w)
  | (_, value) :: rest, h, key, v, mem, flipped, w, hw => by
      rcases List.mem_cons.mp mem with here | later
      · cases here
        exact compare_eq_same h.1 flipped hw
      · exact compare_field h.2 key v later flipped hw

end

end Resolver

/-! ## Changes that do not show -/

namespace Value

/-- A record with its entries in another order, or with a private entry more or less. -/
inductive Rearranged : Record Value → Record Value → Prop
  | order {fs gs : Record Value} (perm : fs.Perm gs) : Rearranged fs gs
  | insert {fs : Record Value} {name : String} {v : Value}
      (hidden : Record.isPrivate name = true) (comparable : v.Comparable) :
      Rearranged fs (Record.insert fs name v)
  | erase {fs : Record Value} {name : String} (hidden : Record.isPrivate name = true) :
      Rearranged fs (Record.erase fs name)

/-- A value in which a record has been rearranged, at any depth. -/
inductive Retouched : Value → Value → Prop
  | container {fs gs : Record Value} (change : Rearranged fs gs) :
      Retouched (.container fs) (.container gs)
  | flags {fs gs : Record Value} (change : Rearranged fs gs) : Retouched (.flags fs) (.flags gs)
  | item {before later : List Value} {v w : Value} (change : Retouched v w) :
      Retouched (.list (before ++ v :: later)) (.list (before ++ w :: later))
  | entry {before later : Record Value} {key : String} {v w : Value} (change : Retouched v w) :
      Retouched (.container (before ++ (key, v) :: later))
        (.container (before ++ (key, w) :: later))
  | flag {before later : Record Value} {key : String} {v w : Value} (change : Retouched v w) :
      Retouched (.flags (before ++ (key, v) :: later)) (.flags (before ++ (key, w) :: later))

variable {fs gs before later : Record Value} {v w : Value}

private theorem Rearranged.nodup (change : Rearranged fs gs) (distinct : (Record.keys fs).Nodup) :
    (Record.keys gs).Nodup := by
  cases change with
  | order perm => exact (perm.map Prod.fst).nodup_iff.mp distinct
  | insert => exact Record.nodup_insert distinct _ _
  | erase => exact Record.nodup_erase distinct _

private theorem Rearranged.comparable (change : Rearranged fs gs)
    (comparable : ComparableFields fs) :
    ComparableFields gs := by
  rw [comparableFields_iff] at comparable ⊢
  intro entry mem
  cases change with
  | order perm => exact comparable entry (perm.mem_iff.mpr mem)
  | insert hidden fresh =>
      rcases Record.mem_insert mem with rfl | old
      · exact fresh
      · exact comparable entry old
  | erase => exact comparable entry ((Record.erase_sublist _ _).subset mem)

private theorem Rearranged.content (change : Rearranged fs gs) (distinct : (Record.keys fs).Nodup) :
    contentFields fs = contentFields gs := by
  apply contentFields_congr
  intro name shown
  cases change with
  | order perm => rw [Record.get?_perm perm distinct]
  | @insert other v hidden =>
      have ne : other ≠ name := by
        rintro rfl
        simp [hidden] at shown
      rw [Record.get?_insert_of_ne ne]
  | @erase other hidden =>
      have ne : other ≠ name := by
        rintro rfl
        simp [hidden] at shown
      rw [Record.get?_erase_of_ne ne]

private theorem contentItems_eq_map (items : List Value) :
    contentItems items = items.map content := by
  induction items with
  | nil => rfl
  | cons item rest ih => rw [contentItems, ih, List.map_cons]

private theorem contentFields_replace (same : v.content = w.content) (before later : Record Value)
    (key : String) :
    contentFields (before ++ (key, v) :: later) = contentFields (before ++ (key, w) :: later) := by
  induction before with
  | nil =>
      funext name
      simp [contentFields, same]
  | cons entry rest ih =>
      funext name
      rw [List.cons_append, List.cons_append, contentFields, contentFields, ih]

private theorem comparable_replace {key : String} (comparable : v.Comparable → w.Comparable)
    (whole : (Record.keys (before ++ (key, v) :: later)).Nodup ∧
      ComparableFields (before ++ (key, v) :: later)) :
    (Record.keys (before ++ (key, w) :: later)).Nodup ∧
      ComparableFields (before ++ (key, w) :: later) := by
  obtain ⟨distinct, fields⟩ := whole
  rw [comparableFields_iff] at fields
  constructor
  · simpa [Record.keys] using distinct
  · rw [comparableFields_iff]
    simp only [List.mem_append, List.mem_cons] at fields ⊢
    rintro entry (old | rfl | old)
    · exact fields entry (.inl old)
    · exact comparable (fields (key, v) (.inr (.inl rfl)))
    · exact fields entry (.inr (.inr old))

/-- Such a change leaves the value comparable and its content as it was. -/
private theorem Retouched.unseen (change : Retouched v w) (comparable : v.Comparable) :
    w.Comparable ∧ v.content = w.content := by
  induction change with
  | container change | flags change =>
      obtain ⟨distinct, fields⟩ := comparable
      exact ⟨⟨change.nodup distinct, change.comparable fields⟩,
        congrArg Content.record (change.content distinct)⟩
  | @item before later v w change ih =>
      have items := comparableItems_iff.mp comparable
      obtain ⟨changed, same⟩ := ih (items v (by simp))
      constructor
      · apply comparableItems_iff.mpr
        simp only [List.mem_append, List.mem_cons] at items ⊢
        rintro item (old | rfl | old)
        · exact items item (.inl old)
        · exact changed
        · exact items item (.inr (.inr old))
      · simp [content, contentItems_eq_map, same]
  | @entry before later key v w change ih | @flag before later key v w change ih =>
      have here : v.Comparable := comparableFields_iff.mp comparable.2 (key, v) (by simp)
      exact ⟨comparable_replace (fun own => (ih own).1) comparable,
        congrArg Content.record (contentFields_replace (ih here).2 before later key)⟩

private theorem unseen_of_retouched (changes : ReflTransGen Retouched v w)
    (comparable : v.Comparable) :
    w.Comparable ∧ v.content = w.content := by
  induction changes with
  | refl => exact ⟨comparable, rfl⟩
  | tail _ change ih =>
      obtain ⟨before, same⟩ := ih
      obtain ⟨changed, same'⟩ := change.unseen before
      exact ⟨changed, same.trans same'⟩

/-- Equality of values is equality of public content: without private entries, whatever the order
of entries, and with flags as containers, at every depth.  So it is an equivalence relation, and
private entries that come or go and entries in another order change no comparison. -/
theorem equality_of_content :
    (∀ {v w : Value}, v.Comparable → w.Comparable →
      (v.same w = true ↔ v.content = w.content) ∧
        ∀ r : Resolver, r.equal v w = pure (v.same w)) ∧
    (Equivalence fun v w : {v : Value // v.Comparable} => v.1.same w.1 = true) ∧
    ∀ {v w : Value}, ReflTransGen Retouched v w → v.Comparable → w.Comparable ∧
      ∀ {u : Value}, u.Comparable → w.same u = v.same u ∧ u.same w = u.same v := by
  refine ⟨fun hv hw => ⟨same_iff_content hv hw, fun r => Resolver.compare_eq_same hv false hw⟩,
    ⟨?_, ?_, ?_⟩, ?_⟩
  · intro v
    exact (same_iff_content v.2 v.2).mpr rfl
  · intro v w same
    exact (same_iff_content w.2 v.2).mpr ((same_iff_content v.2 w.2).mp same).symm
  · intro u v w same same'
    rw [same_iff_content u.2 v.2] at same
    rw [same_iff_content v.2 w.2] at same'
    exact (same_iff_content u.2 w.2).mpr (same.trans same')
  · intro v w changes hv
    obtain ⟨hw, same⟩ := unseen_of_retouched changes hv
    refine ⟨hw, fun {u} hu => ?_⟩
    constructor
    · rw [Bool.eq_iff_iff, same_iff_content hw hu, same_iff_content hv hu, same]
    · rw [Bool.eq_iff_iff, same_iff_content hu hw, same_iff_content hu hv, same]

/-- Flags inside, another order and a private index. -/
theorem equality_of_content_index :
    let fields : Record Value := [("x", .int 1), ("y", .list [.flags [("a", .bool true)]])]
    let w : Value := .flags [("y", .list [.container [("_b", .none), ("a", .bool true)]]),
      ("_index", .int 7), ("x", .int 1)]
    (Value.container fields).content = w.content ∧
      (Engine.ofDefinitions []).resolver.equal (.container fields) w = pure true ∧
      (Value.container (("_index", .int 7) :: fields)).same w = true := by
  intro fields w
  obtain ⟨equal, -, unseen⟩ := equality_of_content
  have hv : (Value.container fields).Comparable := by
    simp [fields, Comparable, ComparableItems, ComparableFields, Record.keys]
  have hw : w.Comparable := by
    simp [w, Comparable, ComparableItems, ComparableFields, Record.keys]
  have same : (Value.container fields).same w = true := by decide
  have noted : Rearranged fields (fields ++ [("_index", .int 7)]) := by
    have hidden : Record.isPrivate "_index" = true := by decide
    rw [← Record.insert_of_not_mem (by simp [fields, Record.keys])]
    exact .insert hidden trivial
  have moved : Rearranged (fields ++ [("_index", .int 7)]) (("_index", .int 7) :: fields) :=
    .order (List.perm_append_singleton _ _)
  have changes := (ReflTransGen.single (Retouched.container noted)).tail (.container moved)
  obtain ⟨contents, answers⟩ := equal hv hw
  refine ⟨contents.mp same, ?_, ?_⟩
  · rw [answers, same]
  · rw [((unseen changes hv).2 hw).1, same]

end Value

end BinaryFormat
