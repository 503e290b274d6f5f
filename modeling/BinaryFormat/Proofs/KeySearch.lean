import BinaryFormat.Format.Meaning
import BinaryFormat.Inspect.Pattern
import BinaryFormat.Inspect.Search
import BinaryFormat.Proofs.Eager
import Mathlib

/-!
# Search by key

A walk finds the members that are neither containers, flags nor lists and whose key matches, at
any depth, each once and in depth-first order.  The walk that stops early shares every step with
the one that does not: what it has found is always the part that is wanted of all that the other
one has found.
-/

namespace BinaryFormat

namespace Search

/-! ## Members and their places -/

/-- The positions on the way to a member, outermost first. -/
abbrev Place : Type := List Nat

/-- The member of a value at a place, with its key.  Elements of lists have no key. -/
inductive MemberAt : Value → Place → String → Value → Prop
  | here {v m : Value} {fields : Record Value} {i : Nat} {key : String}
      (record : v.fields? = some fields) (entry : fields[i]? = some (key, m)) :
      MemberAt v [i] key m
  | inside {v w m : Value} {fields : Record Value} {i : Nat} {name key : String} {place : Place}
      (record : v.fields? = some fields) (entry : fields[i]? = some (name, w))
      (deeper : MemberAt w place key m) : MemberAt v (i :: place) key m
  | ofItem {w m : Value} {items : List Value} {i : Nat} {key : String} {place : Place}
      (item : items[i]? = some w) (deeper : MemberAt w place key m) :
      MemberAt (.list items) (i :: place) key m

/-- A place one level further up. -/
def below (i : Nat) (hit : Place × Value) : Place × Value := (i :: hit.1, hit.2)

section Hits

variable (isMatch : String → Bool)

/-- A member at position `i` as a hit of its own. -/
def ownHit (i : Nat) (key : String) (m : Value) : List (Place × Value) :=
  if isSearched m = false ∧ isMatch key = true then [([i], m)] else []

mutual

/-- The members that a search is for, with their places, in depth-first order. -/
def hits : Value → List (Place × Value)
  | .container fields => fieldHits 0 fields
  | .flags fields => fieldHits 0 fields
  | .list items => itemHits 0 items
  | _ => []

/-- The hits in elements, of which the first is at position `i`. -/
def itemHits : Nat → List Value → List (Place × Value)
  | _, [] => []
  | i, v :: rest => (hits v).map (below i) ++ itemHits (i + 1) rest

/-- The hits in entries, of which the first is at position `i`. -/
def fieldHits : Nat → List (String × Value) → List (Place × Value)
  | _, [] => []
  | i, (key, v) :: rest =>
    (hits v).map (below i) ++ (ownHit isMatch i key v ++ fieldHits (i + 1) rest)

end

end Hits

variable {isMatch : String → Bool} {firstOnly : Bool}

/-! ## The walk -/

/-- What is wanted of all that can be found. -/
def wanted (firstOnly : Bool) (all : List Value) : List Value :=
  if firstOnly then all.take 1 else all

private theorem wanted_append (all more : List Value) :
    wanted firstOnly (wanted firstOnly all ++ more) = wanted firstOnly (all ++ more) := by
  cases firstOnly with
  | false => rfl
  | true => cases all <;> simp [wanted]

private theorem wanted_wanted (all : List Value) :
    wanted firstOnly (wanted firstOnly all) = wanted firstOnly all := by
  have nothingMore : wanted firstOnly (wanted firstOnly all ++ []) = wanted firstOnly (all ++ []) :=
    wanted_append all []
  simpa only [List.append_nil] using nothingMore

private theorem wanted_of_done {found : List Value} (invariant : wanted firstOnly found = found)
    (done : isDone firstOnly found = true) (more : List Value) :
    wanted firstOnly (found ++ more) = found := by
  cases firstOnly with
  | false => simp [isDone] at done
  | true => cases found <;> simp_all [isDone, wanted]

private theorem wanted_of_not_done {found : List Value}
    (unfinished : isDone firstOnly found = false)
    (v : Value) : wanted firstOnly (found ++ [v]) = found ++ [v] := by
  cases firstOnly with
  | false => rfl
  | true => cases found <;> simp_all [isDone, wanted]

private theorem values_below (i : Nat) (all : List (Place × Value)) :
    (all.map (below i)).map Prod.snd = all.map Prod.snd := by
  rw [List.map_map]
  rfl

private theorem ownHit_of_searched {m : Value} (searched : isSearched m = true) (i : Nat)
    (key : String) : ownHit isMatch i key m = [] := by
  rw [ownHit, if_neg]
  rintro ⟨found, -⟩
  rw [searched] at found
  cases found

private theorem hits_of_not_searched {v : Value} (found : isSearched v = false) :
    hits isMatch v = [] := by
  cases v <;> first | rfl | cases found

mutual

/-- With the hits of a value behind what was found before, a walk has found all that is
wanted. -/
private theorem walk_eq (v : Value) {found : List Value}
    (invariant : wanted firstOnly found = found) :
    walk isMatch firstOnly v found =
      wanted firstOnly (found ++ (hits isMatch v).map Prod.snd) := by
  cases v with
  | container fields => exact walkFields_eq 0 fields invariant
  | flags fields => exact walkFields_eq 0 fields invariant
  | list items => exact walkItems_eq 0 items invariant
  | _ => simpa [walk, hits] using invariant.symm

theorem walkItems_eq (i : Nat) (items : List Value) {found : List Value}
    (invariant : wanted firstOnly found = found) :
    walkItems isMatch firstOnly items found =
      wanted firstOnly (found ++ (itemHits isMatch i items).map Prod.snd) := by
  match items with
  | [] => simpa [walkItems, itemHits] using invariant.symm
  | v :: rest =>
    cases done : isDone firstOnly found with
    | true => simp only [walkItems, done, if_true, wanted_of_done invariant done]
    | false =>
      simp only [walkItems, done, itemHits, List.map_append, values_below]
      rw [if_neg Bool.false_ne_true, walk_eq v invariant,
        walkItems_eq (i + 1) rest (wanted_wanted _), wanted_append, List.append_assoc]

theorem walkFields_eq (i : Nat) (fields : List (String × Value)) {found : List Value}
    (invariant : wanted firstOnly found = found) :
    walkFields isMatch firstOnly fields found =
      wanted firstOnly (found ++ (fieldHits isMatch i fields).map Prod.snd) := by
  match fields with
  | [] => simpa [walkFields, fieldHits] using invariant.symm
  | (key, v) :: rest =>
    cases done : isDone firstOnly found with
    | true => simp only [walkFields, done, if_true, wanted_of_done invariant done]
    | false =>
      simp only [walkFields, done, fieldHits, List.map_append, values_below]
      rw [if_neg Bool.false_ne_true]
      cases searched : isSearched v with
      | true =>
        rw [if_pos rfl, walk_eq v invariant, walkFields_eq (i + 1) rest (wanted_wanted _),
          wanted_append, List.append_assoc, ownHit_of_searched searched]
        rfl
      | false =>
        rw [if_neg Bool.false_ne_true, hits_of_not_searched searched]
        by_cases fits : isMatch key = true
        · rw [if_pos fits, walkFields_eq (i + 1) rest (wanted_of_not_done done v),
            List.append_assoc, ownHit, if_pos ⟨searched, fits⟩]
          rfl
        · rw [if_neg fits, walkFields_eq (i + 1) rest invariant, ownHit,
            if_neg fun own => fits own.2]
          rfl

end

/-! ## What is found -/

private theorem mem_ownHit {hit : Place × Value} {i : Nat} {key : String} {m : Value} :
    hit ∈ ownHit isMatch i key m ↔
      hit = ([i], m) ∧ isSearched m = false ∧ isMatch key = true := by
  rw [ownHit]
  split <;> simp_all

private theorem mem_itemHits {hit : Place × Value} (i : Nat) (items : List Value) :
    hit ∈ itemHits isMatch i items ↔
      ∃ j w, items[j]? = some w ∧ ∃ deeper ∈ hits isMatch w, below (i + j) deeper = hit := by
  induction items generalizing i with
  | nil => simp [itemHits]
  | cons v rest ih =>
    rw [itemHits, List.mem_append, List.mem_map, ih]
    constructor
    · rintro (⟨deeper, mem, rfl⟩ | ⟨j, w, item, deeper, mem, rfl⟩)
      · exact ⟨0, v, rfl, deeper, mem, rfl⟩
      · exact ⟨j + 1, w, item, deeper, mem, by rw [Nat.add_right_comm, Nat.add_assoc]⟩
    · rintro ⟨j, w, item, deeper, mem, rfl⟩
      cases j with
      | zero =>
        cases item
        exact Or.inl ⟨deeper, mem, rfl⟩
      | succ j =>
        exact Or.inr ⟨j, w, item, deeper, mem, by rw [Nat.add_right_comm, Nat.add_assoc]⟩

private theorem mem_fieldHits {hit : Place × Value} (i : Nat) (fields : Record Value) :
    hit ∈ fieldHits isMatch i fields ↔
      ∃ j key w, fields[j]? = some (key, w) ∧
        ((∃ deeper ∈ hits isMatch w, below (i + j) deeper = hit) ∨
          hit ∈ ownHit isMatch (i + j) key w) := by
  induction fields generalizing i with
  | nil => simp [fieldHits]
  | cons first rest ih =>
    obtain ⟨name, v⟩ := first
    have later (j : Nat) : i + 1 + j = i + (j + 1) := by omega
    rw [fieldHits, List.mem_append, List.mem_append, List.mem_map, ih]
    simp only [later]
    constructor
    · rintro (deeper | own | ⟨j, key, w, entry, found⟩)
      · exact ⟨0, name, v, rfl, Or.inl deeper⟩
      · exact ⟨0, name, v, rfl, Or.inr own⟩
      · exact ⟨j + 1, key, w, entry, found⟩
    · rintro ⟨j, key, w, entry, found⟩
      cases j with
      | zero =>
        cases entry
        exact found.imp_right Or.inl
      | succ j => exact Or.inr (Or.inr ⟨j, key, w, entry, found⟩)

private theorem mem_hits {hit : Place × Value} {v : Value} :
    hit ∈ hits isMatch v ↔
      (∃ fields i key w, v.fields? = some fields ∧ fields[i]? = some (key, w) ∧
        ((∃ deeper ∈ hits isMatch w, below i deeper = hit) ∨ hit ∈ ownHit isMatch i key w)) ∨
      ∃ items i w, v = .list items ∧ items[i]? = some w ∧
        ∃ deeper ∈ hits isMatch w, below i deeper = hit := by
  cases v with
  | container fields => simp [hits, mem_fieldHits, Value.fields?]
  | flags fields => simp [hits, mem_fieldHits, Value.fields?]
  | list items => simp [hits, mem_itemHits, Value.fields?]
  | _ => simp [hits, Value.fields?]

/-- What is found is a member that the search is for, where it is said to be. -/
private theorem memberAt_of_mem_hits {place : Place} {v m : Value}
    (mem : (place, m) ∈ hits isMatch v) :
    ∃ key, MemberAt v place key m ∧ isSearched m = false ∧ isMatch key = true := by
  -- By induction on the place, whose first position is the entry or element to go on with.
  induction place generalizing v with
  | nil =>
    obtain ⟨_, _, _, _, -, -, ⟨_, -, same⟩ | own⟩ | ⟨_, _, _, -, -, _, -, same⟩ :=
      mem_hits.mp mem
    · cases same
    · cases (mem_ownHit.mp own).1
    · cases same
  | cons i place ih =>
    obtain ⟨fields, j, name, w, record, entry, ⟨deeper, found, same⟩ | own⟩ |
      ⟨items, j, w, rfl, item, deeper, found, same⟩ := mem_hits.mp mem
    · cases same
      obtain ⟨key, member, fits⟩ := ih found
      exact ⟨key, .inside record entry member, fits⟩
    · obtain ⟨same, fits⟩ := mem_ownHit.mp own
      cases same
      exact ⟨name, .here record entry, fits⟩
    · cases same
      obtain ⟨key, member, fits⟩ := ih found
      exact ⟨key, .ofItem item member, fits⟩

/-- Such a member is found, at whatever depth it is. -/
private theorem mem_hits_of_memberAt {place : Place} {key : String} {v m : Value}
    (member : MemberAt v place key m) (found : isSearched m = false)
    (fits : isMatch key = true) : (place, m) ∈ hits isMatch v := by
  induction member with
  | @here _ m _ i key record entry =>
    have own : ([i], m) ∈ ownHit isMatch i key m := mem_ownHit.mpr ⟨rfl, found, fits⟩
    exact mem_hits.mpr (Or.inl ⟨_, _, _, _, record, entry, Or.inr own⟩)
  | inside record entry _ ih =>
    have deeper := ih found fits
    exact mem_hits.mpr (Or.inl ⟨_, _, _, _, record, entry, Or.inl ⟨_, deeper, rfl⟩⟩)
  | ofItem item _ ih =>
    have deeper := ih found fits
    exact mem_hits.mpr (Or.inr ⟨_, _, _, rfl, item, _, deeper, rfl⟩)

/-! ## The order -/

/-- One hit comes before another in a depth-first walk. -/
abbrev Before (hit other : Place × Value) : Prop := hit.1 < other.1

private theorem pairwise_below (i : Nat) {all : List (Place × Value)}
    (pairwise : all.Pairwise Before) :
    (all.map (below i)).Pairwise Before := by
  rw [List.pairwise_map]
  apply pairwise.imp
  intro hit other before
  exact List.cons_lt_cons_iff.mpr (Or.inr ⟨rfl, before⟩)

/-- A hit in or below one of the positions from `i` on. -/
def StartsFrom (i : Nat) (hit : Place × Value) : Prop :=
  ∃ j place, i ≤ j ∧ hit.1 = j :: place

private theorem startsFrom_of_mem_itemHits {hit : Place × Value} {i : Nat} {items : List Value}
    (mem : hit ∈ itemHits isMatch i items) : StartsFrom i hit := by
  obtain ⟨j, w, -, deeper, -, rfl⟩ := (mem_itemHits i items).mp mem
  exact ⟨i + j, deeper.1, Nat.le_add_right i j, rfl⟩

private theorem startsFrom_of_mem_fieldHits {hit : Place × Value} {i : Nat} {fields : Record Value}
    (mem : hit ∈ fieldHits isMatch i fields) : StartsFrom i hit := by
  obtain ⟨j, key, w, -, ⟨deeper, -, rfl⟩ | own⟩ := (mem_fieldHits i fields).mp mem
  · exact ⟨i + j, deeper.1, Nat.le_add_right i j, rfl⟩
  · exact ⟨i + j, [], Nat.le_add_right i j, by rw [(mem_ownHit.mp own).1]⟩

private theorem before_of_startsFrom {i : Nat} {place : Place} {m : Value} {other : Place × Value}
    (later : StartsFrom (i + 1) other) : Before (i :: place, m) other := by
  obtain ⟨j, _, le, start⟩ := later
  rw [Before, start]
  exact List.cons_lt_cons_iff.mpr (Or.inl le)

private theorem pairwise_below_append (i : Nat) {all more : List (Place × Value)}
    (first : all.Pairwise Before) (rest : more.Pairwise Before)
    (later : ∀ hit ∈ more, StartsFrom (i + 1) hit) :
    (all.map (below i) ++ more).Pairwise Before := by
  refine List.pairwise_append.mpr ⟨pairwise_below i first, rest, ?_⟩
  intro hit mem other otherMem
  obtain ⟨deeper, -, rfl⟩ := List.mem_map.mp mem
  exact before_of_startsFrom (later other otherMem)

private theorem pairwise_ownHit_append (i : Nat) (key : String) (m : Value)
    {more : List (Place × Value)} (rest : more.Pairwise Before)
    (later : ∀ hit ∈ more, StartsFrom (i + 1) hit) :
    (ownHit isMatch i key m ++ more).Pairwise Before := by
  rw [ownHit]
  split
  · refine List.Pairwise.cons ?_ rest
    intro other mem
    exact before_of_startsFrom (later other mem)
  · exact rest

mutual

/-- The hits are in depth-first order, so each is there once. -/
private theorem pairwise_hits (v : Value) : (hits isMatch v).Pairwise Before := by
  cases v with
  | container fields => exact pairwise_fieldHits 0 fields
  | flags fields => exact pairwise_fieldHits 0 fields
  | list items => exact pairwise_itemHits 0 items
  | _ => exact List.Pairwise.nil

theorem pairwise_itemHits (i : Nat) (items : List Value) :
    (itemHits isMatch i items).Pairwise Before := by
  match items with
  | [] => exact List.Pairwise.nil
  | v :: rest =>
    exact pairwise_below_append i (pairwise_hits v) (pairwise_itemHits (i + 1) rest)
      fun _ mem => startsFrom_of_mem_itemHits mem

theorem pairwise_fieldHits (i : Nat) (fields : List (String × Value)) :
    (fieldHits isMatch i fields).Pairwise Before := by
  match fields with
  | [] => exact List.Pairwise.nil
  | (key, v) :: rest =>
    have restPairwise := pairwise_fieldHits (i + 1) rest
    have later : ∀ hit ∈ fieldHits isMatch (i + 1) rest, StartsFrom (i + 1) hit :=
      fun _ mem => startsFrom_of_mem_fieldHits mem
    rw [fieldHits]
    cases searched : isSearched v with
    | true =>
      rw [ownHit_of_searched searched, List.nil_append]
      exact pairwise_below_append i (pairwise_hits v) restPairwise later
    | false =>
      rw [hits_of_not_searched searched, List.map_nil, List.nil_append]
      exact pairwise_ownHit_append i key v restPairwise later

end

/-! ## Searches -/

private theorem found_eq {r : Resolver} {v forced : Value} {store after : LazyStore}
    (forces : r.force v store = .ok forced after) :
    v.found r isMatch firstOnly store =
      .ok (wanted firstOnly ((hits isMatch forced).map Prod.snd)) after := by
  have walked : walk isMatch firstOnly forced [] =
      wanted firstOnly ((hits isMatch forced).map Prod.snd) := by
    have nothing : wanted firstOnly [] = [] := by cases firstOnly <;> rfl
    exact walk_eq forced nothing
  rw [Value.found, Run.bind_of_ok forces, walked]
  rfl

/-- A search is for what its pattern matches. -/
private theorem search_eq {patterns : Patterns} {r : Resolver} {pattern : String}
    (reads : patterns pattern = .ok isMatch) (v : Value) :
    v.search patterns r pattern = return (← v.found r isMatch true).head? := by
  simp only [Value.search, compile, reads, pure_bind]

private theorem searchAll_eq {patterns : Patterns} {r : Resolver} {pattern : String}
    (reads : patterns pattern = .ok isMatch) (v : Value) :
    v.searchAll patterns r pattern = v.found r isMatch false := by
  simp only [Value.searchAll, compile, reads, pure_bind]

/-- A search for all members finds, in depth-first order and each once, just those that are
neither containers, flags nor lists and whose key matches, at any depth of the forced value.  A
search for the first one gives the first of these, and nothing just when there are none.  What
keys match is any function of them, and so is what an engine makes of a pattern. -/
theorem search_first_of_all (isMatch : String → Bool) {r : Resolver} {v forced : Value}
    {store after : LazyStore} (forces : r.force v store = .ok forced after) :
    ∃ all : List (Place × Value),
      all.Pairwise (fun hit other => hit.1 < other.1) ∧
      (∀ place m, (place, m) ∈ all ↔
        ∃ key, MemberAt forced place key m ∧ isSearched m = false ∧ isMatch key = true) ∧
      v.found r isMatch false store = .ok (all.map Prod.snd) after ∧
      v.found r isMatch true store = .ok (all.map Prod.snd).head?.toList after ∧
      ∀ {patterns : Patterns} {pattern : String}, patterns pattern = .ok isMatch →
        v.searchAll patterns r pattern store = .ok (all.map Prod.snd) after ∧
        v.search patterns r pattern store = .ok (all.map Prod.snd).head? after ∧
        (v.search patterns r pattern store = .ok none after ↔
          v.searchAll patterns r pattern store = .ok [] after) := by
  have all : v.found r isMatch false store = .ok ((hits isMatch forced).map Prod.snd) after :=
    found_eq forces
  have first : v.found r isMatch true store =
      .ok ((hits isMatch forced).map Prod.snd).head?.toList after := by
    rw [found_eq forces, wanted, if_pos rfl, List.take_one]
  refine ⟨hits isMatch forced, pairwise_hits forced, ?_, all, first, ?_⟩
  · intro place m
    constructor
    · exact memberAt_of_mem_hits
    · rintro ⟨key, member, found, fits⟩
      exact mem_hits_of_memberAt member found fits
  · intro patterns pattern reads
    have several := (congrFun (searchAll_eq reads v) store).trans all
    have single : v.search patterns r pattern store =
        .ok ((hits isMatch forced).map Prod.snd).head? after := by
      rw [search_eq reads, Run.bind_of_ok first]
      cases ((hits isMatch forced).map Prod.snd).head? <;> rfl
    refine ⟨several, single, ?_⟩
    simp [several, single]

/-- A member of a container in a list is found, and what a flags value has before it is the
first. -/
theorem search_first_of_all_nested :
    let v : Value := .container [("xs", .flags [("a", .bool true), ("x", .bool false)]),
      ("list", .list [.container [("x1", .int 3)], .int 5]), ("y", .int 4)]
    let r := (Engine.ofDefinitions []).resolver
    r.force v ⟨[]⟩ = .ok v ⟨[]⟩ ∧
    ∃ all : List (Place × Value), ([1, 0, 0], .int 3) ∈ all ∧
      all.map Prod.snd = [.bool false, .int 3] ∧
      v.searchAll Pattern.engine r "x" ⟨[]⟩ = .ok [.bool false, .int 3] ⟨[]⟩ ∧
      v.search Pattern.engine r "x" ⟨[]⟩ = .ok (some (.bool false)) ⟨[]⟩ := by
  intro v r
  have eager : v.Eager := by simp [v, Value.Eager, Value.EagerItems, Value.EagerFields]
  have forces : r.force v ⟨[]⟩ = .ok v ⟨[]⟩ :=
    congrFun (Engine.force_of_eager (Engine.ofDefinitions []) eager) ⟨[]⟩
  have reads : Pattern.engine "x" =
      .ok (Pattern.sequence (.char 'x' false) .empty).matchesKey := rfl
  obtain ⟨all, -, members, every, -, searches⟩ :=
    search_first_of_all (Pattern.sequence (.char 'x' false) .empty).matchesKey forces
  obtain ⟨several, single, -⟩ := searches reads
  have values : all.map Prod.snd = [.bool false, .int 3] := by
    rw [Value.found, Run.bind_of_ok forces] at every
    exact (EStateM.Result.ok.inj every).1.symm
  rw [values] at several single
  refine ⟨forces, all, (members _ _).mpr ⟨"x1", ?_, rfl, by decide⟩, values, several, single⟩
  exact .inside rfl rfl (.ofItem rfl (.here rfl rfl))

end Search

end BinaryFormat
