import BinaryFormat.Codec.Basic
import BinaryFormat.Proofs.Run
import Mathlib

/-!
# Values without lazy parts

Comparing or forcing a value that has no lazy part asks no resolver and leaves
the store alone: the answer is that of a function of the values.
-/

namespace BinaryFormat

namespace Value

mutual

/-- No part of the value is lazy. -/
def Eager : Value → Prop
  | list items => EagerItems items
  | container fields => EagerFields fields
  | flags fields => EagerFields fields
  | lazyContainer _ _ => False
  | lazyList _ _ => False
  | none => True
  | bool _ => True
  | int _ => True
  | float _ => True
  | bytes _ => True
  | str _ => True

def EagerItems : List Value → Prop
  | [] => True
  | item :: rest => Eager item ∧ EagerItems rest

def EagerFields : List (String × Value) → Prop
  | [] => True
  | (_, value) :: rest => Eager value ∧ EagerFields rest

end

theorem eagerItems_iff {items : List Value} : EagerItems items ↔ ∀ v ∈ items, v.Eager := by
  induction items with
  | nil => simp [EagerItems]
  | cons item rest ih => simp [EagerItems, ih]

theorem eagerFields_iff {fields : List (String × Value)} :
    EagerFields fields ↔ ∀ entry ∈ fields, entry.2.Eager := by
  induction fields with
  | nil => simp [EagerFields]
  | cons entry rest ih => simp [EagerFields, ih]

theorem EagerFields.get? {fields : Record Value} (h : EagerFields fields) {name : String}
    {v : Value} (found : Record.get? fields name = some v) : v.Eager :=
  eagerFields_iff.mp h (name, v) (Record.mem_of_get?_eq_some found)

theorem EagerFields.insert {fields : Record Value} (h : EagerFields fields) (name : String)
    {v : Value} (eager : v.Eager) : EagerFields (Record.insert fields name v) := by
  rw [eagerFields_iff] at h ⊢
  intro entry mem
  rcases Record.mem_insert mem with rfl | mem
  · exact eager
  · exact h entry mem

theorem eagerItems_ofBytes (data : List UInt8) : EagerItems (ofBytes data) := by
  rw [eagerItems_iff]
  intro v hv
  obtain ⟨b, -, rfl⟩ := List.mem_map.mp hv
  exact trivial

private theorem isLazy_of_eager {v : Value} (h : v.Eager) : v.isLazy = false := by
  cases v with
  | lazyContainer handle keys => exact h.elim
  | lazyList handle length => exact h.elim
  | _ => rfl

/-! ## Forcing -/

mutual

private theorem forceWith_of_eager (r : Resolver) : ∀ {v : Value}, v.Eager → v.forceWith r = pure v
  | list items, h => by
      rw [forceWith, forceItems_of_eager r h]
      rfl
  | container fields, h => by
      rw [forceWith, forceFields_of_eager r h]
      rfl
  | flags fields, h => by
      rw [forceWith, forceFields_of_eager r h]
      rfl
  | lazyContainer _ _, h => h.elim
  | lazyList _ _, h => h.elim
  | none, _ => rfl
  | bool _, _ => rfl
  | int _, _ => rfl
  | float _, _ => rfl
  | bytes _, _ => rfl
  | str _, _ => rfl

theorem forceItems_of_eager (r : Resolver) : ∀ {items : List Value}, EagerItems items →
    forceItems r items = pure items
  | [], _ => rfl
  | item :: rest, h => by
      rw [forceItems, forceWith_of_eager r h.1, forceItems_of_eager r h.2]
      rfl

theorem forceFields_of_eager (r : Resolver) : ∀ {fields : List (String × Value)},
    EagerFields fields → forceFields r fields = pure fields
  | [], _ => rfl
  | (key, value) :: rest, h => by
      rw [forceFields, forceWith_of_eager r h.1, forceFields_of_eager r h.2]
      rfl

end

end Value

/-! ## Comparing -/

namespace Resolver

private theorem allOf_pure {ε : Type} {tests : List (Lookup ε Bool)} {answers : List Bool}
    (h : List.Forall₂ (fun test answer => test = pure answer) tests answers) :
    allOf tests = pure (answers.all id) := by
  induction h with
  | nil => rfl
  | @cons test answer tests answers first _ ih =>
      subst first
      cases answer with
      | false => rfl
      | true => exact ih

/-- The tests answer like functions, on values without lazy parts. -/
def AnswersLike (tests : Record (Value → Lookup Failure Bool)) (answers : Record (Value → Bool)) :
    Prop :=
  List.Forall₂ (fun test answer => test.1 = answer.1 ∧
    ∀ b : Value, b.Eager → test.2 b = pure (answer.2 b)) tests answers

private theorem AnswersLike.get? {tests : Record (Value → Lookup Failure Bool)}
    {answers : Record (Value → Bool)} (h : AnswersLike tests answers) (name : String) :
    (Record.get? tests name = none ∧ Record.get? answers name = none) ∨
      ∃ test answer, Record.get? tests name = some test ∧
        Record.get? answers name = some answer ∧
        ∀ b : Value, b.Eager → test b = pure (answer b) := by
  induction h with
  | nil => exact Or.inl ⟨rfl, rfl⟩
  | @cons test answer tests answers first _ ih =>
      obtain ⟨key, test⟩ := test
      obtain ⟨key', answer⟩ := answer
      obtain ⟨rfl, same⟩ := first
      by_cases eq : key = name
      · refine Or.inr ⟨test, answer, ?_, ?_, same⟩ <;> rw [Record.get?, if_pos eq]
      · simpa only [Record.get?, if_neg eq] using ih

private theorem AnswersLike.visible {tests : Record (Value → Lookup Failure Bool)}
    {answers : Record (Value → Bool)} (h : AnswersLike tests answers) :
    AnswersLike (Record.visible tests) (Record.visible answers) := by
  induction h with
  | nil => exact .nil
  | @cons test answer tests answers first _ ih =>
      have name := first.1
      cases shown : Record.isPrivate test.1 with
      | true =>
          have left : Record.visible (test :: tests) = Record.visible tests := by
            simp [Record.visible, shown]
          have right : Record.visible (answer :: answers) = Record.visible answers := by
            simp [Record.visible, ← name, shown]
          rw [left, right]
          exact ih
      | false =>
          have left : Record.visible (test :: tests) = test :: Record.visible tests := by
            simp [Record.visible, shown]
          have right : Record.visible (answer :: answers) = answer :: Record.visible answers := by
            simp [Record.visible, ← name, shown]
          rw [left, right]
          exact .cons first ih

/-- Whether two records agree, given the answers for the entries of the first one. -/
def entriesAnswer (flipped : Bool) (answers : Record (Value → Bool)) (others : Record Value) :
    Bool :=
  if (Record.visible answers).length ≠ (Record.visible others).length then false
  else if flipped then
    ((Record.visible others).map fun (key, b) =>
      match Record.get? answers key with
      | some answer => answer b
      | none => false).all id
  else
    ((Record.visible answers).map fun (key, answer) =>
      match Record.get? others key with
      | some b => answer b
      | none => false).all id

private theorem compareEntries_pure {tests : Record (Value → Lookup Failure Bool)}
    {answers : Record (Value → Bool)} (h : AnswersLike tests answers) (flipped : Bool)
    {others : Record Value} (eager : Value.EagerFields others) :
    compareEntries flipped tests others = pure (entriesAnswer flipped answers others) := by
  have lengths : (Record.visible tests).length = (Record.visible answers).length :=
    List.Forall₂.length_eq h.visible
  unfold compareEntries entriesAnswer
  rw [lengths]
  by_cases sized : (Record.visible answers).length ≠ (Record.visible others).length
  · rw [if_pos sized, if_pos sized]
  rw [if_neg sized, if_neg sized]
  cases flipped with
  | true =>
      rw [if_pos rfl, if_pos rfl]
      refine allOf_pure (List.forall₂_map_left_iff.mpr (List.forall₂_map_right_iff.mpr ?_))
      refine List.forall₂_same.mpr fun entry mem => ?_
      have own : entry.2.Eager :=
        Value.eagerFields_iff.mp eager entry (List.mem_of_mem_filter mem)
      rcases h.get? entry.1 with ⟨left, right⟩ | ⟨test, answer, left, right, same⟩
      · simp only [left, right]
      · simp only [left, right]
        exact same entry.2 own
  | false =>
      rw [if_neg (by simp), if_neg (by simp)]
      refine allOf_pure (List.forall₂_map_left_iff.mpr (List.forall₂_map_right_iff.mpr ?_))
      refine List.Forall₂.imp (fun test answer same => ?_) h.visible
      obtain ⟨name, same⟩ := same
      cases found : Record.get? others test.1 with
      | none => simp only [found, ← name]
      | some b =>
          simp only [found, ← name]
          exact same b (eager.get? found)

private theorem compare_of_atom {a : Value} (ha : a.Eager)
    (h : ∀ (r : Resolver) (flipped : Bool) (b : Value), r.compare flipped a b =
      if a.isLazy || b.isLazy then r.compareForced flipped a b else pure (a.same b)) :
    ∃ answer : Bool → Value → Bool, ∀ (r : Resolver) (flipped : Bool) (b : Value), b.Eager →
      r.compare flipped a b = pure (answer flipped b) := by
  refine ⟨fun _ b => a.same b, fun r flipped b hb => ?_⟩
  rw [h, Value.isLazy_of_eager ha, Value.isLazy_of_eager hb]
  rfl

mutual

/-- Comparing values without lazy parts is a matter of the values alone. -/
private theorem compare_of_eager : ∀ {a : Value}, a.Eager → ∃ answer : Bool → Value → Bool,
    ∀ (r : Resolver) (flipped : Bool) (b : Value), b.Eager →
      r.compare flipped a b = pure (answer flipped b)
  -- The answer is built along the first value. Values without entries are compared as they are.
  | .list as, h => by
      obtain ⟨answer, items⟩ := compareItems_of_eager h
      refine ⟨fun flipped b => match b with
        | .list bs => if as.length = bs.length then answer flipped bs else false
        | b => (Value.list as).same b, fun r flipped b hb => ?_⟩
      cases b with
      | list bs =>
          simp only [compare]
          split
          · exact items r flipped bs hb
          · rfl
      | lazyContainer handle keys => exact hb.elim
      | lazyList handle length => exact hb.elim
      | _ => rfl
  | .container as, h => by
      obtain ⟨answers, same⟩ := comparers_of_eager h
      refine ⟨fun flipped b => match b with
        | .container bs => entriesAnswer flipped (answers !flipped) bs
        | .flags bs => entriesAnswer flipped (answers !flipped) bs
        | b => (Value.container as).same b, fun r flipped b hb => ?_⟩
      cases b with
      | container bs => exact compareEntries_pure (same r !flipped) flipped hb
      | flags bs => exact compareEntries_pure (same r !flipped) flipped hb
      | lazyContainer handle keys => exact hb.elim
      | lazyList handle length => exact hb.elim
      | _ => rfl
  | .flags as, h => by
      obtain ⟨answers, same⟩ := comparers_of_eager h
      refine ⟨fun flipped b => match b with
        | .container bs => entriesAnswer flipped (answers !flipped) bs
        | .flags bs => entriesAnswer flipped (answers !flipped) bs
        | b => (Value.flags as).same b, fun r flipped b hb => ?_⟩
      cases b with
      | container bs => exact compareEntries_pure (same r !flipped) flipped hb
      | flags bs => exact compareEntries_pure (same r !flipped) flipped hb
      | lazyContainer handle keys => exact hb.elim
      | lazyList handle length => exact hb.elim
      | _ => rfl
  | .lazyContainer _ _, h => h.elim
  | .lazyList _ _, h => h.elim
  | .none, h => compare_of_atom h fun _ _ _ => by simp only [compare]
  | .bool _, h => compare_of_atom h fun _ _ _ => by simp only [compare]
  | .int _, h => compare_of_atom h fun _ _ _ => by simp only [compare]
  | .float _, h => compare_of_atom h fun _ _ _ => by simp only [compare]
  | .bytes _, h => compare_of_atom h fun _ _ _ => by simp only [compare]
  | .str _, h => compare_of_atom h fun _ _ _ => by simp only [compare]

theorem compareItems_of_eager : ∀ {as : List Value}, Value.EagerItems as →
    ∃ answer : Bool → List Value → Bool, ∀ (r : Resolver) (flipped : Bool) (bs : List Value),
      Value.EagerItems bs → r.compareItems flipped as bs = pure (answer flipped bs)
  | [], _ => ⟨fun _ _ => true, fun _ _ _ _ => rfl⟩
  | a :: as, h => by
      obtain ⟨first, head⟩ := compare_of_eager h.1
      obtain ⟨later, tail⟩ := compareItems_of_eager h.2
      refine ⟨fun flipped bs => match bs with
        | b :: bs => first flipped b && later flipped bs
        | [] => true, fun r flipped bs hb => ?_⟩
      cases bs with
      | nil => rfl
      | cons b bs =>
          rw [compareItems, head r flipped b hb.1, tail r flipped bs hb.2]
          cases answer : first flipped b <;> simp [answer]

theorem comparers_of_eager : ∀ {fields : List (String × Value)}, Value.EagerFields fields →
    ∃ answers : Bool → Record (Value → Bool), ∀ (r : Resolver) (flipped : Bool),
      AnswersLike (r.comparers flipped fields) (answers flipped)
  | [], _ => ⟨fun _ => [], fun _ _ => .nil⟩
  | (key, value) :: rest, h => by
      obtain ⟨first, head⟩ := compare_of_eager h.1
      obtain ⟨later, tail⟩ := comparers_of_eager h.2
      exact ⟨fun flipped => (key, first flipped) :: later flipped, fun r flipped =>
        .cons ⟨rfl, fun b hb => head r flipped b hb⟩ (tail r flipped)⟩

end

theorem equal_of_eager {a b : Value} (ha : a.Eager) (hb : b.Eager) :
    ∃ answer, ∀ r : Resolver, r.equal a b = pure answer := by
  obtain ⟨answer, same⟩ := compare_of_eager ha
  exact ⟨answer false b, fun r => same r false b hb⟩

end Resolver

namespace Engine

theorem force_of_eager (e : Engine) {v : Value} (h : v.Eager) : e.resolver.force v = pure v :=
  Value.forceWith_of_eager _ h

end Engine

end BinaryFormat
