import BinaryFormat.Proofs.Reading

/-!
# Expressions over frames without lazy parts

Where no frame has a lazy part, an expression that calls no function of the caller either has a
value or fails for a reason of its own: no member is resolved on the way, so the store stays as it
is and no explicit failure comes up.
-/

namespace BinaryFormat

/-! ## Look-ups with an answer -/

/-- The look-up has one outcome whatever the store, which it leaves alone.  A result is `good`, an
error is `bad`. -/
def Lookup.Answers {ε α : Type} (good : α → Prop) (bad : ε → Prop) (x : Lookup ε α) : Prop :=
  (∃ a, good a ∧ x = pure a) ∨ ∃ failure, bad failure ∧ x = throw failure

/-- The fault is not one that a format raises on purpose. -/
def Fault.IsImplicit (fault : Fault) : Prop := fault.isExplicit = false

/-- The failure is not one that a format raises on purpose. -/
def Failure.IsImplicit (failure : Failure) : Prop := failure.fault.IsImplicit

namespace Lookup.Answers

variable {ε α β : Type} {good : α → Prop} {good' : β → Prop} {bad : ε → Prop} {x : Lookup ε α}

protected theorem pure {a : α} (h : good a) : Answers good bad (pure a) := .inl ⟨a, h, rfl⟩

protected theorem throw {failure : ε} (h : bad failure) :
    Answers good bad (throw failure : Lookup ε α) := .inr ⟨failure, h, rfl⟩

protected theorem ofExcept {result : Except ε α} (h : ∀ a, result = .ok a → good a)
    (h' : ∀ failure, result = .error failure → bad failure) :
    Answers good bad (Lookup.ofExcept result) := by
  cases result with
  | ok a => exact .pure (h a rfl)
  | error failure => exact .throw (h' failure rfl)

protected theorem bind {f : α → Lookup ε β} (h : Answers good bad x)
    (next : ∀ a, good a → Answers good' bad (f a)) : Answers good' bad (x >>= f) := by
  rcases h with ⟨a, ok, rfl⟩ | ⟨failure, wrong, rfl⟩
  · exact next a ok
  · exact .throw wrong

protected theorem atPath {x : Lookup Fault α} (h : Answers good Fault.IsImplicit x)
    (path : Path) : Answers good Failure.IsImplicit (x.atPath path) := by
  rcases h with ⟨a, ok, rfl⟩ | ⟨fault, wrong, rfl⟩
  · exact .pure ok
  · exact .throw wrong

protected theorem unplaced {x : Lookup Failure α} (h : Answers good Failure.IsImplicit x) :
    Answers good Fault.IsImplicit x.unplaced := by
  rcases h with ⟨a, ok, rfl⟩ | ⟨failure, wrong, rfl⟩
  · exact .pure ok
  · exact .throw wrong

end Lookup.Answers

/-! ## Reading values without lazy parts -/

namespace Resolver

open Lookup (Answers)

variable (r : Resolver)

private theorem answers_attr {v : Value} (h : v.Eager) (name : String) :
    Answers Value.Eager Fault.IsImplicit (r.attr v name) := by
  have entry {fields : Record Value} (eager : Value.EagerFields fields) :
      Answers Value.Eager Fault.IsImplicit (r.attr (.container fields) name) := by
    rw [attr, pure_bind]
    cases found : Record.get? fields name with
    | none => exact .throw rfl
    | some value => exact .pure (eager.get? found)
  cases v with
  | container fields => exact entry h
  | flags fields => exact entry h
  | lazyContainer handle keys => exact h.elim
  | lazyList handle length => exact h.elim
  | _ => exact .throw rfl

private theorem answers_position (index : Int) (length : Nat) :
    Answers (fun _ => True) Fault.IsImplicit (Lookup.ofExcept (position index length)) := by
  refine .ofExcept (fun _ _ => trivial) fun fault failed => ?_
  unfold position at failed
  dsimp only at failed
  generalize (if index < 0 then (length : Int) + index else index) = i at failed
  split at failed
  · cases failed
    rfl
  · cases failed

private theorem answers_item {v : Value} (h : v.Eager) (index : Int) :
    Answers Value.Eager Fault.IsImplicit (r.item v index) := by
  cases v with
  | list items =>
      refine .bind (answers_position index items.length) fun i _ => .pure ?_
      rw [List.getD_eq_getElem?_getD]
      cases found : items[i]? with
      | none => exact trivial
      | some item => exact Value.eagerItems_iff.mp h item (List.mem_of_getElem? found)
  | bytes data => exact .bind (answers_position index data.length) fun i _ => .pure trivial
  | lazyContainer handle keys => exact h.elim
  | lazyList handle length => exact h.elim
  | _ => exact .throw rfl

theorem answers_equal {a b : Value} (ha : a.Eager) (hb : b.Eager) :
    Answers (fun _ => True) Failure.IsImplicit (r.equal a b) := by
  obtain ⟨answer, same⟩ := equal_of_eager ha hb
  rw [same r]
  exact .pure trivial

end Resolver

/-! ## Expressions -/

/-- No frame of the stack has a lazy part. -/
def EagerFrames (frames : List (Record Value)) : Prop := ∀ frame ∈ frames, Value.EagerFields frame

private theorem EagerFrames.drop {frames : List (Record Value)} (h : EagerFrames frames) (k : Nat) :
    EagerFrames (frames.drop k) :=
  fun frame mem => h frame (List.mem_of_mem_drop mem)

/-- Nothing that an expression can see has a lazy part. -/
structure Scope.Eager (scope : Scope) : Prop where
  frames : EagerFrames scope.frames
  object : ∀ v, scope.object = some v → v.Eager
  list : ∀ items, scope.list = some items → Value.EagerItems items

/-- What the expression denotes has no lazy part. -/
def Denoted.Eager : Denoted → Prop
  | frame stack => EagerFrames stack
  | value v => v.Eager

namespace Denoted

private theorem Eager.toValue {d : Denoted} (h : d.Eager) : d.toValue.Eager := by
  cases d with
  | value v => exact h
  | frame stack =>
      cases stack with
      | nil => exact trivial
      | cons top rest => exact h top List.mem_cons_self

private theorem answers_ofFrame {frames stack : List (Record Value)} (clear : EagerFrames frames)
    (near : EagerFrames stack) (name : String) :
    Lookup.Answers Eager Fault.IsImplicit (Lookup.ofExcept (ofFrame frames stack name)) := by
  unfold ofFrame
  split
  · match stack, near with
    | _ :: parent :: rest, near =>
        exact .pure fun frame mem => near frame (List.mem_cons_of_mem _ mem)
    | [_], _ => exact .throw rfl
    | [], _ => exact .throw rfl
  split
  · exact .pure (clear.drop _)
  split
  · exact .pure (clear.drop _)
  split
  · cases found : stack.findSome? fun f => Record.get? f name with
    | none => exact .throw rfl
    | some v =>
        obtain ⟨frame, mem, here⟩ := List.exists_of_findSome?_eq_some found
        exact .pure ((near frame mem).get? here)
  · cases found : Record.get? (stack.headD []) name with
    | none => exact .throw rfl
    | some v =>
        cases stack with
        | nil => cases found
        | cons top rest => exact .pure ((near top List.mem_cons_self).get? found)

end Denoted

namespace Expr

open Lookup (Answers)

mutual

/-- The expression calls no function of the caller, and its literals have no lazy parts. -/
def Hostless : Expr → Prop
  | const v => v.Eager
  | attr base _ => Hostless base
  | index base key => Hostless base ∧ Hostless key
  | binary _ left right => Hostless left ∧ Hostless right
  | unary _ operand => Hostless operand
  | call _ args => HostlessAll args
  | host _ => False
  | this => True
  | object => True
  | list => True

def HostlessAll : List Expr → Prop
  | [] => True
  | x :: rest => Hostless x ∧ HostlessAll rest

end

private theorem answers_result {x : Except Unevaluable Value} (h : ∀ v, x = .ok v → v.Eager) :
    Answers Value.Eager Fault.IsImplicit (pureResult x) := by
  cases x with
  | error cause => exact .throw rfl
  | ok v => exact .pure (h v rfl)

variable (e : Engine)

private theorem answers_elements {v : Value} (h : v.Eager) :
    Answers Value.EagerItems Fault.IsImplicit (elements e.resolver v) := by
  have forced : Answers (· = v) Fault.IsImplicit (e.resolver.force v).unplaced := by
    rw [Engine.force_of_eager e h]
    exact .unplaced (.pure rfl)
  refine .bind forced fun w same => ?_
  subst same
  cases w with
  | list items => exact .pure h
  | bytes data => exact .pure (Value.eagerItems_ofBytes data)
  | _ => exact .throw rfl

private theorem answers_applyBinary {a b : Value} (ha : a.Eager) (hb : b.Eager) (op : BinaryOp) :
    Answers Value.Eager Fault.IsImplicit (applyBinary e.resolver op a b) := by
  have equal := (e.resolver.answers_equal ha hb).unplaced
  cases op with
  | eq => exact .bind equal fun _ _ => .pure trivial
  | ne => exact .bind equal fun _ _ => .pure trivial
  | _ => exact answers_result fun _ result => eager_of_apply result

private theorem answers_onlyArgument {values : List Value} (h : Value.EagerItems values)
    (helper : Helper) : Answers Value.Eager Fault.IsImplicit (onlyArgument helper values) := by
  cases values with
  | nil => exact .throw rfl
  | cons v rest => exact .pure h.1

private theorem answers_candidates {values : List Value} (h : Value.EagerItems values) :
    Answers Value.EagerItems Fault.IsImplicit (candidates e.resolver values) := by
  match values with
  | [] => exact .pure h
  | [v] => exact answers_elements e h.1
  | v :: w :: rest => exact .pure h

private theorem answers_applyHelper {values : List Value} (h : Value.EagerItems values)
    (helper : Helper) :
    Answers Value.Eager Fault.IsImplicit (applyHelper e.resolver helper values) := by
  have only := answers_onlyArgument h helper
  cases helper with
  | len =>
      refine .bind only fun v _ => ?_
      cases v.length? with
      | none => exact .throw rfl
      | some n => exact .pure trivial
  | abs => exact .bind only fun v _ => answers_result fun _ result => eager_of_abs result
  | sum =>
      exact .bind only fun v hv => .bind (answers_elements e hv) fun items eager =>
        answers_result fun _ result => eager_of_sum eager result
  | min =>
      exact .bind (answers_candidates e h) fun items eager =>
        answers_result fun _ result => eager_of_extreme eager result
  | max =>
      exact .bind (answers_candidates e h) fun items eager =>
        answers_result fun _ result => eager_of_extreme eager result

variable {scope : Scope}

private theorem answers_member (clear : EagerFrames scope.frames) {base : Denoted} (h : base.Eager)
    (name : String) :
    Answers Denoted.Eager Fault.IsImplicit (member e.resolver scope base name) := by
  cases base with
  | frame stack => exact Denoted.answers_ofFrame clear h name
  | value v => exact .bind (e.resolver.answers_attr h name) fun w hw => .pure hw

private theorem answers_atKey (clear : EagerFrames scope.frames) {base : Denoted} (h : base.Eager)
    (key : Value) :
    Answers Denoted.Eager Fault.IsImplicit (atKey e.resolver scope base key) := by
  cases key with
  | str name => exact answers_member e clear h name
  | int i =>
      cases base with
      | frame stack => exact .throw rfl
      | value v => exact .bind (e.resolver.answers_item h i) fun w hw => .pure hw
  | _ => exact .throw rfl

/-! ## Values -/

mutual

/-- Over a scope without lazy parts an expression denotes something without lazy parts, or fails
for a reason of its own. -/
private theorem answers_denote (clear : scope.Eager) : ∀ {x : Expr}, x.Hostless →
    Answers Denoted.Eager Fault.IsImplicit (denote e.resolver scope x)
  | const v, h => by
      rw [denote]
      exact .pure h
  | .this, _ => by
      rw [denote]
      exact .pure clear.frames
  | .object, _ => by
      rw [denote]
      cases bound : scope.object with
      | none => exact .throw rfl
      | some v => exact .pure (clear.object v bound)
  | .list, _ => by
      rw [denote]
      cases bound : scope.list with
      | none => exact .throw rfl
      | some items => exact .pure (clear.list items bound)
  | attr base name, h => by
      rw [denote]
      exact .bind (answers_denote clear h) fun d hd => answers_member e clear.frames hd name
  | index base key, h => by
      rw [denote]
      exact .bind (answers_denote clear h.1) fun d hd => .bind (answers_denote clear h.2) fun k _ =>
        answers_atKey e clear.frames hd k.toValue
  | binary op left right, h => by
      have first := answers_denote clear h.1
      have second := answers_denote clear h.2
      cases op with
      | and =>
          rw [denote]
          refine .bind first fun a _ => ?_
          split
          · exact .bind second fun b _ => .pure trivial
          · exact .pure trivial
      | or =>
          rw [denote]
          refine .bind first fun a _ => ?_
          split
          · exact .pure trivial
          · exact .bind second fun b _ => .pure trivial
      | _ =>
          simp only [denote]
          exact .bind first fun a ha => .bind second fun b hb =>
            .bind (answers_applyBinary e ha.toValue hb.toValue _) fun v hv => .pure hv
  | unary op operand, h => by
      rw [denote]
      exact .bind (answers_denote clear (x := operand) h) fun d _ =>
        .bind (answers_result fun _ result => eager_of_unary result) fun v hv => .pure hv
  | call helper args, h => by
      rw [denote]
      exact .bind (answers_denoteAll clear h) fun values eager =>
        .bind (answers_applyHelper e eager helper) fun v hv => .pure hv
  | host run, h => h.elim

theorem answers_denoteAll (clear : scope.Eager) : ∀ {xs : List Expr}, HostlessAll xs →
    Answers Value.EagerItems Fault.IsImplicit (denoteAll e.resolver scope xs)
  | [], _ => by
      rw [denoteAll]
      exact .pure trivial
  | x :: rest, h => by
      rw [denoteAll]
      exact .bind (answers_denote clear h.1) fun d hd => .bind (answers_denoteAll clear h.2)
        fun values eager => .pure ⟨hd.toValue, eager⟩

end

section Evaluation

variable (clear : scope.Eager) {x : Expr} (plain : x.Hostless) (path : Path)
include clear plain

theorem answers_evaluate :
    Answers Value.Eager Failure.IsImplicit (evaluate e.resolver scope path x) := by
  have denoted := (answers_denote e clear plain).atPath path
  cases x with
  | host run => exact plain.elim
  | _ =>
      simp only [evaluate]
      exact .bind denoted fun d hd => .pure hd.toValue

private theorem answers_evaluateInt :
    Answers (fun _ => True) Failure.IsImplicit (evaluateInt e.resolver scope path x) := by
  refine .bind (answers_evaluate e clear plain path) fun v _ => ?_
  cases v.int? with
  | none => exact .throw rfl
  | some n => exact .pure trivial

theorem answers_evaluateSize :
    Answers (fun _ => True) Failure.IsImplicit (evaluateSize e.resolver scope path x) := by
  refine .bind (answers_evaluateInt e clear plain path) fun n _ => ?_
  by_cases fits : 0 ≤ n ∧ n ≤ Value.maxSize
  · rw [if_pos fits]
    exact .pure trivial
  · rw [if_neg fits]
    exact .throw rfl

end Evaluation

end Expr

end BinaryFormat
