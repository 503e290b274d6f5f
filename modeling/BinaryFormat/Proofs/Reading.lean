import BinaryFormat.Proofs.Eager

/-!
# Expressions that read named fields

An expression that reaches the frames through names alone, and finds nothing
lazy there, has one outcome whatever the resolver and the store.  Its value
stays when frames gain entries or lose entries that it does not read.
-/

namespace BinaryFormat

/-- Names that a path does not look up among the entries of a frame. -/
def Record.isReserved (name : String) : Bool :=
  name == "_" || name == "_root" || name == "_params" || name == "_index"

/-- The names that may be read in each of the innermost frames, innermost first. -/
abbrev Reach : Type := List (List String)

namespace Reach

/-- What may be read in the first frames stands in the second ones, too, and nothing that may
be read there is lazy. -/
def Carries : Reach → List (Record Value) → List (Record Value) → Prop
  | names :: near, f :: fs, g :: gs =>
      (∀ name ∈ names, Record.isReserved name = false → ∀ v,
        (Record.get? f name = some v → Record.get? g name = some v) ∧
          (Record.get? g name = some v → v.Eager)) ∧ Carries near fs gs
  | [], _, _ => True
  | _, [], [] => True
  | _, _, _ => False

private theorem Carries.get {near : Reach} {fs gs : List (Record Value)} (h : near.Carries fs gs)
    {k : Nat} {names : List String} (reach : near[k]? = some names) {name : String}
    (mem : name ∈ names) (plain : Record.isReserved name = false) {v : Value}
    (found : Record.get? ((fs.drop k).headD []) name = some v) :
    k < fs.length ∧ k < gs.length ∧ v.Eager ∧
      Record.get? ((gs.drop k).headD []) name = some v := by
  induction near generalizing fs gs k with
  | nil => cases reach
  | cons first near ih =>
      cases fs with
      | nil =>
          rw [List.drop_nil] at found
          cases found
      | cons f fs =>
          cases gs with
          | nil => exact h.elim
          | cons g gs =>
              cases k with
              | zero =>
                  cases reach
                  obtain ⟨there, eager⟩ := h.1 name mem plain v
                  exact ⟨Nat.succ_pos _, Nat.succ_pos _, eager (there found), there found⟩
              | succ k =>
                  obtain ⟨low, low', rest⟩ := ih h.2 reach found
                  exact ⟨Nat.succ_lt_succ low, Nat.succ_lt_succ low', rest⟩

theorem Carries.self {near : Reach} {fs gs : List (Record Value)} (h : near.Carries fs gs) :
    near.Carries fs fs := by
  induction near generalizing fs gs with
  | nil => trivial
  | cons names near ih =>
      cases fs with
      | nil => trivial
      | cons f fs =>
          cases gs with
          | nil => exact h.elim
          | cons g gs =>
              refine ⟨fun name mem plain v => ⟨id, fun found => ?_⟩, ih h.2⟩
              obtain ⟨there, eager⟩ := h.1 name mem plain v
              exact eager (there found)

theorem Carries.target {near : Reach} {fs gs : List (Record Value)} (h : near.Carries fs gs) :
    near.Carries gs gs := by
  induction near generalizing fs gs with
  | nil => trivial
  | cons names near ih =>
      cases gs with
      | nil => trivial
      | cons g gs =>
          cases fs with
          | nil => exact h.elim
          | cons f fs =>
              exact ⟨fun name mem plain v => ⟨id, (h.1 name mem plain v).2⟩, ih h.2⟩

end Reach

/-! ## Expressions -/

namespace Lookup

variable {ε α β : Type}

end Lookup

namespace Expr

/-- How far below the innermost frame the frame lies that the expression stands for, if it
stands for one. -/
def frame? : Expr → Option Nat
  | this => some 0
  | attr base "_" => base.frame?.map (· + 1)
  | _ => none

mutual

/-- The expression looks at frames through names that may be read there, and at nothing
else outside of itself.  A function of the caller is taken at its word. -/
def Reads (near : Reach) : Expr → Prop
  | const v => v.Eager
  | attr base name =>
    match base.frame? with
    | some k => Record.isReserved name = false ∧ ∃ names, near[k]? = some names ∧ name ∈ names
    | none => Reads near base
  | index base key => Reads near base ∧ Reads near key
  | binary _ left right => Reads near left ∧ Reads near right
  | unary _ operand => Reads near operand
  | call _ args => ReadsAll near args
  | host run => ∀ fs v, run ⟨fs, none, none⟩ = .ok v → v.Eager ∧
      ∀ gs, near.Carries fs gs → run ⟨gs, none, none⟩ = .ok v
  | this => False
  | object => False
  | list => False

def ReadsAll (near : Reach) : List Expr → Prop
  | [] => True
  | x :: rest => Reads near x ∧ ReadsAll near rest

end

/-- The frame that a path of parents leads to, unless it leads below the last one. -/
private theorem denote_frame (r : Resolver) {fs : List (Record Value)} : ∀ {x : Expr} {k : Nat},
    x.frame? = some k → denote r ⟨fs, none, none⟩ x =
      if k = 0 ∨ k < fs.length then pure (.frame (fs.drop k))
      else throw (.unevaluable .noParent) := by
  intro x
  fun_induction frame? x with
  | case1 =>
      rintro k ⟨rfl⟩
      rfl
  | case2 base ih =>
      intro k h
      obtain ⟨j, inner, rfl⟩ := Option.map_eq_some_iff.mp h
      rw [denote, ih inner]
      by_cases low : j = 0 ∨ j < fs.length
      · rw [if_pos low]
        by_cases next : j + 1 < fs.length
        · have here : fs.drop j = fs[j] :: fs[j + 1] :: fs.drop (j + 1 + 1) := by
            rw [List.drop_eq_getElem_cons (by omega), List.drop_eq_getElem_cons next]
          have there : fs.drop (j + 1) = fs[j + 1] :: fs.drop (j + 1 + 1) :=
            List.drop_eq_getElem_cons next
          rw [if_pos (Or.inr next), here, there]
          rfl
        · rw [if_neg (by omega)]
          have short : fs.drop j = [] ∨ ∃ f, fs.drop j = [f] := by
            have bound : (fs.drop j).length ≤ 1 := by
              rw [List.length_drop]
              omega
            rcases cut : fs.drop j with - | ⟨f, - | ⟨g, rest⟩⟩
            · exact Or.inl rfl
            · exact Or.inr ⟨f, rfl⟩
            · rw [cut] at bound
              simp at bound
          rcases short with cut | ⟨f, cut⟩ <;> rw [cut] <;> rfl
      · rw [if_neg low, if_neg (by omega)]
        rfl
  | case3 x _ _ => intro k h; cases h

theorem ofFrame_of_plain {name : String} (plain : Record.isReserved name = false)
    (frames stack : List (Record Value)) :
    Denoted.ofFrame frames stack name =
      match Record.get? (stack.headD []) name with
      | some v => .ok (.value v)
      | none => .error (.unevaluable (.noVariable name)) := by
  simp only [Record.isReserved, Bool.or_eq_false_iff, beq_eq_false_iff_ne] at plain
  obtain ⟨⟨⟨parent, root⟩, params⟩, index⟩ := plain
  cases found : Record.get? (stack.headD []) name <;>
    simp only [Denoted.ofFrame, parent, root, params, index, if_false, found]

/-! ## Operators -/

section Operators

variable {a b v : Value} {near : Reach}

private theorem eager_of_numbers {op : BinaryOp} (h : Arithmetic.numbers op a b = .ok v) :
    v.Eager := by
  unfold Arithmetic.numbers at h
  dsimp only at h
  generalize (_ || _) = real at h
  cases real with
  | true =>
      rw [if_pos rfl] at h
      split at h
      · split at h
        · cases h
          exact trivial
        · cases h
      · cases h
  | false =>
      rw [if_neg Bool.false_ne_true] at h
      split at h
      · next x y _ _ =>
        cases result : Arithmetic.onInts op x y with
        | error cause =>
            rw [result] at h
            cases h
        | ok n =>
            rw [result] at h
            cases h
            exact trivial
      · cases h

theorem eager_of_apply {op : BinaryOp} (h : Arithmetic.apply op a b = .ok v) : v.Eager := by
  unfold Arithmetic.apply at h
  split at h
  · split at h
    · cases h
      exact trivial
    · cases h
  split at h
  · split at h
    · cases h
      exact trivial
    · exact eager_of_numbers h
  · split at h
    · cases h
      exact trivial
    · exact eager_of_numbers h
  · split at h
    · cases h
      exact trivial
    · exact eager_of_numbers h
  · exact eager_of_numbers h

theorem eager_of_unary {op : UnaryOp} (h : Arithmetic.unary op a = .ok v) : v.Eager := by
  unfold Arithmetic.unary at h
  split at h
  · split at h
    · cases h
      exact trivial
    · cases h
  all_goals
    cases h
    try exact trivial

theorem eager_of_abs (h : Arithmetic.abs a = .ok v) : v.Eager := by
  unfold Arithmetic.abs at h
  split at h
  · split at h
    · cases h
      exact trivial
    · cases h
  all_goals
    cases h
    try exact trivial

private theorem eager_of_foldlM {f : Value → Value → Except Unevaluable Value} {items : List Value}
    (step : ∀ a ∈ items, ∀ best w : Value, best.Eager → a.Eager → f best a = .ok w → w.Eager)
    (eager : Value.EagerItems items) {first : Value} (h : first.Eager)
    (result : items.foldlM f first = .ok v) : v.Eager := by
  induction items generalizing first with
  | nil =>
      cases result
      exact h
  | cons item rest ih =>
      rw [List.foldlM_cons] at result
      cases next : f first item with
      | error cause =>
          rw [next] at result
          cases result
      | ok w =>
          rw [next] at result
          exact ih (fun a mem => step a (List.mem_cons_of_mem item mem)) eager.2
            (step item List.mem_cons_self first w h eager.1 next) result

theorem eager_of_sum {items : List Value} (eager : Value.EagerItems items)
    (h : Arithmetic.sum items = .ok v) : v.Eager :=
  eager_of_foldlM (fun _ _ _ _ _ _ next => eager_of_apply next) eager
    (show (Value.int 0).Eager from trivial) h

theorem eager_of_extreme {name : String} {wanted : Ordering} {items : List Value}
    (eager : Value.EagerItems items) (h : Arithmetic.extreme name wanted items = .ok v) :
    v.Eager := by
  cases items with
  | nil => cases h
  | cons first rest =>
      refine eager_of_foldlM (fun a _ best w hb ha next => ?_) eager.2 eager.1 h
      split at next
      · cases next
        split
        · exact ha
        · exact hb
      · cases next

end Operators

end Expr

/-! ## Look-ups that carry over -/

/-- The first look-up has one outcome, whatever the engine and the store.  If that is a
value, it is good and the second look-up has it, too. -/
def Lookup.Carried {ε α : Type} (good : α → Prop) (x y : Engine → Lookup ε α) : Prop :=
  ∃ result : Except ε α, (∀ e, x e = Lookup.ofExcept result) ∧
    ∀ a, result = .ok a → good a ∧ ∀ e, y e = pure a

namespace Lookup.Carried

variable {ε α β : Type} {good : α → Prop} {good' : β → Prop}
  {x y : Engine → Lookup ε α} {f g : Engine → α → Lookup ε β}

protected theorem ofExcept {result : Except ε α} (h : ∀ a, result = .ok a → good a) :
    Carried good (fun _ => Lookup.ofExcept result) (fun _ => Lookup.ofExcept result) := by
  refine ⟨result, fun _ => rfl, fun a ok => ⟨h a ok, fun _ => ?_⟩⟩
  rw [ok]
  rfl

protected theorem pure {a : α} (h : good a) :
    Carried good (fun _ => (pure a : Lookup ε α)) (fun _ => pure a) :=
  ⟨.ok a, fun _ => rfl, fun _ ok => by cases ok; exact ⟨h, fun _ => rfl⟩⟩

protected theorem throw (failure failure' : ε) :
    Carried good (fun _ => (throw failure : Lookup ε α))
      (fun _ => throw failure') :=
  ⟨.error failure, fun _ => rfl, fun _ ok => nomatch ok⟩

protected theorem bind (h : Carried good x y)
    (next : ∀ a, good a → Carried good' (fun e => f e a) (fun e => g e a)) :
    Carried good' (fun e => x e >>= f e) (fun e => y e >>= g e) := by
  obtain ⟨result, first, carried⟩ := h
  cases result with
  | error failure =>
      refine ⟨.error failure, fun e => ?_, fun _ ok => nomatch ok⟩
      beta_reduce
      rw [first e]
      rfl
  | ok a =>
      obtain ⟨ok, second⟩ := carried a rfl
      obtain ⟨result, last, carried⟩ := next a ok
      refine ⟨result, fun e => ?_, fun b eq => ⟨(carried b eq).1, fun e => ?_⟩⟩
      · beta_reduce
        rw [first e]
        exact last e
      · beta_reduce
        rw [second e]
        exact (carried b eq).2 e

theorem imp {good'' : α → Prop} (h : Carried good x y) (weaker : ∀ a, good a → good'' a) :
    Carried good'' x y := by
  obtain ⟨result, first, carried⟩ := h
  exact ⟨result, first, fun a ok => ⟨weaker a (carried a ok).1, (carried a ok).2⟩⟩

protected theorem atPath {x y : Engine → Lookup Fault α} (h : Carried good x y)
    (path path' : Path) :
    Carried good (fun e => (x e).atPath path) (fun e => (y e).atPath path') := by
  obtain ⟨result, first, carried⟩ := h
  refine ⟨result.mapError (·.atPath path), fun e => ?_, fun a ok => ?_⟩
  · beta_reduce
    rw [first e]
    cases result <;> rfl
  · cases result with
    | error fault => cases ok
    | ok b =>
        cases ok
        refine ⟨(carried a rfl).1, fun e => ?_⟩
        beta_reduce
        rw [(carried a rfl).2 e]
        rfl

protected theorem unplaced {x y : Engine → Lookup Failure α} (h : Carried good x y) :
    Carried good (fun e => (x e).unplaced) (fun e => (y e).unplaced) := by
  obtain ⟨result, first, carried⟩ := h
  refine ⟨result.mapError (·.fault), fun e => ?_, fun a ok => ?_⟩
  · beta_reduce
    rw [first e]
    cases result <;> rfl
  · cases result with
    | error fault => cases ok
    | ok b =>
        cases ok
        refine ⟨(carried a rfl).1, fun e => ?_⟩
        beta_reduce
        rw [(carried a rfl).2 e]
        rfl

theorem elim (h : Carried good x y) (e e' : Engine) (store : LazyStore) :
    (∃ a, good a ∧ x e store = .ok a store ∧ ∀ store', y e' store' = .ok a store') ∨
      ∃ failure, x e store = .error failure store := by
  obtain ⟨result, first, carried⟩ := h
  rw [first e]
  cases result with
  | error failure => exact Or.inr ⟨failure, rfl⟩
  | ok a =>
      refine Or.inl ⟨a, (carried a rfl).1, rfl, fun store' => ?_⟩
      rw [(carried a rfl).2 e']
      rfl

end Lookup.Carried

/-! ## Reading values without lazy parts -/

namespace Resolver

open Lookup (Carried)

private theorem carried_attr {v : Value} (h : v.Eager) (name : String) :
    Carried Value.Eager (fun e => e.resolver.attr v name) (fun e => e.resolver.attr v name) := by
  have entry {fields : Record Value} (eager : Value.EagerFields fields) :
      Carried (ε := Fault) Value.Eager
        (fun _ => match Record.get? fields name with
          | some value => pure value
          | none => throw (.unevaluable (.noField name)))
        (fun _ => match Record.get? fields name with
          | some value => pure value
          | none => throw (.unevaluable (.noField name))) := by
    cases found : Record.get? fields name with
    | none => exact .throw _ _
    | some value => exact .pure (eager.get? found)
  cases v with
  | container fields => exact entry h
  | flags fields => exact entry h
  | lazyContainer handle keys => exact h.elim
  | lazyList handle length => exact h.elim
  | _ => exact .throw _ _

private theorem carried_item {v : Value} (h : v.Eager) (index : Int) :
    Carried Value.Eager (fun e => e.resolver.item v index) (fun e => e.resolver.item v index) := by
  cases v with
  | list items =>
      refine .bind (.ofExcept fun _ _ => trivial) fun i _ => .pure ?_
      rw [List.getD_eq_getElem?_getD]
      cases found : items[i]? with
      | none => exact trivial
      | some item => exact Value.eagerItems_iff.mp h item (List.mem_of_getElem? found)
  | bytes data => exact .bind (.ofExcept fun _ _ => trivial) fun i _ => .pure trivial
  | lazyContainer handle keys => exact h.elim
  | lazyList handle length => exact h.elim
  | _ => exact .throw _ _

theorem carried_equal {a b : Value} (ha : a.Eager) (hb : b.Eager) :
    Carried (fun _ => True) (fun e => e.resolver.equal a b) (fun e => e.resolver.equal a b) := by
  obtain ⟨answer, same⟩ := equal_of_eager ha hb
  refine ⟨.ok answer, fun e => same e.resolver, fun _ ok => ?_⟩
  cases ok
  exact ⟨trivial, fun e => same e.resolver⟩

end Resolver

namespace Expr

open Lookup (Carried)

private theorem carried_result {x : Except Unevaluable Value} (h : ∀ v, x = .ok v → v.Eager) :
    Carried Value.Eager (fun _ => pureResult x) (fun _ => pureResult x) := by
  cases x with
  | error cause => exact .throw _ _
  | ok v => exact .pure (h v rfl)

private theorem carried_elements {v : Value} (h : v.Eager) :
    Carried Value.EagerItems (fun e => elements e.resolver v) (fun e => elements e.resolver v) := by
  have forced : Carried (fun w => w = v) (fun e => (e.resolver.force v).unplaced)
      (fun e => (e.resolver.force v).unplaced) := by
    simp only [Engine.force_of_eager _ h]
    exact Carried.unplaced (.pure rfl)
  refine .bind forced fun w same => ?_
  subst same
  cases w with
  | list items => exact .pure h
  | bytes data => exact .pure (Value.eagerItems_ofBytes data)
  | _ => exact .throw _ _

private theorem carried_applyBinary {a b : Value} (ha : a.Eager) (hb : b.Eager) (op : BinaryOp) :
    Carried Value.Eager (fun e => applyBinary e.resolver op a b)
      (fun e => applyBinary e.resolver op a b) := by
  have equal := (Resolver.carried_equal ha hb).unplaced
  cases op with
  | eq => exact .bind equal fun _ _ => .pure trivial
  | ne => exact .bind equal fun _ _ => .pure trivial
  | _ => exact carried_result fun _ result => eager_of_apply result

private theorem carried_onlyArgument {values : List Value} (h : Value.EagerItems values)
    (helper : Helper) :
    Carried Value.Eager (fun _ => onlyArgument helper values)
      (fun _ => onlyArgument helper values) := by
  cases values with
  | nil => exact .throw _ _
  | cons v rest => exact .pure h.1

private theorem carried_candidates {values : List Value} (h : Value.EagerItems values) :
    Carried Value.EagerItems (fun e => candidates e.resolver values)
      (fun e => candidates e.resolver values) := by
  match values with
  | [] => exact .pure h
  | [v] => exact carried_elements h.1
  | v :: w :: rest => exact .pure h

private theorem carried_applyHelper {values : List Value} (h : Value.EagerItems values)
    (helper : Helper) :
    Carried Value.Eager (fun e => applyHelper e.resolver helper values)
      (fun e => applyHelper e.resolver helper values) := by
  have only := carried_onlyArgument h helper
  cases helper with
  | len =>
      refine .bind only fun v _ => ?_
      cases v.length? with
      | none => exact .throw _ _
      | some n => exact .pure trivial
  | abs => exact .bind only fun v _ => carried_result fun _ result => eager_of_abs result
  | sum =>
      exact .bind only fun v hv => .bind (carried_elements hv) fun items eager =>
        carried_result fun _ result => eager_of_sum eager result
  | min =>
      exact .bind (carried_candidates h) fun items eager =>
        carried_result fun _ result => eager_of_extreme eager result
  | max =>
      exact .bind (carried_candidates h) fun items eager =>
        carried_result fun _ result => eager_of_extreme eager result

/-- Stands for a value without lazy parts, not for a frame. -/
def Plainly (d : Denoted) : Prop := ∃ v : Value, v.Eager ∧ d = .value v

private theorem carried_entry {near : Reach} {fs gs : List (Record Value)} (h : near.Carries fs gs)
    {base : Expr} {k : Nat} (frame : base.frame? = some k) {name : String}
    (plain : Record.isReserved name = false) {names : List String}
    (reach : near[k]? = some names) (mem : name ∈ names) :
    Carried Plainly (fun e => denote e.resolver ⟨fs, none, none⟩ (attr base name))
      (fun e => denote e.resolver ⟨gs, none, none⟩ (attr base name)) := by
  have shape (r : Resolver) (fs : List (Record Value)) :
      denote r ⟨fs, none, none⟩ (attr base name) =
        if k = 0 ∨ k < fs.length then
          Lookup.ofExcept (Denoted.ofFrame fs (fs.drop k) name)
        else throw (.unevaluable .noParent) := by
    rw [denote, denote_frame r frame]
    split <;> rfl
  simp only [shape]
  rw [ofFrame_of_plain plain, ofFrame_of_plain plain]
  cases found : Record.get? ((fs.drop k).headD []) name with
  | none =>
      refine ⟨.error (if k = 0 ∨ k < fs.length then .unevaluable (.noVariable name)
        else .unevaluable .noParent), fun e => ?_, fun _ ok => by cases ok⟩
      split <;> rfl
  | some v =>
      obtain ⟨low, low', eager, there⟩ := h.get reach mem plain found
      rw [there, if_pos (Or.inr low), if_pos (Or.inr low')]
      exact .pure ⟨v, eager, rfl⟩

mutual

/-- An expression over names that carry over has the same value in both scopes. -/
private theorem carried_denote {near : Reach} {fs gs : List (Record Value)}
    (h : near.Carries fs gs) :
    ∀ {x : Expr}, x.Reads near → Carried Plainly (fun e => denote e.resolver ⟨fs, none, none⟩ x)
      (fun e => denote e.resolver ⟨gs, none, none⟩ x)
  | const v, eager => .pure ⟨v, eager, rfl⟩
  | attr base name, reads => by
      cases frame : base.frame? with
      | some k =>
          simp only [Reads, frame] at reads
          obtain ⟨plain, names, reach, mem⟩ := reads
          exact carried_entry h frame plain reach mem
      | none =>
          simp only [Reads, frame] at reads
          have inner := carried_denote h reads
          simp only [denote]
          refine .bind inner fun d plain => ?_
          obtain ⟨v, eager, rfl⟩ := plain
          exact .bind (Resolver.carried_attr eager name) fun w hw => .pure ⟨w, hw, rfl⟩
  | index base key, reads => by
      have inner := carried_denote h reads.1
      have place := carried_denote h reads.2
      simp only [denote]
      refine .bind inner fun d plain => .bind place fun k found => ?_
      obtain ⟨v, eager, rfl⟩ := plain
      obtain ⟨key, -, rfl⟩ := found
      cases key with
      | str name =>
          exact .bind (Resolver.carried_attr eager name) fun w hw => .pure ⟨w, hw, rfl⟩
      | int i => exact .bind (Resolver.carried_item eager i) fun w hw => .pure ⟨w, hw, rfl⟩
      | _ => exact .throw _ _
  | binary op left right, reads => by
      have first := carried_denote h reads.1
      have second := carried_denote h reads.2
      cases op with
      | and =>
          simp only [denote]
          refine .bind first fun a _ => ?_
          split
          · exact .bind second fun b _ => .pure ⟨.bool _, trivial, rfl⟩
          · exact .pure ⟨.bool _, trivial, rfl⟩
      | or =>
          simp only [denote]
          refine .bind first fun a _ => ?_
          split
          · exact .pure ⟨.bool _, trivial, rfl⟩
          · exact .bind second fun b _ => .pure ⟨.bool _, trivial, rfl⟩
      | _ =>
          simp only [denote]
          refine .bind first fun a ha => .bind second fun b hb => ?_
          obtain ⟨v, hv, rfl⟩ := ha
          obtain ⟨w, hw, rfl⟩ := hb
          exact .bind (carried_applyBinary hv hw _) fun u hu => .pure ⟨u, hu, rfl⟩
  | unary op operand, reads => by
      have inner := carried_denote h (x := operand) reads
      simp only [denote]
      exact .bind inner fun d _ => .bind (carried_result fun _ result => eager_of_unary result)
        fun w hw => .pure ⟨w, hw, rfl⟩
  | call helper args, reads => by
      have inner := carried_denoteAll h reads
      simp only [denote]
      exact .bind inner fun values eager => .bind (carried_applyHelper eager helper)
        fun w hw => .pure ⟨w, hw, rfl⟩
  | host run, reads => by
      simp only [denote]
      cases outcome : run ⟨fs, none, none⟩ with
      | error failure =>
          exact ⟨.error failure.fault, fun _ => rfl, fun _ ok => nomatch ok⟩
      | ok v =>
          obtain ⟨eager, there⟩ := reads fs v outcome
          rw [there gs h]
          exact .pure ⟨v, eager, rfl⟩
  | this, reads => reads.elim
  | object, reads => reads.elim
  | list, reads => reads.elim

theorem carried_denoteAll {near : Reach} {fs gs : List (Record Value)}
    (h : near.Carries fs gs) : ∀ {xs : List Expr}, ReadsAll near xs →
      Carried Value.EagerItems (fun e => denoteAll e.resolver ⟨fs, none, none⟩ xs)
        (fun e => denoteAll e.resolver ⟨gs, none, none⟩ xs)
  | [], _ => .pure trivial
  | x :: rest, reads => by
      have first := carried_denote h reads.1
      have later := carried_denoteAll h reads.2
      simp only [denoteAll]
      refine .bind first fun d plain => .bind later fun values eager => ?_
      obtain ⟨v, hv, rfl⟩ := plain
      exact .pure ⟨hv, eager⟩

end

/-! ## Evaluation -/

section Evaluation

variable {near : Reach} {fs gs : List (Record Value)} (h : near.Carries fs gs) {x : Expr}
  (reads : x.Reads near) (path path' : Path)
include h reads

theorem carried_evaluate :
    Carried Value.Eager (fun e => evaluate e.resolver ⟨fs, none, none⟩ path x)
      (fun e => evaluate e.resolver ⟨gs, none, none⟩ path' x) := by
  have denoted := (carried_denote h reads).atPath path path'
  cases x with
  | host run =>
      simp only [evaluate]
      cases outcome : run ⟨fs, none, none⟩ with
      | error failure => exact ⟨.error failure, fun _ => rfl, fun _ ok => by cases ok⟩
      | ok v =>
          obtain ⟨eager, there⟩ := reads fs v outcome
          rw [there gs h]
          exact .pure eager
  | _ =>
      simp only [evaluate]
      refine .bind denoted fun d plain => ?_
      obtain ⟨v, eager, rfl⟩ := plain
      exact .pure eager

private theorem carried_evaluateInt :
    Carried (fun _ => True) (fun e => evaluateInt e.resolver ⟨fs, none, none⟩ path x)
      (fun e => evaluateInt e.resolver ⟨gs, none, none⟩ path' x) := by
  refine .bind (carried_evaluate h reads path path') fun v _ => ?_
  cases v.int? with
  | none => exact .throw _ _
  | some n => exact .pure trivial

theorem carried_evaluateSize :
    Carried (fun _ => True) (fun e => evaluateSize e.resolver ⟨fs, none, none⟩ path x)
      (fun e => evaluateSize e.resolver ⟨gs, none, none⟩ path' x) := by
  refine .bind (carried_evaluateInt h reads path path') fun n _ => ?_
  by_cases fits : 0 ≤ n ∧ n ≤ Value.maxSize
  · simp only [if_pos fits]
    exact .pure trivial
  · simp only [if_neg fits]
    exact .throw _ _

theorem carried_evaluateHolds :
    Carried (fun _ => True) (fun e => evaluateHolds e.resolver ⟨fs, none, none⟩ path x)
      (fun e => evaluateHolds e.resolver ⟨gs, none, none⟩ path' x) :=
  .bind (carried_evaluate h reads path path') fun _ _ => .pure trivial

end Evaluation

end Expr

end BinaryFormat
