import BinaryFormat.Inspect.Tree
import BinaryFormat.Proofs.Access.Forcing

/-!
# Requests

What a caller can ask of the values at hand: members are read, and values are forced,
compared and printed.  Under resolvers that match, a request comes to the same from
matching stores.
-/

namespace BinaryFormat

/-! ## Values at hand -/

namespace Value

mutual

/-- All lazy parts lie in the store. -/
def Inside (σ : LazyStore) : Value → Prop
  | .lazyContainer handle _ | .lazyList handle _ => handle < σ.entries.length
  | .list items => ItemsInside σ items
  | .container fields | .flags fields => FieldsInside σ fields
  | _ => True

def ItemsInside (σ : LazyStore) : List Value → Prop
  | [] => True
  | item :: rest => Inside σ item ∧ ItemsInside σ rest

def FieldsInside (σ : LazyStore) : List (String × Value) → Prop
  | [] => True
  | (_, value) :: rest => Inside σ value ∧ FieldsInside σ rest

end

variable {σ : LazyStore} {R : Handle → Handle → Prop}

mutual

theorem Inside.matches_self (same : ∀ h < σ.entries.length, R h h) : ∀ {v : Value},
    v.Inside σ → v.Matches R v
  | .list _, inside => .list (ItemsInside.matches_self same inside)
  | .container _, inside => .container (FieldsInside.matches_self same inside)
  | .flags _, inside => .flags (FieldsInside.matches_self same inside)
  | .lazyContainer handle keys, inside => .lazyContainer (same handle inside) keys
  | .lazyList handle length, inside => .lazyList (same handle inside) length
  | .none, _ | .bool _, _ | .int _, _ | .float _, _ | .bytes _, _ | .str _, _ => .plain trivial

theorem ItemsInside.matches_self (same : ∀ h < σ.entries.length, R h h) : ∀ {items : List Value},
    ItemsInside σ items → ItemsMatch R items items
  | [], _ => .nil
  | _ :: _, inside =>
      .cons (Inside.matches_self same inside.1) (ItemsInside.matches_self same inside.2)

theorem FieldsInside.matches_self (same : ∀ h < σ.entries.length, R h h) :
    ∀ {fields : List (String × Value)}, FieldsInside σ fields → FieldsMatch R fields fields
  | [], _ => .nil
  | (key, _) :: _, inside =>
      .cons key (Inside.matches_self same inside.1) (FieldsInside.matches_self same inside.2)

end

end Value

/-! ## Requests and responses -/

/-- What a caller asks of the values at hand. -/
inductive Request where
  /-- The member of a lazy container by name. -/
  | member (handle : Handle) (name : String)
  /-- The element of a lazy list. -/
  | element (handle : Handle) (length index : Nat)
  | attr (v : Value) (name : String)
  | item (v : Value) (index : Int)
  | force (v : Value)
  | equal (v v' : Value)
  | dump (v : Value)
  | tree (opts : Tree.Options) (v : Value)

/-- What a request comes to. -/
inductive Response where
  | absent
  | value (v : Value)
  | truth (b : Bool)
  | text (s : String)

/-- Responses with matching values; texts show how many members are resolved, and are not
compared. -/
inductive Response.Matches (R : Handle → Handle → Prop) : Response → Response → Prop
  | absent : Matches R .absent .absent
  | value {v v' : Value} (matched : v.Matches R v') : Matches R (.value v) (.value v')
  | truth (b : Bool) : Matches R (.truth b) (.truth b)
  | text (s s' : String) : Matches R (.text s) (.text s')

namespace Request

/-- The values that a request is given. -/
def given : Request → List Value
  | member handle _ => [.lazyContainer handle []]
  | element handle length _ => [.lazyList handle length]
  | attr v _ | item v _ | force v | dump v | tree _ v => [v]
  | equal v v' => [v, v']

def run (r : Resolver) : Request → Lookup Failure Response
  | member handle name => do
    match ← r.member? handle name with
    | some v => return .value v
    | none => return .absent
  | element handle length index => do return .value (← r.element handle length index)
  | attr v name => do return .value (← (r.attr v name).atPath .this)
  | item v index => do return .value (← (r.item v index).atPath .this)
  | force v => do return .value (← r.force v)
  | equal v v' => do return .truth (← r.equal v v')
  | dump v => do return .text (← Lookup.dump v)
  | tree opts v => do return .text (← v.tree r opts)

end Request

namespace Likeness

def response : Likeness Response where
  Holds := Response.Matches
  mono more _ _
    | .absent => .absent
    | .value matched => .value (matched.mono more)
    | .truth b => .truth b
    | .text s s' => .text s s'

/-- Nothing is said of the results. -/
def any {α : Type} : Likeness α := ⟨fun _ _ _ => True, fun _ _ _ _ => trivial⟩

instance {α : Type} : (any : Likeness α).Reflexive := ⟨fun _ => trivial⟩

end Likeness

/-! ### Printing -/

namespace Tree

variable {q : Setting} {opts : Options} {lazyText lazyText' : Nat → Value → Lookup Failure String}

private theorem isOmitted_eq {R : Handle → Handle → Prop} {v v' : Value} (matched : v.Matches R v')
    (isFlags : Bool) (name : String) :
    isOmitted opts isFlags name v = isOmitted opts isFlags name v' := by
  cases matched <;> rfl

mutual

private theorem concurs_text
    (parts : ∀ {w : World} {v v' : Value}, v.Matches w.Related v' → ∀ depth,
    Concurs q w .any (lazyText depth v) (lazyText' depth v')) : ∀ {w : World} {v v' : Value},
      v.Matches w.Related v' → ∀ depth,
        Concurs q w .any (text opts lazyText depth v) (text opts lazyText' depth v')
  | _, v, _, .plain plain, _ => by
      cases v with
      | list | container | flags | lazyContainer | lazyList => exact plain.elim
      | _ => exact concurs_pure trivial
  | _, _, _, .list items, depth =>
      (concurs_itemsText parts items (depth + 1)).bind fun _ _ _ _ _ => concurs_pure trivial
  | _, _, _, .container fields, depth =>
      (concurs_fieldsText parts false fields (depth + 1)).bind fun _ _ _ _ _ => concurs_pure trivial
  | _, _, _, .flags fields, depth =>
      (concurs_fieldsText parts true fields (depth + 1)).bind fun _ _ _ _ _ => concurs_pure trivial
  | _, _, _, .lazyContainer related keys, depth => parts (.lazyContainer related keys) depth
  | _, _, _, .lazyList related length, depth => parts (.lazyList related length) depth

theorem concurs_itemsText (parts : ∀ {w : World} {v v' : Value}, v.Matches w.Related v' → ∀ depth,
    Concurs q w .any (lazyText depth v) (lazyText' depth v')) : ∀ {w : World} {as bs : List Value},
      Value.ItemsMatch w.Related as bs → ∀ depth,
        Concurs q w .any (itemsText opts lazyText depth as) (itemsText opts lazyText' depth bs)
  | _, _, _, .nil, _ => concurs_pure trivial
  | _, _, _, .cons first later, depth =>
      (concurs_text parts first depth).bind fun _ on _ _ _ =>
        (concurs_itemsText parts (later.mono on.related) depth).bind fun _ _ _ _ _ =>
          concurs_pure trivial

theorem concurs_fieldsText (parts : ∀ {w : World} {v v' : Value}, v.Matches w.Related v' → ∀ depth,
    Concurs q w .any (lazyText depth v) (lazyText' depth v')) (isFlags : Bool) : ∀ {w : World}
      {fs gs : List (String × Value)}, Value.FieldsMatch w.Related fs gs → ∀ depth,
        Concurs q w .any (fieldsText opts lazyText isFlags depth fs)
          (fieldsText opts lazyText' isFlags depth gs)
  | _, _, _, .nil, _ => concurs_pure trivial
  | _, _, _, .cons key first later, depth => by
      rw [fieldsText, fieldsText, isOmitted_eq first]
      refine concurs_ite (concurs_fieldsText parts isFlags later depth) ?_
      exact (concurs_text parts first depth).bind fun _ on _ _ _ =>
        (concurs_fieldsText parts isFlags (later.mono on.related) depth).bind fun _ _ _ _ _ =>
          concurs_pure trivial

end

private theorem concurs_tree {w : World} {r r' : Resolver} (concur : r.Matches q r') {v v' : Value}
    (matched : v.Matches w.Related v') :
    Concurs q w .any (v.tree r opts) (v'.tree r' opts) := by
  refine concurs_text (fun {w v v'} matched depth => ?_) matched 0
  refine (Lookup.concurs_outcome (concur.force matched)).bind fun _ _ _ _ result => ?_
  cases result with
  | ok forced => exact concurs_text (fun _ _ => concurs_pure trivial) forced depth
  | error _ => exact concurs_pure trivial

end Tree

namespace Request

variable {q : Setting} {w : World} {r r' : Resolver}

/-- A request comes to the same under resolvers that match. -/
theorem concurs_run (concur : r.Matches q r') (a : Request)
    (matched : ∀ v ∈ a.given, v.Matches w.Related v) :
    Concurs q w .response (a.run r) (a.run r') := by
  cases a with
  | member handle name =>
      cases matched _ (List.mem_singleton_self _) with
      | plain plain => exact plain.elim
      | lazyContainer related _ =>
          refine (Resolver.concurs_member? concur related name).bind fun _ _ _ _ found => ?_
          cases found with
          | none => exact concurs_pure .absent
          | some same => exact concurs_pure (.value same)
  | element handle length index =>
      cases matched _ (List.mem_singleton_self _) with
      | plain plain => exact plain.elim
      | lazyList related _ =>
          exact (Resolver.concurs_element concur related length index).bind fun _ _ _ _ same =>
            concurs_pure (.value same)
  | attr v name =>
      exact (Lookup.concurs_atPath (Resolver.concurs_attr concur
        (matched v (List.mem_singleton_self v)) name) _).bind fun _ _ _ _ same =>
          concurs_pure (.value same)
  | item v index =>
      exact (Lookup.concurs_atPath (Resolver.concurs_item concur
        (matched v (List.mem_singleton_self v)) index) _).bind fun _ _ _ _ same =>
          concurs_pure (.value same)
  | force v =>
      exact (concur.force (matched v (List.mem_singleton_self v))).bind fun _ _ _ _ same =>
        concurs_pure (.value same)
  | equal v v' =>
      exact (Resolver.concurs_equal concur (matched v List.mem_cons_self)
        (matched v' (List.mem_cons_of_mem v (List.mem_singleton_self v')))).both fun _ _ b =>
          concurs_pure (.truth b)
  | dump v =>
      exact Lookup.concurs_dump (matched v (List.mem_singleton_self v)) fun s s' _ =>
        concurs_pure (.text s s')
  | tree opts v =>
      exact (Tree.concurs_tree concur (matched v (List.mem_singleton_self v))).bind
        fun _ _ s s' _ => concurs_pure (.text s s')

end Request

end BinaryFormat
