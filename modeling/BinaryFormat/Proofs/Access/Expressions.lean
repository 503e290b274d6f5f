import BinaryFormat.Proofs.Access.Runs

/-!
# Expressions over matching frames

What an expression denotes over frames that match is a value or a frame that
matches, whatever is known of the lazy members that it reads, if the resolvers
concur.
-/

namespace BinaryFormat

open Lookup

/-! ## Resolvers -/

namespace Resolver

/-- Members of handles that stand for each other are resolved alike, and matching values are
forced alike. -/
structure Matches (q : Setting) (r r' : Resolver) : Prop where
  resolve : ∀ {w : World} {h k : Handle}, w.Related h k → ∀ i,
    Concurs q w .value (r.resolve h i) (r'.resolve k i)
  force : ∀ {w : World} {v v' : Value}, v.Matches w.Related v' →
    Concurs q w .value (r.force v) (r'.force v')

variable {q : Setting} {w : World} {r r' : Resolver} {h k : Handle} {v v' a a' b b' : Value}

private theorem concurs_slotOf? (related : w.Related h k) (name : String) :
    Concurs q w .same (slotOf? h name) (slotOf? k name) := by
  refine concurs_seen (ε := Failure)
    (f := fun slots => slots.findIdx? fun s => s.name == some name) related
    fun R slots slots' matched => ?_
  induction matched with
  | nil => rfl
  | cons here _ ih => rw [List.findIdx?_cons, List.findIdx?_cons, here.name, ih]

private theorem concurs_listPath (related : w.Related h k) :
    Concurs q w .same (listPath h) (listPath k) := by
  refine concurs_seen (ε := Failure)
    (f := fun slots => (slots.head?.map fun s => s.path.ofElement).getD .this) related
    fun R slots slots' matched => ?_
  cases matched with
  | nil => rfl
  | cons here _ => simp only [List.head?_cons, Option.map_some, here.path]

theorem concurs_member? (concur : r.Matches q r') (related : w.Related h k) (name : String) :
    Concurs q w (.option .value) (r.member? h name) (r'.member? k name) := by
  refine (concurs_slotOf? related name).both fun _ later slot => ?_
  cases slot with
  | none => exact concurs_pure .none
  | some i =>
      exact (concur.resolve (later.related h k related) i).bind fun _ _ _ _ matched =>
        concurs_pure (.some matched)

theorem concurs_element (concur : r.Matches q r') (related : w.Related h k) (length index : Nat) :
    Concurs q w .value (r.element h length index) (r'.element k length index) := by
  refine concurs_ite ((concurs_listPath related).both fun _ later _ => ?_)
    (concur.resolve related index)
  refine Concurs.both (concurs_throw (.refl _)) fun _ later' _ => ?_
  exact concur.resolve ((later.trans later').related h k related) index

theorem concurs_attr (concur : r.Matches q r') (matched : v.Matches w.Related v') (name : String) :
    Concurs q w .value (r.attr v name) (r'.attr v' name) := by
  unfold attr
  rw [matched.typeName]
  cases matched with
  | container fields | flags fields =>
      exact Concurs.bind_option (A := .value) (concurs_pure (fields.get? name))
        (fun _ _ _ _ => concurs_pure) fun _ => concurs_throw (.refl _)
  | lazyContainer related keys =>
      exact Concurs.bind_option (concurs_unplaced (concurs_member? concur related name))
        (fun _ _ _ _ => concurs_pure) fun _ => concurs_throw (.refl _)
  | plain plain =>
      cases v <;> first
        | exact plain.elim
        | exact Concurs.bind_option (A := .value) (concurs_throw (.refl _))
            (fun _ _ _ _ => concurs_pure) fun _ => concurs_throw (.refl _)
  | list | lazyList =>
      exact Concurs.bind_option (A := .value) (concurs_throw (.refl _))
        (fun _ _ _ _ => concurs_pure) fun _ => concurs_throw (.refl _)

private theorem concurs_position (index : Int) (length : Nat) :
    Concurs q w .same (Lookup.ofExcept (position index length))
      (Lookup.ofExcept (position index length)) := by
  cases position index length with
  | ok i => exact concurs_pure rfl
  | error fault => exact concurs_throw (.refl _)

theorem concurs_item (concur : r.Matches q r') (matched : v.Matches w.Related v') (index : Int) :
    Concurs q w .value (r.item v index) (r'.item v' index) := by
  unfold item
  rw [matched.typeName]
  cases matched with
  | list items =>
      dsimp only
      rw [items.length]
      exact (concurs_position index _).both fun _ later i =>
        concurs_pure ((items.mono later.related).getD i)
  | lazyList related length =>
      exact (concurs_position index length).both fun _ later i =>
        concurs_unplaced (concurs_element concur (later.related _ _ related) length i)
  | plain plain =>
      cases v with
      | bytes data =>
          exact (concurs_position index _).both fun _ _ _ => concurs_pure (.plain trivial)
      | list | container | flags | lazyContainer | lazyList => exact plain.elim
      | _ => exact concurs_throw (.refl _)
  | container | flags | lazyContainer => exact concurs_throw (.refl _)

/-! ### Equality -/

private theorem concurs_compareForced (concur : r.Matches q r') (flipped : Bool)
    (left : a.Matches w.Related a') (right : b.Matches w.Related b') :
    Concurs q w .same (r.compareForced flipped a b)
      (r'.compareForced flipped a' b') := by
  have first : (if flipped then b else a).Matches w.Related (if flipped then b' else a') := by
    cases flipped <;> assumption
  have second : (if flipped then a else b).Matches w.Related (if flipped then a' else b') := by
    cases flipped <;> assumption
  refine (concurs_outcome (concur.force first)).bind fun _ later x x' matched =>
    (concurs_outcome (concur.force (second.mono later.related))).bind
      fun _ later' y y' matched' => ?_
  cases matched with
  | error => cases matched' <;> exact concurs_pure rfl
  | ok matched =>
      cases matched' with
      | error => exact concurs_pure rfl
      | ok matched' =>
          have same := matched.same matched'
          dsimp only
          rw [same]
          exact concurs_pure rfl

private theorem concurs_allOf {ε : Type} [Refusal ε] : ∀ {w : World}
    {tests tests' : List (Lookup ε Bool)},
    List.Forall₂ (Concurs q w .same) tests tests' →
      Concurs q w .same (allOf tests) (allOf tests')
  | _, [], _, concur => by
      cases concur
      exact concurs_pure rfl
  | _, test :: rest, _, concur => by
      cases concur with
      | cons first others =>
          exact first.both fun _ later passed =>
            concurs_ite (concurs_allOf (others.imp fun _ _ test => test.later later))
              (concurs_pure rfl)

/-- Tests that concur on values that match, now and later. -/
def TestsMatch (q : Setting) (w : World) (test test' : Value → Lookup Failure Bool) : Prop :=
  ∀ w', w.Leads w' → ∀ v v', v.Matches w'.Related v' →
    Concurs q w' .same (test v) (test' v')

private theorem concurs_compareEntries (flipped : Bool)
    {tests tests' : Record (Value → Lookup Failure Bool)}
    (concur : Record.Match (TestsMatch q w) tests tests') {others others' : Record Value}
    (matched : Value.FieldsMatch w.Related others others') :
    Concurs q w .same (compareEntries flipped tests others)
      (compareEntries flipped tests' others') := by
  unfold compareEntries
  rw [concur.visible.length, matched.visible.length]
  refine concurs_ite (concurs_pure rfl) (concurs_ite ?_ ?_)
  · refine concurs_allOf (matched.visible.records.forall₂_map fun key b b' matched => ?_)
    have found := concur.get? key
    dsimp only
    generalize Record.get? tests key = test at found
    generalize Record.get? tests' key = test' at found
    cases found with
    | none => exact concurs_pure rfl
    | some test => exact test w (.refl w) b b' matched
  · refine concurs_allOf (concur.visible.forall₂_map fun key test test' tested => ?_)
    have found := matched.get? key
    dsimp only
    generalize Record.get? others key = b at found
    generalize Record.get? others' key = b' at found
    cases found with
    | none => exact concurs_pure rfl
    | some matched => exact tested w (.refl w) _ _ matched

private theorem concurs_atom (concur : r.Matches q r') {flipped : Bool}
    (left : a.Matches w.Related a') (right : b.Matches w.Related b')
    (here : r.compare flipped a b =
      if a.isLazy || b.isLazy then r.compareForced flipped a b else pure (a.same b))
    (there : r'.compare flipped a' b' =
      if a'.isLazy || b'.isLazy then r'.compareForced flipped a' b' else pure (a'.same b')) :
    Concurs q w .same (r.compare flipped a b) (r'.compare flipped a' b') := by
  rw [here, there, left.isLazy, right.isLazy, left.same right]
  exact concurs_ite (concurs_compareForced concur flipped left right) (concurs_pure rfl)

mutual

private theorem concurs_compare (concur : r.Matches q r') :
    ∀ {w : World} {a a' b b' : Value} (flipped : Bool), a.Matches w.Related a' →
      b.Matches w.Related b' →
      Concurs q w .same (r.compare flipped a b) (r'.compare flipped a' b')
  -- Lists and records go by their parts where both sides have them; any other pair is compared as a
  -- whole.
  | _, a, _, b, _, flipped, .plain plain, right => by
      refine concurs_atom concur (.plain plain) right ?_ ?_ <;>
        cases a <;> first | exact plain.elim | simp only [compare]
  | _, _, _, _, _, flipped, .lazyContainer related keys, right =>
      concurs_atom concur (.lazyContainer related keys) right (by simp only [compare])
        (by simp only [compare])
  | _, _, _, _, _, flipped, .lazyList related length, right =>
      concurs_atom concur (.lazyList related length) right (by simp only [compare])
        (by simp only [compare])
  | _, .list as, .list as', b, _, flipped, .list items, right => by
      cases right with
      | list items' =>
          rw [compare, compare, items.length, items'.length]
          exact concurs_ite (concurs_compareItems concur flipped items items') (concurs_pure rfl)
      | plain plain =>
          refine concurs_atom concur (.list items) (.plain plain) ?_ ?_ <;>
            cases b <;> first | exact plain.elim | simp only [compare]
      | container fields | flags fields | lazyContainer fields | lazyList fields =>
          refine concurs_atom concur (.list items) ?_ (by simp only [compare])
            (by simp only [compare])
          first
          | exact .container fields
          | exact .flags fields
          | exact .lazyContainer fields _
          | exact .lazyList fields _
  | _, .container as, .container as', b, _, flipped, .container fields, right => by
      cases right with
      | container others | flags others =>
          rw [compare, compare]
          exact concurs_compareEntries flipped (concurs_comparers concur (!flipped) fields) others
      | plain plain =>
          refine concurs_atom concur (.container fields) (.plain plain) ?_ ?_ <;>
            cases b <;> first | exact plain.elim | simp only [compare]
      | list others | lazyContainer others | lazyList others =>
          refine concurs_atom concur (.container fields) ?_ (by simp only [compare])
            (by simp only [compare])
          first
          | exact .list others
          | exact .lazyContainer others _
          | exact .lazyList others _
  | _, .flags as, .flags as', b, _, flipped, .flags fields, right => by
      cases right with
      | container others | flags others =>
          rw [compare, compare]
          exact concurs_compareEntries flipped (concurs_comparers concur (!flipped) fields) others
      | plain plain =>
          refine concurs_atom concur (.flags fields) (.plain plain) ?_ ?_ <;>
            cases b <;> first | exact plain.elim | simp only [compare]
      | list others | lazyContainer others | lazyList others =>
          refine concurs_atom concur (.flags fields) ?_ (by simp only [compare])
            (by simp only [compare])
          first
          | exact .list others
          | exact .lazyContainer others _
          | exact .lazyList others _

theorem concurs_compareItems (concur : r.Matches q r') :
    ∀ {w : World} {as as' bs bs' : List Value} (flipped : Bool),
      Value.ItemsMatch w.Related as as' → Value.ItemsMatch w.Related bs bs' →
      Concurs q w .same (r.compareItems flipped as bs)
        (r'.compareItems flipped as' bs')
  | _, _, _, _, _, _, .nil, _ => concurs_pure rfl
  | _, _, _, _, _, _, .cons _ _, .nil => concurs_pure rfl
  | _, _, _, _, _, flipped, .cons first later, .cons first' later' => by
      rw [compareItems, compareItems]
      exact (concurs_compare concur flipped first first').both fun _ on _ =>
        concurs_ite (concurs_compareItems concur flipped (later.mono on.related)
          (later'.mono on.related)) (concurs_pure rfl)

theorem concurs_comparers (concur : r.Matches q r') :
    ∀ {w : World} {fields fields' : List (String × Value)} (flipped : Bool),
      Value.FieldsMatch w.Related fields fields' →
      Record.Match (TestsMatch q w) (r.comparers flipped fields) (r'.comparers flipped fields')
  | _, _, _, _, .nil => .nil
  | _, _, _, flipped, .cons key first later =>
      .cons key (fun _ on _ _ other =>
        concurs_compare concur flipped (first.mono on.related) other)
        (concurs_comparers concur flipped later)

end

theorem concurs_equal (concur : r.Matches q r') (left : a.Matches w.Related a')
    (right : b.Matches w.Related b') :
    Concurs q w .same (r.equal a b) (r'.equal a' b') :=
  concurs_compare concur false left right

end Resolver

/-! ## What expressions denote -/

/-- Frames that match down the stack, or matching values. -/
inductive Denoted.Matches (R : Handle → Handle → Prop) : Denoted → Denoted → Prop
  | frame {stack stack' : List (Record Value)} (matched : FramesMatch R stack stack') :
      Matches R (.frame stack) (.frame stack')
  | value {v v' : Value} (matched : v.Matches R v') : Matches R (.value v) (.value v')

namespace Denoted

variable {R S : Handle → Handle → Prop} {d d' : Denoted}

private theorem Matches.mono (h : d.Matches R d') (more : ∀ h k, R h k → S h k) :
    d.Matches S d' := by
  cases h with
  | frame matched => exact .frame (matched.mono more)
  | value matched => exact .value (matched.mono more)

private theorem Matches.toValue (h : d.Matches R d') : d.toValue.Matches R d'.toValue := by
  cases h with
  | frame matched => exact .container matched.headD
  | value matched => exact matched

private theorem matches_self (same : ∀ h, R h h) : ∀ d : Denoted, d.Matches R d
  | frame _ => .frame (List.forall₂_same.mpr fun frame _ => Value.fieldsMatch_self same frame)
  | value v => .value (Value.matches_self same v)

private theorem matches_ofFrame {frames frames' stack stack' : List (Record Value)}
    (h : FramesMatch R frames frames') (below : FramesMatch R stack stack') (name : String) :
    ResultsMatch Fault.Matches (Matches R) (ofFrame frames stack name)
      (ofFrame frames' stack' name) := by
  have length : frames.length = frames'.length := List.Forall₂.length_eq h
  unfold ofFrame
  split
  · rcases below with _ | ⟨_, _ | ⟨second, later⟩⟩
    · exact .error (.refl _)
    · exact .error (.refl _)
    · exact .ok (.frame (.cons second later))
  split
  · rw [root, root, length]
    exact .ok (.frame (h.drop _))
  split
  · rw [parameters, parameters, length]
    exact .ok (.frame (h.drop _))
  split
  · have found := below.findSome? name
    generalize (stack.findSome? fun f => f.get? name) = first at found ⊢
    generalize (stack'.findSome? fun f => f.get? name) = second at found ⊢
    cases found with
    | none => exact .error (.refl _)
    | some matched => exact .ok (.value matched)
  · have found := below.headD.get? name
    generalize (stack.headD []).get? name = first at found ⊢
    generalize (stack'.headD []).get? name = second at found ⊢
    cases found with
    | none => exact .error (.refl _)
    | some matched => exact .ok (.value matched)

end Denoted

def Likeness.denoted : Likeness Denoted where
  Holds := Denoted.Matches
  mono more _ _ matched := matched.mono more

instance : Likeness.denoted.Reflexive := ⟨Denoted.matches_self fun _ => trivial⟩

private theorem Scope.Matches.later {w w' : World} {scope scope' : Scope}
    (h : scope.Matches w.Related scope') (later : w.Leads w') : scope.Matches w'.Related scope' :=
  Likeness.scope.mono later.related h

namespace Expr

variable {q : Setting} {w : World} {r r' : Resolver} {v v' a a' b b' : Value}
  {values values' : List Value} {scope scope' : Scope}

private theorem concurs_pureResult {x y : Except Unevaluable Value}
    (h : ResultsMatch Eq (Value.Matches w.Related) x y) :
    Concurs q w .value (pureResult x) (pureResult y) := by
  cases h with
  | ok matched => exact concurs_pure matched
  | error same => exact same ▸ concurs_throw (.refl _)

private theorem concurs_elements (concur : r.Matches q r') (matched : v.Matches w.Related v') :
    Concurs q w .items (elements r v) (elements r' v') := by
  refine (concurs_unplaced (concur.force matched)).bind fun _ _ v v' forced => ?_
  cases forced with
  | list items => exact concurs_pure items
  | plain plain =>
      cases v with
      | bytes data => exact concurs_pure (Value.itemsMatch_ofBytes data)
      | list | container | flags | lazyContainer | lazyList => exact plain.elim
      | _ => exact concurs_throw (.refl _)
  | container | flags | lazyContainer | lazyList => exact concurs_throw (.refl _)

private theorem concurs_applyBinary (concur : r.Matches q r') (op : BinaryOp)
    (left : a.Matches w.Related a') (right : b.Matches w.Related b') :
    Concurs q w .value (applyBinary r op a b) (applyBinary r' op a' b') := by
  unfold applyBinary
  cases op with
  | eq | ne =>
      exact (concurs_unplaced (Resolver.concurs_equal concur left right)).both fun _ _ _ =>
        concurs_pure (.plain trivial)
  | _ => exact concurs_pureResult (Arithmetic.matches_apply _ left right)

private theorem concurs_onlyArgument (helper : Helper)
    (h : Value.ItemsMatch w.Related values values') :
    Concurs q w .value (onlyArgument helper values) (onlyArgument helper values') := by
  cases h with
  | nil => exact concurs_throw (.refl _)
  | cons first later => exact concurs_pure first

private theorem concurs_candidates (concur : r.Matches q r')
    (h : Value.ItemsMatch w.Related values values') :
    Concurs q w .items (candidates r values) (candidates r' values') := by
  cases h with
  | nil => exact concurs_pure .nil
  | cons first later =>
      cases later with
      | nil => exact concurs_elements concur first
      | cons second later => exact concurs_pure (.cons first (.cons second later))

private theorem concurs_applyHelper (concur : r.Matches q r') (helper : Helper)
    (h : Value.ItemsMatch w.Related values values') :
    Concurs q w .value (applyHelper r helper values) (applyHelper r' helper values') := by
  unfold applyHelper
  cases helper with
  | len =>
      refine (concurs_onlyArgument _ h).bind fun _ _ v v' matched => ?_
      rw [matched.length?, matched.typeName]
      cases v'.length? with
      | none => exact concurs_throw (.refl _)
      | some n => exact concurs_pure (Value.matches_ofNat n)
  | abs =>
      exact (concurs_onlyArgument _ h).bind fun _ _ _ _ matched =>
        concurs_pureResult (Arithmetic.matches_abs matched)
  | sum =>
      exact (concurs_onlyArgument _ h).bind fun _ _ _ _ matched =>
        (concurs_elements concur matched).bind fun _ _ _ _ items =>
          concurs_pureResult (Arithmetic.matches_sum items)
  | min | max =>
      exact (concurs_candidates concur h).bind fun _ _ _ _ items =>
        concurs_pureResult (Arithmetic.matches_extreme _ _ items)

private theorem concurs_member (concur : r.Matches q r') (scopes : scope.Matches w.Related scope')
    {d d' : Denoted} (matched : d.Matches w.Related d') (name : String) :
    Concurs q w .denoted (member r scope d name) (member r' scope' d' name) := by
  cases matched with
  | frame below => exact concurs_ofExcept (Denoted.matches_ofFrame scopes.frames below name)
  | value matched =>
      exact (Resolver.concurs_attr concur matched name).bind fun _ _ _ _ matched =>
        concurs_pure (.value matched)

private theorem concurs_atKey (concur : r.Matches q r') (scopes : scope.Matches w.Related scope')
    {d d' : Denoted} (matched : d.Matches w.Related d') {key key' : Value}
    (keys : key.Matches w.Related key') :
    Concurs q w .denoted (atKey r scope d key) (atKey r' scope' d' key') := by
  unfold atKey
  cases keys with
  | plain plain =>
      cases key with
      | str name => exact concurs_member concur scopes matched name
      | int i =>
          cases matched with
          | frame below => exact concurs_throw (.refl _)
          | value matched =>
              exact (Resolver.concurs_item concur matched i).bind fun _ _ _ _ matched =>
                concurs_pure (.value matched)
      | list | container | flags | lazyContainer | lazyList => exact plain.elim
      | _ => exact concurs_throw (.refl _)
  | list | container | flags | lazyContainer | lazyList => exact concurs_throw (.refl _)

mutual

/-- In matching scopes every expression denotes what matches. -/
private theorem concurs_denote (concur : r.Matches q r') :
    ∀ (e : Expr), (q.Compares → e.Uniform) → ∀ {w : World}
    {scope scope' : Scope}, scope.Matches w.Related scope' →
      Concurs q w .denoted (denote r scope e) (denote r' scope' e)
  | const v, uniform, _, _, _, _ =>
      .when (fun compares => concurs_pure (.value (Value.matches_of_eager (uniform compares))))
        (concurs_pure (.value (Value.matches_self (fun _ => trivial) v)))
  | this, _, _, _, _, scopes => concurs_pure (.frame scopes.frames)
  | object, _, _, scope, scope', scopes => by
      rw [denote, denote]
      have objects := scopes.object
      generalize scope.object = o at objects
      generalize scope'.object = o' at objects
      cases objects with
      | none => exact concurs_throw (.refl _)
      | some matched => exact concurs_pure (.value matched)
  | list, _, _, scope, scope', scopes => by
      rw [denote, denote]
      have lists := scopes.list
      generalize scope.list = l at lists
      generalize scope'.list = l' at lists
      cases lists with
      | none => exact concurs_throw (.refl _)
      | some items => exact concurs_pure (.value (.list items))
  | attr base name, uniform, _, _, _, scopes => by
      rw [denote, denote]
      exact (concurs_denote concur base uniform scopes).bind fun _ later _ _ matched =>
        concurs_member concur (scopes.later later) matched name
  | index base key, uniform, _, _, _, scopes => by
      rw [denote, denote]
      exact (concurs_denote concur base (fun c => (uniform c).1) scopes).bind
        fun _ later _ _ matched =>
        (concurs_denote concur key (fun c => (uniform c).2) (scopes.later later)).bind
        fun _ later' _ _ keys =>
          concurs_atKey concur ((scopes.later later).later later') (matched.mono later'.related)
            keys.toValue
  -- Conjunction and disjunction come to their second operand only if the first one does not decide.
  | binary op left right, uniform, _, _, _, scopes => by
      have first := concurs_denote concur left (fun c => (uniform c).1) scopes
      cases op with
      | and =>
          rw [denote, denote]
          refine first.bind fun _ later a a' matched => ?_
          rw [matched.toValue.holds]
          refine concurs_ite ?_ (concurs_pure (.value (.plain trivial)))
          refine (concurs_denote concur right (fun c => (uniform c).2) (scopes.later later)).bind
            fun _ _ b b' matched => ?_
          rw [matched.toValue.holds]
          exact concurs_pure (.value (.plain trivial))
      | or =>
          rw [denote, denote]
          refine first.bind fun _ later a a' matched => ?_
          rw [matched.toValue.holds]
          refine concurs_ite (concurs_pure (.value (.plain trivial))) ?_
          refine (concurs_denote concur right (fun c => (uniform c).2) (scopes.later later)).bind
            fun _ _ b b' matched => ?_
          rw [matched.toValue.holds]
          exact concurs_pure (.value (.plain trivial))
      | _ =>
          simp only [denote]
          exact first.bind fun _ later _ _ matched =>
            (concurs_denote concur right (fun c => (uniform c).2) (scopes.later later)).bind
              fun _ later' _ _ matched' =>
                (concurs_applyBinary concur _ (matched.mono later'.related).toValue
                  matched'.toValue).bind fun _ _ _ _ result => concurs_pure (.value result)
  | unary op operand, uniform, _, _, _, scopes => by
      rw [denote, denote]
      exact (concurs_denote concur operand uniform scopes).bind fun _ _ _ _ matched =>
        (concurs_pureResult (Arithmetic.matches_unary op matched.toValue)).bind
          fun _ _ _ _ result => concurs_pure (.value result)
  | call helper args, uniform, _, _, _, scopes => by
      rw [denote, denote]
      exact (concurs_denoteAll concur args uniform scopes).bind fun _ _ _ _ items =>
        (concurs_applyHelper concur helper items).bind fun _ _ _ _ result =>
          concurs_pure (.value result)
  | host run, uniform, w, scope, scope', scopes => by
      rw [denote, denote]
      have lasts : ∀ scope, Lasts (match run scope with
          | .ok v => (pure (.value v) : Lookup Fault Denoted)
          | .error failure => throw failure.fault) := by
        intro scope
        cases run scope <;> exact fun _ => .refl _
      -- What a function of the caller does is known only of runs that are compared.
      refine .when (fun compares => ?_) (concurs_apart (lasts scope) (lasts scope'))
      have results := uniform compares w.Related scope scope' scopes
      generalize run scope = x at results
      generalize run scope' = y at results
      cases results with
      | ok matched => exact concurs_pure (.value matched)
      | error failures => exact concurs_throw failures.fault

theorem concurs_denoteAll (concur : r.Matches q r') :
    ∀ (es : List Expr), (q.Compares → AllUniform es) →
    ∀ {w : World} {scope scope' : Scope}, scope.Matches w.Related scope' →
      Concurs q w .items (denoteAll r scope es) (denoteAll r' scope' es)
  | [], _, _, _, _, _ => concurs_pure .nil
  | e :: rest, uniform, _, _, _, scopes => by
      rw [denoteAll, denoteAll]
      exact (concurs_denote concur e (fun c => (uniform c).1) scopes).bind
        fun _ later _ _ matched =>
        (concurs_denoteAll concur rest (fun c => (uniform c).2) (scopes.later later)).bind
          fun _ later' _ _ items =>
            concurs_pure (.cons (matched.mono later'.related).toValue items)

end

/-! ## Evaluation -/

variable {e : Expr}

theorem concurs_evaluate (concur : r.Matches q r') (uniform : q.Compares → e.Uniform)
    (scopes : scope.Matches w.Related scope') (path : Path) :
    Concurs q w .value (e.evaluate r scope path) (e.evaluate r' scope' path) := by
  cases e with
  | host run =>
      have lasts : ∀ scope, Lasts (Lookup.ofExcept (run scope)) := by
        intro scope
        cases run scope <;> exact fun _ => .refl _
      exact .when (fun compares =>
        concurs_ofExcept (uniform compares w.Related scope scope' scopes))
        (concurs_apart (lasts scope) (lasts scope'))
  | _ =>
      exact (concurs_atPath (concurs_denote concur _ uniform scopes) path).bind
        fun _ _ _ _ matched => concurs_pure matched.toValue

theorem concurs_evaluateInt (concur : r.Matches q r') (uniform : q.Compares → e.Uniform)
    (scopes : scope.Matches w.Related scope') (path : Path) :
    Concurs q w .same (e.evaluateInt r scope path) (e.evaluateInt r' scope' path) := by
  refine (concurs_evaluate concur uniform scopes path).bind fun _ _ v v' matched => ?_
  rw [matched.int?, matched.typeName]
  cases v'.int? with
  | none => exact concurs_throw (.refl _)
  | some n => exact concurs_pure rfl

theorem concurs_evaluateSize (concur : r.Matches q r') (uniform : q.Compares → e.Uniform)
    (scopes : scope.Matches w.Related scope') (path : Path) :
    Concurs q w .same (e.evaluateSize r scope path) (e.evaluateSize r' scope' path) :=
  (concurs_evaluateInt concur uniform scopes path).both fun _ _ _ =>
    concurs_ite (concurs_pure rfl) (concurs_throw (.refl _))

theorem concurs_evaluateHolds (concur : r.Matches q r') (uniform : q.Compares → e.Uniform)
    (scopes : scope.Matches w.Related scope') (path : Path) :
    Concurs q w .same (e.evaluateHolds r scope path) (e.evaluateHolds r' scope' path) := by
  refine (concurs_evaluate concur uniform scopes path).bind fun _ _ v v' matched => ?_
  rw [matched.holds]
  exact concurs_pure rfl

end Expr

end BinaryFormat
