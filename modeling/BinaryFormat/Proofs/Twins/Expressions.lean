import BinaryFormat.Proofs.Twins.Runs

/-!
# Expressions over paired frames

An expression has the same value over paired frames if it reads named fields
alone, or if the frames do not differ.  What it may resolve on the way is up to the
resolver.
-/

namespace BinaryFormat

/-! ## Lookups -/

namespace Lookup

variable {admitted : String → Prop} {ε α β : Type} {x y : Lookup ε α}

theorem Alike.outcome (h : x.Alike admitted y) : x.outcome.Alike admitted y.outcome := by
  intro s t stores
  have outcomes := h s t stores
  unfold Lookup.outcome
  generalize x s = r at outcomes
  generalize y t = r' at outcomes
  cases outcomes with
  | ok related stores => exact .ok (congrArg Except.ok related) stores
  | error e stores => exact .ok rfl stores

private theorem twins_atPath {A : α → β → Prop} {x : Lookup Fault α} {y : Lookup Fault β}
    (h : Twins (PairedStores admitted) A x y) (path : Path) :
    Twins (PairedStores admitted) A (x.atPath path) (y.atPath path) := by
  intro s t stores
  have outcomes := h s t stores
  unfold Lookup.atPath
  generalize x s = r at outcomes
  generalize y t = r' at outcomes
  cases outcomes with
  | ok related stores => exact .ok related stores
  | error e stores => exact .error _ stores

private theorem Alike.unplaced {x y : Lookup Failure α} (h : x.Alike admitted y) :
    x.unplaced.Alike admitted y.unplaced := by
  intro s t stores
  have outcomes := h s t stores
  unfold Lookup.unplaced
  generalize x s = r at outcomes
  generalize y t = r' at outcomes
  cases outcomes with
  | ok related stores => exact .ok related stores
  | error e stores => exact .error _ stores

theorem alike_pure (a : α) : (pure a : Lookup ε α).Alike admitted (pure a) := twins_pure rfl

theorem alike_throw (e : ε) : (throw e : Lookup ε α).Alike admitted (throw e) := twins_throw e

private theorem alike_ofExcept (result : Except ε α) :
    (ofExcept result).Alike admitted (ofExcept result) := by
  cases result with
  | ok a => exact alike_pure a
  | error e => exact alike_throw e

theorem alike_dump (v : Value) :
    (dump v : Lookup ε String).Alike admitted (dump v) := by
  intro store store' stores
  simp only [dump, stores.resolved]
  exact .ok rfl stores

theorem twins_get : Twins (PairedStores admitted) (PairedStores admitted)
    (get : Lookup ε LazyStore) (get : Lookup ε LazyStore) := fun _ _ stores => .ok stores stores

theorem alike_remember (handle : Handle) (i : Nat) (v : Value) :
    (modify (·.remember handle i v) : Lookup ε Unit).Alike admitted
      (modify (·.remember handle i v)) :=
  fun _ _ stores => .ok rfl (stores.remember handle i v)

end Lookup

/-! ## Resolvers -/

namespace Resolver

open Lookup

variable {admitted : String → Prop}

/-- Members and values come to the same from paired stores. -/
structure Fair (admitted : String → Prop) (r : Resolver) : Prop where
  resolve : ∀ handle i, (r.resolve handle i).Alike admitted (r.resolve handle i)
  force : ∀ v, (r.force v).Alike admitted (r.force v)

variable {r : Resolver}

private theorem alike_slotOf? (handle : Handle) (name : String) :
    (slotOf? handle name).Alike admitted (slotOf? handle name) := by
  intro store store' stores
  simp only [slotOf?, stores.slots handle]
  exact .ok rfl stores

private theorem alike_listPath (handle : Handle) :
    (listPath handle).Alike admitted (listPath handle) := by
  intro store store' stores
  simp only [listPath, stores.slots handle]
  exact .ok rfl stores

private theorem alike_member? (fair : r.Fair admitted) (handle : Handle) (name : String) :
    (r.member? handle name).Alike admitted (r.member? handle name) := by
  refine (alike_slotOf? handle name).both fun slot => ?_
  cases slot with
  | none => exact alike_pure _
  | some i => exact (fair.resolve handle i).both fun _ => alike_pure _

private theorem alike_element (fair : r.Fair admitted) (handle : Handle) (length index : Nat) :
    (r.element handle length index).Alike admitted (r.element handle length index) :=
  twins_ite ((alike_listPath handle).both fun _ => Twins.both (alike_throw _) fun _ =>
    fair.resolve handle index) (fair.resolve handle index)

private theorem alike_attr (fair : r.Fair admitted) (v : Value) (name : String) :
    (r.attr v name).Alike admitted (r.attr v name) := by
  unfold attr
  cases v with
  | container fields | flags fields =>
      refine (alike_pure (Record.get? fields name)).both fun found => ?_
      cases found with
      | none => exact alike_throw _
      | some value => exact alike_pure value
  | lazyContainer handle keys =>
      refine (alike_member? fair handle name).unplaced.both fun found => ?_
      cases found with
      | none => exact alike_throw _
      | some value => exact alike_pure value
  | _ =>
      refine Twins.both (alike_throw _) fun found => ?_
      cases found with
      | none => exact alike_throw _
      | some value => exact alike_pure value

private theorem alike_item (fair : r.Fair admitted) (v : Value) (index : Int) :
    (r.item v index).Alike admitted (r.item v index) := by
  unfold item
  cases v with
  | list items | bytes data => exact Twins.both (alike_ofExcept _) fun _ => alike_pure _
  | lazyList handle length =>
      exact Twins.both (alike_ofExcept _) fun i => (alike_element fair handle length i).unplaced
  | _ => exact alike_throw _

/-! ### Equality -/

private theorem alike_compareForced (fair : r.Fair admitted) (flipped : Bool) (a b : Value) :
    (r.compareForced flipped a b).Alike admitted (r.compareForced flipped a b) := by
  refine (fair.force _).outcome.both fun first => (fair.force _).outcome.both fun second => ?_
  cases first <;> cases second <;> exact alike_pure _

private theorem alike_allOf {ε : Type} {tests : List (Lookup ε Bool)}
    (h : ∀ test ∈ tests, test.Alike admitted test) :
    (allOf tests).Alike admitted (allOf tests) := by
  induction tests with
  | nil => exact alike_pure true
  | cons test rest ih =>
      refine (h test List.mem_cons_self).both fun passed => twins_ite ?_ (alike_pure false)
      exact ih fun test mem => h test (List.mem_cons_of_mem _ mem)

private theorem alike_compareEntries (flipped : Bool) {tests : Record (Value → Lookup Failure Bool)}
    (h : ∀ test ∈ tests, ∀ v, (test.2 v).Alike admitted (test.2 v)) (others : Record Value) :
    (compareEntries flipped tests others).Alike admitted (compareEntries flipped tests others) := by
  have known : ∀ {name : String} {test : Value → Lookup Failure Bool},
      Record.get? tests name = some test → ∀ v, (test v).Alike admitted (test v) :=
    fun found => h _ (Record.mem_of_get?_eq_some found)
  refine twins_ite (alike_pure false) (twins_ite (alike_allOf ?_) (alike_allOf ?_))
  · rintro test mem
    obtain ⟨⟨key, v⟩, -, rfl⟩ := List.mem_map.mp mem
    dsimp only
    cases found : Record.get? tests key with
    | none => exact alike_pure false
    | some test => exact known found v
  · rintro test mem
    obtain ⟨⟨key, test⟩, visible, rfl⟩ := List.mem_map.mp mem
    dsimp only
    cases found : Record.get? others key with
    | none => exact alike_pure false
    | some v => exact h (key, test) (List.mem_filter.mp visible).1 v

private theorem alike_atom (fair : r.Fair admitted) {flipped : Bool} {a b : Value}
    (h : r.compare flipped a b =
      if a.isLazy || b.isLazy then r.compareForced flipped a b else pure (a.same b)) :
    (r.compare flipped a b).Alike admitted (r.compare flipped a b) := by
  rw [h]
  exact twins_ite (alike_compareForced fair flipped a b) (alike_pure _)

mutual

private theorem alike_compare (fair : r.Fair admitted) : ∀ (a : Value) (flipped : Bool) (b : Value),
    (r.compare flipped a b).Alike admitted (r.compare flipped a b)
  | .list as, flipped, b => by
      cases b with
      | list bs =>
          rw [compare]
          exact twins_ite (alike_compareItems fair as flipped bs) (alike_pure false)
      | _ => exact alike_atom fair (by simp only [compare])
  | .container as, flipped, b => by
      cases b with
      | container bs | flags bs =>
          rw [compare]
          exact alike_compareEntries flipped (alike_comparers fair as !flipped) bs
      | _ => exact alike_atom fair (by simp only [compare])
  | .flags as, flipped, b => by
      cases b with
      | container bs | flags bs =>
          rw [compare]
          exact alike_compareEntries flipped (alike_comparers fair as !flipped) bs
      | _ => exact alike_atom fair (by simp only [compare])
  | .lazyContainer _ _, _, _ => alike_atom fair (by simp only [compare])
  | .lazyList _ _, _, _ => alike_atom fair (by simp only [compare])
  | .none, _, _ => alike_atom fair (by simp only [compare])
  | .bool _, _, _ => alike_atom fair (by simp only [compare])
  | .int _, _, _ => alike_atom fair (by simp only [compare])
  | .float _, _, _ => alike_atom fair (by simp only [compare])
  | .bytes _, _, _ => alike_atom fair (by simp only [compare])
  | .str _, _, _ => alike_atom fair (by simp only [compare])

theorem alike_compareItems (fair : r.Fair admitted) :
    ∀ (as : List Value) (flipped : Bool) (bs : List Value),
      (r.compareItems flipped as bs).Alike admitted (r.compareItems flipped as bs)
  | [], _, _ => alike_pure true
  | _ :: _, _, [] => alike_pure true
  | a :: as, flipped, b :: bs => by
      rw [compareItems]
      exact (alike_compare fair a flipped b).both fun same =>
        twins_ite (alike_compareItems fair as flipped bs) (alike_pure false)

theorem alike_comparers (fair : r.Fair admitted) :
    ∀ (fields : List (String × Value)) (flipped : Bool), ∀ test ∈ r.comparers flipped fields,
      ∀ v, (test.2 v).Alike admitted (test.2 v)
  | [], _, _, mem => absurd mem List.not_mem_nil
  | (_, value) :: rest, flipped, test, mem => by
      rcases List.mem_cons.mp mem with rfl | mem
      · exact alike_compare fair value flipped
      · exact alike_comparers fair rest flipped test mem

end

theorem alike_equal (fair : r.Fair admitted) (a b : Value) :
    (r.equal a b).Alike admitted (r.equal a b) := alike_compare fair a false b

end Resolver

/-! ## What expressions denote -/

namespace Expr

open Lookup

variable {admitted : String → Prop} {r : Resolver}

private theorem alike_pureResult (x : Except Unevaluable Value) :
    (pureResult x).Alike admitted (pureResult x) := by
  cases x with
  | ok v => exact alike_pure v
  | error cause => exact alike_throw _

private theorem alike_elements (fair : r.Fair admitted) (v : Value) :
    (elements r v).Alike admitted (elements r v) := by
  refine (fair.force v).unplaced.both fun forced => ?_
  cases forced with
  | list items | bytes data => exact alike_pure _
  | _ => exact alike_throw _

private theorem alike_applyBinary (fair : r.Fair admitted) (op : BinaryOp) (a b : Value) :
    (applyBinary r op a b).Alike admitted (applyBinary r op a b) := by
  unfold applyBinary
  cases op with
  | eq | ne => exact (Resolver.alike_equal fair a b).unplaced.both fun _ => alike_pure _
  | _ => exact alike_pureResult _

private theorem alike_onlyArgument (helper : Helper) (values : List Value) :
    (onlyArgument helper values).Alike admitted (onlyArgument helper values) := by
  cases values with
  | nil => exact alike_throw _
  | cons v rest => exact alike_pure v

private theorem alike_candidates (fair : r.Fair admitted) :
    ∀ values, (candidates r values).Alike admitted (candidates r values)
  | [v] => alike_elements fair v
  | [] | _ :: _ :: _ => alike_pure _

private theorem alike_applyHelper (fair : r.Fair admitted) (helper : Helper) (values : List Value) :
    (applyHelper r helper values).Alike admitted (applyHelper r helper values) := by
  unfold applyHelper
  cases helper with
  | len =>
      refine (alike_onlyArgument _ values).both fun v => ?_
      cases v.length? with
      | none => exact alike_throw _
      | some n => exact alike_pure _
  | abs => exact (alike_onlyArgument _ values).both fun _ => alike_pureResult _
  | sum => exact (alike_onlyArgument _ values).both fun v => (alike_elements fair v).both fun _ =>
      alike_pureResult _
  | min | max => exact (alike_candidates fair values).both fun _ => alike_pureResult _

private theorem alike_member (fair : r.Fair admitted) (scope : Scope) (base : Denoted)
    (name : String) :
    (member r scope base name).Alike admitted (member r scope base name) := by
  cases base with
  | frame stack => exact alike_ofExcept _
  | value v => exact (Resolver.alike_attr fair v name).both fun _ => alike_pure _

private theorem alike_atKey (fair : r.Fair admitted) (scope : Scope) (base : Denoted)
    (key : Value) :
    (atKey r scope base key).Alike admitted (atKey r scope base key) := by
  unfold atKey
  cases key with
  | str name => exact alike_member fair scope base name
  | int i =>
      cases base with
      | frame stack => exact alike_throw _
      | value v => exact (Resolver.alike_item fair v i).both fun _ => alike_pure _
  | _ => exact alike_throw _

mutual

private theorem alike_denote (fair : r.Fair admitted) (scope : Scope) : ∀ e : Expr,
    (denote r scope e).Alike admitted (denote r scope e)
  | const v => alike_pure _
  | this => alike_pure _
  | object => by
      rw [denote]
      cases scope.object with
      | none => exact alike_throw _
      | some v => exact alike_pure _
  | list => by
      rw [denote]
      cases scope.list with
      | none => exact alike_throw _
      | some items => exact alike_pure _
  | attr base name => by
      rw [denote]
      exact (alike_denote fair scope base).both fun d => alike_member fair scope d name
  | index base key => by
      rw [denote]
      exact (alike_denote fair scope base).both fun d =>
        (alike_denote fair scope key).both fun k => alike_atKey fair scope d k.toValue
  | binary op left right => by
      cases op with
      | and =>
          rw [denote]
          refine (alike_denote fair scope left).both fun a => twins_ite ?_ (alike_pure _)
          exact (alike_denote fair scope right).both fun _ => alike_pure _
      | or =>
          rw [denote]
          refine (alike_denote fair scope left).both fun a => twins_ite (alike_pure _) ?_
          exact (alike_denote fair scope right).both fun _ => alike_pure _
      | _ =>
          simp only [denote]
          exact (alike_denote fair scope left).both fun a =>
            (alike_denote fair scope right).both fun b =>
              (alike_applyBinary fair _ a.toValue b.toValue).both fun _ => alike_pure _
  | unary op operand => by
      rw [denote]
      exact (alike_denote fair scope operand).both fun a =>
        (alike_pureResult _).both fun _ => alike_pure _
  | call helper args => by
      rw [denote]
      exact (alike_denoteAll fair scope args).both fun values =>
        (alike_applyHelper fair helper values).both fun _ => alike_pure _
  | host run => by
      rw [denote]
      cases run scope with
      | ok v => exact alike_pure _
      | error failure => exact alike_throw _

theorem alike_denoteAll (fair : r.Fair admitted) (scope : Scope) : ∀ es : List Expr,
    (denoteAll r scope es).Alike admitted (denoteAll r scope es)
  | [] => alike_pure _
  | e :: rest => by
      rw [denoteAll]
      exact (alike_denote fair scope e).both fun d =>
        (alike_denoteAll fair scope rest).both fun _ => alike_pure _

end

/-! ### Over frames that differ -/

/-- The same value, or frames that differ in no more than the indices. -/
inductive Meets : Bool → Denoted → Denoted → Prop
  | value (v : Value) : Meets false (.value v) (.value v)
  | frame {stack stack' : List (Record Value)}
      (same : Record.unindexedAll stack = Record.unindexedAll stack') :
      Meets true (.frame stack) (.frame stack')

private theorem Meets.eq {d d' : Denoted} (h : Meets false d d') : d = d' := by
  cases h
  rfl

private theorem ne_index_of_isFrameName {name : String} (h : Record.isFrameName name = true) :
    name ≠ "_index" := by
  rintro rfl
  exact absurd h (by decide)

private theorem ne_index_of_isReserved {name : String} (h : Record.isReserved name = false) :
    name ≠ "_index" := by
  rintro rfl
  exact absurd h (by decide)

private theorem isFrameName_of_isReserved {name : String} (h : Record.isReserved name = false) :
    Record.isFrameName name = false := by
  simp only [Record.isReserved, Bool.or_eq_false_iff] at h
  simp [Record.isFrameName, h.1]

private theorem isFrame_of_isNamed {e : Expr} (h : e.isNamed) : e.isFrame = false := by
  cases e with
  | attr base name =>
      cases framed : base.isFrame with
      | false => simp [isFrame, framed]
      | true =>
          simp only [isNamed, framed, if_true, Bool.not_eq_true'] at h
          simp [isFrame, isFrameName_of_isReserved h]
  | index base key =>
      cases framed : base.isFrame with
      | false => simp [isFrame, framed]
      | true =>
          simp only [isNamed, framed, if_true] at h
          cases spelled : key.spelled? with
          | none => simp [isFrame, spelled]
          | some name =>
              simp only [spelled, Option.any_some, Bool.not_eq_true'] at h
              simp [isFrame, spelled, isFrameName_of_isReserved h]
  | this => simp [isNamed] at h
  | _ => rfl

private theorem unindexedAll_drop {fs gs : List (Record Value)}
    (same : Record.unindexedAll fs = Record.unindexedAll gs) (n : Nat) :
    Record.unindexedAll (fs.drop n) = Record.unindexedAll (gs.drop n) := by
  have dropped := congrArg (List.drop n) same
  simpa only [Record.unindexedAll, List.map_drop] using dropped

private theorem get?_headD {fs gs : List (Record Value)}
    (same : Record.unindexedAll fs = Record.unindexedAll gs) {name : String}
    (other : name ≠ "_index") :
    Record.get? (fs.headD []) name = Record.get? (gs.headD []) name := by
  cases fs with
  | nil =>
      obtain rfl : gs = [] := List.map_eq_nil_iff.mp same.symm
      rfl
  | cons f fs =>
      cases gs with
      | nil => nomatch same
      | cons g gs =>
          have top := (List.cons.inj same).1
          simp only [List.headD_cons]
          rw [← Record.get?_unindexed other f, top, Record.get?_unindexed other g]

/-- A name leads from frames that differ in no more than the indices to a value, or to such
frames again. -/
private theorem meets_ofFrame {fs gs stack stack' : List (Record Value)}
    (frames : Record.unindexedAll fs = Record.unindexedAll gs)
    (same : Record.unindexedAll stack = Record.unindexedAll stack') {name : String}
    (other : name ≠ "_index") :
    Twins (PairedStores admitted) (Meets (Record.isFrameName name))
      (Lookup.ofExcept (Denoted.ofFrame fs stack name))
      (Lookup.ofExcept (Denoted.ofFrame gs stack' name)) := by
  have length : fs.length = gs.length := by
    simpa [Record.unindexedAll] using congrArg List.length frames
  by_cases parent : name = "_"
  · subst parent
    rcases stack with _ | ⟨f, _ | ⟨below, rest⟩⟩ <;> rcases stack' with _ | ⟨g, _ | ⟨below', rest'⟩⟩
    all_goals simp [Record.unindexedAll] at same
    · exact twins_throw _
    · exact twins_throw _
    · exact twins_pure (.frame (by simp [Record.unindexedAll, same]))
  by_cases root : name = "_root"
  · subst root
    refine twins_pure (.frame ?_)
    rw [length]
    exact unindexedAll_drop frames _
  by_cases parameters : name = "_params"
  · subst parameters
    refine twins_pure (.frame ?_)
    rw [length]
    exact unindexedAll_drop frames _
  have value : Record.isFrameName name = false := by
    simp [Record.isFrameName, parent, root, parameters]
  simp only [Denoted.ofFrame, parent, root, parameters, other, if_false, value,
    get?_headD same other]
  cases Record.get? (stack'.headD []) name with
  | none => exact twins_throw _
  | some v => exact twins_pure (.value v)

private theorem meets_member (fair : r.Fair admitted) {scope scope' : Scope}
    (frames : Record.unindexedAll scope.frames = Record.unindexedAll scope'.frames) {framed : Bool}
    {d d' : Denoted} (meets : Meets framed d d') {name : String}
    (other : framed = true → name ≠ "_index") :
    Twins (PairedStores admitted) (Meets (framed && Record.isFrameName name))
      (member r scope d name) (member r scope' d' name) := by
  cases meets with
  | value v => exact (Resolver.alike_attr fair v name).both fun v => twins_pure (.value v)
  | frame same => exact meets_ofFrame frames same (other rfl)

private theorem meets_atKey (fair : r.Fair admitted) {scope scope' : Scope}
    (frames : Record.unindexedAll scope.frames = Record.unindexedAll scope'.frames)
    {d d' : Denoted} (meets : Meets false d d') (key : Value) :
    Twins (PairedStores admitted) (Meets false) (atKey r scope d key) (atKey r scope' d' key) := by
  unfold atKey
  cases key with
  | str name => exact meets_member fair frames meets nofun
  | int i =>
      cases meets with
      | value v => exact (Resolver.alike_item fair v i).both fun v => twins_pure (.value v)
  | _ => exact twins_throw _

private theorem meets_attr (fair : r.Fair admitted) {scope scope' : Scope}
    (frames : Record.unindexedAll scope.frames = Record.unindexedAll scope'.frames) {base : Expr}
    {name : String} (h : (attr base name).isNamed ∨ (attr base name).isFrame)
    (below : base.isNamed ∨ base.isFrame → Twins (PairedStores admitted) (Meets base.isFrame)
      (denote r scope base) (denote r scope' base)) :
    Twins (PairedStores admitted) (Meets (attr base name).isFrame)
      (denote r scope base >>= fun d => member r scope d name)
      (denote r scope' base >>= fun d => member r scope' d name) := by
  simp only [isNamed, isFrame] at h ⊢
  cases framed : base.isFrame with
  | true =>
      rw [framed] at below h
      refine (below (.inr rfl)).bind fun d d' meets => meets_member fair frames meets fun _ => ?_
      rcases h with plain | leads
      · exact ne_index_of_isReserved (by simpa using plain)
      · exact ne_index_of_isFrameName (by simpa using leads)
  | false =>
      rw [framed] at below h
      have named : base.isNamed := by simpa using h
      exact (below (.inl named)).bind fun d d' meets => meets_member fair frames meets nofun

mutual

/-- Over frames that differ in no more than the indices an expression that reads named fields
has the same value. -/
private theorem meets_denote (fair : r.Fair admitted) {scope scope' : Scope}
    (frames : Record.unindexedAll scope.frames = Record.unindexedAll scope'.frames)
    (object : scope.object = scope'.object) (list : scope.list = scope'.list) : ∀ e : Expr,
    e.isNamed ∨ e.isFrame → Twins (PairedStores admitted) (Meets e.isFrame)
      (denote r scope e) (denote r scope' e)
  | const v, _ => twins_pure (.value v)
  | this, _ => twins_pure (.frame frames)
  | .object, _ => by
      rw [denote, denote, object]
      cases scope'.object with
      | none => exact twins_throw _
      | some v => exact twins_pure (.value v)
  | .list, _ => by
      rw [denote, denote, list]
      cases scope'.list with
      | none => exact twins_throw _
      | some items => exact twins_pure (.value _)
  | attr base name, h => by
      rw [denote, denote]
      exact meets_attr fair frames h (meets_denote fair frames object list base)
  | index base key, h => by
      -- A key that spells out a name is a member by that name; any other is computed, from values
      -- only.
      cases spelled : key.spelled? with
      | some name =>
          obtain rfl := eq_of_spelled spelled
          have attr : (attr base name).isNamed ∨ (attr base name).isFrame := by
            simpa [isNamed, isFrame, spelled?] using h
          have framed : (index base (const (.str name))).isFrame =
              (Expr.attr base name).isFrame := by
            simp [isFrame, spelled?]
          rw [framed, denote, denote]
          exact meets_attr fair frames attr (meets_denote fair frames object list base)
      | none =>
          have framed : (index base key).isFrame = false := by simp [isFrame, spelled]
          simp only [isNamed, spelled, framed, Option.any_none] at h
          have plain : base.isFrame = false ∧ base.isNamed ∧ key.isNamed := by
            simpa using h
          obtain ⟨_, named, key_named⟩ := plain
          rw [framed, denote, denote]
          have bases := meets_denote fair frames object list base (.inl named)
          have keys := meets_denote fair frames object list key (.inl key_named)
          refine bases.bind fun d d' meets => keys.bind fun k k' keys => ?_
          rw [isFrame_of_isNamed named] at meets
          rw [isFrame_of_isNamed key_named] at keys
          rw [keys.eq]
          exact meets_atKey fair frames meets _
  | binary op left right, h => by
      have both : left.isNamed ∧ right.isNamed := by
        simpa [isNamed, isFrame] using h
      have first := (meets_denote fair frames object list left (.inl both.1))
      have second := (meets_denote fair frames object list right (.inl both.2))
      rw [isFrame_of_isNamed both.1] at first
      rw [isFrame_of_isNamed both.2] at second
      cases op with
      | and =>
          rw [denote, denote]
          refine first.bind fun a a' same => ?_
          rw [same.eq]
          refine twins_ite (second.bind fun b b' same => ?_) (twins_pure (.value _))
          rw [same.eq]
          exact twins_pure (.value _)
      | or =>
          rw [denote, denote]
          refine first.bind fun a a' same => ?_
          rw [same.eq]
          refine twins_ite (twins_pure (.value _)) (second.bind fun b b' same => ?_)
          rw [same.eq]
          exact twins_pure (.value _)
      | _ =>
          simp only [denote]
          refine first.bind fun a a' same => second.bind fun b b' same' => ?_
          rw [same.eq, same'.eq]
          exact (alike_applyBinary fair _ _ _).both fun _ => twins_pure (.value _)
  | unary op operand, h => by
      have named : operand.isNamed := by simpa [isNamed, isFrame] using h
      have inner := (meets_denote fair frames object list operand (.inl named))
      rw [isFrame_of_isNamed named] at inner
      rw [denote, denote]
      refine inner.bind fun a a' same => ?_
      rw [same.eq]
      exact (alike_pureResult _).both fun _ => twins_pure (.value _)
  | call helper args, h => by
      have named : areNamed args := by simpa [isNamed, isFrame] using h
      rw [denote, denote]
      exact (meets_values fair frames object list args named).both fun values =>
        (alike_applyHelper fair helper values).both fun _ => twins_pure (.value _)
  | host run, h => by simp [isNamed, isFrame] at h

theorem meets_values (fair : r.Fair admitted) {scope scope' : Scope}
    (frames : Record.unindexedAll scope.frames = Record.unindexedAll scope'.frames)
    (object : scope.object = scope'.object) (list : scope.list = scope'.list) : ∀ es : List Expr,
    areNamed es → (denoteAll r scope es).Alike admitted (denoteAll r scope' es)
  | [], _ => alike_pure _
  | e :: rest, h => by
      have both : e.isNamed ∧ areNamed rest := by simpa [areNamed] using h
      have first := (meets_denote fair frames object list e (.inl both.1))
      rw [isFrame_of_isNamed both.1] at first
      rw [denoteAll, denoteAll]
      refine first.bind fun d d' same => ?_
      rw [same.eq]
      exact (meets_values fair frames object list rest both.2).both fun _ => alike_pure _

end

/-! ## Evaluation -/

variable {loose : Bool} {depth : Nat} {scope scope' : Scope}

theorem alike_evaluate (fair : r.Fair admitted) (scopes : PairedScopes loose depth scope scope')
    (path : Path) (e : Expr) (named : loose = true → e.isNamed) :
    (e.evaluate r scope path).Alike admitted (e.evaluate r scope' path) := by
  cases loose with
  | false =>
      obtain ⟨frames, object, list⟩ := scope
      obtain ⟨frames', object', list'⟩ := scope'
      obtain rfl : frames = frames' := scopes.frames.tight rfl
      obtain rfl : object = object' := scopes.object
      obtain rfl : list = list' := scopes.list
      cases e with
      | host run => exact alike_ofExcept _
      | _ => exact Twins.both (twins_atPath (alike_denote fair _ _) path) fun _ => alike_pure _
  | true =>
      have plain := named rfl
      have values :=
        meets_denote fair scopes.frames.unindexed scopes.object scopes.list e (.inl plain)
      rw [isFrame_of_isNamed plain] at values
      have alike := twins_atPath (values.imp fun _ _ => Meets.eq) path
      cases e with
      | host run => simp [isNamed] at plain
      | _ => exact Twins.both alike fun _ => alike_pure _

theorem alike_evaluateInt (fair : r.Fair admitted) (scopes : PairedScopes loose depth scope scope')
    (path : Path) (e : Expr) (named : loose = true → e.isNamed) :
    (e.evaluateInt r scope path).Alike admitted (e.evaluateInt r scope' path) := by
  refine (alike_evaluate fair scopes path e named).both fun v => ?_
  cases v.int? with
  | none => exact alike_throw _
  | some n => exact alike_pure n

theorem alike_evaluateSize (fair : r.Fair admitted) (scopes : PairedScopes loose depth scope scope')
    (path : Path) (e : Expr) (named : loose = true → e.isNamed) :
    (e.evaluateSize r scope path).Alike admitted (e.evaluateSize r scope' path) :=
  (alike_evaluateInt fair scopes path e named).both fun _ =>
    twins_ite (alike_pure _) (alike_throw _)

theorem alike_evaluateHolds (fair : r.Fair admitted)
    (scopes : PairedScopes loose depth scope scope') (path : Path) (e : Expr)
    (named : loose = true → e.isNamed) :
    (e.evaluateHolds r scope path).Alike admitted (e.evaluateHolds r scope' path) :=
  (alike_evaluate fair scopes path e named).both fun _ => alike_pure _

end Expr

end BinaryFormat
