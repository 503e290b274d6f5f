import BinaryFormat.Format.Meaning
import BinaryFormat.Proofs.Eager

/-!
# Sizes that the parameters settle

A length, count, modulus, condition or key that is a literal or a parameter has
one value in all contexts over the same parameters.  A format in which all of
them are of this kind has one size in all these contexts, as long as no sum or
product of sizes passes the largest one.
-/

namespace BinaryFormat

/-! ## Lookups that always end the same way -/

namespace Lookup

variable {ε α β : Type} {x : Lookup ε α} {j k : Option α}

/-- The result is the same over every store, or there never is one. -/
structure Settles (x : Lookup ε α) (known : Option α) : Prop where
  found : ∀ a, known = some a → ∀ store, ∃ store', x store = .ok a store'
  missing : known = none → ∀ store, ∃ failure store', x store = .error failure store'

theorem settles_pure (a : α) : (pure a : Lookup ε α).Settles (some a) where
  found b same store := by
    cases same
    exact ⟨store, rfl⟩
  missing := nofun

theorem settles_throw (failure : ε) : (throw failure : Lookup ε α).Settles none where
  found := nofun
  missing _ store := ⟨failure, store, rfl⟩

private theorem Settles.bind {f : α → Lookup ε β} {rest : α → Option β} (h : x.Settles j)
    (later : ∀ a, j = some a → (f a).Settles (rest a)) : (x >>= f).Settles (j.bind rest) := by
  cases j with
  | none =>
      refine ⟨nofun, fun _ store => ?_⟩
      obtain ⟨failure, store', first⟩ := h.missing rfl store
      exact ⟨failure, store', Run.bind_of_error first f⟩
  | some a =>
      refine ⟨fun b found store => ?_, fun absent store => ?_⟩ <;>
        obtain ⟨store', first⟩ := h.found a rfl store <;> rw [Run.bind_of_ok first f]
      · exact (later a rfl).found b found store'
      · exact (later a rfl).missing absent store'

theorem Settles.map {f : α → β} (h : x.Settles j) :
    (x >>= fun a => pure (f a)).Settles (j.map f) := by
  have mapped := h.bind fun a _ => settles_pure (ε := ε) (f a)
  cases j <;> exact mapped

theorem Settles.attempt {f : Except ε α → Lookup ε β} {result : Option β} (h : x.Settles j)
    (found : ∀ a, j = some a → (f (.ok a)).Settles result)
    (missed : j = none → ∀ failure, (f (.error failure)).Settles result) :
    (x.outcome >>= f).Settles result := by
  have step : ∀ store, ∃ (r : Except ε α) (store' : LazyStore),
      x.outcome store = .ok r store' ∧ (f r).Settles result := by
    intro store
    cases j with
    | none =>
        obtain ⟨failure, store', first⟩ := h.missing rfl store
        exact ⟨.error failure, store', by rw [outcome, first], missed rfl failure⟩
    | some a =>
        obtain ⟨store', first⟩ := h.found a rfl store
        exact ⟨.ok a, store', by rw [outcome, first], found a rfl⟩
  refine ⟨fun b same store => ?_, fun none store => ?_⟩ <;>
    obtain ⟨r, store', first, rest⟩ := step store <;> rw [Run.bind_of_ok first f]
  · exact rest.found b same store'
  · exact rest.missing none store'

/-- What one lookup has found is what there is to find. -/
theorem Settles.of_ok (h : x.Settles j) {a : α} {store store' : LazyStore}
    (run : x store = .ok a store') : j = some a := by
  cases j with
  | none =>
      obtain ⟨_, _, fails⟩ := h.missing rfl store
      cases fails.symm.trans run
  | some b =>
      obtain ⟨_, works⟩ := h.found b rfl store
      cases works.symm.trans run
      rfl

/-- The result is the one that is known, over every store; if none is, it may be any. -/
def Yields (x : Lookup ε α) (known : Option α) : Prop :=
  ∀ a, known = some a → ∀ store, ∃ store', x store = .ok a store'

private theorem Settles.yields (h : x.Settles j) : x.Yields j := h.found

private theorem yields_none : x.Yields none := nofun

private theorem yields_pure (a : α) : (pure a : Lookup ε α).Yields (some a) :=
    (settles_pure a).yields

private theorem Yields.bind {f : α → Lookup ε β} {rest : α → Option β} (h : x.Yields j)
    (later : ∀ a, j = some a → (f a).Yields (rest a)) : (x >>= f).Yields (j.bind rest) := by
  intro b known store
  obtain ⟨a, first, second⟩ := Option.bind_eq_some_iff.mp known
  obtain ⟨store', found⟩ := h a first store
  rw [Run.bind_of_ok found f]
  exact later a first b second store'

private theorem Yields.map {f : α → β} (h : x.Yields j) :
    (x >>= fun a => pure (f a)).Yields (j.map f) := by
  have mapped := h.bind fun a _ => yields_pure (ε := ε) (f a)
  cases j <;> exact mapped

theorem Yields.eq_of_ok (h : x.Yields j) {a b : α} {store store' : LazyStore} (known : j = some a)
    (run : x store = .ok b store') : b = a := by
  obtain ⟨_, works⟩ := h a known store
  cases works.symm.trans run
  rfl

/-- What is done with the outcome of a lookup that always ends the same way. -/
private theorem Settles.attempt_yields {f : Except ε α → Lookup ε β} {result : Option β}
    (h : x.Settles j) (found : ∀ a, j = some a → (f (.ok a)).Yields result)
    (missed : j = none → ∀ failure, (f (.error failure)).Yields result) :
    (x.outcome >>= f).Yields result := by
  intro b known store
  cases j with
  | none =>
      obtain ⟨failure, store', first⟩ := h.missing rfl store
      have ended : x.outcome store = .ok (.error failure) store' := by rw [outcome, first]
      rw [Run.bind_of_ok ended f]
      exact missed rfl failure b known store'
  | some a =>
      obtain ⟨store', first⟩ := h.found a rfl store
      have ended : x.outcome store = .ok (.ok a) store' := by rw [outcome, first]
      rw [Run.bind_of_ok ended f]
      exact found a rfl b known store'

end Lookup

/-! ## Contexts over the same parameters -/

namespace Context

/-- The lowest frame. -/
def parameters (ctx : Context) : Record Value :=
  (ctx.frames.drop (ctx.frames.length - 1)).headD []

/-- So many frames lie over public parameters that are those of the record. -/
structure Ruled (params : Record Value) (depth : Nat) (ctx : Context) : Prop where
  depth : ctx.below.length = depth
  shown : ∀ name, Record.isPrivate name = false →
    Record.get? ctx.parameters name = Record.get? params name

variable {params : Record Value} {depth : Nat} {ctx ctx' : Context}

theorem ruled_ofParams (params : Record Value) : (ofParams params).Ruled params 0 :=
  ⟨rfl, fun _ _ => rfl⟩

private theorem parameters_push (ctx : Context) (values : Record Value) :
    (ctx.push values).parameters = ctx.parameters := by
  simp only [parameters, frames_push, List.length_cons, Nat.add_sub_cancel]
  have some : ctx.frames.length = ctx.frames.length - 1 + 1 := by simp [frames]
  rw [some, List.drop_succ_cons, Nat.add_sub_cancel]

theorem Ruled.push (h : ctx.Ruled params depth) (values : Record Value) :
    (ctx.push values).Ruled params (depth + 1) where
  depth := congrArg (· + 1) h.depth
  shown name hn := by rw [parameters_push, h.shown name hn]

private theorem parameters_of_below {ctx ctx' : Context} (below : ctx'.below = ctx.below)
    (inner : ctx.below ≠ []) : ctx'.parameters = ctx.parameters := by
  obtain ⟨top, rest⟩ := ctx
  obtain ⟨top', rest'⟩ := ctx'
  cases below
  cases rest with
  | nil => exact absurd rfl inner
  | cons frame rest => simp [parameters, frames]

private theorem parameters_bottom (ctx : Context) (bottom : ctx.below = []) :
    ctx.parameters = ctx.innermost := by
  obtain ⟨top, rest⟩ := ctx
  cases bottom
  rfl

theorem Ruled.of_below (h : ctx.Ruled params depth) (below : ctx'.below = ctx.below)
    (lowest : ctx.below = [] → ∀ name, Record.isPrivate name = false →
      Record.get? ctx'.innermost name = Record.get? ctx.innermost name) :
    ctx'.Ruled params depth where
  depth := by rw [below, h.depth]
  shown name hn := by
    by_cases bottom : ctx.below = []
    · rw [parameters_bottom ctx' (below.trans bottom), lowest bottom name hn,
        ← parameters_bottom ctx bottom, h.shown name hn]
    · rw [parameters_of_below below bottom, h.shown name hn]

theorem Ruled.inner (h : ctx.Ruled params (depth + 1)) : ctx.below ≠ [] := by
  intro bottom
  have depth := h.depth
  rw [bottom] at depth
  cases depth

theorem Ruled.quiet (h : ctx.Ruled params depth) (quiet : ctx.Quiet ctx') :
    ctx'.Ruled params depth :=
  h.of_below quiet.below fun _ => quiet.shown

theorem Ruled.kept (h : ctx.Ruled params (depth + 1)) (below : ctx'.below = ctx.below) :
    ctx'.Ruled params (depth + 1) :=
  h.of_below below fun bottom => absurd bottom h.inner

theorem Ruled.pop (h : ctx.Ruled params (depth + 1)) : ctx.pop.Ruled params depth := by
  obtain ⟨top, rest⟩ := ctx
  cases rest with
  | nil => exact absurd rfl h.inner
  | cons frame rest =>
      have count := h.depth
      refine ⟨Nat.succ.inj count, fun name hn => ?_⟩
      rw [← h.shown name hn]
      simp [parameters, frames, Context.pop]

end Context

/-! ## Expressions over the parameters -/

private theorem Denoted.ofFrame_shown {frames stack : List (Record Value)} {name : String}
    (shown : Record.isPrivate name = false) :
    ofFrame frames stack name = ((Record.get? (stack.headD []) name).map fun v =>
      Except.ok (value v)).getD (.error (.unevaluable (.noVariable name))) := by
  have apart : ∀ other, Record.isPrivate other = true → name ≠ other := by
    rintro other hidden rfl
    cases hidden.symm.trans shown
  unfold ofFrame
  rw [if_neg (apart "_" (by decide)), if_neg (apart "_root" (by decide)),
    if_neg (apart "_params" (by decide)), if_neg (apart "_index" (by decide))]
  cases Record.get? (stack.headD []) name <;> rfl

namespace Expr

/-- A literal, or a public parameter. -/
def Settled : Expr → Prop
  | const v => v.Eager
  | attr (attr this params) name => params = "_params" ∧ Record.isPrivate name = false
  | _ => False

/-- The value of a literal or of a parameter. -/
def valueIn (params : Record Value) : Expr → Option Value
  | const v => some v
  | attr _ name => Record.get? params name
  | _ => none

/-- A key: a literal or a parameter whose value has no lazy parts. -/
def Plain (params : Record Value) (x : Expr) : Prop :=
  x.Settled ∧ ∀ v, x.valueIn params = some v → v.Eager

/-- The value as a size. -/
def sizeIn (params : Record Value) (x : Expr) : Option Nat :=
  (x.valueIn params).bind fun v => v.int?.bind fun n =>
    if 0 ≤ n ∧ n ≤ Value.maxSize then some n.toNat else none

variable {params : Record Value} {depth : Nat} {ctx : Context} {x : Expr}

private theorem settles_evaluate (h : x.Settled) (ruled : ctx.Ruled params depth) (r : Resolver)
    (path : Path) : (x.evaluate r ctx.scope path).Settles (x.valueIn params) := by
  unfold Settled at h
  split at h
  · exact Lookup.settles_pure _
  · rename_i name
    obtain ⟨rfl, shown⟩ := h
    have value := ruled.shown name shown
    have follow : ∀ store,
      (Expr.attr (.attr .this "_params") name).evaluate r ctx.scope path store =
        ((Lookup.ofExcept (Denoted.ofFrame ctx.frames
          (ctx.frames.drop (ctx.frames.length - 1)) name)).atPath path >>=
            fun found => pure found.toValue : Lookup Failure Value) store := fun _ => rfl
    simp only [Denoted.ofFrame_shown shown] at follow
    rw [Context.parameters] at value
    rw [valueIn]
    refine ⟨fun v found store => ⟨store, ?_⟩, fun missing store =>
      ⟨(Fault.unevaluable (.noVariable name)).atPath path, store, ?_⟩⟩
    · rw [follow, value, found]
      rfl
    · rw [follow, value, missing]
      rfl
  · exact h.elim

theorem settles_evaluateSize (h : x.Settled) (ruled : ctx.Ruled params depth) (r : Resolver)
    (path : Path) : (x.evaluateSize r ctx.scope path).Settles (x.sizeIn params) := by
  have number : (x.evaluateInt r ctx.scope path).Settles
      ((x.valueIn params).bind Value.int?) := by
    refine (settles_evaluate h ruled r path).bind fun v _ => ?_
    cases v.int? with
    | none => exact Lookup.settles_throw _
    | some n => exact Lookup.settles_pure n
  have size : (x.evaluateSize r ctx.scope path).Settles
      (((x.valueIn params).bind Value.int?).bind fun n =>
        if 0 ≤ n ∧ n ≤ Value.maxSize then some n.toNat else none) := by
    refine number.bind fun n _ => ?_
    split
    · exact Lookup.settles_pure _
    · exact Lookup.settles_throw _
  rwa [Option.bind_assoc] at size

theorem settles_evaluateHolds (h : x.Settled) (ruled : ctx.Ruled params depth) (r : Resolver)
    (path : Path) :
    (x.evaluateHolds r ctx.scope path).Settles ((x.valueIn params).map Value.holds) :=
  (settles_evaluate h ruled r path).map

end Expr

private theorem Engine.yields_staticSize {params : Record Value} {depth : Nat} {ctx : Context}
    {x : Expr}
    (e : Engine) (h : x.Settled) (ruled : ctx.Ruled params depth) (path : Path) :
    (e.staticSize x ctx path).Yields (x.sizeIn params) := by
  refine (Expr.settles_evaluateSize h ruled e.resolver path).attempt_yields (fun n known => ?_)
    fun unknown failure => ?_
  · rw [known]
    exact Lookup.yields_pure n
  · rw [unknown]
    exact Lookup.yields_none

/-! ## Sizes that may be unknown -/

namespace Sizes

/-- One behind the other. -/
def plus (j k : Option Nat) : Option Nat := j.bind fun n => k.map (n + ·)

def total : List (Option Nat) → Option Nat
  | [] => some 0
  | j :: rest => plus j (total rest)

/-- All of them, if all are known. -/
def all : List (Option Nat) → Option (List Nat)
  | [] => some []
  | j :: rest => j.bind fun n => (all rest).map (n :: ·)

/-- So many times the size. -/
def times (count : Nat) (j : Option Nat) : Option Nat := j.map (count * ·)

/-- A size that does not pass the largest one. -/
def fitted (n : Nat) : Option Nat := if n ≤ Value.maxSize then some n else none

theorem bind_fitted {j : Option Nat} {n : Nat} :
    j.bind fitted = some n ↔ j = some n ∧ n ≤ Value.maxSize := by
  cases j with
  | none => simp
  | some m =>
      by_cases small : m ≤ Value.maxSize
      · simp only [Option.bind_some, fitted, if_pos small, Option.some.injEq]
        exact ⟨fun same => ⟨same, same ▸ small⟩, And.left⟩
      · simp only [Option.bind_some, fitted, if_neg small, Option.some.injEq, reduceCtorEq,
          false_iff, not_and]
        rintro rfl
        exact small

theorem plus_eq_some {j k : Option Nat} {n : Nat} :
    plus j k = some n ↔ ∃ a b, j = some a ∧ k = some b ∧ n = a + b := by
  cases j <;> cases k <;> simp [plus, eq_comm]

theorem eq_of_common {knowns : List (Option Nat)} {n : Nat}
    (h : (all knowns).bind Codec.commonSize = some n) : ∀ j ∈ knowns, j = some n := by
  cases known : all knowns with
  | none =>
      rw [known] at h
      cases h
  | some sizes =>
      rw [known] at h
      have same : ∀ m ∈ sizes, m = n := by
        cases sizes with
        | nil => cases h
        | cons first rest =>
            simp only [Option.bind_some, Codec.commonSize] at h
            split at h
            · rename_i others
              cases h
              intro m mem
              rcases List.mem_cons.mp mem with rfl | mem
              · rfl
              · simpa using List.all_eq_true.mp others m mem
            · cases h
      clear h
      induction knowns generalizing sizes with
      | nil => exact fun _ mem => absurd mem List.not_mem_nil
      | cons k rest ih =>
          cases k with
          | none => cases known
          | some m =>
              cases later : all rest with
              | none =>
                  simp only [all, later, Option.bind_some, Option.map_none, reduceCtorEq] at known
              | some others =>
                  simp only [all, later, Option.bind_some, Option.map_some,
                    Option.some.injEq] at known
                  subst known
                  intro j mem
                  rcases List.mem_cons.mp mem with rfl | mem
                  · exact congrArg some (same m List.mem_cons_self)
                  · exact ih others later (fun m mem => same m (List.mem_cons_of_mem _ mem)) j mem

end Sizes

/-! ## Sizes of codecs -/

namespace Codec

/-- The size is the one that is known, in all contexts over the parameters. -/
def Measured (params : Record Value) (c : Codec) (known : Option Nat) : Prop :=
  ∀ depth ctx path, Context.Ruled params depth ctx → (c.size ctx path).Yields known

variable {params : Record Value} {e : Engine} {c : Codec} {j k : Option Nat}

theorem measured_pure {n : Nat} (h : ∀ ctx path, c.size ctx path = pure n) :
    c.Measured params (some n) := by
  intro depth ctx path _
  rw [h]
  exact Lookup.yields_pure n

theorem measured_static {x : Expr} (settled : x.Settled)
    (h : ∀ ctx path, c.size ctx path = e.staticSize x ctx path) :
    c.Measured params (x.sizeIn params) := by
  intro depth ctx path ruled
  rw [h]
  exact e.yields_staticSize settled ruled path

/-! ### Members -/

/-- Components with their sizes. -/
abbrev MeasuredAll (params : Record Value) : List Part → List (Option Nat) → Prop :=
  List.Forall₂ fun p known => p.codec.Measured params known

variable {parts : List Part} {knowns : List (Option Nat)}

/-- Two sizes of which one is added to the other. -/
private theorem yields_plus {x y : Lookup Failure Nat} (h : x.Yields j) (h' : y.Yields k) :
    (do return Size.add (← x) (← y) : Lookup Failure Nat).Yields
      ((Sizes.plus j k).bind Sizes.fitted) := by
  intro n known store
  obtain ⟨sum, small⟩ := Sizes.bind_fitted.mp known
  obtain ⟨a, b, rfl, rfl, rfl⟩ := Sizes.plus_eq_some.mp sum
  obtain ⟨store₁, first⟩ := h a rfl store
  obtain ⟨store₂, second⟩ := h' b rfl store₁
  refine ⟨store₂, ?_⟩
  rw [Run.bind_of_ok first, Run.bind_of_ok second, Size.add_of_le small]
  rfl

private theorem fitted_of_total {total : Option Nat} {n : Nat}
    (known : (Sizes.plus j total).bind Sizes.fitted = some n) :
    (Sizes.plus j (total.bind Sizes.fitted)).bind Sizes.fitted = some n := by
  obtain ⟨sum, small⟩ := Sizes.bind_fitted.mp known
  obtain ⟨a, b, first, rest, rfl⟩ := Sizes.plus_eq_some.mp sum
  refine Sizes.bind_fitted.mpr ⟨Sizes.plus_eq_some.mpr ⟨a, b, first, ?_, rfl⟩, small⟩
  exact Sizes.bind_fitted.mpr ⟨rest, by omega⟩

private theorem yields_fieldsSize (h : MeasuredAll params parts knowns) {depth : Nat}
    {ctx : Context}
    (ruled : ctx.Ruled params depth) (path : Path) :
    (fieldsSize ctx path parts).Yields ((Sizes.total knowns).bind Sizes.fitted) := by
  induction h with
  | nil => exact Lookup.yields_pure 0
  | cons first _ ih =>
      exact fun n known => yields_plus (first depth ctx _ ruled) ih n (fitted_of_total known)

private theorem yields_itemsSize (h : MeasuredAll params parts knowns) {depth : Nat} {ctx : Context}
    (ruled : ctx.Ruled params depth) (path : Path) (i : Nat) :
    (itemsSize ctx path i parts).Yields ((Sizes.total knowns).bind Sizes.fitted) := by
  induction h generalizing i with
  | nil => exact Lookup.yields_pure 0
  | cons first _ ih =>
      exact fun n known =>
        yields_plus (first depth ctx _ ruled) (ih (i + 1)) n (fitted_of_total known)

private theorem yields_sizes (h : MeasuredAll params parts knowns) {depth : Nat} {ctx : Context}
    (ruled : ctx.Ruled params depth) (path : Path) :
    (Part.sizes ctx path parts).Yields (Sizes.all knowns) := by
  induction h with
  | nil => exact Lookup.yields_pure []
  | cons first _ ih =>
      exact (first depth ctx _ ruled).bind fun n _ => ih.map

theorem measured_struct (h : MeasuredAll params parts knowns) (overwrite : Bool) :
    (struct e parts overwrite).Measured params ((Sizes.total knowns).bind Sizes.fitted) :=
  fun _ _ path ruled => yields_fieldsSize h (ruled.push []) path

theorem measured_sequence (h : MeasuredAll params parts knowns) :
    (sequence e parts).Measured params ((Sizes.total knowns).bind Sizes.fitted) :=
  fun _ _ path ruled => yields_itemsSize h (ruled.push []) path 0

theorem measured_focused (h : MeasuredAll params parts knowns) (focus : Selector) :
    (focused e focus parts).Measured params ((Sizes.total knowns).bind Sizes.fitted) :=
  fun _ _ path ruled => yields_itemsSize h (ruled.push []) path 0

/-! ### Repetition -/

theorem measured_array {count : Expr} (settled : count.Settled) {of : Part}
    (h : of.codec.Measured params j) (discard : Bool) :
    (array e count of discard).Measured params ((count.sizeIn params).bind fun count =>
      (Sizes.times count j).bind Sizes.fitted) := by
  intro depth ctx path ruled
  refine (e.yields_staticSize settled ruled path).bind fun count _ n known store => ?_
  obtain ⟨product, small⟩ := Sizes.bind_fitted.mp known
  obtain ⟨size, rfl, rfl⟩ := Option.map_eq_some_iff.mp product
  obtain ⟨store', found⟩ := h depth ctx (path.element 0) ruled size rfl store
  refine ⟨store', ?_⟩
  rw [productSize, Run.bind_of_ok found, if_pos small]
  rfl

theorem measured_range {least most : Expr} (settled : least.Settled) (settled' : most.Settled)
    {of : Part} (h : of.codec.Measured params j) (discard : Bool) :
    (range e least most of discard).Measured params ((least.sizeIn params).bind fun least =>
      (most.sizeIn params).bind fun most =>
        if least ≠ most then none else (Sizes.times least j).bind Sizes.fitted) := by
  intro depth ctx path ruled
  refine (e.yields_staticSize settled ruled path).bind fun least _ => ?_
  refine (e.yields_staticSize settled' ruled path).bind fun most _ => ?_
  split
  · exact Lookup.yields_none
  · intro n known store
    obtain ⟨product, small⟩ := Sizes.bind_fitted.mp known
    obtain ⟨size, rfl, rfl⟩ := Option.map_eq_some_iff.mp product
    obtain ⟨store', found⟩ := h depth ctx (path.element 0) ruled size rfl store
    refine ⟨store', ?_⟩
    rw [Run.bind_of_ok found, Size.mul_of_le small]
    rfl

/-! ### Choice -/

theorem measured_select (h : MeasuredAll params parts knowns) (tagged : Bool) :
    (select parts tagged).Measured params ((Sizes.all knowns).bind commonSize) := by
  intro depth ctx path ruled
  refine (yields_sizes h ruled path).bind fun sizes _ => ?_
  cases commonSize sizes with
  | none => exact Lookup.yields_none
  | some n => exact Lookup.yields_pure n

theorem measured_branch {condition : Expr} (settled : condition.Settled) {yes no : Codec}
    (h : yes.Measured params j) (h' : no.Measured params k) :
    (branch e condition yes no).Measured params ((condition.valueIn params).bind fun v =>
      if v.holds then j else k) := by
  intro depth ctx path ruled
  refine (Expr.settles_evaluateHolds settled ruled e.resolver path).attempt_yields
    (fun holds known => ?_) fun unknown failure => ?_
  · cases value : condition.valueIn params with
    | none => rw [value] at known; cases known
    | some v =>
        rw [value] at known
        cases known
        dsimp only [Option.bind_some]
        cases v.holds
        · exact h' depth ctx path ruled
        · exact h depth ctx path ruled
  · cases value : condition.valueIn params with
    | none => exact Lookup.yields_none
    | some v => rw [value] at unknown; cases unknown

/-- Whether values without lazy parts are the same. -/
def matches? (a b : Value) : Bool :=
  match (Resolver.mk (fun _ _ => pure .none) pure).equal a b .empty with
  | .ok answer _ => answer
  | .error _ _ => false

private theorem equal_of_matches (r : Resolver) {a b : Value} (ha : a.Eager) (hb : b.Eager) :
    r.equal a b = pure (matches? a b) := by
  obtain ⟨answer, same⟩ := Resolver.equal_of_eager ha hb
  rw [same r, matches?, same]
  rfl

/-- The first case whose key is the value, with what comes with it. -/
def caseOf {α : Type} (v : Value) : List (Value × α) → Option α → Option α
  | [], fallback => fallback
  | (key, a) :: rest, fallback => if matches? key v then some a else caseOf v rest fallback

private theorem findCase_of_eager (r : Resolver) {v : Value} (eager : v.Eager)
    {cases : List (Value × Part)} (keys : ∀ c ∈ cases, c.1.Eager) (fallback : Option Part) :
    findCase r v fallback cases = pure (caseOf v cases fallback) := by
  induction cases with
  | nil => rfl
  | cons c rest ih =>
      obtain ⟨key, part⟩ := c
      have later := ih fun c mem => keys c (List.mem_cons_of_mem _ mem)
      rw [findCase, equal_of_matches r (keys _ List.mem_cons_self) eager, caseOf]
      funext store
      cases matches? key v
      · exact congrFun later store
      · rfl

theorem settles_chooseCase (r : Resolver) {key : Expr} (plain : key.Plain params)
    {cases : List (Value × Part)}
    (keys : ∀ c ∈ cases, c.1.Eager) (fallback : Option Part) {depth : Nat} {ctx : Context}
    (ruled : ctx.Ruled params depth) (path : Path) :
    (chooseCase r key cases fallback ctx.scope path).Settles
      ((key.valueIn params).bind fun v => caseOf v cases fallback) := by
  refine (Expr.settles_evaluate plain.1 ruled r path).bind fun v known => ?_
  rw [findCase_of_eager r (plain.2 v known) keys]
  cases chosen : caseOf v cases fallback with
  | some part => exact Lookup.settles_pure part
  | none =>
      exact ⟨nofun, fun _ store =>
        ⟨(Fault.noCase (v.dump store.resolved)).atPath path, store, rfl⟩⟩

/-- The components of cases have the sizes that stand at the same keys. -/
abbrev CasesWith (R : Part → Option Nat → Prop) :
    List (Value × Part) → List (Value × Option Nat) → Prop :=
  List.Forall₂ fun c size => c.1 = size.1 ∧ R c.2 size.2

section

variable {R : Part → Option Nat → Prop} {cases : List (Value × Part)}
  {sizes : List (Value × Option Nat)} {fallback : Option Part} {otherwise : Option (Option Nat)}

private theorem rel_caseOf (h : CasesWith R cases sizes) (other : Option.Rel R fallback otherwise)
    (v : Value) : Option.Rel R (caseOf v cases fallback) (caseOf v sizes otherwise) := by
  induction h with
  | nil => exact other
  | @cons c size _ _ first _ ih =>
      rw [caseOf, caseOf, first.1]
      split
      · exact .some first.2
      · exact ih

private theorem forall₂_of_cases (h : CasesWith R cases sizes)
    (other : Option.Rel R fallback otherwise) :
    List.Forall₂ R (cases.map Prod.snd ++ fallback.toList)
      (sizes.map Prod.snd ++ otherwise.toList) := by
  induction h with
  | nil =>
      cases other with
      | none => exact .nil
      | some only => exact .cons only .nil
  | cons first _ ih => exact .cons first.2 ih

/-- What a switch takes: the size of the chosen component or, where none is, that of all. -/
def switchSize (key : Option Value) (sizes : List (Value × Option Nat))
    (otherwise : Option (Option Nat)) : Option Nat :=
  (key.bind fun v => caseOf v sizes otherwise).getD
    ((Sizes.all (sizes.map Prod.snd ++ otherwise.toList)).bind commonSize)

theorem switchSize_of_caseOf {key : Option Value} {v : Value} {part : Part}
    (h : CasesWith R cases sizes) (other : Option.Rel R fallback otherwise) (value : key = some v)
    (chosen : caseOf v cases fallback = some part) : R part (switchSize key sizes otherwise) := by
  have related := rel_caseOf h other v
  rw [chosen] at related
  rw [switchSize, value, Option.bind_some]
  cases found : caseOf v sizes otherwise with
  | none =>
      rw [found] at related
      cases related
  | some known =>
      rw [found] at related
      cases related with
      | some same => exact same

end

theorem measured_switch {key : Expr} (plain : key.Plain params)
    {cases : List (Value × Part)} (keys : ∀ c ∈ cases, c.1.Eager) {fallback : Option Part}
    {sizes : List (Value × Option Nat)} {otherwise : Option (Option Nat)}
    (h : CasesWith (fun p known => p.codec.Measured params known) cases sizes)
    (other : Option.Rel (fun p known => p.codec.Measured params known) fallback otherwise) :
    (switch e key cases fallback).Measured params
      (switchSize (key.valueIn params) sizes otherwise) := by
  intro depth ctx path ruled
  refine (settles_chooseCase e.resolver plain keys fallback ruled path).attempt_yields
    (fun part found => ?_) fun missing failure => ?_
  · obtain ⟨v, value, chosen⟩ := Option.bind_eq_some_iff.mp found
    exact switchSize_of_caseOf h other value chosen depth ctx path ruled
  · have none : ((key.valueIn params).bind fun v => caseOf v sizes otherwise) = none := by
      cases value : key.valueIn params with
      | none => rfl
      | some v =>
          have related := rel_caseOf h other v
          rw [value, Option.bind_some] at missing
          rw [missing] at related
          rw [Option.bind_some]
          generalize caseOf v sizes otherwise = found at related
          cases related
          rfl
    rw [switchSize, none, Option.getD_none]
    refine (yields_sizes (forall₂_of_cases h other) ruled path).bind fun sizes _ => ?_
    cases commonSize sizes with
    | none => exact Lookup.yields_none
    | some n => exact Lookup.yields_pure n

/-! ### Padding and envelopes -/

theorem measured_aligned {modulus : Expr} (settled : modulus.Settled)
    (h : c.Measured params j) (fill : Fill) :
    (aligned e modulus c fill).Measured params ((modulus.sizeIn params).bind fun m =>
      (j.map fun used => used + toMultiple used (max m 1)).bind Sizes.fitted) := by
  intro depth ctx path ruled
  refine (e.yields_staticSize settled ruled path).bind fun m _ n known store => ?_
  obtain ⟨sum, small⟩ := Sizes.bind_fitted.mp known
  obtain ⟨used, rfl, rfl⟩ := Option.map_eq_some_iff.mp sum
  obtain ⟨store', found⟩ := h depth ctx path ruled used rfl store
  refine ⟨store', ?_⟩
  rw [Run.bind_of_ok found, Size.add_of_le small]
  rfl

theorem measured_prefixed {length : Part} (h : length.codec.Measured params j)
    (h' : c.Measured params k) (inclusive lenient : Bool) :
    (prefixed length c inclusive lenient).Measured params
      ((Sizes.plus j k).bind Sizes.fitted) :=
  fun depth ctx path ruled => yields_plus (h depth ctx path ruled) (h' depth ctx path ruled)

/-- What a transformed component takes, if the component has the size `j`. -/
def extentSize (params : Record Value) (j : Option Nat) : Extent → Option Nat
  | .ofChild => j
  | .toEnd => none
  | .fixed x => x.sizeIn params

theorem measured_transformed (transform : Transform) {extent : Extent}
    (settled : ∀ x, extent = .fixed x → x.Settled) (h : c.Measured params j) :
    (transformed e c transform extent).Measured params (extentSize params j extent) := by
  intro depth ctx path ruled
  cases extent with
  | ofChild => exact h depth ctx path ruled
  | toEnd => exact Lookup.yields_none
  | fixed x => exact e.yields_staticSize (settled x rfl) ruled path

/-- The size of a view of so many units. -/
def recodedSize (r : Recoding) (units : Nat) : Option Nat :=
  if units % r.inner ≠ 0 then none else some (units / r.inner * r.outer)

theorem measured_recoded (h : c.Measured params j) (r : Recoding) (checked : Bool) :
    (recoded e c r checked).Measured params ((j.bind (recodedSize r)).bind Sizes.fitted) := by
  rw [Option.bind_assoc]
  intro depth ctx path ruled
  refine (h depth ctx path ruled).bind fun units _ n known store => ?_
  obtain ⟨size, small⟩ := Sizes.bind_fitted.mp known
  unfold recodedSize at size
  split at size
  · cases size
  · rename_i whole
    cases size
    refine ⟨store, ?_⟩
    rw [if_neg whole, Size.mul_of_le small]
    rfl

end Codec

end BinaryFormat
