import BinaryFormat.Codec.Choice
import BinaryFormat.Codec.Lazy
import BinaryFormat.Proofs.Twins.Components

/-!
# Fair structures, repetitions and choices

What a structure yields are the entries of a frame that it has entered itself, so
they are the same however the frames around it differ.  A lazy member is put down
with the frames that it was found in, which may differ where its format cannot tell.
-/

namespace BinaryFormat

open Lookup Run

variable {admitted : String → Prop} {loose : Bool} {w : Pairing admitted loose}

namespace Codec

variable {e : Engine} {c d : Codec} {p q : Part} {ps : List Part} {x y : Expr}

/-! ## Structures -/

private theorem fair_insertInline (name : String) (v : Value) (overwrite : Bool) (path : Path) :
    (insertInline name v overwrite path).Fair w.pushed := by
  refine twins_context.bind fun ctx ctx' contexts => ?_
  rw [PairedContexts.innermost contexts]
  exact fair_guard (fair_insert name v)

private theorem fair_parseFields (h : ∀ p ∈ ps, p.codec.Fair admitted loose)
    (overwrite inlined : Bool)
    (path : Path) : (parseFields overwrite inlined path ps).Fair w.pushed := by
  induction ps with
  | nil => exact fair_pure _
  | cons field rest ih =>
      have here := h field List.mem_cons_self
      have later := ih fun p mem => h p (List.mem_cons_of_mem field mem)
      unfold parseFields
      refine fair_ite (.bind (here.parseInline w path overwrite) fun _ => later) ?_
      cases field.name? with
      | none => exact .bind (here.parsePart path) fun _ => later
      | some name =>
          refine .bind (here.parsePart _) fun value => fair_ite ?_ ?_
          · exact .bind (fair_insertInline name value overwrite _) fun _ => later
          · exact .bind (fair_insert name value) fun _ => later

private theorem alike_fieldsSize (h : ∀ p ∈ ps, p.codec.Fair admitted loose) {depth : Nat}
    {ctx ctx' : Context} (contexts : PairedContexts loose depth ctx ctx') (path : Path) :
    (fieldsSize ctx path ps).Alike admitted (fieldsSize ctx' path ps) := by
  induction ps with
  | nil => exact alike_pure _
  | cons field rest ih =>
      have later := ih fun p mem => h p (List.mem_cons_of_mem field mem)
      exact ((h field List.mem_cons_self).size contexts _).both fun _ => later.both fun _ =>
        alike_pure _

theorem fair_struct (h : ∀ p ∈ ps, p.codec.Fair admitted loose) (overwrite : Bool) :
    (struct e ps overwrite).Fair admitted loose where
  parse _ path := .bind (.inFrame (fair_parseFields h overwrite false path) []) fun _ =>
    fair_pure _
  parseInline _ path overwrite := fair_parseFields h overwrite true path
  size contexts path := alike_fieldsSize h (contexts.push []) path

theorem fair_noteItem (item : Part) (v : Value) : (noteItem item v).Fair w := by
  unfold noteItem
  cases item.name? with
  | none => exact fair_pure _
  | some name => exact fair_insert name v

private theorem fair_parseItems (h : ∀ p ∈ ps, p.codec.Fair admitted loose) (path : Path)
    (i : Nat) :
    (parseItems path i ps).Fair w := by
  induction ps generalizing i with
  | nil => exact fair_pure _
  | cons item rest ih =>
      have later := ih (fun p mem => h p (List.mem_cons_of_mem item mem)) (i + 1)
      exact .bind ((h item List.mem_cons_self).parsePart _) fun v => .bind (fair_noteItem item v)
        fun _ => .bind later fun _ => fair_pure _

private theorem alike_itemsSize (h : ∀ p ∈ ps, p.codec.Fair admitted loose) {depth : Nat}
    {ctx ctx' : Context} (contexts : PairedContexts loose depth ctx ctx') (path : Path) (i : Nat) :
    (itemsSize ctx path i ps).Alike admitted (itemsSize ctx' path i ps) := by
  induction ps generalizing i with
  | nil => exact alike_pure _
  | cons item rest ih =>
      have later := ih (fun p mem => h p (List.mem_cons_of_mem item mem)) (i + 1)
      exact ((h item List.mem_cons_self).size contexts _).both fun _ => later.both fun _ =>
        alike_pure _

theorem fair_sequence (h : ∀ p ∈ ps, p.codec.Fair admitted loose) :
    (sequence e ps).Fair admitted loose where
  parse _ path := .bind (.inFrame (fair_parseItems h path 0) []) fun _ => fair_pure _
  parseInline _ _ _ := fair_fail _ _
  size contexts path := alike_itemsSize h (contexts.push []) path 0

theorem fair_focused (h : ∀ p ∈ ps, p.codec.Fair admitted loose) (focus : Selector) :
    (focused e focus ps).Fair admitted loose where
  parse w path := by
    have chosen : (focusIndex focus ps path).Fair w := by
      unfold focusIndex
      cases Select.index? focus ps with
      | none => exact fair_fail _ _
      | some i => exact fair_pure i
    exact .bind chosen fun _ => .bind (.inFrame (fair_parseItems h path 0) []) fun _ => fair_pure _
  parseInline _ _ _ := fair_fail _ _
  size contexts path := alike_itemsSize h (contexts.push []) path 0

/-! ## Repetition -/

private theorem fair_parseCounted (h : p.codec.Fair admitted loose) (path : Path) : ∀ count i : Nat,
    (parseCounted p path count i).Fair w
  | 0, _ => fair_pure _
  | count + 1, i => .bind (fair_insert _ _) fun _ => .bind (h.parsePart _) fun _ =>
      .bind (fair_parseCounted h path count (i + 1)) fun _ => fair_pure _

theorem alike_productSize (h : p.codec.Fair admitted loose) (count : Nat) {depth : Nat}
    {ctx ctx' : Context} (contexts : PairedContexts loose depth ctx ctx') (path : Path) :
    (productSize p count ctx path).Alike admitted (productSize p count ctx' path) :=
  (h.size contexts _).both fun _ => twins_ite (alike_pure _) (alike_unsized _ path)

theorem fair_array (fair : e.Fair admitted) (named : loose = true → x.isNamed)
    (h : p.codec.Fair admitted loose) (discard : Bool) :
    (array e x p discard).Fair admitted loose where
  parse _ path := .bind (e.fair_evalSize fair named path) fun count =>
    .bind (fair_parseCounted h path count 0) fun _ => fair_pure _
  parseInline _ _ _ := fair_fail _ _
  size contexts path := (e.alike_staticSize fair named path contexts).both fun count =>
    alike_productSize h count contexts path

private theorem fair_parseGreedy (h : p.codec.Fair admitted loose) (path : Path) : ∀ most i : Nat,
    (parseGreedy p path most i).Fair w
  | 0, _ => fair_pure _
  | most + 1, i => by
      refine .bind Run.fair_tell fun start => .bind (fair_insert _ _) fun _ =>
        .bind (h.parsePart _).outcome fun found => ?_
      cases found with
      | ok v =>
          exact .bind Run.fair_tell fun _ => fair_ite (fair_pure _)
            (.bind (fair_parseGreedy h path most (i + 1)) fun _ => fair_pure _)
      | error failure =>
          have stop : Run.Fair w (goTo start >>= fun _ => pure ([] : List Value)) :=
            .bind (fair_goTo start) fun _ => fair_pure _
          exact fair_ite (.bind (fair_throw _) fun _ => stop) stop

private theorem fair_bounds (fair : e.Fair admitted) (least_named : loose = true → x.isNamed)
    {most : Option Expr} (most_named : loose = true → ∀ y ∈ most, y.isNamed) (path : Path) :
    (bounds e x most path).Fair w := by
  refine .bind (e.fair_evalSize fair least_named path) fun least => ?_
  cases most with
  | none => exact .bind (fair_pure _) fun _ => fair_guard (fair_pure _)
  | some most =>
      exact .bind (e.fair_evalSize fair (fun differ => most_named differ most rfl) path) fun _ =>
        fair_guard (fair_pure _)

private theorem fair_parseRange (fair : e.Fair admitted) (least_named : loose = true → x.isNamed)
    {most : Option Expr} (most_named : loose = true → ∀ y ∈ most, y.isNamed)
    (h : p.codec.Fair admitted loose) (discard : Bool) (path : Path) :
    (parseRange e x most p discard path).Fair w :=
  .bind (fair_bounds fair least_named most_named path) fun _ =>
    .bind (fair_parseGreedy h path _ 0) fun _ => fair_guard (fair_pure _)

theorem fair_range (fair : e.Fair admitted) (named : loose = true → x.isNamed ∧ y.isNamed)
    (h : p.codec.Fair admitted loose) (discard : Bool) :
    (range e x y p discard).Fair admitted loose where
  parse _ path := fair_parseRange fair (fun differ => (named differ).1)
    (fun differ _ mem => Option.mem_some.mp mem ▸ (named differ).2) h discard path
  parseInline _ _ _ := fair_fail _ _
  size contexts path := by
    have least := e.alike_staticSize fair (fun differ => (named differ).1) path contexts
    have most := e.alike_staticSize fair (fun differ => (named differ).2) path contexts
    exact least.both fun _ => most.both fun _ =>
      twins_ite (alike_unsized _ path) ((h.size contexts _).both fun _ => alike_pure _)

theorem fair_greedyRange (fair : e.Fair admitted) (h : p.codec.Fair admitted loose)
    (discard : Bool) : (greedyRange e p discard).Fair admitted loose where
  parse _ path := fair_parseRange fair (fun _ => rfl) (fun _ _ mem => by cases mem) h discard path
  parseInline _ _ _ := fair_fail _ _
  size _ path := alike_unsized _ path

private theorem fair_isLast (fair : e.Fair admitted) (named : loose = true → x.isNamed) (v : Value)
    (items : List Value) (path : Path) : (isLast e x v items path).Fair w :=
  twins_scope.bind fun scope scope' scopes => by
    have seen : PairedScopes loose w.depth
        { scope with object := some v, list := some items.reverse }
        { scope' with object := some v, list := some items.reverse } := ⟨scopes.frames, rfl, rfl⟩
    exact twins_lookup (Expr.alike_evaluateHolds fair.resolver seen path x named)

private theorem fair_parseUntil (fair : e.Fair admitted) (named : loose = true → x.isNamed)
    (h : p.codec.Fair admitted loose) (path : Path) : ∀ (more i : Nat) (items : List Value),
    (parseUntil e x p path more i items).Fair w
  | 0, _, _ => fair_fail _ _
  | more + 1, i, items => .bind (fair_insert _ _) fun _ => .bind (h.parsePart _) fun v =>
      .bind (fair_isLast fair named v _ path) fun _ => fair_ite (fair_pure _)
        (fair_parseUntil fair named h path more (i + 1) (v :: items))

theorem fair_repeatUntil (fair : e.Fair admitted) (named : loose = true → x.isNamed)
    (h : p.codec.Fair admitted loose) (discard : Bool) :
    (repeatUntil e x p discard).Fair admitted loose where
  parse _ path := .bind (fair_parseUntil fair named h path _ 0 []) fun _ => fair_pure _
  parseInline _ _ _ := fair_fail _ _
  size _ path := alike_unsized _ path

theorem fair_prefixedArray (count : q.codec.Fair admitted loose) (h : p.codec.Fair admitted loose) :
    (prefixedArray e q p).Fair admitted loose where
  parse w path := by
    refine .bind (count.parsePart path) fun stored => ?_
    cases stored.int? with
    | none => exact .bind (fair_dump _) fun _ => fair_fail _ _
    | some n =>
        have items : Run.Fair w (do
            return Value.list (← parseCounted p path (n.toNat % Nat.pow 2 64) 0)) :=
          .bind (fair_parseCounted h path _ 0) fun _ => fair_pure _
        exact fair_ite (.bind (fair_dump _) fun _ => .bind (fair_fail _ _) fun _ => items) items
  parseInline _ _ _ := fair_fail _ _
  size _ path := alike_unsized _ path

/-! ## Choice -/

private theorem fair_parseFirst (h : ∀ p ∈ ps, p.codec.Fair admitted loose) (tagged : Bool)
    (start : Nat)
    (path : Path) : (parseFirst tagged start path ps).Fair w := by
  induction ps with
  | nil => exact fair_pure _
  | cons alternative rest ih =>
      have later := ih fun p mem => h p (List.mem_cons_of_mem alternative mem)
      refine .bind ((h alternative List.mem_cons_self).parsePart path).outcome fun found => ?_
      cases found with
      | ok v => exact fair_pure _
      | error failure =>
          have next : Run.Fair w (goTo start >>= fun _ => parseFirst tagged start path rest) :=
            .bind (fair_goTo start) fun _ => later
          exact fair_ite (.bind (fair_throw _) fun _ => next) next

private theorem alike_sizes (h : ∀ p ∈ ps, p.codec.Fair admitted loose) {depth : Nat}
    {ctx ctx' : Context} (contexts : PairedContexts loose depth ctx ctx') (path : Path) :
    (Part.sizes ctx path ps).Alike admitted (Part.sizes ctx' path ps) := by
  induction ps with
  | nil => exact alike_pure _
  | cons p rest ih =>
      have later := ih fun p' mem => h p' (List.mem_cons_of_mem p mem)
      exact ((h p List.mem_cons_self).size contexts path).both fun _ => later.both fun _ =>
        alike_pure _

private theorem alike_commonSize (sizes : List Nat) (cause : Unsized) (path : Path) :
    Lookup.Alike admitted
      (match commonSize sizes with
        | some n => pure n
        | none => unsized cause path)
      (match commonSize sizes with
        | some n => pure n
        | none => unsized cause path) := by
  cases commonSize sizes with
  | none => exact alike_unsized _ path
  | some n => exact alike_pure n

theorem fair_select (h : ∀ p ∈ ps, p.codec.Fair admitted loose) (tagged : Bool) :
    (select ps tagged).Fair admitted loose where
  parse _ path := by
    refine .bind Run.fair_tell fun start =>
      .bind (fair_parseFirst h tagged start path) fun found => ?_
    cases found with
    | none => exact fair_fail _ _
    | some v => exact fair_pure v
  parseInline _ _ _ := fair_fail _ _
  size contexts path := (alike_sizes h contexts path).both fun sizes =>
    alike_commonSize sizes _ path

private theorem alike_fixedAdvance (h : ∀ p ∈ ps, p.codec.Fair admitted loose) {depth : Nat}
    {ctx ctx' : Context} (contexts : PairedContexts loose depth ctx ctx') (path : Path) :
    (fixedAdvance ctx path ps).Alike admitted (fixedAdvance ctx' path ps) := by
  induction ps with
  | nil => exact alike_pure _
  | cons a rest ih =>
      have later := ih fun p mem => h p (List.mem_cons_of_mem a mem)
      refine ((h a List.mem_cons_self).size contexts path).outcome.both fun found => ?_
      cases found with
      | ok n => exact later.both fun _ => alike_pure _
      | error failure => exact later

private theorem fair_parseOverlaid (h : ∀ p ∈ ps, p.codec.Fair admitted loose)
    (policy : Option Bool)
    (key : Option Nat) (start : Nat) (path : Path) (i : Nat) :
    (parseOverlaid policy key start path i ps).Fair w.pushed := by
  induction ps generalizing i with
  | nil => exact fair_pure _
  | cons a rest ih =>
      have later := ih (fun p mem => h p (List.mem_cons_of_mem a mem)) (i + 1)
      have last : ∀ reached : Nat, Run.Fair w.pushed (do
          let later ← parseOverlaid policy key start path (i + 1) rest
          return if key = some i then some reached else later) :=
        fun _ => .bind later fun _ => fair_pure _
      refine .bind (fair_goTo start) fun _ => .bind ((h a List.mem_cons_self).parsePart _) fun v =>
        .bind Run.fair_tell fun reached => ?_
      cases a.name? with
      | none => exact last reached
      | some name =>
          cases policy with
          | some overwrite =>
              exact .bind (fair_insertInline name v overwrite _) fun _ => last reached
          | none => exact .bind (fair_insert name v) fun _ => last reached

private theorem twins_unionKey {σ : Type} {S : σ → σ → Prop}
    {refuse : Fault → EStateM Failure σ (Option Nat)}
    (h : ∀ fault, Twins S Eq (refuse fault) (refuse fault)) (key : Option Selector)
    (ps : List Part) : Twins S Eq (unionKey refuse key ps) (unionKey refuse key ps) := by
  unfold unionKey
  cases key with
  | none => exact twins_pure rfl
  | some selector =>
      dsimp only
      cases Select.index? selector ps with
      | none => exact h _
      | some i => exact twins_pure rfl

private theorem fair_parseUnion (h : ∀ p ∈ ps, p.codec.Fair admitted loose) (key : Option Selector)
    (path : Path) (policy : Option Bool) : (parseUnion key ps path policy).Fair w.pushed := by
  have key_fair : Run.Fair w.pushed (unionKey (Run.fail · path) key ps) :=
    twins_unionKey (fun fault => fair_fail fault path) key ps
  refine .bind key_fair fun chosen => .bind Run.fair_tell fun start =>
    .bind (fair_parseOverlaid h policy chosen start path 0) fun found => ?_
  cases found with
  | some reached => exact fair_goTo reached
  | none =>
      exact twins_context.bind fun _ _ contexts =>
        (twins_lookup (alike_fixedAdvance h contexts path)).both fun _ => fair_goTo _

theorem fair_union (h : ∀ p ∈ ps, p.codec.Fair admitted loose) (key : Option Selector) :
    (union e key ps).Fair admitted loose where
  parse _ path := .bind (.inFrame (fair_parseUnion h key path none) []) fun _ => fair_pure _
  parseInline _ path overwrite := fair_parseUnion h key path (some overwrite)
  size contexts path := by
    refine (twins_unionKey (fun fault => twins_throw _) key ps).both fun chosen => ?_
    cases chosen with
    | none => exact alike_fixedAdvance h contexts path
    | some i =>
        dsimp only
        cases found : ps[i]? with
        | none => exact alike_pure _
        | some a => exact (h a (List.mem_of_getElem? found)).size contexts path

theorem fair_branch (fair : e.Fair admitted) (named : loose = true → x.isNamed)
    (yes : c.Fair admitted loose) (no : d.Fair admitted loose) :
    (branch e x c d).Fair admitted loose where
  parse w path := .bind (e.fair_evalHolds fair named path) fun _ =>
    fair_ite (yes.parse w path) (no.parse w path)
  parseInline _ _ _ := fair_fail _ _
  size contexts path := by
    have holds := Expr.alike_evaluateHolds fair.resolver contexts.scopes path x named
    refine holds.outcome.both fun found => ?_
    cases found with
    | error failure => exact alike_unsized _ path
    | ok b =>
        cases b with
        | true => exact yes.size contexts path
        | false => exact no.size contexts path

private theorem twins_findCase (fair : e.Fair admitted) {P : Part → Prop} {otherwise : Option Part}
    (key : Value) (h' : ∀ p, otherwise = some p → P p) : ∀ {cases : List (Value × Part)},
    (∀ p ∈ cases.map Prod.snd, P p) →
    Twins (PairedStores admitted) (Agreed fun a => ∀ p, a = some p → P p)
      (findCase e.resolver key otherwise cases) (findCase e.resolver key otherwise cases)
  | [], _ => twins_pure ⟨rfl, h'⟩
  | (_, part) :: rest, h => by
      refine (Resolver.alike_equal fair.resolver _ key).both fun _ => twins_ite ?_ ?_
      · refine twins_pure ⟨rfl, fun p same => ?_⟩
        cases same
        exact h part List.mem_cons_self
      · exact twins_findCase fair key h' fun p mem => h p (List.mem_cons_of_mem part mem)

private theorem twins_outcome {α : Type} {P : α → Prop} {x y : Lookup Failure α}
    (h : Twins (PairedStores admitted) (Agreed P) x y) :
    Twins (PairedStores admitted) (Agreed fun a => ∀ p, a = .ok p → P p) x.outcome y.outcome := by
  intro s t stores
  have outcomes := h s t stores
  unfold Lookup.outcome
  generalize x s = r at outcomes
  generalize y t = r' at outcomes
  cases outcomes with
  | ok related stores =>
      obtain ⟨rfl, known⟩ := related
      refine .ok ⟨rfl, fun p same => ?_⟩ stores
      cases same
      exact known
  | error e stores => exact .ok ⟨rfl, fun _ other => by cases other⟩ stores

private theorem twins_chooseCase (fair : e.Fair admitted) {P : Part → Prop}
    (named : loose = true → x.isNamed) {cases : List (Value × Part)} {otherwise : Option Part}
    (h : ∀ p, p ∈ cases.map Prod.snd ∨ otherwise = some p → P p) {depth : Nat}
    {scope scope' : Scope} (scopes : PairedScopes loose depth scope scope') (path : Path) :
    Twins (PairedStores admitted) (Agreed P)
      (chooseCase e.resolver x cases otherwise scope path)
      (chooseCase e.resolver x cases otherwise scope' path) := by
  refine (Expr.alike_evaluate fair.resolver scopes path x named).both fun k =>
    (twins_findCase fair k (fun p same => h p (.inr same)) fun p mem => h p (.inl mem)).agreed
      fun found known => ?_
  cases found with
  | none => exact (alike_dump k).both fun _ => twins_throw _
  | some part => exact twins_pure ⟨rfl, known part rfl⟩

theorem fair_switch (fair : e.Fair admitted) (named : loose = true → x.isNamed)
    {cases : List (Value × Part)} {otherwise : Option Part}
    (h : ∀ p, p ∈ cases.map Prod.snd ∨ otherwise = some p → p.codec.Fair admitted loose) :
    (switch e x cases otherwise).Fair admitted loose where
  parse w path := twins_scope.bind fun _ _ scopes =>
    (twins_lookup (twins_chooseCase fair named h scopes path)).agreed fun _ known =>
      known.parse w path
  parseInline _ _ _ := fair_fail _ _
  size contexts path := by
    have chosen := twins_outcome (twins_chooseCase fair named h contexts.scopes path)
    refine chosen.agreed fun found known => ?_
    cases found with
    | ok part => exact (known part rfl).size contexts path
    | error failure =>
        have all : ∀ p ∈ cases.map Prod.snd ++ otherwise.toList, p.codec.Fair admitted loose := by
          intro p mem
          simp only [List.mem_append, Option.mem_toList] at mem
          exact h p mem
        exact (alike_sizes all contexts path).both fun sizes => alike_commonSize sizes _ path

end Codec

end BinaryFormat
