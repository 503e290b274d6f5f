import BinaryFormat.Codec.Choice
import BinaryFormat.Codec.Repetition
import BinaryFormat.Proofs.Access.Components

/-!
# Structures, repetitions and choices that match

Structures, repetitions and choices match if their components do: what they yield is
gathered from values that match, in frames that match.
-/

namespace BinaryFormat

open Run

variable {q : Setting} {w : World} {e e' : Engine} {v v' : Value}

theorem Part.Matches.name? {p p' : Part} (h : p.Matches q p') : p.name? = p'.name? :=
  congrArg Format.name? h.format

namespace Codec

variable {c c' d d' : Codec} {p p' : Part} {ps ps' : List Part} {x y : Expr}

/-! ## Structures -/

private theorem concurs_insertInline (name : String) (same : v.Matches w.Related v')
    (overwrite : Bool)
    (path : Path) :
    Concurs q w .same (insertInline name v overwrite path)
      (insertInline name v' overwrite path) := by
  refine concurs_context.bind fun _ later ctx ctx' contexts => ?_
  rw [(Context.Matches.innermost contexts).contains]
  exact concurs_guard (concurs_insert name (same.mono later.related))

private theorem concurs_parseFields (overwrite inlined : Bool) (path : Path) : ∀ {w : World}
    {ps ps' : List Part}, List.Forall₂ (Part.Matches q) ps ps' →
      Concurs q w .same (parseFields overwrite inlined path ps)
        (parseFields overwrite inlined path ps')
  | _, [], _, h => by
      cases h
      exact concurs_pure rfl
  | _, field :: rest, _, h => by
      cases h with
      | @cons _ field' _ rest' first others =>
          have later : ∀ {w : World}, Concurs q w .same (parseFields overwrite inlined path rest)
              (parseFields overwrite inlined path rest') :=
            concurs_parseFields overwrite inlined path others
          unfold parseFields
          rw [first.format, first.name?]
          refine concurs_ite ((first.codec.parseInline path overwrite).both fun _ _ _ => later) ?_
          cases field'.name? with
          | none => exact (first.codec.parsePart path).bind fun _ _ _ _ _ => later
          | some name =>
              exact (first.codec.parsePart _).bind fun _ _ _ _ matched => concurs_ite
                ((concurs_insertInline name matched overwrite _).both fun _ _ _ => later)
                ((concurs_insert name matched).both fun _ _ _ => later)

theorem concurs_fieldsSize (path : Path) : ∀ {w : World} {ps ps' : List Part} {ctx ctx' : Context},
    List.Forall₂ (Part.Matches q) ps ps' → ctx.Matches w.Related ctx' →
      Concurs q w .same (fieldsSize ctx path ps) (fieldsSize ctx' path ps')
  | _, [], _, _, _, h, _ => by
      cases h
      exact concurs_pure rfl
  | _, field :: rest, _, _, _, h, contexts => by
      cases h with
      | cons first others =>
          rw [fieldsSize, fieldsSize, first.name?]
          exact (first.codec.size contexts _).both fun _ on _ =>
            (concurs_fieldsSize path others (contexts.mono on.related)).both fun _ _ _ =>
              concurs_pure rfl

theorem matches_struct (h : List.Forall₂ (Part.Matches q) ps ps') (overwrite : Bool) :
    (struct e ps overwrite).Matches q (struct e' ps' overwrite) where
  parse path := (concurs_inFrame (concurs_parseFields overwrite false path h)).bind
    fun _ _ _ _ related => concurs_pure (.container related.2)
  parseInline path overwrite := concurs_parseFields overwrite true path h
  size contexts path := concurs_fieldsSize path h (contexts.push .nil)

theorem concurs_noteItem {item item' : Part} (h : item.Matches q item')
    (same : v.Matches w.Related v') : Concurs q w .same (noteItem item v) (noteItem item' v') := by
  unfold noteItem
  rw [h.name?]
  cases item'.name? with
  | none => exact concurs_pure rfl
  | some name => exact concurs_insert name same

private theorem concurs_parseItems (path : Path) : ∀ {w : World} {ps ps' : List Part} (i : Nat),
    List.Forall₂ (Part.Matches q) ps ps' →
      Concurs q w .items (parseItems path i ps) (parseItems path i ps')
  | _, [], _, _, h => by
      cases h
      exact concurs_pure .nil
  | _, item :: rest, _, i, h => by
      cases h with
      | cons first others =>
          rw [parseItems, parseItems, first.name?]
          exact (first.codec.parsePart _).bind fun _ _ _ _ matched =>
            (concurs_noteItem first matched).both fun _ on _ =>
              (concurs_parseItems path (i + 1) others).bind fun _ on₁ _ _ items =>
                concurs_pure (.cons (matched.mono (on.trans on₁).related) items)

theorem concurs_itemsSize (path : Path) : ∀ {w : World} {ps ps' : List Part} (i : Nat)
    {ctx ctx' : Context}, List.Forall₂ (Part.Matches q) ps ps' → ctx.Matches w.Related ctx' →
      Concurs q w .same (itemsSize ctx path i ps) (itemsSize ctx' path i ps')
  | _, [], _, _, _, _, h, _ => by
      cases h
      exact concurs_pure rfl
  | _, item :: rest, _, i, _, _, h, contexts => by
      cases h with
      | cons first others =>
          rw [itemsSize, itemsSize, first.name?]
          exact (first.codec.size contexts _).both fun _ on _ =>
            (concurs_itemsSize path (i + 1) others (contexts.mono on.related)).both fun _ _ _ =>
              concurs_pure rfl

theorem matches_sequence (h : List.Forall₂ (Part.Matches q) ps ps') :
    (sequence e ps).Matches q (sequence e' ps') where
  parse path := (concurs_inFrame (concurs_parseItems path 0 h)).bind fun _ _ _ _ related =>
    concurs_pure (.list related.1)
  parseInline _ _ := concurs_refused _ _
  size contexts path := concurs_itemsSize path 0 h (contexts.push .nil)

private theorem index?_eq (h : List.Forall₂ (Part.Matches q) ps ps') (selector : Selector) :
    Select.index? selector ps = Select.index? selector ps' := by
  unfold Select.index?
  cases selector with
  | position i =>
      dsimp only
      rw [h.length_eq]
  | name name =>
      dsimp only
      induction h with
      | nil => rfl
      | cons first _ ih => rw [List.findIdx?_cons, List.findIdx?_cons, first.name?, ih]

theorem matches_focused (h : List.Forall₂ (Part.Matches q) ps ps') (focus : Selector) :
    (focused e focus ps).Matches q (focused e' focus ps') where
  parse path := by
    have chosen : ∀ {w : World}, Concurs q w .same (focusIndex focus ps path)
        (focusIndex focus ps' path) := by
      intro w
      unfold focusIndex
      rw [index?_eq h focus]
      cases Select.index? focus ps' with
      | none => exact concurs_refused _ path
      | some i => exact concurs_pure rfl
    exact chosen.both fun _ _ i => (concurs_inFrame (concurs_parseItems path 0 h)).bind
      fun _ _ _ _ related => concurs_pure (Value.ItemsMatch.getD related.1 i)
  parseInline _ _ := concurs_refused _ _
  size contexts path := concurs_itemsSize path 0 h (contexts.push .nil)

/-! ## Repetition -/

private theorem concurs_noteIndex (i : Nat) : Concurs q w .same (noteIndex i) (noteIndex i) :=
  concurs_insert _ (Value.matches_ofNat i)

private theorem concurs_parseCounted (h : p.codec.Matches q p'.codec) (path : Path) : ∀ {w : World}
    (count i : Nat), Concurs q w .items (parseCounted p path count i) (parseCounted p' path count i)
  | _, 0, _ => concurs_pure .nil
  | _, count + 1, i => (concurs_noteIndex i).both fun _ _ _ => (h.parsePart _).bind
      fun _ _ _ _ matched => (concurs_parseCounted h path count (i + 1)).bind fun _ on _ _ items =>
        concurs_pure (.cons (matched.mono on.related) items)

theorem concurs_productSize (h : p.codec.Matches q p'.codec) (count : Nat) {ctx ctx' : Context}
    (contexts : ctx.Matches w.Related ctx') (path : Path) :
    Concurs q w .same (productSize p count ctx path) (productSize p' count ctx' path) :=
  (h.size contexts _).both fun _ _ _ => concurs_ite (concurs_pure rfl) (concurs_unsized _ path)

private theorem matches_kept {R : Handle → Handle → Prop} {items items' : List Value}
    (same : Value.ItemsMatch R items items') (discard : Bool) :
    (kept discard items).Matches R (kept discard items') := by
  cases discard with
  | true => exact .list .nil
  | false => exact .list same

theorem matches_array (concur : e.Matches q e') (uniform : q.Compares → x.Uniform)
    (h : p.codec.Matches q p'.codec) (discard : Bool) :
    (array e x p discard).Matches q (array e' x p' discard) where
  parse path := (e.concurs_evalSize concur uniform path).both fun _ _ count =>
    (concurs_parseCounted h path count 0).bind fun _ _ _ _ items =>
      concurs_pure (matches_kept items discard)
  parseInline _ _ := concurs_refused _ _
  size contexts path := (e.concurs_staticSize concur uniform path contexts).both
    fun _ on count => concurs_productSize h count (contexts.mono on.related) path

private theorem concurs_parseGreedy (h : p.codec.Matches q p'.codec) (path : Path) : ∀ {w : World}
    (most i : Nat), Concurs q w .items (parseGreedy p path most i) (parseGreedy p' path most i)
  | _, 0, _ => concurs_pure .nil
  | _, most + 1, i => by
      refine concurs_tell.both fun _ _ start => (concurs_noteIndex i).both fun _ _ _ =>
        (concurs_outcome (h.parsePart _)).bind fun _ _ found found' result => ?_
      cases result with
      | ok matched =>
          exact concurs_tell.both fun _ on _ => concurs_ite (concurs_pure .nil)
            ((concurs_parseGreedy h path most (i + 1)).bind fun _ on₁ _ _ items =>
              concurs_pure (.cons (Value.Matches.mono (on.trans on₁).related matched) items))
      | error failures =>
          have stop : ∀ {w : World}, Concurs q w .items
              (goTo start >>= fun _ => pure ([] : List Value)) (goTo start >>= fun _ => pure []) :=
            (concurs_goTo start).both fun _ _ _ => concurs_pure .nil
          dsimp only
          rw [failures.fault.isExplicit]
          exact concurs_ite
            (Concurs.bind (A := .same) (concurs_throw failures) fun _ _ _ _ _ => stop)
            stop

private theorem concurs_bounds (concur : e.Matches q e') (uniform : q.Compares → x.Uniform)
    {most : Option Expr} (uniform' : q.Compares → ∀ y ∈ most, y.Uniform) (path : Path) :
    Concurs q w .same (bounds e x most path) (bounds e' x most path) := by
  refine (e.concurs_evalSize concur uniform path).both fun _ _ least => ?_
  cases most with
  | none => exact Concurs.both (concurs_pure rfl) fun _ _ _ => concurs_guard (concurs_pure rfl)
  | some most =>
      exact (e.concurs_evalSize concur (fun c => uniform' c most rfl) path).both fun _ _ _ =>
        concurs_guard (concurs_pure rfl)

private theorem concurs_parseRange (concur : e.Matches q e') (uniform : q.Compares → x.Uniform)
    {most : Option Expr} (uniform' : q.Compares → ∀ y ∈ most, y.Uniform)
    (h : p.codec.Matches q p'.codec) (discard : Bool) (path : Path) :
    Concurs q w .value (parseRange e x most p discard path)
      (parseRange e' x most p' discard path) := by
  refine (concurs_bounds concur uniform uniform' path).both fun _ _ bounds =>
    (concurs_parseGreedy h path _ 0).bind fun _ _ _ _ items => ?_
  rw [Value.ItemsMatch.length items]
  exact concurs_guard (concurs_pure (matches_kept items discard))

theorem matches_range (concur : e.Matches q e') (uniform : q.Compares → x.Uniform ∧ y.Uniform)
    (h : p.codec.Matches q p'.codec) (discard : Bool) :
    (range e x y p discard).Matches q (range e' x y p' discard) where
  parse path := concurs_parseRange concur (fun c => (uniform c).1)
    (fun c _ mem => Option.mem_some.mp mem ▸ (uniform c).2) h discard path
  parseInline _ _ := concurs_refused _ _
  size contexts path :=
    (e.concurs_staticSize concur (fun c => (uniform c).1) path contexts).both fun _ on _ =>
      have contexts := contexts.mono on.related
      (e.concurs_staticSize concur (fun c => (uniform c).2) path contexts).both fun _ on₁ _ =>
        concurs_ite (concurs_unsized _ path)
          ((h.size (contexts.mono on₁.related) _).both fun _ _ _ => concurs_pure rfl)

theorem matches_greedyRange (concur : e.Matches q e') (h : p.codec.Matches q p'.codec)
    (discard : Bool) : (greedyRange e p discard).Matches q (greedyRange e' p' discard) where
  parse path := by
    refine concurs_parseRange concur ?_ (fun _ _ mem => by cases mem) h discard path
    exact fun _ => trivial
  parseInline _ _ := concurs_refused _ _
  size _ path := concurs_unsized _ path

private theorem concurs_isLast (concur : e.Matches q e') (uniform : q.Compares → x.Uniform)
    {items items' : List Value} (last : v.Matches w.Related v')
    (same : Value.ItemsMatch w.Related items items') (path : Path) :
    Concurs q w .same (isLast e x v items path) (isLast e' x v' items' path) :=
  concurs_scope.bind fun w' later scope scope' scopes =>
    have seen : Scope.Matches w'.Related
        { scope with object := some v, list := some items.reverse }
        { scope' with object := some v', list := some items'.reverse } :=
      ⟨scopes.frames, .some (last.mono later.related), .some (same.mono later.related).reverse⟩
    concurs_lookup (Expr.concurs_evaluateHolds concur.resolver uniform seen path)

private theorem concurs_parseUntil (concur : e.Matches q e') (uniform : q.Compares → x.Uniform)
    (h : p.codec.Matches q p'.codec) (path : Path) : ∀ {w : World} (more i : Nat)
    {items items' : List Value}, Value.ItemsMatch w.Related items items' →
      Concurs q w .items (parseUntil e x p path more i items)
        (parseUntil e' x p' path more i items')
  | _, 0, _, _, _, _ => concurs_refused _ path
  | _, more + 1, i, _, _, items => (concurs_noteIndex i).both fun _ on _ =>
      (h.parsePart _).bind fun _ on₁ _ _ matched =>
        have all := Value.ItemsMatch.cons matched (items.mono (on.trans on₁).related)
        (concurs_isLast concur uniform matched all path).both fun _ on₂ _ =>
          concurs_ite (concurs_pure (all.mono on₂.related).reverse)
            (concurs_parseUntil concur uniform h path more (i + 1) (all.mono on₂.related))

theorem matches_repeatUntil (concur : e.Matches q e') (uniform : q.Compares → x.Uniform)
    (h : p.codec.Matches q p'.codec) (discard : Bool) :
    (repeatUntil e x p discard).Matches q (repeatUntil e' x p' discard) where
  parse path := (concurs_parseUntil concur uniform h path _ 0 .nil).bind fun _ _ _ _ items =>
    concurs_pure (matches_kept items discard)
  parseInline _ _ := concurs_refused _ _
  size _ path := concurs_unsized _ path

theorem matches_prefixedArray {r r' : Part} (counted : r.codec.Matches q r'.codec)
    (h : p.codec.Matches q p'.codec) :
    (prefixedArray e r p).Matches q (prefixedArray e' r' p') where
  parse path := by
    refine (counted.parsePart path).bind fun _ _ stored stored' matched => ?_
    rw [matched.int?]
    cases stored'.int? with
    | none => exact concurs_dump matched fun _ _ shown => concurs_fail (.stored shown) path
    | some n =>
        have items : ∀ {w : World}, Concurs q w .value
            (do return Value.list (← parseCounted p path (n.toNat % Nat.pow 2 64) 0))
            (do return Value.list (← parseCounted p' path (n.toNat % Nat.pow 2 64) 0)) :=
          (concurs_parseCounted h path _ 0).bind fun _ _ _ _ items => concurs_pure (.list items)
        exact concurs_ite (concurs_dump matched fun _ _ shown =>
          Concurs.bind (A := .same) (concurs_fail (.stored shown) path)
            fun _ _ _ _ _ => items) items
  parseInline _ _ := concurs_refused _ _
  size _ path := concurs_unsized _ path

/-! ## Choice -/

private theorem matches_tag {R : Handle → Handle → Prop} (h : p.Matches q p') (tagged : Bool)
    (same : v.Matches R v') : (tag tagged p v).Matches R (tag tagged p' v') := by
  unfold tag
  rw [h.name?]
  cases tagged with
  | false => exact same
  | true =>
      refine .container (.cons _ ?_ (.cons _ same .nil))
      cases p'.name? <;> exact .plain trivial

private theorem concurs_parseFirst (tagged : Bool) (start : Nat) (path : Path) : ∀ {w : World}
    {ps ps' : List Part}, List.Forall₂ (Part.Matches q) ps ps' →
      Concurs q w (.option .value) (parseFirst tagged start path ps)
        (parseFirst tagged start path ps')
  | _, [], _, h => by
      cases h
      exact concurs_pure .none
  | _, p :: rest, _, h => by
      cases h with
      | @cons _ p' _ rest' first others =>
          refine (concurs_outcome (first.codec.parsePart path)).bind
            fun _ _ found found' result => ?_
          cases result with
          | ok matched => exact concurs_pure (.some (matches_tag first tagged matched))
          | error failures =>
              have next : ∀ {w : World}, Concurs q w (.option .value)
                  (goTo start >>= fun _ => parseFirst tagged start path rest)
                  (goTo start >>= fun _ => parseFirst tagged start path rest') :=
                (concurs_goTo start).both fun _ _ _ => concurs_parseFirst tagged start path others
              dsimp only
              rw [failures.fault.isExplicit]
              exact concurs_ite
                (Concurs.bind (A := .same) (concurs_throw failures) fun _ _ _ _ _ => next) next

private theorem concurs_sizes (path : Path) : ∀ {w : World} {ps ps' : List Part}
    {ctx ctx' : Context},
    List.Forall₂ (Part.Matches q) ps ps' → ctx.Matches w.Related ctx' →
      Concurs q w .same (Part.sizes ctx path ps) (Part.sizes ctx' path ps')
  | _, [], _, _, _, h, _ => by
      cases h
      exact concurs_pure rfl
  | _, p :: rest, _, _, _, h, contexts => by
      cases h with
      | cons first others =>
          exact (first.codec.size contexts path).both fun _ on _ =>
            (concurs_sizes path others (contexts.mono on.related)).both fun _ _ _ =>
              concurs_pure rfl

private theorem concurs_commonSize (sizes : List Nat) (cause : Unsized) (path : Path) :
    Concurs q w .same
      (match commonSize sizes with
        | some n => pure n
        | none => unsized cause path)
      (match commonSize sizes with
        | some n => pure n
        | none => unsized cause path) := by
  cases commonSize sizes with
  | none => exact concurs_unsized _ path
  | some n => exact concurs_pure rfl

theorem matches_select (h : List.Forall₂ (Part.Matches q) ps ps') (tagged : Bool) :
    (select ps tagged).Matches q (select ps' tagged) where
  parse path := by
    refine concurs_tell.both fun _ _ start => (concurs_parseFirst tagged start path h).bind
      fun _ _ found found' matched => ?_
    cases matched with
    | none =>
        dsimp only
        rw [h.length_eq]
        exact concurs_refused _ path
    | some same => exact concurs_pure same
  parseInline _ _ := concurs_refused _ _
  size contexts path := (concurs_sizes path h contexts).both fun _ _ sizes =>
    concurs_commonSize sizes _ path

private theorem concurs_fixedAdvance (path : Path) : ∀ {w : World} {ps ps' : List Part}
    {ctx ctx' : Context}, List.Forall₂ (Part.Matches q) ps ps' → ctx.Matches w.Related ctx' →
      Concurs q w .same (fixedAdvance ctx path ps) (fixedAdvance ctx' path ps')
  | _, [], _, _, _, h, _ => by
      cases h
      exact concurs_pure rfl
  | _, a :: rest, _, _, _, h, contexts => by
      cases h with
      | cons first others =>
          refine (Lookup.concurs_outcome (first.codec.size contexts path)).bind
            fun _ on found found' result => ?_
          have later := concurs_fixedAdvance path others (contexts.mono on.related)
          cases result with
          | ok same =>
              cases same
              exact later.both fun _ _ _ => concurs_pure rfl
          | error failures => exact later

private theorem concurs_parseOverlaid (policy : Option Bool) (key : Option Nat) (start : Nat)
    (path : Path) :
    ∀ {w : World} {ps ps' : List Part} (i : Nat), List.Forall₂ (Part.Matches q) ps ps' →
      Concurs q w .same (parseOverlaid policy key start path i ps)
        (parseOverlaid policy key start path i ps')
  | _, [], _, _, h => by
      cases h
      exact concurs_pure rfl
  | _, a :: rest, _, i, h => by
      cases h with
      | @cons _ a' _ rest' first others =>
          have last : ∀ {w : World} (reached : Nat), Concurs q w .same
              (do
                let later ← parseOverlaid policy key start path (i + 1) rest
                return if key = some i then some reached else later)
              (do
                let later ← parseOverlaid policy key start path (i + 1) rest'
                return if key = some i then some reached else later) :=
            fun _ => (concurs_parseOverlaid policy key start path (i + 1) others).both fun _ _ _ =>
              concurs_pure rfl
          unfold parseOverlaid
          rw [first.name?]
          refine (concurs_goTo start).both fun _ _ _ => (first.codec.parsePart _).bind
            fun _ _ v v' matched => concurs_tell.both fun _ on reached => ?_
          have matched := matched.mono on.related
          cases a'.name? with
          | none => exact last reached
          | some name =>
              cases policy with
              | some overwrite =>
                  exact (concurs_insertInline name matched overwrite _).both
                    fun _ _ _ => last reached
              | none => exact (concurs_insert name matched).both fun _ _ _ => last reached

private theorem concurs_unionKey {S : Type} [HoldsStore S]
    {refuse : Fault → EStateM Failure S (Option Nat)}
    (refused : ∀ fault, Concurs q w .same (refuse fault) (refuse fault)) (key : Option Selector)
    (h : List.Forall₂ (Part.Matches q) ps ps') :
    Concurs q w .same (unionKey refuse key ps) (unionKey refuse key ps') := by
  unfold unionKey
  cases key with
  | none => exact concurs_pure rfl
  | some selector =>
      dsimp only
      rw [index?_eq h selector]
      cases Select.index? selector ps' with
      | none => exact refused _
      | some i => exact concurs_pure rfl

private theorem concurs_parseUnion (h : List.Forall₂ (Part.Matches q) ps ps')
    (key : Option Selector)
    (path : Path) (policy : Option Bool) :
    Concurs q w .same (parseUnion key ps path policy) (parseUnion key ps' path policy) := by
  have chosen : Concurs q w .same (unionKey (Run.fail · path) key ps)
      (unionKey (Run.fail · path) key ps') :=
    concurs_unionKey (fun fault => concurs_refused fault path) key h
  refine chosen.both fun _ _ chosen => concurs_tell.both fun _ _ start =>
    (concurs_parseOverlaid policy chosen start path 0 h).both fun _ _ found => ?_
  cases found with
  | some reached => exact concurs_goTo reached
  | none =>
      exact concurs_context.bind fun _ _ _ _ contexts =>
        (concurs_lookup (concurs_fixedAdvance path h contexts)).both fun _ _ _ => concurs_goTo _

theorem matches_union (h : List.Forall₂ (Part.Matches q) ps ps') (key : Option Selector) :
    (union e key ps).Matches q (union e' key ps') where
  parse path := (concurs_inFrame (concurs_parseUnion h key path none)).bind fun _ _ _ _ related =>
    concurs_pure (.container related.2)
  parseInline path overwrite := concurs_parseUnion h key path (some overwrite)
  size contexts path := by
    refine (concurs_unionKey (fun fault => concurs_throw (Failure.Matches.refl _)) key h).both
      fun _ on chosen => ?_
    have contexts := contexts.mono on.related
    cases chosen with
    | none => exact concurs_fixedAdvance path h contexts
    | some i =>
        have found := List.Forall₂.getElem? h i
        dsimp only
        generalize ps[i]? = a at found
        generalize ps'[i]? = a' at found
        cases found with
        | none => exact concurs_pure rfl
        | some same => exact same.codec.size contexts path

theorem matches_branch (concur : e.Matches q e') (uniform : q.Compares → x.Uniform)
    (yes : c.Matches q c') (no : d.Matches q d') :
    (branch e x c d).Matches q (branch e' x c' d') where
  parse path := (e.concurs_evalHolds concur uniform path).both fun _ _ _ =>
    concurs_ite (yes.parse path) (no.parse path)
  parseInline _ _ := concurs_refused _ _
  size contexts path := by
    have holds := Expr.concurs_evaluateHolds concur.resolver uniform contexts.scope path
    refine (Lookup.concurs_outcome holds).bind fun _ on found found' result => ?_
    have contexts := contexts.mono on.related
    cases result with
    | error failures =>
        exact concurs_throw (Fault.Matches.atPath (.condition _ failures.fault) path)
    | @ok b _ same =>
        cases same
        cases b with
        | true => exact yes.size contexts path
        | false => exact no.size contexts path

/-! ### Cases -/

private theorem exists_of_mem {α β : Type} {P : α → β → Prop} {as : List α} {bs : List β} {a : α}
    (h : List.Forall₂ P as bs) (mem : a ∈ as) : ∃ b, P a b := by
  induction h with
  | nil => cases mem
  | cons first _ ih =>
      rcases List.mem_cons.mp mem with rfl | mem
      · exact ⟨_, first⟩
      · exact ih mem

/-- Components that match. -/
def partLikeness (q : Setting) : Likeness Part := ⟨fun _ => Part.Matches q, fun _ _ _ same => same⟩

/-- Cases of the same keys with components that match. -/
def CasesMatch (q : Setting) : List (Value × Part) → List (Value × Part) → Prop :=
  List.Forall₂ fun entry entry' => entry.1 = entry'.1 ∧ entry.2.Matches q entry'.2

/-- All components among which a key chooses. -/
def choices (cases : List (Value × Part)) (otherwise : Option Part) : List Part :=
  cases.map Prod.snd ++ otherwise.toList

variable {cases cases' : List (Value × Part)} {otherwise otherwise' : Option Part}

private theorem CasesMatch.choices (h : CasesMatch q cases cases')
    (rest : Option.Rel (Part.Matches q) otherwise otherwise') :
    List.Forall₂ (Part.Matches q) (choices cases otherwise) (choices cases' otherwise') := by
  induction h with
  | nil =>
      cases rest with
      | none => exact .nil
      | some same => exact .cons same .nil
  | cons first _ ih => exact .cons first.2 ih

private theorem concurs_findCase (concur : e.Matches q e') : ∀ {w : World}
    {cases cases' : List (Value × Part)}
    {v v' : Value}, (q.Compares → ∀ entry ∈ cases, entry.1.Eager) → CasesMatch q cases cases' →
      v.Matches w.Related v' → Option.Rel (Part.Matches q) otherwise otherwise' →
      Concurs q w (.option (partLikeness q)) (findCase e.resolver v otherwise cases)
        (findCase e'.resolver v' otherwise' cases')
  | _, [], _, _, _, _, h, _, rest => by
      cases h
      exact concurs_pure rest
  | w, (key, part) :: others, _, v, v', eager, h, matched, rest => by
      cases h with
      | @cons _ entry' _ others' same later =>
          obtain ⟨key', part'⟩ := entry'
          obtain ⟨rfl, parts⟩ := same
          have first : Concurs q w .same (e.resolver.equal key v) (e'.resolver.equal key v') :=
            .when (fun compares => Resolver.concurs_equal concur.resolver
                (Value.matches_of_eager (eager compares (key, part) List.mem_cons_self)) matched)
              (Resolver.concurs_equal concur.resolver (Value.matches_self (fun _ => trivial) key)
                (matched.mono fun _ _ _ => trivial))
          exact first.both fun _ on _ => concurs_ite (concurs_pure (.some parts))
            (concurs_findCase concur (fun compares entry mem =>
              eager compares entry (List.mem_cons_of_mem _ mem)) later
                (matched.mono on.related) rest)

private theorem mem_choices_of_findCase {r : Resolver} {σ' : LazyStore} :
    ∀ {cases : List (Value × Part)}
    {σ : LazyStore}, findCase r v otherwise cases σ = .ok (some p) σ' → p ∈ choices cases otherwise
  | [], _, found => by
      cases found
      exact List.mem_singleton_self p
  | (key, part) :: others, σ, found => by
      obtain ⟨same, σ₁, -, found⟩ := Run.bind_eq_ok_iff.mp found
      cases same with
      | true =>
          cases found
          exact List.mem_cons_self
      | false => exact List.mem_cons_of_mem part (mem_choices_of_findCase found)

private theorem mem_choices_of_chooseCase {r : Resolver} {scope : Scope} {path : Path}
    {σ σ' : LazyStore}
    (chosen : chooseCase r x cases otherwise scope path σ = .ok p σ') :
    p ∈ choices cases otherwise := by
  obtain ⟨k, σ₁, -, chosen⟩ := Run.bind_eq_ok_iff.mp chosen
  obtain ⟨found, σ₂, among, chosen⟩ := Run.bind_eq_ok_iff.mp chosen
  cases found with
  | none =>
      obtain ⟨_, _, -, impossible⟩ := Run.bind_eq_ok_iff.mp chosen
      cases impossible
  | some part =>
      cases chosen
      exact mem_choices_of_findCase among

private theorem concurs_chooseCase (concur : e.Matches q e') (uniform : q.Compares → x.Uniform)
    (eager : q.Compares → ∀ entry ∈ cases, entry.1.Eager) (h : CasesMatch q cases cases')
    (rest : Option.Rel (Part.Matches q) otherwise otherwise') {scope scope' : Scope}
    (scopes : scope.Matches w.Related scope') (path : Path) :
    Concurs q w (partLikeness q) (chooseCase e.resolver x cases otherwise scope path)
      (chooseCase e'.resolver x cases' otherwise' scope' path) := by
  refine (Expr.concurs_evaluate concur.resolver uniform scopes path).bind fun _ _ k k' matched => ?_
  refine (concurs_findCase concur eager h matched rest).bind_of (fun _ _ => True) (fun _ _ => True)
    ?_ ?_ (fun _ _ _ => trivial) (fun _ _ _ => trivial) fun _ on found found' same _ => ?_
  · rintro _ (_ | part) _ _ σ <;> exact .refl σ
  · rintro _ (_ | part) _ _ σ <;> exact .refl σ
  · cases same with
    | none =>
        exact Lookup.concurs_dump (matched.mono on.related) fun _ _ shown =>
          concurs_throw (Fault.Matches.atPath (.noCase shown) path)
    | some parts => exact concurs_pure parts

theorem matches_switch (concur : e.Matches q e') (uniform : q.Compares → x.Uniform)
    (eager : q.Compares → ∀ entry ∈ cases, entry.1.Eager) (h : CasesMatch q cases cases')
    (rest : Option.Rel (Part.Matches q) otherwise otherwise') :
    (switch e x cases otherwise).Matches q (switch e' x cases' otherwise') where
  parse path := by
    refine concurs_scope.bind fun _ _ scope scope' scopes =>
      (concurs_lookup (concurs_chooseCase concur uniform eager h rest scopes path)).bind_of
        (fun _ _ => True) (fun _ _ => True) ?_ ?_ (fun _ _ _ => trivial) (fun _ _ _ => trivial)
        fun _ _ _ _ same _ => same.codec.parse path
    · intro s p s' run
      obtain ⟨_, same⟩ := exists_of_mem (h.choices rest)
        (mem_choices_of_chooseCase (store_of_lookup run))
      exact (same.codec.parse (w := .apart) path).left
    · intro t p' t' run
      obtain ⟨_, same⟩ := exists_of_mem (h.choices rest).flip
        (mem_choices_of_chooseCase (store_of_lookup run))
      exact (same.codec.parse (w := .apart) path).right
  parseInline _ _ := concurs_refused _ _
  size {w ctx ctx'} contexts path := by
    have all : ∀ {w : World}, ctx.Matches w.Related ctx' → Concurs q w .same
        (do
          match commonSize (← Part.sizes ctx path (choices cases otherwise)) with
          | some n => return n
          | none => unsized (.switch x.text) path)
        (do
          match commonSize (← Part.sizes ctx' path (choices cases' otherwise')) with
          | some n => return n
          | none => unsized (.switch x.text) path) :=
      fun contexts => (concurs_sizes path (h.choices rest) contexts).both fun _ _ sizes =>
        concurs_commonSize sizes _ path
    have apart : ctx.Matches World.apart.Related ctx' := contexts.mono fun _ _ _ => trivial
    have chosen := concurs_chooseCase concur uniform eager h rest contexts.scope path
    refine (Lookup.concurs_outcome chosen).bind_of (fun _ _ => True) (fun _ _ => True) ?_ ?_
      (fun _ _ _ => trivial) (fun _ _ _ => trivial) fun _ on found found' result _ => ?_
    · rintro σ (failure | p) σ' run
      · exact (all apart).left
      · obtain ⟨_, same⟩ := exists_of_mem (h.choices rest)
          (mem_choices_of_chooseCase (run_of_outcome run))
        exact (same.codec.size apart path).left
    · rintro τ (failure | p') τ' run
      · exact (all apart).right
      · obtain ⟨_, same⟩ := exists_of_mem (h.choices rest).flip
          (mem_choices_of_chooseCase (run_of_outcome run))
        exact (same.codec.size apart path).right
    · cases result with
      | ok same => exact same.codec.size (contexts.mono on.related) path
      | error failures => exact all (contexts.mono on.related)

end Codec

end BinaryFormat
