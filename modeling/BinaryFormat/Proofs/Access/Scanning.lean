import BinaryFormat.Codec.Lazy
import BinaryFormat.Proofs.Access.Structures

/-!
# Lazy components that match

What a scan puts down for its members matches, and before a member that it parsed on
the spot there is none that it skipped.  The handles that come of it stand for each other.
-/

namespace BinaryFormat

open Run

variable {q : Setting} {w : World} {e e' : Engine} {v v' : Value}

namespace Slot

variable {R : Handle → Handle → Prop} {slots slots' more more' : List Slot}

/-- The formats of members treat matching values alike. -/
def Fit (q : Setting) (slots : List Slot) : Prop :=
  q.Compares → ∀ slot ∈ slots, slot.format.Uniform

/-- All members were parsed on the spot. -/
def Filled (slots : List Slot) : Prop := ∀ slot ∈ slots, slot.cache.isSome

private theorem Fit.append (h : Fit q slots) (h' : Fit q more) : Fit q (slots ++ more) :=
  fun compares slot mem => (List.mem_append.mp mem).elim (h compares slot) (h' compares slot)

private theorem Fit.tail {slot : Slot} (h : Fit q (slot :: slots)) : Fit q slots :=
  fun compares other mem => h compares other (List.mem_cons_of_mem slot mem)

private theorem Filled.append (h : Filled slots) (h' : Filled more) : Filled (slots ++ more) :=
  fun slot mem => (List.mem_append.mp mem).elim (h slot) (h' slot)

private theorem Filled.ordered (h : Filled slots) : Ordered slots :=
  List.pairwise_of_forall_mem_list fun earlier mem _ _ _ => h earlier mem

private theorem Ordered.snoc (h : Ordered slots) {slot : Slot} (skipped : slot.cache = none) :
    Ordered (slots ++ [slot]) := by
  refine List.pairwise_append.mpr ⟨h, List.pairwise_singleton _ _, fun _ _ last mem cached => ?_⟩
  cases List.mem_singleton.mp mem
  rw [skipped] at cached
  cases cached

end Slot

/-- A format is parsed alike if it treats matching values alike; runs that have come apart need
not. -/
private theorem Engine.Matches.parse_of (concur : e.Matches q e') {f : Format} (path : Path)
    (known : w.Total ∨ (q.Compares → f.Uniform)) :
    Concurs q w .value (e.parse f path) (e'.parse f path) := by
  rcases known with total | uniform
  · cases World.eq_apart_of_total total
    exact concurs_apart (concur.left f path) (concur.right f path)
  · exact concur.parse f uniform path

/-! ## Putting members down -/

private theorem concurs_addMembers (data : List UInt8) (base : Nat) (chained : Bool)
    {ctx ctx' : Context}
    (contexts : ctx.Matches w.Related ctx') {slots slots' : List Slot}
    (matched : List.Forall₂ (Slot.Matches w.Related) slots slots')
    (known : w.Total ∨ Slot.Fit q slots ∧ (chained = true →
      Slot.Ordered slots ∧ Slot.Ordered slots')) :
    Concurs q w .handle (addMembers ⟨data, base, ctx, slots, chained⟩)
      (addMembers ⟨data, base, ctx', slots', chained⟩) := by
  refine ⟨fun s => LazyStore.grown_add s.store _, fun t => LazyStore.grown_add t.store _,
    fun {s t} here meeting allowed => ?_⟩
  obtain ⟨fit, ordered⟩ := known.resolve_left here.not_total
  have same : Members.Matches (Similar s.store t.store) ⟨data, base, ctx, slots, chained⟩
      ⟨data, base, ctx', slots', chained⟩ :=
    ⟨rfl, rfl, rfl, contexts.mono here.related, matched.imp fun _ _ slot => slot.mono here.related,
      fit allowed.compares⟩
  have back := same.symm fun _ _ similar => Similar.symm similar
  refine .ok (similar_add same) ⟨meeting.left.add ?_ fun chained => (ordered chained).1,
    meeting.right.add ?_ fun chained => (ordered chained).2, meeting.states.1,
    meeting.states.2.mono fun _ _ similar =>
      similar.grown (LazyStore.grown_add _ _) (LazyStore.grown_add _ _)⟩
  · exact same.trans back fun _ _ _ first second => first.trans second
  · exact back.trans same fun _ _ _ first second => first.trans second

private theorem concurs_snapshot (start limit : Nat) (path : Path) :
    Concurs q w .same (snapshot start limit path) (snapshot start limit path) :=
  concurs_tell.both fun _ _ pos => (concurs_goTo start).both fun _ _ _ =>
    (concurs_read _ path).both fun _ _ _ => (concurs_goTo pos).both fun _ _ _ => concurs_pure rfl

namespace Codec

variable {p p' : Part} {ps ps' : List Part} {x y : Expr} {slots slots' : List Slot}

/-! ## Scanning -/

/-- Slots that match, all parsed on the spot. -/
abbrev filled (q : Setting) : Likeness (List Slot) :=
  Likeness.slots.such fun slots => Slot.Fit q slots ∧ Slot.Filled slots

/-- Slots that match, of which those that were parsed on the spot come first. -/
abbrev laid (q : Setting) : Likeness (List Slot) :=
  Likeness.slots.such fun slots => Slot.Fit q slots ∧ Slot.Ordered slots

private theorem filled_cons {R : Handle → Handle → Prop} {slot slot' : Slot}
    (same : slot.Matches R slot')
    (cached : slot.cache.isSome) (cached' : slot'.cache.isSome)
    (known : (∀ h k, R h k) ∨ (q.Compares → slot.format.Uniform))
    (later : (filled q).Holds R slots slots') :
    (filled q).Holds R (slot :: slots) (slot' :: slots') := by
  refine ⟨.cons same later.1, ?_⟩
  rcases known with total | uniform
  · exact .inl total
  · refine later.2.imp_right fun ⟨⟨fit, full⟩, fit', full'⟩ => ⟨⟨?_, ?_⟩, ?_, ?_⟩
    · exact fun compares => List.forall_mem_cons.mpr ⟨uniform compares, fit compares⟩
    · exact List.forall_mem_cons.mpr ⟨cached, full⟩
    · exact fun compares => List.forall_mem_cons.mpr ⟨same.format ▸ uniform compares, fit' compares⟩
    · exact List.forall_mem_cons.mpr ⟨cached', full'⟩

private theorem concurs_fillSlots (concur : e.Matches q e') : ∀ {w : World}
    {slots slots' : List Slot},
    List.Forall₂ (Slot.Matches w.Related) slots slots' → (w.Total ∨ Slot.Fit q slots) →
      Concurs q w (filled q) (fillSlots e slots) (fillSlots e' slots')
  | _, [], _, matched, _ => by
      cases matched
      exact concurs_pure ⟨.nil, .inr ⟨⟨fun _ => nofun, nofun⟩, fun _ => nofun, nofun⟩⟩
  | w, slot :: rest, _, matched, known => by
      cases matched with
      | @cons _ slot' _ rest' same later =>
          obtain ⟨name, offset, format, place, index, cache⟩ := slot
          obtain ⟨name', offset', format', place', index', cache'⟩ := slot'
          obtain ⟨rfl, rfl, rfl, rfl, rfl, caches⟩ := same
          have uniform : w.Total ∨ (q.Compares → format.Uniform) :=
            known.imp_right fun fit compares => fit compares _ List.mem_cons_self
          -- Every member ends up with a value; the others follow.
          have add : ∀ {w' : World} {v v' : Value}, w.Leads w' → v.Matches w'.Related v' →
              Concurs q w' (filled q)
                (do return ⟨name, offset, format, place, index, some v⟩ :: (← fillSlots e rest))
                (do return ⟨name, offset, format, place, index, some v'⟩ ::
                  (← fillSlots e' rest')) := fun on matched => by
            have others := concurs_fillSlots concur (later.imp fun _ _ slot => slot.mono on.related)
              (known.imp on.total Slot.Fit.tail)
            refine others.bind fun w₂ on₂ _ _ later => concurs_pure ?_
            exact filled_cons ⟨rfl, rfl, rfl, rfl, rfl, .some (matched.mono on₂.related)⟩ rfl rfl
              (uniform.imp_left (on.trans on₂).total) later
          rw [fillSlots, fillSlots]
          cases caches with
          | some matched => exact add (.refl w) matched
          | none =>
              refine (concurs_goTo offset).both fun _ on _ =>
                (concurs_tagged (concur.parse_of place (uniform.imp_left on.total))).bind
                  fun w₁ on₁ v v' parsed => ?_
              cases name with
              | none => exact add (on.trans on₁) parsed
              | some name =>
                  exact (concurs_insert name parsed).both fun _ on₂ _ =>
                    add ((on.trans on₁).trans on₂) (parsed.mono on₂.related)

private theorem concurs_materialize (concur : e.Matches q e')
    (matched : List.Forall₂ (Slot.Matches w.Related) slots slots')
    (known : w.Total ∨ Slot.Fit q slots) :
    Concurs q w (filled q) (materialize e slots) (materialize e' slots') := by
  refine concurs_tell.both fun _ on back => ?_
  refine (concurs_fillSlots concur (matched.imp fun _ _ slot => slot.mono on.related)
    (known.imp_left on.total)).bind fun _ _ _ _ filled => ?_
  exact (concurs_goTo back).both fun _ on₂ _ =>
    concurs_pure ((Codec.filled q).mono on₂.related filled)

/-! ### Walking over members -/

private theorem filled_append {R : Handle → Handle → Prop} {more more' : List Slot}
    (h : (filled q).Holds R slots slots') (h' : (filled q).Holds R more more') :
    (filled q).Holds R (slots ++ more) (slots' ++ more') := by
  refine ⟨List.rel_append h.1 h'.1, ?_⟩
  rcases h.2 with total | known
  · exact .inl total
  · refine h'.2.imp_right fun known' => ?_
    exact ⟨⟨known.1.1.append known'.1.1, known.1.2.append known'.1.2⟩,
      known.2.1.append known'.2.1, known.2.2.append known'.2.2⟩

private theorem laid_of_filled {R : Handle → Handle → Prop} (h : (filled q).Holds R slots slots') :
    (laid q).Holds R slots slots' :=
  ⟨h.1, h.2.imp_right fun known => ⟨⟨known.1.1, known.1.2.ordered⟩, known.2.1, known.2.2.ordered⟩⟩

private theorem laid_snoc {R : Handle → Handle → Prop} (h : (laid q).Holds R slots slots')
    (name : Option String) (offset : Nat) {f : Format} (uniform : q.Compares → f.Uniform)
    (place : Path) (index : Option Nat) :
    (laid q).Holds R (slots ++ [⟨name, offset, f, place, index, none⟩])
      (slots' ++ [⟨name, offset, f, place, index, none⟩]) := by
  have fit : Slot.Fit q [⟨name, offset, f, place, index, none⟩] :=
    fun compares => List.forall_mem_singleton.mpr (uniform compares)
  refine ⟨List.rel_append h.1 (.cons ⟨rfl, rfl, rfl, rfl, rfl, .none⟩ .nil), h.2.imp_right ?_⟩
  exact fun known => ⟨⟨known.1.1.append fit, known.1.2.snoc rfl⟩, known.2.1.append fit,
    known.2.2.snoc rfl⟩

private theorem filled_singleton {R : Handle → Handle → Prop} (name : Option String) (offset : Nat)
    {f : Format} (uniform : q.Compares → f.Uniform) (place : Path) (matched : v.Matches R v') :
    (filled q).Holds R [⟨name, offset, f, place, none, some v⟩]
      [⟨name, offset, f, place, none, some v'⟩] :=
  filled_cons ⟨rfl, rfl, rfl, rfl, rfl, .some matched⟩ rfl rfl (.inr uniform)
    ⟨.nil, .inr ⟨⟨fun _ => nofun, nofun⟩, fun _ => nofun, nofun⟩⟩

private theorem filled_added {R : Handle → Handle → Prop} {f : Format}
    (uniform : q.Compares → f.Uniform)
    (offset : Nat) (place : Path) : ∀ {fs gs : Record Value}, Value.FieldsMatch R fs gs →
      (filled q).Holds R
        (fs.map fun (name, v) => (⟨some name, offset, f, place, none, some v⟩ : Slot))
        (gs.map fun (name, v) => ⟨some name, offset, f, place, none, some v⟩)
  | _, _, .nil => ⟨.nil, .inr ⟨⟨fun _ => nofun, nofun⟩, fun _ => nofun, nofun⟩⟩
  | _, _, .cons _ matched rest =>
      filled_cons ⟨rfl, rfl, rfl, rfl, rfl, .some matched⟩ rfl rfl (.inr uniform)
        (filled_added uniform offset place rest)

private theorem concurs_scanEmbedded (h : p.Matches q p') (offset : Nat) (place : Path) :
    Concurs q w (filled q) (scanEmbedded p offset place) (scanEmbedded p' offset place) := by
  refine concurs_context.bind fun _ _ before before' contexts => ?_
  refine (h.codec.parseInline place false).both fun _ _ _ => ?_
  refine concurs_context.bind fun _ _ after after' contexts' => ?_
  have earlier : before.innermost.contains = before'.innermost.contains :=
    funext (Context.Matches.innermost contexts).contains
  rw [h.format, earlier]
  exact concurs_pure (filled_added (fun compares => h.format ▸ h.uniform compares) offset place
    ((Context.Matches.innermost contexts').filter fun name => !before'.innermost.contains name))

private theorem concurs_skippable (h : p.codec.Matches q p'.codec) (place : Path) :
    Concurs q w .same (skippable? p place) (skippable? p' place) := by
  refine (concurs_outcome (h.sizeNow place)).bind fun _ _ found found' result => ?_
  cases result with
  | ok same =>
      cases same
      exact concurs_pure rfl
  | error _ => exact concurs_pure rfl

private theorem concurs_scanMembers (concur : e.Matches q e') (isStruct : Bool) (path : Path) :
    ∀ {w : World} {ps ps' : List Part} (i : Nat) {slots slots' : List Slot},
      List.Forall₂ (Part.Matches q) ps ps' → (laid q).Holds w.Related slots slots' →
        Concurs q w (laid q) (scanMembers e isStruct path i ps slots)
          (scanMembers e' isStruct path i ps' slots')
  | _, [], _, _, _, _, h, known => by
      cases h
      exact concurs_pure known
  | w, member :: rest, _, i, slots, slots', h, known => by
      cases h with
      | @cons _ member' _ rest' first others =>
          have later : ∀ {w : World} {slots slots' : List Slot},
              (laid q).Holds w.Related slots slots' →
                Concurs q w (laid q) (scanMembers e isStruct path (i + 1) rest slots)
                  (scanMembers e' isStruct path (i + 1) rest' slots') :=
            concurs_scanMembers concur isStruct path (i + 1) others
          have materialized : ∀ {w' : World}, w.Leads w' →
              Concurs q w' (filled q) (materialize e slots) (materialize e' slots') := fun on =>
            concurs_materialize concur (((laid q).mono on.related known).1)
              (((laid q).mono on.related known).2.imp_right fun known => known.1.1)
          rw [scanMembers, scanMembers, first.format, first.name?]
          refine concurs_tell.both fun _ on offset => concurs_ite ?_ ?_
          · refine (materialized on).bind fun _ on₁ _ _ known => ?_
            refine (concurs_scanEmbedded first offset _).bind fun _ on₂ _ _ added => ?_
            exact later (laid_of_filled (filled_append ((filled q).mono on₂.related known) added))
          · refine (concurs_skippable first.codec _).both fun _ on₁ size => ?_
            cases size with
            | some n =>
                refine concurs_guard ((concurs_seek _ _).both fun _ on₂ _ => later ?_)
                have known := (laid q).mono ((on.trans on₁).trans on₂).related known
                exact laid_snoc known _ offset (fun c => first.format ▸ first.uniform c) _ none
            | none =>
                refine (materialized (on.trans on₁)).bind fun _ on₂ _ _ known => ?_
                refine (first.codec.parsePart _).bind fun _ on₃ _ _ matched => ?_
                refine (concurs_noteItem first matched).both fun _ on₄ _ => ?_
                refine later (laid_of_filled (filled_append
                  ((filled q).mono (on₃.trans on₄).related known) ?_))
                exact filled_singleton _ offset (fun c => first.format ▸ first.uniform c) _
                  (Value.Matches.mono on₄.related matched)

private theorem concurs_scan (concur : e.Matches q e') (isStruct : Bool) (path : Path)
    (h : List.Forall₂ (Part.Matches q) ps ps') :
    Concurs q w (laid q) (scan e isStruct ps path) (scan e' isStruct ps' path) := by
  have start : (laid q).Holds w.Related [] [] :=
    ⟨.nil, .inr ⟨⟨fun _ => nofun, .nil⟩, fun _ => nofun, .nil⟩⟩
  refine (concurs_scanMembers concur isStruct path 0 h start).bind fun _ on _ _ known => ?_
  refine concurs_tell.both fun _ on₁ _ => concurs_size.both fun _ on₂ _ => ?_
  have known := (laid q).mono (on₁.trans on₂).related known
  refine concurs_ite ?_ (concurs_pure known)
  exact (concurs_materialize concur known.1 (known.2.imp_right fun known => known.1.1)).imp
    fun _ _ _ => laid_of_filled

private theorem concurs_scanRecord (concur : e.Matches q e') (isStruct : Bool) (path : Path)
    (h : List.Forall₂ (Part.Matches q) ps ps') :
    Concurs q w (.both .handle .slots) (scanRecord e isStruct ps path)
      (scanRecord e' isStruct ps' path) := by
  have inside : ∀ {w : World}, Concurs q w (.both (laid q) .context)
      (do
        let slots ← scan e isStruct ps path
        return (slots, ← Run.context))
      (do
        let slots ← scan e' isStruct ps' path
        return (slots, ← Run.context)) := by
    refine (concurs_scan concur isStruct path h).bind fun _ _ _ _ known => ?_
    exact concurs_context.bind fun _ on _ _ contexts =>
      concurs_pure ⟨(laid q).mono on.related known, contexts⟩
  refine concurs_tell.both fun _ _ start => (concurs_inFrame inside).bind fun _ _ a b related => ?_
  obtain ⟨⟨slots, ctx⟩, frame⟩ := a
  obtain ⟨⟨slots', ctx'⟩, frame'⟩ := b
  obtain ⟨⟨known, contexts⟩, -⟩ := related
  refine concurs_tell.both fun _ on reached => (concurs_snapshot start reached path).both
    fun w₁ on₁ data => ?_
  have known := (laid q).mono (on.trans on₁).related known
  have contexts : ctx.Matches w₁.Related ctx' :=
    Context.Matches.mono contexts (on.trans on₁).related
  refine (concurs_addMembers data start true contexts known.1 (known.2.imp_right fun known =>
    ⟨known.1.1, fun _ => ⟨known.1.2, known.2.2⟩⟩)).bind fun _ on₂ _ _ handles => ?_
  exact concurs_pure ⟨handles, Likeness.slots.mono on₂.related known.1⟩

private theorem names_eq {R : Handle → Handle → Prop}
    (h : List.Forall₂ (Slot.Matches R) slots slots') :
    slots.filterMap Slot.name = slots'.filterMap Slot.name := by
  induction h with
  | nil => rfl
  | cons first _ ih => rw [List.filterMap_cons, List.filterMap_cons, first.name, ih]

theorem matches_lazyStruct (concur : e.Matches q e') (h : List.Forall₂ (Part.Matches q) ps ps') :
    (lazyStruct e ps).Matches q (lazyStruct e' ps') where
  parse path := by
    refine (concurs_scanRecord concur true path h).bind fun _ _ a b related => ?_
    obtain ⟨handle, slots⟩ := a
    obtain ⟨handle', slots'⟩ := b
    dsimp only
    rw [names_eq related.2]
    exact concurs_pure (.lazyContainer related.1 _)
  parseInline _ _ := concurs_refused _ _
  size contexts path := concurs_fieldsSize path h (contexts.push .nil)

theorem matches_lazySequence (concur : e.Matches q e') (h : List.Forall₂ (Part.Matches q) ps ps') :
    (lazySequence e ps).Matches q (lazySequence e' ps') where
  parse path := by
    refine (concurs_scanRecord concur false path h).bind fun _ _ a b related => ?_
    obtain ⟨handle, slots⟩ := a
    obtain ⟨handle', slots'⟩ := b
    dsimp only
    rw [List.Forall₂.length_eq related.2]
    exact concurs_pure (.lazyList related.1 _)
  parseInline _ _ := concurs_refused _ _
  size contexts path := concurs_itemsSize path 0 h (contexts.push .nil)

/-! ## Lists -/

private theorem concurs_lazyElements (h : p.Matches q p') (count size : Nat) (path : Path) :
    Concurs q w .value (lazyElements p count size path) (lazyElements p' count size path) := by
  refine concurs_tell.both fun _ _ start => concurs_size.both fun _ _ _ => concurs_guard ?_
  refine (concurs_snapshot start _ path).both fun _ _ data => (concurs_goTo _).both fun _ _ _ => ?_
  refine concurs_context.bind fun w' _ ctx ctx' contexts => ?_
  rw [h.format]
  refine (concurs_addMembers data start false contexts ?_ (.inr ⟨?_, nofun⟩)).bind
    fun _ _ _ _ handles => concurs_pure (Value.Matches.lazyList handles count)
  · exact List.forall₂_same.mpr fun slot mem => by
      obtain ⟨i, -, rfl⟩ := List.mem_map.mp mem
      exact ⟨rfl, rfl, rfl, rfl, rfl, .none⟩
  · intro compares slot mem
    obtain ⟨i, -, rfl⟩ := List.mem_map.mp mem
    exact h.format ▸ h.uniform compares

private theorem slots_parsed {R : Handle → Handle → Prop} (f : Format) (path : Path) :
    ∀ {items items' : List Value} (i : Nat), Value.ItemsMatch R items items' →
      List.Forall₂ (Slot.Matches R)
        ((items.zipIdx i).map fun (v, i) => (⟨none, 0, f, path.element i, none, some v⟩ : Slot))
        ((items'.zipIdx i).map fun (v, i) => ⟨none, 0, f, path.element i, none, some v⟩)
  | _, _, _, .nil => .nil
  | _, _, i, .cons first later =>
      .cons ⟨rfl, rfl, rfl, rfl, rfl, .some first⟩ (slots_parsed f path (i + 1) later)

private theorem concurs_parsedElements (h : p.Matches q p') (matched : v.Matches w.Related v')
    (path : Path) :
    Concurs q w .value (parsedElements p v path) (parsedElements p' v' path) := by
  refine concurs_context.bind fun w' on ctx ctx' contexts => ?_
  have items := (Value.Matches.mono on.related matched).items
  rw [h.format, items.length]
  refine (concurs_addMembers [] 0 false contexts (slots_parsed _ path 0 items)
    (.inr ⟨?_, nofun⟩)).bind fun _ _ _ _ handles => concurs_pure (Value.Matches.lazyList handles _)
  intro compares slot mem
  obtain ⟨⟨_, i⟩, -, rfl⟩ := List.mem_map.mp mem
  exact h.format ▸ h.uniform compares

theorem matches_lazyArray (concur : e.Matches q e') (uniform : q.Compares → x.Uniform)
    (h : p.Matches q p') : (lazyArray e x p).Matches q (lazyArray e' x p') where
  parse path := by
    have eager := matches_array concur uniform h.codec false
    refine (e.concurs_evalSize concur uniform path).both fun _ _ n =>
      (concurs_outcome (h.codec.sizeNow _)).bind fun _ _ found found' result => ?_
    cases result with
    | ok same =>
        cases same
        exact concurs_lazyElements h n _ path
    | error _ =>
        exact (eager.parse path).bind fun _ _ _ _ matched => concurs_parsedElements h matched path
  parseInline _ _ := concurs_refused _ _
  size := (matches_array concur uniform h.codec false).size

theorem matches_lazyRange (concur : e.Matches q e') (uniform : q.Compares → x.Uniform ∧ y.Uniform)
    (h : p.Matches q p') : (lazyRange e x y p).Matches q (lazyRange e' x y p') where
  parse path := by
    have eager := matches_range concur uniform h.codec false
    refine (concurs_skippable h.codec _).both fun _ _ found => ?_
    cases found with
    | none =>
        exact (eager.parse path).bind fun _ _ _ _ matched => concurs_parsedElements h matched path
    | some size =>
        exact (e.concurs_evalSize concur (fun c => (uniform c).1) path).both fun _ _ _ =>
          (e.concurs_evalSize concur (fun c => (uniform c).2) path).both fun _ _ _ =>
            concurs_size.both fun _ _ _ => concurs_tell.both fun _ _ _ =>
              concurs_guard (concurs_lazyElements h _ size path)
  parseInline _ _ := concurs_refused _ _
  size contexts path :=
    (e.concurs_staticSize concur (fun c => (uniform c).1) path contexts).both fun _ on _ =>
      have contexts := contexts.mono on.related
      (e.concurs_staticSize concur (fun c => (uniform c).2) path contexts).both fun _ on₁ _ =>
        concurs_ite (concurs_unsized _ path)
          (concurs_productSize h.codec _ (contexts.mono on₁.related) path)

end Codec

end BinaryFormat
