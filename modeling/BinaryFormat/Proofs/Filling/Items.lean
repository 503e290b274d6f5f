import BinaryFormat.Proofs.Filling.Structures

/-!
# Sequences that are parsed as they were built

The items of a list take their bytes one after another.  Placeholders stay in
the list, since a patch is noted in a frame only.
-/

namespace BinaryFormat

namespace Value

private theorem FillsToItems.getD {ws ps : List Value} (h : FillsToItems ws ps) (i : Nat) :
    (ws.getD i none).FillsTo (ps.getD i none) := by
  induction ws generalizing ps i with
  | nil => exact fillsTo_none _
  | cons w ws ih =>
      cases ps with
      | nil => simp only [FillsToItems] at h
      | cons p ps =>
          simp only [FillsToItems] at h
          cases i with
          | zero => exact h.1
          | succ i => exact ih h.2 i

private theorem isFilled_of_items {ws : List Value} (h : areFilled ws = true) {i : Nat} {w : Value}
    (found : ws[i]? = some w) : w.isFilled = true := by
  induction ws generalizing i with
  | nil => cases found
  | cons v ws ih =>
      simp only [areFilled, Bool.and_eq_true] at h
      cases i with
      | zero =>
          cases found
          exact h.1
      | succ i => exact ih h.2 found

private theorem InRangeItems.getElem? {items : List Value} (h : InRangeItems items) {i : Nat}
    {v : Value}
    (found : items[i]? = some v) : v.InRange := by
  induction items generalizing i with
  | nil => cases found
  | cons w ws ih =>
      cases i with
      | zero =>
          cases found
          exact h.1
      | succ i => exact ih h.2 found

end Value

namespace Format

private theorem itemsAccept_of_atoms {items : List Format} {us : List Value}
    (atoms : ∀ u ∈ us, u.IsAtom) : ItemsAccept items us := by
  induction items generalizing us with
  | nil => simp only [ItemsAccept]
  | cons f rest ih =>
      cases us with
      | nil => simp only [ItemsAccept]
      | cons u us =>
          simp only [ItemsAccept]
          exact ⟨accepts_atom (atoms u List.mem_cons_self) f,
            ih fun v mem => atoms v (List.mem_cons_of_mem u mem)⟩

private theorem accepts_of_item {items : List Format} {i : Nat} {f : Format} {u : Value}
    (h : ItemAccepts items i u) (at_i : items[i]? = some f) : f.Accepts u := by
  induction items generalizing i with
  | nil => cases at_i
  | cons g rest ih =>
      cases i with
      | zero =>
          cases at_i
          simpa only [ItemAccepts] using h
      | succ i => exact ih (by simpa only [ItemAccepts] using h) at_i

/-- What the items from one on are built from if only the one in focus is given a value. -/
def focusedInputs (focus : Nat) (u : Value) (first count : Nat) : List Value :=
  (List.range' first count).map fun j => if j = focus then u else .none

private theorem getElem?_focusedInputs {focus first count j : Nat} {u v : Value}
    (found : (focusedInputs focus u first count)[j]? = some v) :
    v = if first + j = focus then u else .none := by
  obtain ⟨within, rfl⟩ := List.getElem?_eq_some_iff.mp found
  simp only [focusedInputs, List.getElem_map, List.getElem_range', Nat.one_mul]

private theorem itemsAccept_of_focus {items : List Format} {focus first : Nat} {u : Value}
    (h : ∀ j f, items[j]? = some f → first + j = focus → f.Accepts u) :
    ItemsAccept items (focusedInputs focus u first items.length) := by
  induction items generalizing first with
  | nil => simp only [ItemsAccept]
  | cons f rest ih =>
      simp only [List.length_cons, focusedInputs, List.range'_succ, List.map_cons, ItemsAccept]
      refine ⟨?_, ih fun j g at_j here => h (j + 1) g at_j (by omega)⟩
      split
      · next here => exact h 0 f rfl here
      · exact accepts_atom (show Value.IsAtom .none from trivial) f

private theorem zip_focusedInputs {α : Type} (items : List α) (focus first : Nat) (u : Value) :
    (items.zipIdx first).map (fun (item, j) => (item, if j = focus then u else .none)) =
      items.zip (focusedInputs focus u first items.length) := by
  induction items generalizing first with
  | nil => rfl
  | cons item rest ih =>
      simp only [List.zipIdx_cons, List.map_cons, ih, List.length_cons, focusedInputs,
        List.range'_succ, List.zip_cons_cons]

/-! ## Items -/

/-- What was built of items is there in the end. -/
def ItemsInTime (defs : Definitions) (items : List Format) (start : Nat) (part : List UInt8)
    (new : List Deferred) (ws : List Value) : Prop :=
  new = [] ∧ Value.areFilled ws = true ∧
    ∀ final, Firm defs start part [] final → ItemsUpToDate final items ws

/-- Items fulfil together what one component does; what is built of them stays as it is. -/
def ItemsFulfil (e : Engine) (defs : Definitions) (visible : Nat → Bool) (path : Path)
    (sources : List (Record Format)) (front : Record Format) (i : Nat) (items : List Format)
    (us : List Value) : Prop :=
  ∀ (before : List UInt8) (ctx : Context) (store : LazyStore) (ws : List Value) (s : State),
    Codec.buildItems path i ((parts e defs items).zip us) ⟨.atEnd before, ctx, store⟩ = .ok ws s →
    ∃ part new ctx' store', s = ⟨.atEnd (before ++ part), ctx', store'⟩ ∧
      ctx'.below = ctx.below ∧ ctx'.top.deferred = ctx.top.deferred ++ new ∧
      Tidy before.length (before.length + part.length) new ∧
      (∀ (j : Nat) (f : Format), items[j]? = some f → ∃ w : Value, ws[j]? = some w ∧ f.Shapes w) ∧
      (ItemsTimely sources front items → Shown (front :: sources) ctx.frames →
        ItemsInTime defs items before.length part new ws) ∧
      ∀ final, Firm defs before.length part new final →
        (∀ (j : Nat) (f : Format) (u w : Value), items[j]? = some f → us[j]? = some u →
          ws[j]? = some w →
          visible (i + j) = false ∧ u = .none ∨ f.UpToDate final w ∧ w.InRange) →
        ∀ (m : Medium) (suffix : List UInt8) (ctx₂ : Context) (store₂ : LazyStore) (path₂ : Path),
          m.pos = before.length →
          m.rest = (final.drop before.length).take part.length ++ suffix →
          Matches (front :: sources) ctx.frames ctx₂.frames →
          ∃ ps ctx₃, Codec.parseItems path₂ i (parts e defs items) ⟨.medium m, ctx₂, store₂⟩ =
              .ok ps ⟨.medium (m.skip part.length), ctx₃, store₂⟩ ∧ ctx₂.Kept ctx₃ ∧
            Value.FillsToItems ws ps

variable {e : Engine} {defs : Definitions} {visible : Nat → Bool} {path : Path}
  {sources later : List (Record Format)} {front : Record Format} {i : Nat} {f : Format}
  {rest : List Format} {u : Value} {us : List Value}

theorem ItemsFulfil.nil :
    ItemsFulfil e defs visible path sources front i [] us := by
  intro before ctx store ws s run
  cases run
  refine ⟨[], [], ctx, store, by rw [List.append_nil], rfl, (List.append_nil _).symm, .nil _ _,
    nofun, fun _ _ => ⟨rfl, rfl, fun _ _ => by simp only [ItemsUpToDate]⟩, ?_⟩
  intro final _ _ m suffix ctx₂ store₂ path₂ _ _ _
  exact ⟨[], ctx₂, rfl, .refl ctx₂, by simp only [Value.FillsToItems]⟩

theorem ItemsFulfil.cons
    (head : f.Fulfils e defs (visible i) (path.item f.name? i) (front :: sources)
      (front :: sources) u)
    (tail : ItemsFulfil e defs visible path sources (f.note front) (i + 1) rest us) :
    ItemsFulfil e defs visible path sources front i (f :: rest) (u :: us) := by
  intro before ctx store ws s run
  rw [parts, List.zip_cons_cons, Codec.buildItems] at run
  obtain ⟨w, s₁, made, run⟩ := Run.bind_eq_ok_iff.mp run
  obtain ⟨part, new, store₁, rfl, tidy, -, shapes, inTime, parses⟩ :=
    head before ctx store w s₁ (Part.build_eq_ok_iff.mp made)
  rw [Run.bind_of_ok (noteItem_noting _ w _)] at run
  obtain ⟨ws, s₂, later, run⟩ := Run.bind_eq_ok_iff.mp run
  cases run
  obtain ⟨part', new', ctx', store', rfl, below, deferred, tidy', shapes', punctual, regained⟩ :=
    tail _ _ _ _ _ later
  rw [List.length_append] at tidy' punctual regained
  have kept := (ctx.queued new).kept_noting f.name? w
  refine ⟨part ++ part', new ++ new', ctx', store', by rw [List.append_assoc],
    below.trans kept.below, ?_, ?_, ?_, fun timely shown => ?_, ?_⟩
  · rw [deferred, kept.deferred, ← List.append_assoc]
    rfl
  · rw [List.length_append, ← Nat.add_assoc]
    exact tidy.append tidy' (Nat.le_add_right _ _) (Nat.le_add_right _ _)
  · intro j g at_j
    cases j with
    | zero =>
        cases at_j
        exact ⟨w, rfl, shapes⟩
    | succ j => exact shapes' j g at_j
  -- Nothing of the first item waits, so the others are built over a frame that shows it in the end.
  · simp only [ItemsTimely] at timely
    obtain ⟨rfl, filled, upToDate⟩ := (inTime timely.1 shown).at_once shown
    have shown' : Shown (f.note front :: sources)
        ((ctx.queued []).noting f.name? w).frames := by
      rw [Context.frames_noting_queued]
      exact shown.note shapes
    obtain ⟨rfl, filled', upToDate'⟩ := punctual timely.2 shown'
    refine ⟨rfl, ?_, fun final firm => ?_⟩
    · simp only [Value.areFilled, filled, filled', Bool.and_self]
    · simp only [ItemsUpToDate]
      have parted : Firm defs before.length (part ++ part') ([] ++ []) final := firm
      exact ⟨upToDate final (parted.first (.nil _ _)), upToDate' final (parted.second (.nil _ _))⟩
  -- Parsing again: the bytes of the first item are in front of those of the others.
  intro final firm current m suffix ctx₂ store₂ path₂ pos next same
  have firm₁ := firm.first tidy'
  have firm₂ := firm.second tidy
  rw [Firm.slice_append, List.append_assoc] at next
  obtain ⟨p, ctx₃, parsed, quiet, fills, -⟩ := parses final w firm₁ (Or.inl rfl)
    (current 0 f u w rfl rfl rfl) m _ ctx₂ store₂ (path₂.item f.name? i) pos next same
  have next' : (m.skip part.length).rest =
      (final.drop (before.length + part.length)).take part'.length ++ suffix := by
    have skipped := Medium.rest_skip next
    rwa [firm₁.length_slice] at skipped
  have matched := (same.quiet quiet).note fills shapes
  rw [← Context.frames_noting_queued ctx new] at matched
  obtain ⟨ps, ctx₄, others, kept', fills'⟩ := regained final firm₂
    (fun j g v x at_j given found => by
      have there := current (j + 1) g v x at_j given found
      rwa [show i + (j + 1) = i + 1 + j by omega] at there)
    (m.skip part.length) suffix _ store₂ path₂ (by rw [Medium.skip_pos, pos]) next' matched
  have quiet' := quiet.kept.trans (Context.kept_noting ctx₃ f.name? p)
  refine ⟨p :: ps, ctx₄, ?_, quiet'.trans kept', ?_⟩
  · rw [parts, Codec.parseItems]
    have parsed' : (⟨f, f.codec e defs⟩ : Part).parse (path₂.item f.name? i)
        ⟨.medium m, ctx₂, store₂⟩ = .ok p _ := Part.parse_of_ok parsed
    rw [show (⟨f, f.codec e defs⟩ : Part).name? = f.name? from rfl, Run.bind_of_ok parsed',
      Run.bind_of_ok (noteItem_noting _ p _), Run.bind_of_ok others, Medium.skip_skip,
      List.length_append]
    rfl
  · simp only [Value.FillsToItems]
    exact ⟨fills, fills'⟩

/-! ## Sequences -/

/-- In a frame of their own, items are built and parsed again; the patches that wait then are
noted nowhere. -/
private theorem settled_items (patches : BuildsPatches defs e) {items : List Format}
    {values : Record Value}
    (fulfil : ItemsFulfil e defs visible path sources [] 0 items us) {before : List UInt8}
    {ctx : Context} {store : LazyStore} {result : List Value × Record Value} {s : State}
    (run : Run.inFrame values (do
        let ws ← Codec.buildItems path 0 ((parts e defs items).zip us)
        e.resolvePending
        return ws) ⟨.atEnd before, ctx, store⟩ = .ok result s) :
    ∃ part new store', s = ⟨.atEnd (before ++ part), ctx.queued new, store'⟩ ∧
      Tidy before.length (before.length + part.length) new ∧ (∀ d ∈ new, d.scopes ≠ []) ∧
      (∀ (j : Nat) (f : Format), items[j]? = some f →
        ∃ w : Value, result.1[j]? = some w ∧ f.Shapes w) ∧
      (ItemsTimely sources [] items → Shown sources ctx.frames →
        ItemsInTime defs items before.length part new result.1) ∧
      ∀ final, Firm defs before.length part new final →
        (∀ (j : Nat) (f : Format) (u w : Value), items[j]? = some f → us[j]? = some u →
          result.1[j]? = some w →
          visible j = false ∧ u = .none ∨ f.UpToDate final w ∧ w.InRange) →
        ∀ (m : Medium) (suffix : List UInt8) (ctx₂ : Context) (store₂ : LazyStore) (path₂ : Path),
          m.pos = before.length →
          m.rest = (final.drop before.length).take part.length ++ suffix →
          Matches sources ctx.frames ctx₂.frames →
          ∃ ps frame, Run.inFrame [] (Codec.parseItems path₂ 0 (parts e defs items))
              ⟨.medium m, ctx₂, store₂⟩ = .ok (ps, frame)
                ⟨.medium (m.skip part.length), ctx₂, store₂⟩ ∧
            Value.FillsToItems result.1 ps := by
  obtain ⟨s₁, inside, -, rfl⟩ := Run.ok_of_inFrame run
  obtain ⟨ws, s₂, built, settled⟩ := Run.bind_eq_ok_iff.mp inside
  obtain ⟨_, s₃, resolved, returned⟩ := Run.bind_eq_ok_iff.mp settled
  obtain ⟨isResult, rfl⟩ := Run.pure_eq_ok_iff.mp returned
  rw [← isResult]
  obtain ⟨part, new, ctx₁, store₁, rfl, below, deferred, tidy, shapes, inTime, regained⟩ :=
    fulfil before _ _ ws s₂ built
  obtain rfl : ctx₁.top.deferred = new := deferred
  -- When all items are built, the frame resolves what it can of their patches; the rest leaves the
  -- frame.
  obtain ⟨part', ctx₂, store₂, rfl, -, resolution⟩ :=
    Engine.resolution_of_resolveSince patches tidy resolved
  have length := resolution.length
  rw [Context.pop_eq_queued (resolution.below.trans below)]
  refine ⟨part', _, store₂, rfl, ?_, fun d mem => ?_, shapes, fun timely shown => ?_, ?_⟩
  · rw [length]
    exact (tidy.sublist resolution.sub).moved _
  · obtain ⟨d', -, rfl⟩ := List.mem_map.mp mem
    exact List.cons_ne_nil _ _
  · obtain ⟨none, filled, upToDate⟩ := inTime timely (shown.push values)
    have left := resolution.sub
    rw [none] at left
    refine ⟨by rw [List.sublist_nil.mp left, List.map_nil], filled, fun final ended => ?_⟩
    have firm := (resolution.firm [] final tidy (by rwa [List.sublist_nil.mp left])).1
    rw [none] at firm
    exact upToDate final firm
  intro final ended current m suffix ctx₃ store₃ path₂ pos next same
  rw [length] at next ⊢
  obtain ⟨ps, ctx₄, parsed, kept, fills⟩ := regained final
    (resolution.firm [] final tidy ended.moved).1
    (fun j f u w => by simpa only [Nat.zero_add] using current j f u w) m suffix (ctx₃.push [])
    store₃ path₂ pos next (same.push values [])
  have framed : Run.inFrame [] (Codec.parseItems path₂ 0 (parts e defs items))
      ⟨.medium m, ctx₃, store₃⟩ = .ok (ps, ctx₄.innermost) _ := Run.inFrame_of_ok parsed
  rw [Context.pop_of_kept kept] at framed
  exact ⟨ps, _, framed, fills⟩

private theorem eq_of_becomes_left {queue : List Deferred} {final : List UInt8} {w v : Value}
    (left : ∀ d ∈ queue, d.scopes ≠ []) (h : Becomes defs queue final w v) : v = w :=
  h.resolve_right fun ⟨d, mem, here, _⟩ => left d mem here

private theorem items_of_accepts {items : List Format} {s s₁ : State} {input : List Value}
    (accepts : (sequence items).Accepts u) (entered : e.listInput u path s = .ok input s₁) :
    s₁ = s ∧ u ≠ .none ∧ ItemsAccept items input := by
  simp only [Accepts] at accepts
  cases u with
  | list given =>
      cases entered
      exact ⟨rfl, nofun, accepts.2 _ rfl⟩
  | bytes data =>
      cases entered
      refine ⟨rfl, nofun, itemsAccept_of_atoms fun v mem => ?_⟩
      obtain ⟨b, -, rfl⟩ := List.mem_map.mp mem
      exact show Value.IsAtom (.int _) from trivial
  | lazyList handle length => cases accepts.1
  | _ => cases entered

theorem fulfils_sequence (patches : BuildsPatches defs e) {shown : Bool} {items : List Format}
    (accepts : (sequence items).Accepts u)
    (inner : ∀ us, items.length = us.length → ItemsAccept items us →
      ItemsFulfil e defs (fun _ => shown) path sources [] 0 items us) :
    (sequence items).Fulfils e defs shown path sources later u := by
  intro before ctx store w s run
  obtain ⟨input, s₁, entered, run⟩ := Run.bind_eq_ok_iff.mp run
  obtain ⟨rfl, present, accepted⟩ := items_of_accepts accepts entered
  obtain ⟨counted, run⟩ := Run.guard_eq_ok_iff.mp run
  have count : items.length = input.length := by
    rw [Decidable.not_not.mp counted, length_parts]
  obtain ⟨result, s₂, framed, run⟩ := Run.bind_eq_ok_iff.mp run
  obtain ⟨rfl, rfl⟩ := Run.pure_eq_ok_iff.mp run
  obtain ⟨part, new, store', rfl, tidy, left, shapes, inTime, regained⟩ :=
    settled_items patches (inner input count accepted) framed
  refine ⟨part, new, store', rfl, tidy, fun d mem here => absurd here (left d mem),
    shapes_of_items shapes, fun timely showing => ?_, ?_⟩
  · simp only [Timely] at timely
    obtain ⟨none, filled, current⟩ := inTime timely showing
    refine Or.inl ⟨none, by simpa only [Value.isFilled] using filled, fun final firm => ?_⟩
    simp only [UpToDate]
    rintro _ ⟨⟩
    exact current final firm
  intro final v firm becomes current m suffix ctx₂ store₂ path₂ pos next same
  obtain rfl := eq_of_becomes_left left becomes
  obtain ⟨current, small⟩ := current.resolve_left fun hidden => present hidden.2
  simp only [UpToDate] at current
  obtain ⟨ps, frame, parsed, fills⟩ := regained final firm (fun j f u w at_j _ found => Or.inr
      ⟨upToDate_of_items (current _ rfl) at_j found, Value.InRangeItems.getElem? small found⟩)
    m suffix ctx₂ store₂ path₂ pos next same
  have whole : (Value.list result.1).FillsTo (.list ps) := by simpa only [Value.FillsTo] using fills
  refine ⟨.list ps, ctx₂, ?_, .refl ctx₂, whole, whole⟩
  simp only [codec, Codec.sequence]
  rw [Run.bind_of_ok parsed]
  rfl

theorem fulfils_focused (patches : BuildsPatches defs e) {shown : Bool} {focus : Selector}
    {items : List Format} (accepts : (focused focus items).Accepts u)
    (inner : ∀ us, items.length = us.length → ItemsAccept items us →
      ItemsFulfil e defs (fun i => shown && position? focus items == some i) path sources [] 0
        items us) :
    (focused focus items).Fulfils e defs shown path sources later u := by
  intro before ctx store w s run
  simp only [Accepts] at accepts
  obtain ⟨i, s₁, chosen, run⟩ := Run.bind_eq_ok_iff.mp run
  obtain ⟨at_focus, rfl⟩ := focusIndex_eq_ok_iff.mp chosen
  dsimp only at run
  rw [zip_focusedInputs, length_parts] at run
  obtain ⟨result, s₂, framed, run⟩ := Run.bind_eq_ok_iff.mp run
  obtain ⟨rfl, rfl⟩ := Run.pure_eq_ok_iff.mp run
  have accepted : ItemsAccept items (focusedInputs i u 0 items.length) :=
    itemsAccept_of_focus fun j f at_j here =>
      accepts_of_item (accepts i at_focus) (by rwa [← here, Nat.zero_add])
  have count : items.length = (focusedInputs i u 0 items.length).length := by
    rw [focusedInputs, List.length_map, List.length_range']
  obtain ⟨part, new, store', rfl, tidy, left, shapes, inTime, regained⟩ :=
    settled_items patches (inner _ count accepted) framed
  refine ⟨part, new, store', rfl, tidy, fun d mem here => absurd here (left d mem), ?_,
    fun timely showing => ?_, ?_⟩
  · intro names reaches
    simp only [Reaches] at reaches
    rcases reaches with rfl | ⟨j, at_j, reaches⟩
    · exact ⟨_, rfl⟩
    · obtain rfl : i = j := Option.some.inj (at_focus.symm.trans at_j)
      obtain ⟨f, at_i, reaches⟩ := exists_of_itemReaches reaches
      obtain ⟨x, found, shapes⟩ := shapes i f at_i
      rw [List.getD_eq_getElem?_getD, found]
      exact shapes names reaches
  · simp only [Timely] at timely
    obtain ⟨none, filled, current⟩ := inTime timely showing
    obtain ⟨f, at_i⟩ := exists_of_position? at_focus
    obtain ⟨x, found, -⟩ := shapes i f at_i
    rw [List.getD_eq_getElem?_getD, found]
    refine Or.inl ⟨none, Value.isFilled_of_items filled found, fun final firm => ?_⟩
    simp only [UpToDate]
    intro j at_j
    obtain rfl : i = j := Option.some.inj (at_focus.symm.trans at_j)
    exact (itemUpToDate_iff at_i).mpr (upToDate_of_items (current final firm) at_i found)
  intro final v firm becomes current m suffix ctx₂ store₂ path₂ pos next same
  obtain rfl := eq_of_becomes_left left becomes
  -- Only the item in focus is visible; the others were given nothing.
  have each : ∀ (j : Nat) (f : Format) (x w : Value), items[j]? = some f →
      (focusedInputs i u 0 items.length)[j]? = some x → result.1[j]? = some w →
      (shown && position? focus items == some j) = false ∧ x = .none ∨
        f.UpToDate final w ∧ w.InRange := by
    intro j f x w at_j given found
    have input := getElem?_focusedInputs given
    rw [Nat.zero_add] at input
    by_cases here : j = i
    · subst here
      rw [if_pos rfl] at input
      rw [List.getD_eq_getElem?_getD, found] at current
      rcases current with ⟨hidden, missing⟩ | ⟨current, small⟩
      · exact Or.inl ⟨by simp [hidden], input.trans missing⟩
      · simp only [UpToDate] at current
        exact Or.inr ⟨(itemUpToDate_iff at_j).mp (current j at_focus), small⟩
    · rw [if_neg here] at input
      have apart : (some i == some j) = false := by simpa using Ne.symm here
      exact Or.inl ⟨by rw [at_focus, apart, Bool.and_false], input⟩
  obtain ⟨ps, frame, parsed, fills⟩ :=
    regained final firm each m suffix ctx₂ store₂ path₂ pos next same
  have whole := fills.getD i
  refine ⟨_, ctx₂, ?_, .refl ctx₂, whole, whole⟩
  simp only [codec, Codec.focused]
  rw [Run.bind_of_ok (focusIndex_eq_ok_iff.mpr ⟨at_focus, rfl⟩), Run.bind_of_ok parsed]
  rfl

end Format

end BinaryFormat
