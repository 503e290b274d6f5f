import BinaryFormat.Codec.Choice
import BinaryFormat.Codec.Lazy
import BinaryFormat.Proofs.Frames.Structures

/-!
# Frames around repetitions, choices and lazy members

A repeater notes indices in the frame around it.  A choice does to the frames
what the component that it falls on does, after the patches of failed attempts
have been dropped.
-/

namespace BinaryFormat

namespace Codec

variable {e : Engine} {t : Traits} {c : Codec} {base : Context} {P : Context → Prop}

/-! ## Repetition -/

theorem keeps_parseCounted {p : Part} (hc : p.codec.Steady t) (moving : ¬ t.still) (path : Path)
    (count i : Nat) : (parseCounted p path count i).Keeps (Context.Calm t base) := by
  induction count generalizing i with
  | zero => exact Run.keeps_pure
  | succ count ih =>
      exact .bind (Run.keeps_calm_note moving) fun _ => .bind (hc.parse _ base).tagged fun _ =>
        .bind (ih (i + 1)) fun _ => Run.keeps_pure

private theorem keeps_grows_note {i : Nat} (moving : ¬ t.still) :
    (noteIndex i).Keeps (Context.Grows t base) :=
  Run.keeps_grows_of_calm fun _ => Run.keeps_calm_note moving

theorem keeps_buildElements {p : Part} (hc : p.codec.Steady t) (moving : ¬ t.still) (path : Path)
    (i : Nat) (items : List Value) :
    (buildElements p path i items).Keeps (Context.Grows t base) := by
  induction items generalizing i with
  | nil => exact Run.keeps_pure
  | cons v rest ih =>
      exact .bind (keeps_grows_note moving) fun _ =>
        .bind (hc.build v _ base (Context.anchors_element path i)).tagged fun _ =>
        .bind (ih (i + 1)) fun _ => Run.keeps_pure

theorem steady_array (count : Expr) {p : Part} (hc : p.codec.Steady t) (moving : ¬ t.still)
    (discard : Bool) : (array e count p discard).Steady t := by
  refine Closed.steady ⟨fun _ _ => rfl, fun _ _ => rfl⟩ (fun path base => ?_)
    fun v path base _ => ?_
  · exact .bind e.keeps_evalSize fun n => .bind (keeps_parseCounted hc moving path n 0) fun _ =>
      Run.keeps_pure
  · exact .bind e.keeps_evalSize fun n => .bind e.keeps_listInput fun items =>
      Run.keeps_guard (.bind (keeps_buildElements hc moving path 0 items) fun _ => Run.keeps_pure)

private theorem keeps_parseGreedy {p : Part} (hc : p.codec.Steady t) (moving : ¬ t.still)
    (path : Path)
    (most i : Nat) : (parseGreedy p path most i).Keeps (Context.Calm t base) := by
  induction most generalizing i with
  | zero => exact Run.keeps_pure
  | succ most ih =>
      refine .bind Run.keeps_tell fun _ => .bind (Run.keeps_calm_note moving) fun _ =>
        .bind (hc.parse _ base).tagged.outcome fun found => ?_
      cases found with
      | ok v =>
          refine .bind Run.keeps_tell fun _ => Run.keeps_ite Run.keeps_pure ?_
          exact .bind (ih (i + 1)) fun _ => Run.keeps_pure
      | error failure => exact Run.keeps_ite (.bind Run.keeps_throw fun _ =>
          .bind Run.keeps_goTo fun _ => Run.keeps_pure) (.bind Run.keeps_goTo fun _ =>
          Run.keeps_pure)

theorem keeps_bounds (least : Expr) (most : Option Expr) (path : Path) :
    (bounds e least most path).Keeps P := by
  refine .bind e.keeps_evalSize fun least => ?_
  cases most with
  | none => exact .bind Run.keeps_pure fun _ => Run.keeps_guard Run.keeps_pure
  | some most => exact .bind e.keeps_evalSize fun _ => Run.keeps_guard Run.keeps_pure

private theorem keeps_parseRange {p : Part} (least : Expr) (most : Option Expr)
    (hc : p.codec.Steady t)
    (moving : ¬ t.still) (discard : Bool) (path : Path) :
    (parseRange e least most p discard path).Keeps (Context.Calm t base) :=
  .bind (keeps_bounds least most path) fun _ => .bind (keeps_parseGreedy hc moving path _ 0)
    fun _ => Run.keeps_guard Run.keeps_pure

private theorem keeps_buildRange {p : Part} (least : Expr) (most : Option Expr)
    (hc : p.codec.Steady t)
    (moving : ¬ t.still) (v : Value) (path : Path) :
    (buildRange e least most p v path).Keeps (Context.Grows t base) :=
  .bind (keeps_bounds least most path) fun _ => .bind e.keeps_listInput fun items =>
    Run.keeps_guard (.bind (keeps_buildElements hc moving path 0 items) fun _ => Run.keeps_pure)

theorem steady_range (least most : Expr) {p : Part} (hc : p.codec.Steady t) (moving : ¬ t.still)
    (discard : Bool) : (range e least most p discard).Steady t :=
  Closed.steady ⟨fun _ _ => rfl, fun _ _ => rfl⟩
    (fun path _ => keeps_parseRange least (some most) hc moving discard path)
    fun v path _ _ => keeps_buildRange least (some most) hc moving v path

theorem steady_greedyRange {p : Part} (hc : p.codec.Steady t) (moving : ¬ t.still)
    (discard : Bool) : (greedyRange e p discard).Steady t :=
  Closed.steady ⟨fun _ _ => rfl, fun _ _ => rfl⟩
    (fun path _ => keeps_parseRange _ none hc moving discard path)
    fun v path _ _ => keeps_buildRange _ none hc moving v path

theorem keeps_isLast (last : Expr) (v : Value) (items : List Value) (path : Path) :
    (isLast e last v items path).Keeps P := .bind Run.keeps_scope fun _ => Run.keeps_lookup

private theorem keeps_parseUntil {p : Part} (last : Expr) (hc : p.codec.Steady t)
    (moving : ¬ t.still)
    (path : Path) (more i : Nat) (items : List Value) :
    (parseUntil e last p path more i items).Keeps (Context.Calm t base) := by
  induction more generalizing i items with
  | zero => exact Run.keeps_fail
  | succ more ih =>
      exact .bind (Run.keeps_calm_note moving) fun _ => .bind (hc.parse _ base).tagged fun v =>
        .bind (keeps_isLast last v _ path) fun _ => Run.keeps_ite Run.keeps_pure (ih (i + 1) _)

private theorem keeps_buildUntil {p : Part} (last : Expr) (hc : p.codec.Steady t)
    (moving : ¬ t.still)
    (path : Path) (i : Nat) (inputs items : List Value) :
    (buildUntil e last p path i inputs items).Keeps (Context.Grows t base) := by
  induction inputs generalizing i items with
  | nil => exact Run.keeps_fail
  | cons v rest ih =>
      exact .bind (keeps_grows_note moving) fun _ =>
        .bind (hc.build v _ base (Context.anchors_element path i)).tagged fun built =>
        .bind (keeps_isLast last built _ path) fun _ => Run.keeps_ite Run.keeps_pure (ih (i + 1) _)

theorem steady_repeatUntil (last : Expr) {p : Part} (hc : p.codec.Steady t) (moving : ¬ t.still)
    (discard : Bool) : (repeatUntil e last p discard).Steady t :=
  Closed.steady ⟨fun _ _ => rfl, fun _ _ => rfl⟩
    (fun path _ => .bind (keeps_parseUntil last hc moving path _ 0 []) fun _ => Run.keeps_pure)
    fun _ path _ _ => .bind e.keeps_listInput fun _ =>
      .bind (keeps_buildUntil last hc moving path 0 _ []) fun _ => Run.keeps_pure

theorem steady_prefixedArray (count : Part) {p : Part} (hn : count.codec.Steady t)
    (hc : p.codec.Steady t)
    (moving : ¬ t.still) : (prefixedArray e count p).Steady t := by
  refine Closed.steady ⟨fun _ _ => rfl, fun _ _ => rfl⟩ (fun path base => ?_)
    fun v path base anchored => ?_
  · refine .bind (hn.parse path base).tagged fun stored => ?_
    have rest : ∀ n : Int, (parseCounted p path (n.toNat % Nat.pow 2 64) 0 >>= fun items =>
        pure (Value.list items)).Keeps (Context.Calm t base) :=
      fun n => .bind (keeps_parseCounted hc moving path _ 0) fun _ => Run.keeps_pure
    cases stored.int? with
    | none => exact .bind Run.keeps_dump fun _ => Run.keeps_fail
    | some n => exact Run.keeps_ite (.bind Run.keeps_dump fun _ => .bind Run.keeps_fail
        fun _ => rest n) (rest n)
  · exact .bind e.keeps_listInput fun items => .bind (hn.build _ path base anchored).tagged
      fun _ => .bind (keeps_buildElements hc moving path 0 items) fun _ => Run.keeps_pure

/-! ## Choice -/

private theorem keeps_parseFirst (tagged : Bool) (start : Nat) (path : Path)
    (alternatives : List Part)
    (hp : ∀ p ∈ alternatives, p.codec.Steady t) :
    (parseFirst tagged start path alternatives).Keeps (Context.Calm t base) := by
  induction alternatives with
  | nil => exact Run.keeps_pure
  | cons alternative rest ih =>
      have here := hp alternative List.mem_cons_self
      have later := ih fun p h => hp p (List.mem_cons_of_mem alternative h)
      refine .bind (here.parse path base).tagged.outcome fun found => ?_
      cases found with
      | ok v => exact Run.keeps_pure
      | error failure => exact Run.keeps_ite (.bind Run.keeps_throw fun _ =>
          .bind Run.keeps_goTo fun _ => later) (.bind Run.keeps_goTo fun _ => later)

theorem keeps_tryBuild (tagged : Bool) {alternative : Part} (hc : alternative.codec.Steady t)
    (v : Value) (path : Path) (anchored : base.Anchors t path) :
    (tryBuild tagged alternative v path).Keeps (Context.Grows t base) := by
  refine Run.keeps_mark (.refl t) fun ctx grown => ?_
  have here := keeps_buildScratch (hc.build v path ctx (anchored.of_grows grown))
  refine .bind here.outcome fun found => ?_
  cases found with
  | ok made => exact .bind Run.keeps_splice fun _ => Run.keeps_pure
  | error failure => exact .bind Run.keeps_discard fun _ => Run.keeps_throw

private theorem keeps_buildFirst (tagged : Bool) (v : Value) (path : Path)
    (alternatives : List Part)
    (hp : ∀ p ∈ alternatives, p.codec.Steady t) (anchored : base.Anchors t path) :
    (buildFirst tagged v path alternatives).Keeps (Context.Grows t base) := by
  induction alternatives with
  | nil => exact Run.keeps_pure
  | cons alternative rest ih =>
      have here := hp alternative List.mem_cons_self
      have later := ih fun p h => hp p (List.mem_cons_of_mem alternative h)
      refine .bind (keeps_tryBuild tagged here v path anchored).outcome fun found => ?_
      cases found with
      | ok built => exact Run.keeps_pure
      | error failure => exact Run.keeps_ite (.bind Run.keeps_throw fun _ => later) later

theorem mem_of_namedAlternative {alternatives : List Part} {v inner : Value} {p : Part}
    (h : namedAlternative? alternatives v = some (p, inner)) : p ∈ alternatives := by
  simp only [namedAlternative?, Option.bind_eq_bind, Option.bind_eq_some_iff, Option.pure_def,
    Option.some.injEq, Prod.mk.injEq] at h
  obtain ⟨fields, -, value, -, name, -, alternative, found, rfl, -⟩ := h
  exact List.mem_of_find?_eq_some found

theorem steady_select {alternatives : List Part} (hp : ∀ p ∈ alternatives, p.codec.Steady t)
    (tagged : Bool) : (select alternatives tagged).Steady t := by
  refine Closed.steady ⟨fun _ _ => rfl, fun _ _ => rfl⟩ (fun path base => ?_)
    fun v path base anchored => ?_
  · refine .bind Run.keeps_tell fun start =>
      .bind (keeps_parseFirst tagged start path alternatives hp) fun found => ?_
    cases found with
    | none => exact Run.keeps_fail
    | some v => exact Run.keeps_pure
  · unfold select
    dsimp only
    split
    · rename_i p inner named
      split at named
      · exact keeps_tryBuild tagged (hp p (mem_of_namedAlternative named)) inner path anchored
      · cases named
    · refine .bind (keeps_buildFirst tagged v path alternatives hp anchored) fun found => ?_
      cases found with
      | none => exact .bind Run.keeps_dump fun _ => Run.keeps_fail
      | some built => exact Run.keeps_pure

private theorem keeps_unionKey (key : Option Selector) (alternatives : List Part) (path : Path) :
    Run.Keeps P (unionKey (Run.fail · path) key alternatives : Run (Option Nat)) := by
  unfold unionKey
  cases key with
  | none => exact Run.keeps_pure
  | some selector =>
      dsimp only
      cases Select.index? selector alternatives with
      | none => exact Run.keeps_fail
      | some i => exact Run.keeps_pure

theorem keeps_parseOverlaid (policy : Option Bool) (key : Option Nat) (start : Nat) (path : Path)
    (i : Nat) (alternatives : List Part) (hp : ∀ p ∈ alternatives, p.codec.Steady t) :
    (parseOverlaid policy key start path i alternatives).Keeps (Context.Kept base) := by
  induction alternatives generalizing i with
  | nil => exact Run.keeps_pure
  | cons a rest ih =>
      have here := hp a List.mem_cons_self
      have later := ih (i + 1) fun p h => hp p (List.mem_cons_of_mem a h)
      have last : ∀ reached : Nat, Run.Keeps (Context.Kept base) (do
          let later ← parseOverlaid policy key start path (i + 1) rest
          return if key = some i then some reached else later) :=
        fun _ => .bind later fun _ => Run.keeps_pure
      refine .bind Run.keeps_goTo fun _ => .bind (Run.keeps_kept_of_calm fun ctx =>
        (here.parse _ ctx).tagged) fun v => .bind Run.keeps_tell fun reached => ?_
      cases a.name? with
      | none => exact last reached
      | some name =>
          cases policy with
          | some overwrite => exact .bind keeps_kept_insertInline fun _ => last reached
          | none => exact .bind Run.keeps_kept_insert fun _ => last reached

private theorem keeps_parseUnion (key : Option Selector) (alternatives : List Part) (path : Path)
    (policy : Option Bool) (hp : ∀ p ∈ alternatives, p.codec.Steady t) :
    (parseUnion key alternatives path policy).Keeps (Context.Kept base) := by
  refine .bind (keeps_unionKey key alternatives path) fun chosen => .bind Run.keeps_tell
    fun start => .bind (keeps_parseOverlaid policy chosen start path 0 alternatives hp)
    fun found => ?_
  cases found with
  | some reached => exact Run.keeps_goTo
  | none => exact .bind Run.keeps_context fun _ => .bind Run.keeps_lookup fun _ => Run.keeps_goTo

private theorem keeps_buildUnion (key : Option Selector) (alternatives : List Part)
    (input : Record Value) (path : Path) (hp : ∀ p ∈ alternatives, p.codec.Steady t.loose)
    (inner : base.below ≠ []) :
    (buildUnion key alternatives input path).Keeps (Context.Grows t.loose base) := by
  unfold buildUnion
  dsimp only
  split
  · exact Run.keeps_fail
  · rename_i a found
    have here := hp a (List.mem_of_find?_eq_some found)
    refine .bind Run.keeps_tell fun start => .bind (here.build _ _ base
      (Context.anchors_inside inner _)).tagged fun built => .bind (Run.keeps_grows_insert inner)
      fun _ => .bind (keeps_unionKey key alternatives path) fun chosen => ?_
    cases chosen with
    | some i => exact Run.keeps_pure
    | none =>
        exact .bind Run.keeps_context fun _ => .bind Run.keeps_lookup fun _ =>
          .bind Run.keeps_tell fun _ => Run.keeps_ite
            (.bind Run.keeps_write fun _ => Run.keeps_goTo) Run.keeps_goTo

theorem steady_union (key : Option Selector) {alternatives : List Part}
    (hp : ∀ p ∈ alternatives, p.codec.Steady t.loose) : (union e key alternatives).Steady t where
  parse path _ := .bind (Run.keeps_calm_inFrame fun _ =>
    keeps_parseUnion key alternatives path none hp) fun _ => Run.keeps_pure
  build _ path _ _ := .bind e.keeps_containerInput fun input =>
    .bind (Run.keeps_grows_inFrame fun _ inner _ =>
      keeps_buildUnion key alternatives input path hp inner) fun _ => Run.keeps_pure
  parseInline path overwrite _ := keeps_parseUnion key alternatives path (some overwrite) hp
  buildInline input path _ inner := keeps_buildUnion key alternatives input path hp inner

theorem steady_branch (condition : Expr) {yes no : Codec} (hy : yes.Steady t)
    (hn : no.Steady t) : (branch e condition yes no).Steady t :=
  Closed.steady ⟨fun _ _ => rfl, fun _ _ => rfl⟩
    (fun path base => .bind e.keeps_evalHolds fun _ =>
      Run.keeps_ite (hy.parse path base) (hn.parse path base))
    fun v path base anchored => .bind e.keeps_evalHolds fun _ =>
      Run.keeps_ite (hy.build v path base anchored) (hn.build v path base anchored)

private theorem mem_of_findCase {r : Resolver} {key : Value} {otherwise : Option Part}
    {cases : List (Value × Part)} {store store' : LazyStore} {part : Part}
    (h : findCase r key otherwise cases store = .ok (some part) store') :
    part ∈ cases.map Prod.snd ∨ otherwise = some part := by
  induction cases generalizing store with
  | nil =>
      obtain ⟨rfl, -⟩ := Run.pure_eq_ok_iff.mp h
      exact Or.inr rfl
  | cons first rest ih =>
      obtain ⟨k, p⟩ := first
      unfold findCase at h
      obtain ⟨same, store₁, -, h⟩ := Run.bind_eq_ok_iff.mp h
      cases same with
      | true =>
          obtain ⟨eq, -⟩ := Run.pure_eq_ok_iff.mp h
          cases eq
          exact Or.inl List.mem_cons_self
      | false => exact (ih h).imp_left (List.mem_cons_of_mem p)

theorem mem_of_chooseCase {r : Resolver} {key : Expr} {otherwise : Option Part}
    {cases : List (Value × Part)} {scope : Scope} {path : Path} {store store' : LazyStore}
    {part : Part} (h : chooseCase r key cases otherwise scope path store = .ok part store') :
    part ∈ cases.map Prod.snd ∨ otherwise = some part := by
  unfold chooseCase at h
  obtain ⟨k, store₁, -, h⟩ := Run.bind_eq_ok_iff.mp h
  obtain ⟨found, store₂, search, h⟩ := Run.bind_eq_ok_iff.mp h
  cases found with
  | none =>
      obtain ⟨text, store₃, -, h⟩ := Run.bind_eq_ok_iff.mp h
      cases h
  | some p =>
      obtain ⟨rfl, -⟩ := Run.pure_eq_ok_iff.mp h
      exact mem_of_findCase search

theorem steady_switch (key : Expr) {cases : List (Value × Part)} {otherwise : Option Part}
    (hp : ∀ p, p ∈ cases.map Prod.snd ∨ otherwise = some p → p.codec.Steady t) :
    (switch e key cases otherwise).Steady t := by
  have chosen : ∀ (scope : Scope) (path : Path) (p : Part) (s s' : State),
      Run.lookup (chooseCase e.resolver key cases otherwise scope path) s = .ok p s' →
        p.codec.Steady t := by
    intro scope path p s s' h
    unfold Run.lookup at h
    cases found : chooseCase e.resolver key cases otherwise scope path s.store with
    | error failure store =>
        rw [found] at h
        cases h
    | ok p' store =>
        rw [found] at h
        cases h
        exact hp p (mem_of_chooseCase found)
  refine Closed.steady ⟨fun _ _ => rfl, fun _ _ => rfl⟩ (fun path base => ?_)
    fun v path base anchored => ?_
  · exact .bind Run.keeps_scope fun scope => .bind_of_ok Run.keeps_lookup fun p s s' h =>
      (chosen scope path p s s' h).parse path base
  · exact .bind Run.keeps_scope fun scope => .bind_of_ok Run.keeps_lookup fun p s s' h =>
      (chosen scope path p s s' h).build v path base anchored

/-! ## Lazy members -/

private theorem keeps_addMembers (m : Members) : (Run.addMembers m).Keeps P :=
  Run.keeps_of_same (fun _ => rfl) fun _ => rfl

private theorem keeps_snapshot (start limit : Nat) (path : Path) :
    (Run.snapshot start limit path).Keeps P :=
  .bind Run.keeps_tell fun _ => .bind Run.keeps_goTo fun _ => .bind Run.keeps_read fun _ =>
    .bind Run.keeps_goTo fun _ => Run.keeps_pure

private theorem keeps_parseSlot (he : e.Steady) (f : Format) (path : Path) :
    (e.parse f path).tagged.Keeps (Context.Kept base) :=
  (Run.keeps_kept_of_calm fun ctx => he.parse f path ⟨False, False, False, False⟩ ctx
    ⟨False.elim, False.elim, False.elim, False.elim⟩).tagged

private theorem keeps_fillSlots (he : e.Steady) (slots : List Slot) :
    (fillSlots e slots).Keeps (Context.Kept base) := by
  induction slots with
  | nil => exact Run.keeps_pure
  | cons slot rest ih =>
      unfold fillSlots
      cases slot.cache with
      | some v => exact .bind ih fun _ => Run.keeps_pure
      | none =>
          refine .bind Run.keeps_goTo fun _ => .bind (keeps_parseSlot he _ _) fun v => ?_
          cases slot.name with
          | none => exact .bind ih fun _ => Run.keeps_pure
          | some name => exact .bind Run.keeps_kept_insert fun _ => .bind ih fun _ =>
              Run.keeps_pure

private theorem keeps_materialize (he : e.Steady) (slots : List Slot) :
    (materialize e slots).Keeps (Context.Kept base) :=
  .bind Run.keeps_tell fun _ => .bind (keeps_fillSlots he slots) fun _ =>
    .bind Run.keeps_goTo fun _ => Run.keeps_pure

private theorem keeps_scanEmbedded {member : Part} (hc : member.codec.Steady t) (offset : Nat)
    (place : Path) : (scanEmbedded member offset place).Keeps (Context.Kept base) :=
  .bind Run.keeps_context fun _ => .bind (hc.parseInline place false base) fun _ =>
    .bind Run.keeps_context fun _ => Run.keeps_pure

private theorem keeps_skippable (member : Part) (place : Path) :
    (skippable? member place).Keeps P := by
  refine .bind member.codec.keeps_sizeNow.outcome fun found => ?_
  cases found <;> exact Run.keeps_pure

private theorem keeps_scanMembers (he : e.Steady) (isStruct : Bool) (path : Path) (i : Nat)
    (members : List Part) (slots : List Slot) (hp : ∀ p ∈ members, p.codec.Steady t) :
    (scanMembers e isStruct path i members slots).Keeps (Context.Kept base) := by
  induction members generalizing i slots with
  | nil => exact Run.keeps_pure
  | cons member rest ih =>
      have here := hp member List.mem_cons_self
      have later := fun slots => ih (i + 1) slots fun p h => hp p (List.mem_cons_of_mem member h)
      refine .bind Run.keeps_tell fun offset => Run.keeps_ite ?_ ?_
      · exact .bind (keeps_materialize he slots) fun _ =>
          .bind (keeps_scanEmbedded here offset _) fun _ => later _
      · refine .bind (keeps_skippable member _) fun size => ?_
        cases size with
        | some n =>
            exact Run.keeps_guard (.bind Run.keeps_seek fun _ => later _)
        | none =>
            exact .bind (keeps_materialize he slots) fun _ =>
              .bind (Run.keeps_kept_of_calm fun ctx => (here.parse _ ctx).tagged) fun v =>
              .bind (keeps_kept_noteItem member v) fun _ => later _

private theorem keeps_scanRecord {u : Traits} (he : e.Steady) (isStruct : Bool)
    (members : List Part)
    (path : Path) (hp : ∀ p ∈ members, p.codec.Steady u) :
    (scanRecord e isStruct members path).Keeps (Context.Calm t base) := by
  refine .bind Run.keeps_tell fun start => .bind (Run.keeps_calm_inFrame fun ctx => ?_) fun _ =>
    .bind Run.keeps_tell fun _ => .bind (keeps_snapshot start _ path) fun _ =>
    .bind (keeps_addMembers _) fun _ => Run.keeps_pure
  refine .bind ?_ fun _ => .bind Run.keeps_context fun _ => Run.keeps_pure
  refine .bind (keeps_scanMembers he isStruct path 0 members [] hp) fun slots =>
    .bind Run.keeps_tell fun _ => .bind Run.keeps_size fun _ => Run.keeps_ite ?_ Run.keeps_pure
  exact keeps_materialize he slots

theorem steady_lazyStruct (he : e.Steady) {fields : List Part}
    (hp : ∀ p ∈ fields, p.codec.Steady t.loose) : (lazyStruct e fields).Steady t :=
  Closed.steady ⟨fun _ _ => rfl, fun _ _ => rfl⟩
    (fun path _ => .bind (keeps_scanRecord he true fields path hp) fun _ => Run.keeps_pure)
    (steady_struct he hp false).build

theorem steady_lazySequence (he : e.Steady) {items : List Part}
    (hp : ∀ p ∈ items, p.codec.Steady t.loose) : (lazySequence e items).Steady t :=
  Closed.steady ⟨fun _ _ => rfl, fun _ _ => rfl⟩
    (fun path _ => .bind (keeps_scanRecord he false items path hp) fun _ => Run.keeps_pure)
    (steady_sequence he hp).build

private theorem keeps_lazyElements (p : Part) (count size : Nat) (path : Path) :
    (lazyElements p count size path).Keeps P :=
  .bind Run.keeps_tell fun start => .bind Run.keeps_size fun _ => Run.keeps_guard
    (.bind (keeps_snapshot start _ path) fun _ => .bind Run.keeps_goTo fun _ =>
      .bind Run.keeps_context fun _ => .bind (keeps_addMembers _) fun _ => Run.keeps_pure)

private theorem keeps_parsedElements (p : Part) (v : Value) (path : Path) :
    (parsedElements p v path).Keeps P :=
  .bind Run.keeps_context fun _ => .bind (keeps_addMembers _) fun _ => Run.keeps_pure

theorem steady_lazyArray (count : Expr) {p : Part} (hc : p.codec.Steady t) (moving : ¬ t.still) :
    (lazyArray e count p).Steady t := by
  have eager := steady_array (e := e) count hc moving false
  refine Closed.steady ⟨fun _ _ => rfl, fun _ _ => rfl⟩ (fun path base => ?_) eager.build
  refine .bind e.keeps_evalSize fun n => .bind p.codec.keeps_sizeNow.outcome fun found => ?_
  cases found with
  | ok size => exact keeps_lazyElements p n size path
  | error failure => exact .bind (eager.parse path base) fun v => keeps_parsedElements p v path

theorem steady_lazyRange (least most : Expr) {p : Part} (hc : p.codec.Steady t)
    (moving : ¬ t.still) : (lazyRange e least most p).Steady t := by
  have eager := steady_range (e := e) least most hc moving false
  refine Closed.steady ⟨fun _ _ => rfl, fun _ _ => rfl⟩ (fun path base => ?_) eager.build
  refine .bind (keeps_skippable p _) fun found => ?_
  cases found with
  | none => exact .bind (eager.parse path base) fun v => keeps_parsedElements p v path
  | some size =>
      exact .bind e.keeps_evalSize fun _ => .bind e.keeps_evalSize fun _ =>
        .bind Run.keeps_size fun _ => .bind Run.keeps_tell fun _ =>
        Run.keeps_guard (keeps_lazyElements p _ size path)

end Codec

end BinaryFormat
