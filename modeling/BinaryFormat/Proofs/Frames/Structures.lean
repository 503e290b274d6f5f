import BinaryFormat.Codec.Structure
import BinaryFormat.Proofs.Frames.Components

/-!
# Frames around structures

A structure works on a frame of its own: what its members note there is gone
once it is left, and the patches that they queued move to the frame below.
Repeaters note the index of the element at hand in the frame around them.
-/

namespace BinaryFormat

namespace Codec

variable {e : Engine} {t : Traits} {c : Codec} {base : Context} {P : Context → Prop}

/-! ## Envelopes -/

theorem keeps_overhead (length : Part) (inclusive : Bool) (path : Path) :
    (overhead length inclusive path).Keeps P :=
  Run.keeps_ite length.codec.keeps_sizeNow Run.keeps_pure

theorem steady_prefixed (length : Part) (hl : length.codec.Steady t) (hc : c.Steady t)
    (inclusive lenient : Bool) : (prefixed length c inclusive lenient).Steady t := by
  refine Closed.steady ⟨fun _ _ => rfl, fun _ _ => rfl⟩ (fun path base => ?_)
    fun v path base anchored => ?_
  · refine .bind (hl.parse path base).tagged fun stored => ?_
    cases stored.int? with
    | none => exact Run.keeps_fail
    | some stored =>
        exact .bind (keeps_overhead length inclusive path) fun _ => Run.keeps_guard
          (.bind Run.keeps_read fun _ => .bind (keeps_parseSlice (hc.parse path base)) fun _ =>
            Run.keeps_guard Run.keeps_pure)
  · refine Run.keeps_mark (.refl t) fun ctx grown => ?_
    have here := anchored.of_grows grown
    exact .bind (keeps_buildScratch (hc.build v path ctx here)) fun _ =>
      .bind (keeps_overhead length inclusive path) fun _ =>
      .bind (hl.build _ path ctx here).tagged fun _ => .bind Run.keeps_splice fun _ =>
      Run.keeps_pure

theorem steady_fixedSized (length : Expr) (hc : c.Steady t) :
    (fixedSized e length c).Steady t := by
  refine Closed.steady ⟨fun _ _ => rfl, fun _ _ => rfl⟩ (fun path base => ?_)
    fun v path base anchored => ?_
  · exact .bind e.keeps_evalSize fun _ => .bind Run.keeps_read fun _ =>
      .bind (keeps_parseSlice (hc.parse path base)) fun _ => Run.keeps_pure
  · refine .bind e.keeps_evalSize fun n => Run.keeps_mark (.refl t) fun ctx grown => ?_
    refine .bind (keeps_buildScratch (hc.build v path ctx (anchored.of_grows grown))) fun made => ?_
    have rest : (Run.splice (made.2 ++ List.replicate (n - made.2.length) 0) ctx.mark path >>=
        fun _ => pure made.1).Keeps (Context.Grows t ctx) :=
      .bind Run.keeps_splice fun _ => Run.keeps_pure
    refine Run.keeps_ite ?_ rest
    exact .bind Run.keeps_discard fun _ => .bind Run.keeps_fail fun _ => rest

private theorem keeps_readDelimited (d : Delimiter) (path : Path) (more : Nat) (data : List UInt8) :
    (readDelimited d path more data).Keeps P := by
  induction more generalizing data with
  | zero => exact Run.keeps_fail
  | succ more ih =>
      refine .bind Run.keeps_size fun _ => .bind Run.keeps_tell fun _ => ?_
      refine Run.keeps_ite (.bind Run.keeps_readAll fun _ => Run.keeps_pure) ?_
      refine .bind Run.keeps_read.outcome fun found => ?_
      cases found with
      | error failure =>
          dsimp only
          split
          · exact Run.keeps_fail
          · exact Run.keeps_throw
      | ok chunk =>
          refine Run.keeps_ite (Run.keeps_ite ?_ Run.keeps_pure) (ih _)
          exact .bind Run.keeps_seek fun _ => Run.keeps_pure

theorem steady_delimited (hc : c.Steady t) (d : Delimiter) : (delimited c d).Steady t := by
  refine Closed.steady ⟨fun _ _ => rfl, fun _ _ => rfl⟩ (fun path base => ?_)
    fun v path base anchored => ?_
  · refine Run.keeps_guard (.bind Run.keeps_available fun _ => ?_)
    exact .bind (keeps_readDelimited d path _ _) fun _ =>
      .bind (keeps_parseSlice (hc.parse path base)) fun _ => Run.keeps_pure
  · exact .bind (hc.build v path base anchored) fun _ => .bind Run.keeps_write fun _ =>
      Run.keeps_pure

theorem steady_stripped (hc : c.Steady t) (pad : List UInt8) : (stripped c pad).Steady t :=
  Closed.steady ⟨fun _ _ => rfl, fun _ _ => rfl⟩
    (fun path base => .bind Run.keeps_readAll fun _ =>
      .bind (keeps_parseSlice (hc.parse path base)) fun _ => Run.keeps_pure)
    hc.build

theorem keeps_copySince (offset : Nat) (path : Path) : (copySince offset path).Keeps P :=
  .bind Run.keeps_tell fun _ => .bind Run.keeps_goTo fun _ => Run.keeps_read

theorem steady_rawCopy {p : Part} (hc : p.codec.Steady t) : (rawCopy e p).Steady t := by
  refine Closed.steady ⟨fun _ _ => rfl, fun _ _ => rfl⟩ (fun path base => ?_)
    fun v path base anchored => ?_
  · exact .bind Run.keeps_tell fun start => .bind (hc.parse path base).tagged fun _ =>
      .bind Run.keeps_tell fun _ => .bind (keeps_copySince start path) fun _ => Run.keeps_pure
  · refine .bind e.keeps_containerInput fun input => .bind Run.keeps_tell fun start =>
      Run.keeps_ite ?_ ?_
    · exact .bind (hc.build _ path base anchored).tagged fun _ => .bind Run.keeps_tell fun _ =>
        .bind (keeps_copySince start path) fun _ => Run.keeps_pure
    · cases (input.get? "data").bind Value.bytes? with
      | none => exact Run.keeps_fail
      | some data =>
          refine .bind Run.keeps_write fun _ => .bind Run.keeps_tell fun _ => .bind ?_ fun _ =>
            Run.keeps_pure
          exact keeps_parseSlice (Run.keeps_grows_of_calm fun ctx => hc.parse path ctx)

private theorem keeps_evalXorKey (key : Expr) (path : Path) : (evalXorKey e key path).Keeps P := by
  refine .bind e.keeps_eval fun v => ?_
  cases v with
  | int k => exact Run.keeps_ite Run.keeps_pure Run.keeps_fail
  | bytes k => exact Run.keeps_ite Run.keeps_fail Run.keeps_pure
  | _ => exact Run.keeps_fail

private theorem keeps_applyTransform (inverse : Bool) (data : List UInt8) (path : Path)
    (transform : Transform) : (applyTransform e inverse data path transform).Keeps P := by
  cases transform with
  | reverseBytes => exact Run.keeps_pure
  | reverseBits => exact Run.keeps_pure
  | xor key => exact .bind (keeps_evalXorKey key path) fun _ => Run.keeps_pure
  | rotateLeft amount group =>
      exact Run.keeps_guard (.bind e.keeps_evalSize fun _ => Run.keeps_pure)

private theorem keeps_evalExtent (extent : Extent) (of : Codec) (path : Path) :
    (evalExtent e extent of path).Keeps P := by
  cases extent with
  | ofChild => exact .bind of.keeps_sizeNow fun _ => Run.keeps_pure
  | toEnd => exact Run.keeps_pure
  | fixed n => exact .bind e.keeps_evalSize fun _ => Run.keeps_pure

private theorem keeps_buildResolved (he : e.Steady) (hc : c.Steady t.strict)
    (moving : t.still → t.free) (v : Value) (path : Path) {base : Context}
    (anchored : base.Anchors t.strict path) :
    Run.Keeps (Context.Grows t.strict base) (do
      let built ← c.build v path
      e.resolveSince base.mark true
      return built) :=
  .bind (hc.build v path base anchored) fun _ =>
    .bind (Engine.keeps_resolveSince he true moving (Or.inl Or.inl)) fun _ => Run.keeps_pure

theorem steady_transformed (he : e.Steady) (hc : c.Steady t.strict) (moving : t.still → t.free)
    (transform : Transform) (extent : Extent) : (transformed e c transform extent).Steady t := by
  refine Closed.steady ⟨fun _ _ => rfl, fun _ _ => rfl⟩ (fun path base => ?_)
    fun v path base anchored => ?_
  · have rest : ∀ data, Run.Keeps (Context.Calm t base) (do
        let decoded ← applyTransform e false data path transform
        return (← c.parseSlice decoded path).1) :=
      fun data => .bind (keeps_applyTransform false data path transform) fun _ =>
        .bind (keeps_parseSlice (Run.keeps_of_start (hc.parse path) Context.Calm.refl
          fun _ _ calm more => calm.trans (more.mono t.within_strict))) fun _ => Run.keeps_pure
    refine .bind (keeps_evalExtent extent c path) fun size => ?_
    cases size with
    | some n => exact .bind Run.keeps_read rest
    | none => exact .bind Run.keeps_readAll rest
  · refine Run.keeps_mark t.within_strict fun ctx grown => ?_
    have made := keeps_buildResolved he hc moving v path (anchored.of_grows grown).strict
    refine .bind (made.onStream _) fun built => .bind (keeps_applyTransform _ _ path _)
      fun encoded => .bind (keeps_evalExtent extent c path) fun size => ?_
    have rest : (Run.write encoded path >>= fun _ => pure built.1).Keeps
        (Context.Grows t.strict ctx) := .bind Run.keeps_write fun _ => Run.keeps_pure
    cases size with
    | none => exact rest
    | some n => exact Run.keeps_guard rest

private theorem keeps_checkEntry (recoding : Recoding) (path : Path) :
    (checkEntry recoding path).Keeps P :=
  .bind Run.keeps_tell fun _ => Run.keeps_ite Run.keeps_fail Run.keeps_pure

theorem steady_recoded (he : e.Steady) (hc : c.Steady t.strict) (moving : t.still → t.free)
    (recoding : Recoding) (checked : Bool) : (recoded e c recoding checked).Steady t := by
  refine Closed.steady ⟨fun _ _ => rfl, fun _ _ => rfl⟩ (fun path base => ?_)
    fun v path base anchored => ?_
  · have inside : (c.parse path).Keeps (Context.Calm t base) :=
      Run.keeps_of_start (hc.parse path) Context.Calm.refl
        fun _ _ calm more => calm.trans (more.mono t.within_strict)
    exact Run.keeps_ite (.bind (keeps_checkEntry recoding path) fun _ =>
      inside.inView recoding path)
      (inside.inView recoding path)
  · have rest : Run.Keeps (Context.Grows t base) (do
        let mark ← Run.mark
        inView recoding path do
          let built ← c.build v path
          e.resolveSince mark true
          return built) :=
      Run.keeps_mark t.within_strict fun ctx grown => (keeps_buildResolved he hc moving v path
        (anchored.of_grows grown).strict).inView recoding path
    exact Run.keeps_ite (.bind (keeps_checkEntry recoding path) fun _ => rest) rest

/-! ## Structures -/

theorem keeps_kept_insertInline {name : String} {value : Value} {overwrite : Bool} {path : Path} :
    (Run.insertInline name value overwrite path).Keeps (Context.Kept base) :=
  .bind Run.keeps_context fun _ => Run.keeps_guard Run.keeps_kept_insert

/-- What is noted in the innermost frame leaves the other frames alone. -/
theorem keeps_parseFields (overwrite inlined : Bool) (path : Path) (fields : List Part)
    (hp : ∀ p ∈ fields, p.codec.Steady t) :
    (parseFields overwrite inlined path fields).Keeps (Context.Kept base) := by
  induction fields with
  | nil => exact Run.keeps_pure
  | cons field rest ih =>
      have here := hp field List.mem_cons_self
      have later := ih fun p h => hp p (List.mem_cons_of_mem field h)
      have parsed : ∀ path, (field.parse path).Keeps (Context.Kept base) := fun path =>
        Run.keeps_kept_of_calm fun ctx => (here.parse path ctx).tagged
      unfold parseFields
      refine Run.keeps_ite (.bind (here.parseInline path overwrite base) fun _ => later) ?_
      cases field.name? with
      | none => exact .bind (parsed path) fun _ => later
      | some name =>
          refine .bind (parsed _) fun value => Run.keeps_ite ?_ ?_
          · exact .bind keeps_kept_insertInline fun _ => later
          · exact .bind Run.keeps_kept_insert fun _ => later

theorem keeps_fieldInput (input : Record Value) (field : Part) (name : String) (path : Path) :
    (fieldInput input field name path).Keeps P := by
  unfold fieldInput
  cases Record.get? input name with
  | none => exact Run.keeps_ite Run.keeps_pure Run.keeps_fail
  | some v => exact Run.keeps_pure

theorem keeps_buildFields (input : Record Value) (path : Path) (fields : List Part)
    (hp : ∀ p ∈ fields, p.codec.Steady t.loose) (inner : base.below ≠ []) :
    (buildFields input path fields).Keeps (Context.Grows t.loose base) := by
  induction fields with
  | nil => exact Run.keeps_pure
  | cons field rest ih =>
      have here := hp field List.mem_cons_self
      have later := ih fun p h => hp p (List.mem_cons_of_mem field h)
      have built := fun v path =>
        (here.build v path base (Context.anchors_inside inner path)).tagged
      unfold buildFields
      refine Run.keeps_ite (.bind (here.buildInline input path base inner) fun _ => later) ?_
      cases field.name? with
      | none => exact .bind (built _ path) fun _ => later
      | some name =>
          exact .bind (keeps_fieldInput input field name _) fun value => .bind (built value _)
            fun w => .bind (Run.keeps_grows_insert inner) fun _ => later

theorem steady_struct (he : e.Steady) {fields : List Part}
    (hp : ∀ p ∈ fields, p.codec.Steady t.loose) (overwrite : Bool) :
    (struct e fields overwrite).Steady t where
  parse path _ := .bind (Run.keeps_calm_inFrame fun _ =>
    keeps_parseFields overwrite false path fields hp) fun _ => Run.keeps_pure
  build _ path _ _ := .bind e.keeps_containerInput fun input =>
    .bind (Run.keeps_grows_inFrame fun _ inner fresh =>
      .bind (keeps_buildFields input path fields hp inner) fun _ =>
        Engine.keeps_resolvePending he inner fresh) fun _ => Run.keeps_pure
  parseInline path overwrite _ := keeps_parseFields overwrite true path fields hp
  buildInline input path _ inner := keeps_buildFields input path fields hp inner

theorem keeps_kept_noteItem (item : Part) (value : Value) :
    (noteItem item value).Keeps (Context.Kept base) := by
  unfold noteItem
  cases item.name? with
  | none => exact Run.keeps_pure
  | some name => exact Run.keeps_kept_insert

private theorem keeps_grows_noteItem (item : Part) (value : Value) (inner : base.below ≠ []) :
    (noteItem item value).Keeps (Context.Grows t.loose base) := by
  unfold noteItem
  cases item.name? with
  | none => exact Run.keeps_pure
  | some name => exact Run.keeps_grows_insert inner

private theorem keeps_parseItems (path : Path) (i : Nat) (items : List Part)
    (hp : ∀ p ∈ items, p.codec.Steady t) :
    (parseItems path i items).Keeps (Context.Kept base) := by
  induction items generalizing i with
  | nil => exact Run.keeps_pure
  | cons item rest ih =>
      have here := hp item List.mem_cons_self
      have later := ih (i + 1) fun p h => hp p (List.mem_cons_of_mem item h)
      exact .bind (Run.keeps_kept_of_calm fun ctx => (here.parse _ ctx).tagged) fun value =>
        .bind (keeps_kept_noteItem item value) fun _ => .bind later fun _ => Run.keeps_pure

theorem keeps_buildItems (path : Path) (i : Nat) (pairs : List (Part × Value))
    (hp : ∀ pair ∈ pairs, pair.1.codec.Steady t.loose) (inner : base.below ≠ []) :
    (buildItems path i pairs).Keeps (Context.Grows t.loose base) := by
  induction pairs generalizing i with
  | nil => exact Run.keeps_pure
  | cons pair rest ih =>
      obtain ⟨item, value⟩ := pair
      have here := hp (item, value) List.mem_cons_self
      have later := ih (i + 1) fun p h => hp p (List.mem_cons_of_mem _ h)
      exact .bind (here.build value _ base (Context.anchors_inside inner _)).tagged fun built =>
        .bind (keeps_grows_noteItem item built inner) fun _ => .bind later fun _ => Run.keeps_pure

private theorem keeps_buildFrame (he : e.Steady) (values : Record Value) (path : Path)
    (pairs : List (Part × Value)) (hp : ∀ pair ∈ pairs, pair.1.codec.Steady t.loose) :
    (Run.inFrame values do
      let built ← buildItems path 0 pairs
      e.resolvePending
      return built).Keeps (Context.Grows t base) :=
  Run.keeps_grows_inFrame fun _ inner fresh => .bind (keeps_buildItems path 0 pairs hp inner)
    fun _ => .bind (Engine.keeps_resolvePending he inner fresh) fun _ => Run.keeps_pure

theorem steady_sequence (he : e.Steady) {items : List Part}
    (hp : ∀ p ∈ items, p.codec.Steady t.loose) : (sequence e items).Steady t := by
  refine Closed.steady ⟨fun _ _ => rfl, fun _ _ => rfl⟩ (fun path base => ?_)
    fun v path base _ => ?_
  · exact .bind (Run.keeps_calm_inFrame fun _ => keeps_parseItems path 0 items hp) fun _ =>
      Run.keeps_pure
  · refine .bind e.keeps_listInput fun input => Run.keeps_guard ?_
    exact .bind (keeps_buildFrame he _ path _ fun pair h => hp _ (List.of_mem_zip h).1) fun _ =>
      Run.keeps_pure

theorem keeps_focusIndex (focus : Selector) (items : List Part) (path : Path) :
    (focusIndex focus items path).Keeps P := by
  unfold focusIndex
  cases Select.index? focus items with
  | none => exact Run.keeps_fail
  | some i => exact Run.keeps_pure

theorem steady_focused (he : e.Steady) (focus : Selector) {items : List Part}
    (hp : ∀ p ∈ items, p.codec.Steady t.loose) : (focused e focus items).Steady t := by
  refine Closed.steady ⟨fun _ _ => rfl, fun _ _ => rfl⟩ (fun path base => ?_)
    fun v path base _ => ?_
  · exact .bind (keeps_focusIndex focus items path) fun _ =>
      .bind (Run.keeps_calm_inFrame fun _ => keeps_parseItems path 0 items hp) fun _ =>
      Run.keeps_pure
  · refine .bind (keeps_focusIndex focus items path) fun i => ?_
    refine .bind (keeps_buildFrame he _ path _ fun pair h => ?_) fun _ => Run.keeps_pure
    obtain ⟨⟨item, j⟩, member, rfl⟩ := List.mem_map.mp h
    exact hp item (List.fst_mem_of_mem_zipIdx member)

end Codec

end BinaryFormat
