import BinaryFormat.Proofs.Growth.Choices

/-!
# What envelopes fill

A payload is built into a buffer of its own, which is as long as the payload
then.  The buffer is copied into the stream, and the patches for it come along;
before a transformation and in a view there is none left.
-/

namespace BinaryFormat

variable {params : Record Value} {depth : Nat} {t : Traits} {base : State} {P : Nat → Prop}
  {e : Engine} {c : Codec} {j k : Option Nat} {p : Nat}

/-! ## Buffers -/

private theorem Stream.length_of_extended {s : Stream} (h : (memory []).Extended s) :
    s.data.length = s.pos := by
  cases s with
  | view v outer => cases h.source
  | medium m =>
      have bounded : m.data.length ≤ max 0 m.pos := h.bounded
      have inside : m.pos ≤ m.data.length := h.inside (Nat.le_refl 0)
      have same : m.data.length = m.pos := by omega
      exact same

/-- While something was built beside the stream, patches were queued that lie within its bytes. -/
structure State.Beside (params : Record Value) (t : Traits) (data : List UInt8)
    (s s' : State) : Prop where
  stream : s.stream.Extended s'.stream
  grown : s.context.Grows t s'.context
  queued : ∀ d ∈ s'.context.top.deferred.drop s.context.mark, d.Fits params data.length

/-- Copied into the stream, the bytes bring their patches along. -/
private theorem State.Beside.splice {data tail : List UInt8} {s s₁ s' : State} {path : Path}
    (h : s.Beside params t data s₁)
    (run : Run.splice (data ++ tail) s.context.mark path s₁ = .ok () s') :
    s.Filled params s' ∧ s'.stream.pos = s₁.stream.pos + (data ++ tail).length := by
  have growable := h.stream.growable
  obtain ⟨-, extended, pos, inside⟩ := Stream.extended_write growable (data ++ tail)
  rw [Run.splice, Run.bind_of_ok (Run.tell_apply _),
    Run.bind_of_ok (Run.write_of_growable growable _ _)] at run
  cases run
  refine ⟨⟨h.stream.trans extended, fun d mem => ?_⟩, pos⟩
  obtain ⟨new, queued, -, -⟩ := h.grown.queue
  have moved := h.queued
  dsimp only [Context.rebaseSince, Context.withDeferred] at mem
  rw [Context.take_mark queued, Context.drop_mark queued, Context.mark, List.drop_left] at mem
  rw [Context.drop_mark queued] at moved
  obtain ⟨d', mem', rfl⟩ := List.mem_map.mp mem
  have fits := moved d' mem'
  refine ⟨?_, fits.field⟩
  have within := fits.within
  rw [pos, List.length_append] at inside
  dsimp only
  omega

private theorem Engine.size_of_evalSize {x : Expr} {s s' : State} {path : Path} {n : Nat}
    (settled : x.Settled) (ruled : s.context.Ruled params depth)
    (run : e.evalSize x path s = .ok n s') :
    x.sizeIn params = some n ∧ ∃ store, s' = { s with store := store } :=
  let ⟨store, found, same⟩ := Run.lookup_eq_ok_iff.mp run
  ⟨(Expr.settles_evaluateSize settled ruled e.resolver path).of_ok found, store, same⟩

namespace Codec

open Run Sizes

/-- What is built beside the stream is as long as its size says. -/
private theorem beside_of_buildScratch (h : c.Filling params t j) {v w : Value} {path : Path}
    {data : List UInt8} {s s' : State} (ruled : s.context.Ruled params depth)
    (anchored : s.context.Anchors t path) (growable : s.stream.Growable)
    (run : c.buildScratch v path s = .ok (w, data) s') :
    s.Beside params t data s' ∧ s'.stream = s.stream ∧ Reaches j 0 data.length := by
  obtain ⟨⟨w', stream⟩, s₁, inside, last⟩ := bind_eq_ok_iff.mp run
  obtain ⟨same, rfl⟩ := pure_eq_ok_iff.mp last
  cases same
  obtain ⟨s₂, built, left, rfl⟩ := ok_of_onStream inside
  dsimp only at left built
  subst left
  obtain ⟨grown, filled, reached⟩ :=
    (h.build v path depth { s with stream := .memory [] } 0 ruled anchored).of_ok
      (.refl _) (.refl (Stream.growable_memory [])) rfl built
  have length := Stream.length_of_extended filled.stream
  refine ⟨⟨.refl growable, grown, fun d mem => ?_⟩, rfl, length ▸ reached⟩
  have fits := filled.queued d mem
  cases stream : s₂.stream with
  | view v outer =>
      have source := filled.stream.source
      rw [stream] at source
      cases source
  | medium m =>
      rw [stream] at fits
      exact fits

/-- A codec that is steady need only be known from where it starts. -/
private theorem filling_of_steady (steady : c.Steady t) (guarded : t.guarded)
    (inline : ∀ input path, c.buildInline input path = Run.fail (.misshapen .embedding) path)
    (ok : ∀ v path depth s w s', State.context s |>.Ruled params depth →
      s.context.Anchors t path → s.stream.Growable → c.build v path s = .ok w s' →
      s.Filled params s' ∧ Reaches j s.stream.pos s'.stream.pos) :
    c.Filling params t j := by
  refine filling_of inline fun v path depth base p ruled anchored =>
    fills_of_keeps (steady.build v path base.context anchored)
      fun s w s' grown filled start run => ?_
  obtain ⟨filled', reached⟩ := ok v path depth s w s' (ruled_of_grows ruled grown guarded)
    (anchored.of_grows grown) filled.stream.growable run
  have further := ((steady.build v path s.context (anchored.of_grows grown)).of_ok
    (Context.Grows.refl _) run).1
  rw [start] at reached
  exact ⟨filled.trans grown filled' further, reached⟩

/-! ### Payloads -/

theorem looks_overhead (length : Part) (inclusive : Bool) (path : Path) (s : State) :
    ((overhead length inclusive path).after s).stream = s.stream ∧
      ((overhead length inclusive path).after s).context = s.context := by
  unfold overhead
  split
  · exact (context_sizeNow length.codec path s).symm
  · exact ⟨rfl, rfl⟩

theorem filling_prefixed {length : Part} {inclusive lenient : Bool}
    (steady : (prefixed length c inclusive lenient).Steady t) (guarded : t.guarded)
    (first : length.codec.Filling params { t with free := True } j)
    (h : c.Filling params t k) :
    (prefixed length c inclusive lenient).Filling params t (plus j k) := by
  refine filling_of_steady steady guarded (fun _ _ => rfl)
    fun v path depth s w s' ruled anchored growable run => ?_
  obtain ⟨_, _, marked, run⟩ := bind_eq_ok_iff.mp run
  cases marked
  obtain ⟨⟨built, data⟩, s₁, scratch, run⟩ := bind_eq_ok_iff.mp run
  obtain ⟨extra, s₂, measured, run⟩ := bind_eq_ok_iff.mp run
  obtain ⟨_, s₃, written, run⟩ := bind_eq_ok_iff.mp run
  obtain ⟨_, s₄, spliced, last⟩ := bind_eq_ok_iff.mp run
  obtain ⟨-, rfl⟩ := pure_eq_ok_iff.mp last
  obtain ⟨beside, stream, payload⟩ :=
    beside_of_buildScratch h ruled anchored growable scratch
  obtain ⟨stream', context⟩ := looks_overhead length inclusive path s₁
  rw [Run.after, measured] at stream' context
  have grown : s.context.Grows t s₂.context := context ▸ beside.grown
  obtain ⟨further, filled, reached⟩ :=
    (first.part _ path s₂.stream.pos (ruled_of_grows ruled grown guarded)
      (fun _ => Or.inl trivial)).of_ok (.refl _) (.refl (by rwa [stream', stream])) rfl written
  obtain ⟨none, queue, -, free⟩ := further.queue
  rw [free trivial, List.append_nil] at queue
  have beside' : s.Beside params t data s₃ := by
    refine ⟨?_, grown.trans (further.mono ⟨id, id, fun _ => trivial, id⟩), ?_⟩
    · have extended := filled.stream
      rwa [stream', stream] at extended
    · rw [queue, context]
      exact beside.queued
  rw [← List.append_nil data] at spliced
  obtain ⟨filled', pos⟩ := beside'.splice spliced
  rw [List.append_nil] at pos
  refine ⟨filled', ?_⟩
  rw [stream', stream] at reached
  refine reached.trans ?_
  rw [pos]
  exact ⟨Nat.le_add_right _ _, fun n known => by rw [payload.2 n known, Nat.zero_add]⟩

theorem filling_fixedSized {length : Expr} (steady : (fixedSized e length c).Steady t)
    (guarded : t.guarded) (settled : length.Settled) (h : c.Filling params t j) :
    (fixedSized e length c).Filling params t (length.sizeIn params) := by
  refine filling_of_steady steady guarded (fun _ _ => rfl)
    fun v path depth s w s' ruled anchored growable run => ?_
  obtain ⟨n, s₁, evaluated, run⟩ := bind_eq_ok_iff.mp run
  obtain ⟨known, store, rfl⟩ := Engine.size_of_evalSize settled ruled evaluated
  obtain ⟨_, _, marked, run⟩ := bind_eq_ok_iff.mp run
  cases marked
  obtain ⟨⟨built, data⟩, s₂, scratch, run⟩ := bind_eq_ok_iff.mp run
  obtain ⟨beside, stream, -⟩ := beside_of_buildScratch (s := { s with store := store }) h ruled
    anchored growable scratch
  dsimp only at run
  split at run
  · cases run
  · rename_i fits
    obtain ⟨_, s₃, spliced, last⟩ := bind_eq_ok_iff.mp run
    obtain ⟨-, rfl⟩ := pure_eq_ok_iff.mp last
    obtain ⟨filled, pos⟩ := State.Beside.splice (s := s)
      ⟨beside.stream, beside.grown, beside.queued⟩ spliced
    refine ⟨filled, ?_⟩
    have whole : (data ++ List.replicate (n - data.length) 0).length = n := by
      rw [List.length_append, List.length_replicate]
      omega
    rw [pos, whole, known, stream]
    exact reaches_add _ n

/-! ### Selections -/

private theorem filled_of_tryBuild {tagged : Bool} {alternative : Part} {v w : Value} {path : Path}
    {s s' : State} (h : alternative.codec.Filling params t j)
    (ruled : s.context.Ruled params depth) (anchored : s.context.Anchors t path)
    (growable : s.stream.Growable) (run : tryBuild tagged alternative v path s = .ok w s') :
    s.Filled params s' ∧ Reaches j s.stream.pos s'.stream.pos := by
  obtain ⟨_, data, s₁, scratch, spliced, -⟩ := scratch_of_tryBuild run
  obtain ⟨beside, stream, reached⟩ := beside_of_buildScratch h ruled anchored growable scratch
  rw [← List.append_nil data] at spliced
  obtain ⟨filled, pos⟩ := beside.splice spliced
  rw [List.append_nil] at pos
  refine ⟨filled, ?_⟩
  rw [pos, stream]
  exact ⟨Nat.le_add_right _ _, fun n known => by rw [reached.2 n known, Nat.zero_add]⟩

/-- What fails leaves the stream to the next alternative. -/
private theorem filled_of_buildFirst {tagged : Bool} {alternatives : List Part}
    (guarded : t.guarded)
    (steady : ∀ p ∈ alternatives, p.codec.Steady t)
    (unclaimed : ∀ p ∈ alternatives, p.codec.Steady ⟨False, False, False, False⟩)
    (h : ∀ p ∈ alternatives, p.codec.Filling params t j) {v w : Value} {path : Path}
    {s s' : State} (ruled : s.context.Ruled params depth) (anchored : s.context.Anchors t path)
    (growable : s.stream.Growable)
    (run : buildFirst tagged v path alternatives s = .ok (some w) s') :
    s.Filled params s' ∧ Reaches j s.stream.pos s'.stream.pos := by
  induction alternatives generalizing s with
  | nil => cases run
  | cons alternative rest ih =>
      have here := h alternative List.mem_cons_self
      have keeps := keeps_tryBuild tagged (steady alternative List.mem_cons_self) v path anchored
      rcases tried_of_buildFirst run with tried | ⟨failure, s₁, tried, later⟩
      · exact filled_of_tryBuild here ruled anchored growable tried
      · obtain ⟨stream, -, queue, -⟩ := untouched_of_tryBuild
          (unclaimed alternative List.mem_cons_self)
          (fun _ data _ _ => (Stream.extended_write growable data).1) tried
        obtain ⟨grown, -⟩ := keeps.of_error (Context.Grows.refl _) tried
        obtain ⟨⟨extended, queued⟩, reached⟩ := ih
          (fun p mem => steady p (List.mem_cons_of_mem _ mem))
          (fun p mem => unclaimed p (List.mem_cons_of_mem _ mem))
          (fun p mem => h p (List.mem_cons_of_mem _ mem)) (ruled_of_grows ruled grown guarded)
          (anchored.of_grows grown) (by rwa [stream]) later
        rw [stream] at extended reached
        rw [Context.mark, queue] at queued
        exact ⟨⟨extended, queued⟩, reached⟩

theorem filling_select {alternatives : List Part} {knowns : List (Option Nat)} {tagged : Bool}
    (steady : ∀ p ∈ alternatives, p.codec.Steady t)
    (unclaimed : ∀ p ∈ alternatives, p.codec.Steady ⟨False, False, False, False⟩)
    (guarded : t.guarded) (h : FillingAll params t alternatives knowns) :
    (select alternatives tagged).Filling params t ((Sizes.all knowns).bind commonSize) := by
  -- If the sizes agree, each alternative fills as much; if not, nothing is known.
  have each : ∀ p ∈ alternatives,
      p.codec.Filling params t ((Sizes.all knowns).bind commonSize) := by
    intro p mem
    obtain ⟨known, among, filling⟩ := exists_of_forall₂ h mem
    refine ⟨fun v path depth base q ruled anchored =>
      (filling.build v path depth base q ruled anchored).mono (fun _ => id) fun _ _ reached =>
        reached.mono fun n common => Sizes.eq_of_common common known among,
      fun input path depth base q ruled =>
        (filling.buildInline input path depth base q ruled).mono (fun _ => id) fun _ _ reached =>
          reached.mono fun n common => Sizes.eq_of_common common known among⟩
  refine filling_of_steady (steady_select steady tagged) guarded (fun _ _ => rfl)
    fun v path depth s w s' ruled anchored growable run => ?_
  rcases attempt_of_select run with ⟨p, inner, -, named, tried⟩ | ⟨-, first⟩
  · exact filled_of_tryBuild (each p (mem_of_namedAlternative named)) ruled anchored growable tried
  · exact filled_of_buildFirst guarded steady unclaimed each ruled anchored growable first

/-! ### Transformations -/

private theorem fills_applyTransform (transform : Transform) {inverse : Bool} {data : List UInt8}
    {path : Path} :
    (applyTransform e inverse data path transform).Fills params t base P fun _ => P := by
  cases transform with
  | reverseBytes => exact fills_pure fun _ => id
  | reverseBits => exact fills_pure fun _ => id
  | xor key =>
      refine .bind (Q := fun _ => P) ?_ fun _ => fills_pure fun _ => id
      refine .bind e.fills_eval fun v => ?_
      split
      · exact fills_ite (fun _ => fills_pure fun _ => id) fun _ => fills_fail
      · exact fills_ite (fun _ => fills_fail) fun _ => fills_pure fun _ => id
      · exact fills_fail
  | rotateLeft amount group =>
      refine fills_guard fun _ => .bind (Q := fun _ => P) (fun s => ?_) fun _ =>
        fills_pure fun _ => id
      exact fills_lookup (x := amount.evaluateSize e.resolver s.context.scope path) s

private theorem fills_evalExtent (h : c.Measured params j) {extent : Extent}
    (settled : ∀ x, extent = .fixed x → x.Settled) (bounded : extent ≠ .toEnd)
    (guarded : t.guarded) (ruled : base.context.Ruled params depth) {path : Path} :
    (evalExtent e extent c path).Fills params t base P
      fun found q => (∃ n, found = some n ∧ ∀ m, extentSize params j extent = some m → n = m) ∧
        P q := by
  cases extent with
  | ofChild =>
      exact fills_yields ruled guarded (x := fun ctx => c.size ctx path)
        (fun ctx ruled => h depth ctx path ruled)
        fun n known => fills_pure fun _ start => ⟨⟨n, rfl, known⟩, start⟩
  | toEnd => exact absurd rfl bounded
  | fixed x =>
      exact e.fills_evalSize (settled x rfl) ruled guarded fun n known => fills_pure fun _ start =>
        ⟨⟨n, rfl, fun m same => Option.some.inj (known.symm.trans same)⟩, start⟩

private theorem filled_of_buildResolved (he : e.Steady) (fills : e.Filling params)
    (guarded : t.guarded)
    (moving : ¬ t.still) (h : c.Filling params t.strict j) {v w : Value} {path : Path}
    {s s' : State} (ruled : s.context.Ruled params depth) (anchored : s.context.Anchors t path)
    (growable : s.stream.Growable)
    (run : (do
      let built ← c.build v path
      e.resolveSince s.context.mark true
      return built) s = .ok w s') :
    s.stream.Extended s'.stream ∧ s.context.Grows t s'.context ∧
      s'.context.top.deferred = s.context.top.deferred ∧
      Reaches j s.stream.pos s'.stream.pos := by
  obtain ⟨built, s₁, made, run⟩ := bind_eq_ok_iff.mp run
  obtain ⟨_, s₂, resolved, last⟩ := bind_eq_ok_iff.mp run
  obtain ⟨-, rfl⟩ := pure_eq_ok_iff.mp last
  obtain ⟨grown, filled, reached⟩ := (h.build v path depth s _ ruled anchored.strict).of_ok
    (.refl _) (.refl growable) rfl made
  obtain ⟨grown', filled', there⟩ := (Engine.fills_resolveSince (t := t.strict) he fills true
    ruled guarded moving (Or.inl Or.inl)).of_ok grown filled rfl resolved
  refine ⟨filled'.stream, grown'.mono t.within_strict,
    Engine.queue_of_resolveSince (t := t.strict) he (Or.inl guarded) moving grown resolved, ?_⟩
  rwa [there] at reached

theorem filling_transformed {transform : Transform} {extent : Extent}
    (steady : (transformed e c transform extent).Steady t) (he : e.Steady)
    (fills : e.Filling params) (guarded : t.guarded) (moving : ¬ t.still)
    (settled : ∀ x, extent = .fixed x → x.Settled) (bounded : extent ≠ .toEnd)
    (sized : c.Measured params j) (h : c.Filling params t.strict j) :
    (transformed e c transform extent).Filling params t (extentSize params j extent) := by
  refine filling_of_steady steady guarded (fun _ _ => rfl)
    fun v path depth s w s' ruled anchored growable run => ?_
  obtain ⟨_, _, marked, run⟩ := bind_eq_ok_iff.mp run
  cases marked
  obtain ⟨⟨built, scratch⟩, s₁, beside, run⟩ := bind_eq_ok_iff.mp run
  obtain ⟨s₂, made, -, rfl⟩ := ok_of_onStream beside
  obtain ⟨-, grown, queue, -⟩ := filled_of_buildResolved
    (s := { s with stream := .memory [] }) he fills guarded moving h ruled anchored
    (Stream.growable_memory []) made
  suffices rest : Fills params t s (· = s.stream.pos) (fun _ => Reaches _ s.stream.pos) _ from
    (rest.of_ok (s := { s₂ with stream := s.stream }) grown
      (State.Filled.same (.refl growable) rfl queue) rfl run).2
  refine .bind (fills_applyTransform transform) fun encoded =>
    .bind (fills_evalExtent sized settled bounded guarded ruled) fun found =>
      fills_assuming fun known => ?_
  obtain ⟨n, rfl, same⟩ := known
  exact fills_guard fun fits => (fills_units rfl (not_not.mp fits)).mono (fun _ => id)
    fun _ _ reached => reached.mono fun m known => congrArg some (same m known)

/-! ### Views -/

private theorem filled_of_inView {r : Recoding} (he : e.Steady) (fills : e.Filling params)
    (guarded : t.guarded) (moving : ¬ t.still) (h : c.Filling params t.strict j) {v w : Value}
    {path : Path} {s s' : State} (ruled : s.context.Ruled params depth)
    (anchored : s.context.Anchors t path) (growable : s.stream.Growable)
    (run : inView r path (do
      let built ← c.build v path
      e.resolveSince s.context.mark true
      return built) s = .ok w s') :
    s.Filled params s' ∧ Reaches (j.bind (recodedSize r)) s.stream.pos s'.stream.pos := by
  unfold inView at run
  dsimp only at run
  split at run
  · rename_i built s₁ inside
    obtain ⟨extended, -, queue, reached⟩ := filled_of_buildResolved
      (s := { s with stream := s.stream.viewed r }) he fills guarded moving h ruled anchored
      (growable.viewed r) inside
    have flushed := Stream.extended_finish growable extended
    rcases left : s₁.stream.finish with ⟨_ | fault, outer⟩
    · rw [left] at run flushed
      cases run
      obtain ⟨further, whole, pos⟩ := flushed rfl
      refine ⟨State.Filled.extended (.refl growable) further queue, ?_⟩
      dsimp only at pos ⊢
      rw [pos]
      refine ⟨Nat.le_add_right _ _, fun n known => ?_⟩
      obtain ⟨units, same, size⟩ := Option.bind_eq_some_iff.mp known
      have passed : s₁.stream.pos = units := (reached.2 units same).trans (Nat.zero_add _)
      rw [passed] at whole ⊢
      rw [recodedSize, if_neg (not_not.mpr whole)] at size
      rw [Option.some.inj size]
    · rw [left] at run
      cases run
  · cases run

theorem filling_recoded {r : Recoding} {checked : Bool}
    (steady : (recoded e c r checked).Steady t) (he : e.Steady) (fills : e.Filling params)
    (guarded : t.guarded) (moving : ¬ t.still) (h : c.Filling params t.strict j) :
    (recoded e c r checked).Filling params t (j.bind (recodedSize r)) := by
  refine filling_of_steady steady guarded (fun _ _ => rfl)
    fun v path depth s w s' ruled anchored growable run => ?_
  cases checked with
  | false => exact filled_of_inView he fills guarded moving h ruled anchored growable run
  | true =>
      obtain ⟨_, s₁, entered, run⟩ := bind_eq_ok_iff.mp run
      obtain ⟨pos, s₂, told, entered⟩ := bind_eq_ok_iff.mp entered
      cases told
      split at entered
      · cases entered
      · cases entered
        exact filled_of_inView he fills guarded moving h ruled anchored growable run

end Codec

end BinaryFormat
