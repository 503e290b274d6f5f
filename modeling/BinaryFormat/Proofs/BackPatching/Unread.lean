import BinaryFormat.Format.Meaning
import BinaryFormat.Proofs.BackPatching.Abreast
import BinaryFormat.Proofs.Locality
import BinaryFormat.Proofs.MildFormats

/-!
# Components that do not read what differs

A component uses the frames around it for the values of its expressions alone.  Where these are
the same over two stacks of frames, parsing, building and sizing it are the same over both, and
leave the frames around as they were.
-/

namespace BinaryFormat

open Run (InStep inStep_pure inStep_fail inStep_throw_bind inStep_check inStep_ite inStep_guard
  inStep_lookup inStep_dump inStep_lookupIn inStep_tell inStep_goTo inStep_read inStep_write
  inStep_mark inStep_discard inStep_splice inStep_entered inStep_insert inStep_resolvePending)

private theorem Value.eagerFields_nil : EagerFields [] := trivial

/-- As a size, the expression is the same over both stacks of frames. -/
def Expr.SameSize (e : Engine) (frames frames' : List (Record Value)) (x : Expr) : Prop :=
  ∀ path, x.evaluateSize e.resolver ⟨frames, none, none⟩ path =
    x.evaluateSize e.resolver ⟨frames', none, none⟩ path

variable {offset : Nat} {stored : List UInt8} {ctx ctx' : Context} {e : Engine}

/-! ## Inputs and sizes -/

namespace Engine

private theorem inStep_evalSize {x : Expr} (same : x.SameSize e ctx.frames ctx'.frames)
    (path : Path) :
    InStep (fun _ => True) (State.Abreast offset stored (Context.These ctx ctx'))
      (e.evalSize x path) (e.evalSize x path) :=
  inStep_lookupIn (z := fun ctx => x.evaluateSize e.resolver ctx.scope path)
    (by rintro _ _ ⟨rfl, rfl⟩; exact same path) fun _ _ _ _ _ => trivial

private theorem staticSize_congr {x : Expr} (same : x.SameSize e ctx.frames ctx'.frames)
    (path : Path) :
    e.staticSize x ctx path = e.staticSize x ctx' path := by
  have same : x.evaluateSize e.resolver ctx.scope path =
      x.evaluateSize e.resolver ctx'.scope path := same path
  rw [staticSize, staticSize, same]

variable {C : Context → Context → Prop}

theorem inStep_containerInput {v : Value} (eager : v.Eager) (path : Path) :
    InStep Value.EagerFields (State.Abreast offset stored C) (e.containerInput v path)
      (e.containerInput v path) := by
  cases v with
  | container fields => exact inStep_pure eager
  | flags fields => exact inStep_pure eager
  | none => exact inStep_pure trivial
  | lazyContainer handle names => exact eager.elim
  | _ => exact inStep_fail _ _

theorem inStep_listInput {v : Value} (eager : v.Eager) (path : Path) :
    InStep Value.EagerItems (State.Abreast offset stored C) (e.listInput v path)
      (e.listInput v path) := by
  cases v with
  | list items => exact inStep_pure eager
  | bytes data => exact inStep_pure (Value.eagerItems_ofBytes data)
  | lazyList handle length => exact eager.elim
  | _ => exact inStep_fail _ _

end Engine

/-! ## Components -/

namespace Codec

/-- The component is the same over both stacks of frames and leaves them as they are; what it
yields has no lazy part. -/
structure Unaware (frames frames' : List (Record Value)) (c : Codec) : Prop where
  parse : ∀ {offset stored ctx ctx'}, ctx.frames = frames → ctx'.frames = frames' → ∀ path,
    InStep Value.Eager (State.Abreast offset stored (Context.These ctx ctx')) (c.parse path)
      (c.parse path)
  build : ∀ {offset stored ctx ctx'}, ctx.frames = frames → ctx'.frames = frames' →
    ∀ {v}, v.Eager → ∀ path,
      InStep Value.Eager (State.Abreast offset stored (Context.These ctx ctx')) (c.build v path)
        (c.build v path)
  size : ∀ {ctx ctx' : Context}, ctx.frames = frames → ctx'.frames = frames' → ∀ path,
    c.size ctx path = c.size ctx' path

variable {frames frames' : List (Record Value)} {c : Codec} {p : Part}

section

variable (h : c.Unaware frames frames') (here : ctx.frames = frames) (there : ctx'.frames = frames')
include h here there

private theorem Unaware.parseSlice (data : List UInt8) (path : Path) :
    InStep (fun result => result.1.Eager) (State.Abreast offset stored (Context.These ctx ctx'))
      (c.parseSlice data path) (c.parseSlice data path) :=
  ((h.parse here there path).onStream data).bind fun _ eager => inStep_pure eager

private theorem Unaware.buildScratch {v : Value} (eager : v.Eager) (path : Path) :
    InStep (fun result => result.1.Eager) (State.Abreast offset stored (Context.These ctx ctx'))
      (c.buildScratch v path) (c.buildScratch v path) :=
  ((h.build here there eager path).onStream []).bind fun _ eager => inStep_pure eager

private theorem Unaware.sizeNow (path : Path) :
    InStep (fun _ => True) (State.Abreast offset stored (Context.These ctx ctx')) (c.sizeNow path)
      (c.sizeNow path) :=
  inStep_lookupIn (z := fun ctx => c.size ctx path)
    (by rintro _ _ ⟨rfl, rfl⟩; exact h.size here there path) fun _ _ _ _ _ => trivial

end

/-! ### Numbers, byte strings and constants -/

private theorem unaware_bytes {length : Expr} (same : length.SameSize e frames frames') :
    (bytes e length).Unaware frames frames' where
  parse := by
    rintro offset stored ctx ctx' rfl rfl path
    exact (Engine.inStep_evalSize same path).bind fun n _ => (inStep_read n path).bind fun _ _ =>
      inStep_pure trivial
  build := by
    rintro offset stored ctx ctx' rfl rfl v eager path
    refine (Engine.inStep_evalSize same path).bind fun n _ => ?_
    cases v with
    | bytes data =>
        exact inStep_guard fun _ => (inStep_write data path).bind fun _ _ => inStep_pure trivial
    | _ => exact inStep_fail _ _
  size := by
    rintro ctx ctx' rfl rfl path
    exact Engine.staticSize_congr same path

private theorem unaware_integer {width : Expr} (same : width.SameSize e frames frames')
    (signed : Bool)
    (endian : Endian) : (integer e width signed endian).Unaware frames frames' where
  parse := by
    rintro offset stored ctx ctx' rfl rfl path
    exact (Engine.inStep_evalSize same path).bind fun n _ =>
      (inStep_check path _).bind fun _ _ =>
        (inStep_read n path).bind fun _ _ =>
          (inStep_check path _).bind fun _ _ =>
            inStep_pure trivial
  build := by
    rintro offset stored ctx ctx' rfl rfl v eager path
    exact (Engine.inStep_evalSize same path).bind fun n _ =>
      (inStep_check path _).bind fun _ _ =>
        (inStep_check path _).bind fun _ _ =>
          (inStep_check path _).bind fun _ _ =>
            (inStep_write _ path).bind fun _ _ => inStep_pure trivial
  size := by
    rintro ctx ctx' rfl rfl path
    exact Engine.staticSize_congr same path

private theorem unaware_constant (h : c.Unaware frames frames') {value : Value}
    (eager : value.Eager) :
    (constant e c value).Unaware frames frames' where
  parse := by
    rintro offset stored ctx ctx' rfl rfl path
    refine (h.parse rfl rfl path).bind fun found clear => ?_
    have equal : InStep (fun _ => True) (State.Abreast offset stored (Context.These ctx ctx'))
        (e.equal found value) (e.equal found value) := inStep_lookup fun _ _ _ _ => trivial
    refine equal.bind fun same _ => inStep_ite (fun _ => ?_) fun _ => inStep_pure clear
    exact (inStep_dump value).bind fun _ _ => (inStep_dump found).bind fun _ _ =>
      inStep_throw_bind _ _ _
  build := by
    rintro offset stored ctx ctx' rfl rfl v _ path
    exact h.build rfl rfl eager path
  size := h.size

/-! ### Payloads -/

theorem inStep_overhead (h : p.codec.Unaware frames frames') (here : ctx.frames = frames)
    (there : ctx'.frames = frames') (inclusive : Bool) (path : Path) :
    InStep (fun _ => True) (State.Abreast offset stored (Context.These ctx ctx'))
      (overhead p inclusive path) (overhead p inclusive path) :=
  inStep_ite (fun _ => h.sizeNow here there path) fun _ => inStep_pure trivial

private theorem unaware_prefixed (h : p.codec.Unaware frames frames')
    (h' : c.Unaware frames frames')
    (inclusive lenient : Bool) : (prefixed p c inclusive lenient).Unaware frames frames' where
  parse := by
    rintro offset stored ctx ctx' rfl rfl path
    refine (h.parse rfl rfl path).tagged.bind fun stored _ => ?_
    cases stored.int? with
    | none => exact inStep_fail _ _
    | some n =>
        refine (inStep_overhead h rfl rfl inclusive path).bind fun _ _ => inStep_guard fun _ =>
          (inStep_read _ path).bind fun data _ => (h'.parseSlice rfl rfl data path).bind
            fun _ eager => inStep_guard fun _ => inStep_pure eager
  build := by
    rintro offset stored ctx ctx' rfl rfl v eager path
    refine inStep_mark ((h'.buildScratch rfl rfl eager path).bind fun scratch clear =>
      (inStep_overhead h rfl rfl inclusive path).bind fun _ _ =>
        (h.build rfl rfl ?_ path).tagged.bind fun _ _ =>
          (inStep_splice scratch.2 path).bind fun _ _ => inStep_pure clear)
    exact trivial
  size := by
    rintro ctx ctx' rfl rfl path
    simp only [prefixed, h.size rfl rfl path, h'.size rfl rfl path]

private theorem unaware_fixedSized {length : Expr} (same : length.SameSize e frames frames')
    (h : c.Unaware frames frames') : (fixedSized e length c).Unaware frames frames' where
  parse := by
    rintro offset stored ctx ctx' rfl rfl path
    exact (Engine.inStep_evalSize same path).bind fun n _ => (inStep_read n path).bind fun data _ =>
      (h.parseSlice rfl rfl data path).bind fun _ eager => inStep_pure eager
  build := by
    rintro offset stored ctx ctx' rfl rfl v eager path
    refine (Engine.inStep_evalSize same path).bind fun n _ => inStep_mark
      ((h.buildScratch rfl rfl eager path).bind fun scratch clear => inStep_ite (fun _ => ?_)
        fun _ => (inStep_splice _ path).bind fun _ _ => inStep_pure clear)
    exact inStep_discard.bind fun _ _ => inStep_throw_bind _ _ _
  size := by
    rintro ctx ctx' rfl rfl path
    exact Engine.staticSize_congr same path

/-! ### Padding -/

variable {C : Context → Context → Prop}

private theorem inStep_skipFill (fill : Fill) (count : Nat) (path : Path) :
    InStep (fun _ => True) (State.Abreast offset stored C) (skipFill fill count path)
      (skipFill fill count path) := by
  refine (inStep_read count path).bind fun data _ => inStep_ite (fun _ => ?_) fun _ =>
    inStep_pure trivial
  cases firstOther fill.pattern 0 data with
  | none => exact inStep_pure trivial
  | some other => exact inStep_fail _ _

theorem inStep_remainder (total used : Nat) (path : Path) :
    InStep (fun _ => True) (State.Abreast offset stored C) (remainder total used path)
      (remainder total used path) :=
  inStep_ite (fun _ => inStep_pure trivial) fun _ => inStep_fail _ _

private theorem inStep_evalModulus {modulus : Expr}
    (same : modulus.SameSize e ctx.frames ctx'.frames)
    (path : Path) :
    InStep (fun _ => True) (State.Abreast offset stored (Context.These ctx ctx'))
      (evalModulus e modulus path) (evalModulus e modulus path) :=
  (Engine.inStep_evalSize same path).bind fun _ _ => inStep_guard fun _ => inStep_pure trivial

private theorem unaware_padded {length : Expr} (same : length.SameSize e frames frames')
    (h : c.Unaware frames frames') (fill : Fill) :
    (padded e length c fill).Unaware frames frames' where
  parse := by
    rintro offset stored ctx ctx' rfl rfl path
    exact (Engine.inStep_evalSize same path).bind fun n _ => inStep_tell.bind fun _ _ =>
      (h.parse rfl rfl path).bind fun _ eager => inStep_tell.bind fun _ _ =>
        (inStep_remainder _ _ path).bind fun _ _ => (inStep_skipFill fill _ path).bind fun _ _ =>
          inStep_pure eager
  build := by
    rintro offset stored ctx ctx' rfl rfl v eager path
    exact (Engine.inStep_evalSize same path).bind fun n _ => inStep_tell.bind fun _ _ =>
      (h.build rfl rfl eager path).bind fun _ eager => inStep_tell.bind fun _ _ =>
        (inStep_remainder _ _ path).bind fun _ _ => (inStep_write _ path).bind fun _ _ =>
          inStep_pure eager
  size := by
    rintro ctx ctx' rfl rfl path
    exact Engine.staticSize_congr same path

private theorem unaware_aligned {modulus : Expr} (same : modulus.SameSize e frames frames')
    (h : c.Unaware frames frames') (fill : Fill) :
    (aligned e modulus c fill).Unaware frames frames' where
  parse := by
    rintro offset stored ctx ctx' rfl rfl path
    exact (inStep_evalModulus same path).bind fun m _ => inStep_tell.bind fun _ _ =>
      (h.parse rfl rfl path).bind fun _ eager => inStep_tell.bind fun _ _ =>
        (inStep_skipFill fill _ path).bind fun _ _ => inStep_pure eager
  build := by
    rintro offset stored ctx ctx' rfl rfl v eager path
    exact (inStep_evalModulus same path).bind fun m _ => inStep_tell.bind fun _ _ =>
      (h.build rfl rfl eager path).bind fun _ eager => inStep_tell.bind fun _ _ =>
        (inStep_write _ path).bind fun _ _ => inStep_pure eager
  size := by
    rintro ctx ctx' rfl rfl path
    simp only [aligned, Engine.staticSize_congr same path, h.size rfl rfl path]

/-! ### Raw copies -/

private theorem inStep_copySince {start : Nat} (behind : offset + stored.length ≤ start)
    (path : Path) :
    InStep (fun _ => True) (State.Abreast offset stored C) (copySince start path)
      (copySince start path) :=
  inStep_tell.bind fun _ _ => (inStep_goTo behind).bind fun _ _ => inStep_read _ path

theorem eager_rawRecord {v : Value} (eager : v.Eager) (data : List UInt8) (start stop : Nat) :
    (rawRecord data v start stop).Eager :=
  ⟨trivial, trivial, eager, trivial, trivial, trivial⟩

private theorem unaware_rawCopy (h : p.codec.Unaware frames frames') :
    (rawCopy e p).Unaware frames frames' where
  parse := by
    rintro offset stored ctx ctx' rfl rfl path
    exact inStep_tell.bind fun start behind => (h.parse rfl rfl path).tagged.bind fun v eager =>
      inStep_tell.bind fun stop _ => (inStep_copySince behind path).bind fun data _ =>
        inStep_pure (eager_rawRecord eager data start stop)
  build := by
    rintro offset stored ctx ctx' rfl rfl v eager path
    refine (Engine.inStep_containerInput eager path).bind fun input clear =>
      inStep_tell.bind fun start behind => ?_
    have within : ((Record.get? input "value").getD .none).Eager := by
      cases found : Record.get? input "value" with
      | none => exact trivial
      | some v => exact clear.get? found
    refine inStep_ite (fun _ => ?_) fun _ => ?_
    · exact (h.build rfl rfl within path).tagged.bind fun v eager => inStep_tell.bind fun stop _ =>
        (inStep_copySince behind path).bind fun data _ =>
          inStep_pure (eager_rawRecord eager data start stop)
    · cases (Record.get? input "data").bind Value.bytes? with
      | none => exact inStep_fail _ _
      | some data =>
          exact (inStep_write data path).bind fun _ _ => inStep_tell.bind fun stop _ =>
            (h.parseSlice rfl rfl data path).bind fun result eager =>
              inStep_pure (eager_rawRecord eager data start stop)
  size := h.size

/-! ### Structures -/

/-- The component is the same over both stacks, whatever related frames are put on top of
them. -/
def UnawareWithin (F : Record Value → Record Value → Prop) (below below' : List Frame)
    (c : Codec) : Prop :=
  ∀ frame frame', F frame frame' →
    c.Unaware (frame :: below.map Frame.values) (frame' :: below'.map Frame.values)

/-- The component is the same over both stacks, whatever frame is put on top of both. -/
def UnawareOver (frames frames' : List (Record Value)) (c : Codec) : Prop :=
  ∀ frame, c.Unaware (frame :: frames) (frame :: frames')

private theorem UnawareOver.within (h : c.UnawareOver ctx.frames ctx'.frames) :
    c.UnawareWithin Context.Same (ctx.top :: ctx.below) (ctx'.top :: ctx'.below) := by
  rintro frame _ ⟨rfl, -⟩
  exact h _

private theorem UnawareOver.size (h : c.UnawareOver frames frames') (here : ctx.frames = frames)
    (there : ctx'.frames = frames') (path : Path) :
    c.size (ctx.push []) path = c.size (ctx'.push []) path :=
  (h []).size (by rw [Context.frames_push, here]) (by rw [Context.frames_push, there]) path

variable {F : Record Value → Record Value → Prop} {queue queue' : List Deferred}
  {below below' : List Frame}

section

variable (h : c.UnawareWithin F below below')
include h

private theorem UnawareWithin.parse (path : Path) :
    InStep Value.Eager
      (State.Abreast offset stored (Context.Entered F queue queue' below below')) (c.parse path)
      (c.parse path) :=
  inStep_entered fun _ _ related => (h _ _ related).parse rfl rfl path

private theorem UnawareWithin.build {v : Value} (eager : v.Eager) (path : Path) :
    InStep Value.Eager
      (State.Abreast offset stored (Context.Entered F queue queue' below below')) (c.build v path)
      (c.build v path) :=
  inStep_entered fun _ _ related => (h _ _ related).build rfl rfl eager path

end

private theorem inStep_parseFields (notes : Context.Notes F) (overwrite : Bool) (path : Path) :
    ∀ fields : List Part,
      (∀ p ∈ fields, p.codec.UnawareWithin F below below' ∧ p.format.isEmbedded = false) →
      InStep (fun _ => True)
        (State.Abreast offset stored (Context.Entered F queue queue' below below'))
        (parseFields overwrite false path fields) (parseFields overwrite false path fields)
  | [], _ => inStep_pure trivial
  | p :: rest, h => by
      obtain ⟨field, flat⟩ := h p List.mem_cons_self
      have others := inStep_parseFields notes overwrite path rest
        fun q mem => h q (List.mem_cons_of_mem p mem)
      rw [parseFields, flat, if_neg Bool.false_ne_true]
      cases p.name? with
      | none => exact (field.parse path).tagged.bind fun _ _ => others
      | some name =>
          exact (field.parse _).tagged.bind fun v eager =>
            (inStep_insert notes name eager).bind fun _ _ => others

theorem inStep_fieldInput {P : State → State → Prop} {input : Record Value}
    (eager : Value.EagerFields input) (field : Part) (name : String) (path : Path) :
    InStep Value.Eager P (fieldInput input field name path) (fieldInput input field name path) := by
  unfold fieldInput
  cases found : Record.get? input name with
  | some v => exact inStep_pure (eager.get? found)
  | none => exact inStep_ite (fun _ => inStep_pure trivial) fun _ => inStep_fail _ _

theorem inStep_buildFields (notes : Context.Notes F) {input : Record Value}
    (eager : Value.EagerFields input) (path : Path) : ∀ fields : List Part,
      (∀ p ∈ fields, p.codec.UnawareWithin F below below' ∧ p.format.isEmbedded = false) →
      InStep (fun _ => True)
        (State.Abreast offset stored (Context.Entered F queue queue' below below'))
        (buildFields input path fields) (buildFields input path fields)
  | [], _ => inStep_pure trivial
  | p :: rest, h => by
      obtain ⟨field, flat⟩ := h p List.mem_cons_self
      have others := inStep_buildFields notes eager path rest
        fun q mem => h q (List.mem_cons_of_mem p mem)
      rw [buildFields, flat, if_neg Bool.false_ne_true]
      cases p.name? with
      | none =>
          exact (field.build (v := .none) trivial path).tagged.bind fun _ _ => others
      | some name =>
          exact (inStep_fieldInput eager p name _).bind fun v clear =>
            (field.build clear _).tagged.bind fun built clear =>
              (inStep_insert notes name clear).bind fun _ _ => others

private theorem fieldsSize_congr (here : ctx.frames = frames) (there : ctx'.frames = frames')
    (path : Path) : ∀ fields : List Part, (∀ p ∈ fields, p.codec.UnawareOver frames frames') →
      fieldsSize (ctx.push []) path fields = fieldsSize (ctx'.push []) path fields
  | [], _ => rfl
  | p :: rest, h => by
      simp only [fieldsSize, (h p List.mem_cons_self).size here there,
        fieldsSize_congr here there path rest fun q mem => h q (List.mem_cons_of_mem p mem)]

private theorem unaware_struct {fields : List Part}
    (h : ∀ p ∈ fields, p.codec.UnawareOver frames frames' ∧ p.format.isEmbedded = false)
    (overwrite : Bool) : (struct e fields overwrite).Unaware frames frames' where
  parse := by
    rintro offset stored ctx ctx' rfl rfl path
    exact (InStep.inFrame Value.eagerFields_nil (inStep_parseFields Context.notes_same overwrite
      path fields fun p mem => ⟨(h p mem).1.within, (h p mem).2⟩)).bind fun result clear =>
        inStep_pure clear.2
  build := by
    rintro offset stored ctx ctx' rfl rfl v eager path
    exact (Engine.inStep_containerInput eager path).bind fun input clear =>
      (InStep.inFrame clear ((inStep_buildFields Context.notes_same clear path fields
        fun p mem => ⟨(h p mem).1.within, (h p mem).2⟩).bind fun _ _ =>
          inStep_resolvePending e)).bind fun result clear => inStep_pure clear.2
  size := by
    intro ctx ctx' here there path
    exact fieldsSize_congr here there path fields fun p mem => (h p mem).1

private theorem inStep_noteItem (notes : Context.Notes F) (p : Part) {v : Value} (eager : v.Eager) :
    InStep (fun _ => True)
      (State.Abreast offset stored (Context.Entered F queue queue' below below')) (noteItem p v)
      (noteItem p v) := by
  unfold noteItem
  cases p.name? with
  | none => exact inStep_pure trivial
  | some name => exact inStep_insert notes name eager

private theorem inStep_parseItems (notes : Context.Notes F) (path : Path) :
    ∀ (i : Nat) (items : List Part),
      (∀ p ∈ items, p.codec.UnawareWithin F below below') →
      InStep Value.EagerItems
        (State.Abreast offset stored (Context.Entered F queue queue' below below'))
        (parseItems path i items) (parseItems path i items)
  | _, [], _ => inStep_pure trivial
  | i, p :: rest, h => ((h p List.mem_cons_self).parse _).tagged.bind fun _ eager =>
      (inStep_noteItem notes p eager).bind fun _ _ =>
        (inStep_parseItems notes path (i + 1) rest
          fun q mem => h q (List.mem_cons_of_mem p mem)).bind fun _ clear =>
            inStep_pure ⟨eager, clear⟩

theorem inStep_buildItems (notes : Context.Notes F) (path : Path) :
    ∀ (i : Nat) (pairs : List (Part × Value)),
      (∀ pair ∈ pairs, pair.1.codec.UnawareWithin F below below' ∧ pair.2.Eager) →
      InStep Value.EagerItems
        (State.Abreast offset stored (Context.Entered F queue queue' below below'))
        (buildItems path i pairs) (buildItems path i pairs)
  | _, [], _ => inStep_pure trivial
  | i, (p, v) :: rest, h =>
      ((h (p, v) List.mem_cons_self).1.build
        (h (p, v) List.mem_cons_self).2 _).tagged.bind fun _ eager =>
          (inStep_noteItem notes p eager).bind fun _ _ =>
            (inStep_buildItems notes path (i + 1) rest
              fun q mem => h q (List.mem_cons_of_mem _ mem)).bind fun _ clear =>
                inStep_pure ⟨eager, clear⟩

private theorem itemsSize_congr (here : ctx.frames = frames) (there : ctx'.frames = frames')
    (path : Path) : ∀ (i : Nat) (items : List Part),
      (∀ p ∈ items, p.codec.UnawareOver frames frames') →
      itemsSize (ctx.push []) path i items = itemsSize (ctx'.push []) path i items
  | _, [], _ => rfl
  | i, p :: rest, h => by
      simp only [itemsSize, (h p List.mem_cons_self).size here there,
        itemsSize_congr here there path (i + 1) rest fun q mem => h q (List.mem_cons_of_mem p mem)]

theorem eager_preload {pairs : List (Part × Value)} (eager : ∀ pair ∈ pairs, pair.2.Eager) :
    Value.EagerFields (preload pairs) := by
  refine Value.eagerFields_nil.extend (Value.eagerFields_iff.mpr fun entry mem => ?_)
  obtain ⟨pair, among, named⟩ := List.mem_filterMap.mp mem
  obtain ⟨name, -, rfl⟩ := Option.map_eq_some_iff.mp named
  exact eager pair among

private theorem unaware_sequence {items : List Part}
    (h : ∀ p ∈ items, p.codec.UnawareOver frames frames') :
    (sequence e items).Unaware frames frames' where
  parse := by
    rintro offset stored ctx ctx' rfl rfl path
    exact (InStep.inFrame Value.eagerFields_nil (inStep_parseItems Context.notes_same path 0 items
      fun p mem => (h p mem).within)).bind fun result clear => inStep_pure clear.1
  build := by
    rintro offset stored ctx ctx' rfl rfl v eager path
    refine (Engine.inStep_listInput eager path).bind fun input clear => inStep_guard fun _ => ?_
    have given : ∀ pair ∈ items.zip input, pair.2.Eager := fun pair mem =>
      Value.eagerItems_iff.mp clear _ (List.of_mem_zip mem).2
    exact (InStep.inFrame (eager_preload given) ((inStep_buildItems Context.notes_same path 0 _
      fun pair mem => ⟨(h _ (List.of_mem_zip mem).1).within, given pair mem⟩).bind
        fun values clear => (inStep_resolvePending e).bind fun _ _ => inStep_pure clear)).bind
          fun result clear => inStep_pure clear.1
  size := by
    intro ctx ctx' here there path
    exact itemsSize_congr here there path 0 items h

private theorem inStep_focusIndex {P : State → State → Prop} (focus : Selector) (items : List Part)
    (path : Path) :
    InStep (fun _ => True) P (focusIndex focus items path) (focusIndex focus items path) := by
  unfold focusIndex
  cases Select.index? focus items with
  | none => exact inStep_fail _ _
  | some i => exact inStep_pure trivial

theorem eager_getD {values : List Value} (eager : Value.EagerItems values) (i : Nat) :
    (values.getD i .none).Eager := by
  rw [List.getD_eq_getElem?_getD]
  cases found : values[i]? with
  | none => exact trivial
  | some v => exact Value.eagerItems_iff.mp eager v (List.mem_of_getElem? found)

private theorem unaware_focused {focus : Selector} {items : List Part}
    (h : ∀ p ∈ items, p.codec.UnawareOver frames frames') :
    (focused e focus items).Unaware frames frames' where
  parse := by
    rintro offset stored ctx ctx' rfl rfl path
    exact (inStep_focusIndex focus items path).bind fun i _ =>
      (InStep.inFrame Value.eagerFields_nil (inStep_parseItems Context.notes_same path 0 items
        fun p mem => (h p mem).within)).bind fun result clear =>
          inStep_pure (eager_getD clear.1 i)
  build := by
    rintro offset stored ctx ctx' rfl rfl v eager path
    refine (inStep_focusIndex focus items path).bind fun i _ => ?_
    let inputs := items.zipIdx.map fun entry => (entry.1, if entry.2 = i then v else .none)
    have given : ∀ pair ∈ inputs, pair.1 ∈ items ∧ pair.2.Eager := by
      intro pair mem
      obtain ⟨⟨item, j⟩, among, rfl⟩ := List.mem_map.mp mem
      refine ⟨(List.mem_zipIdx among).2.2 ▸ List.getElem_mem _, ?_⟩
      dsimp only
      split
      · exact eager
      · exact trivial
    refine (InStep.inFrame (eager_preload fun pair mem =>
        (given pair (List.mem_of_mem_drop (List.mem_of_mem_take mem))).2)
      ((inStep_buildItems Context.notes_same path 0 _ fun pair mem =>
        ⟨(h _ (given pair mem).1).within, (given pair mem).2⟩).bind fun values clear =>
          (inStep_resolvePending e).bind fun _ _ => inStep_pure clear)).bind
            fun result clear => inStep_pure (eager_getD clear.1 i)
  size := by
    intro ctx ctx' here there path
    exact itemsSize_congr here there path 0 items h

/-! ### Selections -/

private theorem inStep_parseFirst (here : ctx.frames = frames) (there : ctx'.frames = frames')
    (tagged : Bool) {start : Nat} (behind : offset + stored.length ≤ start) (path : Path) :
    ∀ alternatives : List Part, (∀ p ∈ alternatives, p.codec.Unaware frames frames') →
      InStep (fun result => ∀ v, result = some v → v.Eager)
        (State.Abreast offset stored (Context.These ctx ctx'))
        (parseFirst tagged start path alternatives) (parseFirst tagged start path alternatives)
  | [], _ => inStep_pure nofun
  | p :: rest, h => by
      have others := inStep_parseFirst here there tagged behind path rest
        fun q mem => h q (List.mem_cons_of_mem p mem)
      refine ((h p List.mem_cons_self).parse here there path).tagged.outcome.bind
        fun result fine => ?_
      cases result with
      | ok v =>
          refine inStep_pure ?_
          rintro _ ⟨⟩
          exact eager_tag tagged p (fine v rfl)
      | error failure =>
          dsimp only
          refine inStep_ite (fun _ => ?_) fun _ => (inStep_goTo behind).bind fun _ _ => others
          exact inStep_throw_bind failure _ _

theorem inStep_tryBuild (h : p.codec.Unaware frames frames') (here : ctx.frames = frames)
    (there : ctx'.frames = frames') (tagged : Bool) {v : Value} (eager : v.Eager) (path : Path) :
    InStep Value.Eager (State.Abreast offset stored (Context.These ctx ctx'))
      (tryBuild tagged p v path) (tryBuild tagged p v path) := by
  refine inStep_mark ((h.buildScratch here there eager path).outcome.bind fun result fine => ?_)
  cases result with
  | ok scratch =>
      exact (inStep_splice scratch.2 path).bind fun _ _ =>
        inStep_pure (eager_tag tagged p (fine scratch rfl))
  | error failure => exact inStep_discard.bind fun _ _ => Run.inStep_throw failure

private theorem inStep_buildFirst (here : ctx.frames = frames) (there : ctx'.frames = frames')
    (tagged : Bool) {v : Value} (eager : v.Eager) (path : Path) :
    ∀ alternatives : List Part, (∀ p ∈ alternatives, p.codec.Unaware frames frames') →
      InStep (fun result => ∀ w, result = some w → w.Eager)
        (State.Abreast offset stored (Context.These ctx ctx'))
        (buildFirst tagged v path alternatives) (buildFirst tagged v path alternatives)
  | [], _ => inStep_pure nofun
  | p :: rest, h => by
      have others := inStep_buildFirst here there tagged eager path rest
        fun q mem => h q (List.mem_cons_of_mem p mem)
      refine (inStep_tryBuild (h p List.mem_cons_self) here there tagged eager path).outcome.bind
        fun result fine => ?_
      cases result with
      | ok w =>
          refine inStep_pure ?_
          rintro _ ⟨⟩
          exact fine w rfl
      | error failure =>
          refine inStep_ite (fun _ => ?_) fun _ => others
          exact inStep_throw_bind failure _ _

theorem eager_of_namedAlternative {alternatives : List Part} {v u : Value} (eager : v.Eager)
    (named : namedAlternative? alternatives v = some (p, u)) : p ∈ alternatives ∧ u.Eager := by
  obtain ⟨fields, given, named⟩ := Option.bind_eq_some_iff.mp named
  obtain ⟨label, -, named⟩ := Option.bind_eq_some_iff.mp named
  obtain ⟨name, -, named⟩ := Option.bind_eq_some_iff.mp named
  obtain ⟨q, found, same⟩ := Option.bind_eq_some_iff.mp named
  cases same
  have clear : Value.EagerFields fields := by
    cases v <;> cases given
    · exact eager
    · exact eager
  refine ⟨List.mem_of_find?_eq_some found, ?_⟩
  cases held : Record.get? fields "value" with
  | none => exact trivial
  | some u => exact clear.get? held

private theorem sizes_congr (here : ctx.frames = frames) (there : ctx'.frames = frames')
    (path : Path) :
    ∀ alternatives : List Part, (∀ p ∈ alternatives, p.codec.Unaware frames frames') →
      Part.sizes ctx path alternatives = Part.sizes ctx' path alternatives
  | [], _ => rfl
  | p :: rest, h => by
      simp only [Part.sizes, (h p List.mem_cons_self).size here there,
        sizes_congr here there path rest fun q mem => h q (List.mem_cons_of_mem p mem)]

private theorem unaware_select {alternatives : List Part}
    (h : ∀ p ∈ alternatives, p.codec.Unaware frames frames') (tagged : Bool) :
    (select alternatives tagged).Unaware frames frames' where
  parse := by
    intro offset stored ctx ctx' here there path
    refine inStep_tell.bind fun start behind =>
      (inStep_parseFirst here there tagged behind path alternatives h).bind fun result fine => ?_
    cases result with
    | none => exact inStep_fail _ _
    | some v => exact inStep_pure (fine v rfl)
  build := by
    intro offset stored ctx ctx' here there v eager path
    simp only [select]
    cases named : if tagged then namedAlternative? alternatives v else none with
    | some chosen =>
        have named : namedAlternative? alternatives v = some chosen := by
          split at named
          · exact named
          · cases named
        obtain ⟨among, clear⟩ := eager_of_namedAlternative eager named
        exact inStep_tryBuild (h _ among) here there tagged clear path
    | none =>
        refine (inStep_buildFirst here there tagged eager path alternatives h).bind
          fun result fine => ?_
        cases result with
        | none => exact (inStep_dump v).bind fun _ _ => inStep_fail _ _
        | some w => exact inStep_pure (fine w rfl)
  size := by
    intro ctx ctx' here there path
    simp only [select, sizes_congr here there path alternatives h]

end Codec

/-! ## Formats -/

namespace Format

mutual

/-- Nested structures, choices, payloads and padding of integers, byte strings, constants and raw
copies, whose literals have no lazy parts. -/
def Nested : Format → Prop
  | integer _ _ _ | bytes _ => True
  | constant of value => Nested of ∧ value.Eager
  | named _ of | documented _ of | rawCopy of | fixedSized _ of | padded _ of _ | aligned _ of _ =>
      Nested of
  | prefixed length of _ _ => Nested length ∧ Nested of
  | struct fs _ | sequence fs | focused _ fs | select fs _ => NestedAll fs
  | _ => False

def NestedAll : List Format → Prop
  | [] => True
  | f :: rest => Nested f ∧ NestedAll rest

end

mutual

/-- Every size in the component is the same over both stacks of frames, whatever frames of its
own are on top of them. -/
def Overlooks (e : Engine) : List (Record Value) → List (Record Value) → Format → Prop
  | frames, frames', integer width _ _ => width.SameSize e frames frames'
  | frames, frames', bytes length => length.SameSize e frames frames'
  | frames, frames', constant of _ | frames, frames', named _ of | frames, frames', documented _ of
  | frames, frames', rawCopy of => Overlooks e frames frames' of
  | frames, frames', fixedSized size of | frames, frames', padded size of _
  | frames, frames', aligned size of _ =>
      size.SameSize e frames frames' ∧ Overlooks e frames frames' of
  | frames, frames', prefixed length of _ _ =>
      Overlooks e frames frames' length ∧ Overlooks e frames frames' of
  | frames, frames', struct fs _ | frames, frames', sequence fs | frames, frames', focused _ fs =>
      ∀ frame, OverlooksAll e (frame :: frames) (frame :: frames') fs
  | frames, frames', select fs _ => OverlooksAll e frames frames' fs
  | _, _, _ => True

def OverlooksAll (e : Engine) : List (Record Value) → List (Record Value) → List Format → Prop
  | _, _, [] => True
  | frames, frames', f :: rest => Overlooks e frames frames' f ∧ OverlooksAll e frames frames' rest

end

mutual

theorem overlooks_refl (e : Engine) (frames : List (Record Value)) : ∀ {f : Format}, f.Nested →
    Overlooks e frames frames f
  | integer _ _ _, _ | bytes _, _ => fun _ => rfl
  | constant of _, h => overlooks_refl e frames (f := of) h.1
  | named _ of, h | documented _ of, h | rawCopy of, h => overlooks_refl e frames (f := of) h
  | fixedSized _ of, h | padded _ of _, h | aligned _ of _, h =>
      ⟨fun _ => rfl, overlooks_refl e frames (f := of) h⟩
  | prefixed _ _ _ _, h => ⟨overlooks_refl e frames h.1, overlooks_refl e frames h.2⟩
  | struct fs _, h | sequence fs, h | focused _ fs, h =>
      fun frame => overlooksAll_refl e (frame :: frames) (show NestedAll fs from h)
  | select fs _, h => overlooksAll_refl e frames (show NestedAll fs from h)

theorem overlooksAll_refl (e : Engine) (frames : List (Record Value)) : ∀ {fs : List Format},
    NestedAll fs → OverlooksAll e frames frames fs
  | [], _ => trivial
  | _ :: _, h => ⟨overlooks_refl e frames h.1, overlooksAll_refl e frames h.2⟩

end

private theorem isEmbedded_of_nested : ∀ {f : Format}, f.Nested → f.isEmbedded = false :=
  isEmbedded_eq_false_of (P := Nested) id id id

mutual

theorem unaware_codec (e : Engine) (defs : Definitions) : ∀ {f : Format}
    {frames frames' : List (Record Value)}, f.Nested → Overlooks e frames frames' f →
    (f.codec e defs).Unaware frames frames'
  | integer _ signed endian, _, _, _, same => Codec.unaware_integer same signed endian
  | bytes _, _, _, _, same => Codec.unaware_bytes same
  | constant _ _, _, _, h, same =>
      Codec.unaware_constant (unaware_codec e defs h.1 same) h.2
  | named _ of, _, _, h, same => unaware_codec e defs (f := of) h same
  | documented _ of, _, _, h, same => unaware_codec e defs (f := of) h same
  | rawCopy of, _, _, h, same =>
      Codec.unaware_rawCopy (p := ⟨of, _⟩) (unaware_codec e defs (f := of) h same)
  | fixedSized _ _, _, _, h, same =>
      Codec.unaware_fixedSized same.1 (unaware_codec e defs h same.2)
  | padded _ of fill, _, _, h, same =>
      Codec.unaware_padded same.1 (unaware_codec e defs (f := of) h same.2) fill
  | aligned _ of fill, _, _, h, same =>
      Codec.unaware_aligned same.1 (unaware_codec e defs (f := of) h same.2) fill
  | prefixed length _ inclusive lenient, _, _, h, same =>
      Codec.unaware_prefixed (p := ⟨length, _⟩) (unaware_codec e defs h.1 same.1)
        (unaware_codec e defs h.2 same.2) inclusive lenient
  | struct _ overwrite, _, _, h, same =>
      Codec.unaware_struct (fun p mem =>
        ⟨fun frame => (unaware_parts e defs h (same frame) p mem).1,
          (unaware_parts e defs h (same []) p mem).2⟩) overwrite
  | sequence _, _, _, h, same =>
      Codec.unaware_sequence fun p mem frame => (unaware_parts e defs h (same frame) p mem).1
  | focused _ _, _, _, h, same =>
      Codec.unaware_focused fun p mem frame => (unaware_parts e defs h (same frame) p mem).1
  | select _ tagged, _, _, h, same =>
      Codec.unaware_select (fun p mem => (unaware_parts e defs h same p mem).1) tagged

theorem unaware_parts (e : Engine) (defs : Definitions) : ∀ {fs : List Format}
    {frames frames' : List (Record Value)}, NestedAll fs → OverlooksAll e frames frames' fs →
    ∀ p ∈ parts e defs fs, p.codec.Unaware frames frames' ∧ p.format.isEmbedded = false
  | [], _, _, _, _, _, mem => nomatch mem
  | f :: _, _, _, h, same, p, mem => by
      rcases List.mem_cons.mp mem with rfl | mem
      · exact ⟨unaware_codec e defs h.1 same.1, isEmbedded_of_nested h.1⟩
      · exact unaware_parts e defs h.2 same.2 p mem

end

end Format

end BinaryFormat
