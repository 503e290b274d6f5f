import BinaryFormat.Codec.Envelope
import BinaryFormat.Codec.Repetition
import BinaryFormat.Proofs.Run
import BinaryFormat.Proofs.Streams

/-!
# What runs do to frames

Parsing changes no more than private entries of the innermost frame.  Building
may add entries to it and queue patches on it; the frames below and the patches
that were queued before stay as they are.  A patch knows its frames by their
number, and leaving a frame takes a copy of it along, so the scope in which a
patch is computed consists of the frames that it was registered under.
-/

namespace BinaryFormat

/-! ## Invariants of the context -/

namespace Run

variable {α β : Type} {P : Context → Prop}

/-- The state in which a run ends, whether it succeeds or not. -/
def after (x : Run α) (s : State) : State :=
  match x s with
  | .ok _ s' => s'
  | .error _ s' => s'

/-- A property of the context that a run preserves, whether it succeeds or not; no run
exchanges its stream. -/
def Keeps (P : Context → Prop) (x : Run α) : Prop :=
  ∀ s, P s.context → P (x.after s).context ∧ s.stream.Alike (x.after s).stream

theorem Keeps.of_ok {x : Run α} (h : x.Keeps P) {s s' : State} {a : α} (hs : P s.context)
    (run : x s = .ok a s') : P s'.context ∧ s.stream.Alike s'.stream := by
  have kept := h s hs
  rwa [after, run] at kept

theorem Keeps.of_error {x : Run α} (h : x.Keeps P) {s s' : State} {failure : Failure}
    (hs : P s.context) (run : x s = .error failure s') :
    P s'.context ∧ s.stream.Alike s'.stream := by
  have kept := h s hs
  rwa [after, run] at kept

/-- What is kept relative to where a run starts is kept relative to any earlier context. -/
theorem keeps_of_start {Q : Context → Context → Prop} {x : Run α}
    (h : ∀ ctx, x.Keeps (Q ctx)) (start : ∀ ctx, Q ctx ctx)
    (back : ∀ ctx ctx', P ctx → Q ctx ctx' → P ctx') : x.Keeps P := by
  intro s hs
  obtain ⟨kept, alike⟩ := h s.context s (start _)
  exact ⟨back _ _ hs kept, alike⟩

private theorem keeps_of_context {x : Run α} (h : ∀ s, (x.after s).context = s.context)
    (alike : ∀ s : State, s.stream.Alike (x.after s).stream) : x.Keeps P := by
  intro s hs
  rw [h s]
  exact ⟨hs, alike s⟩

theorem keeps_of_same {x : Run α} (h : ∀ s, (x.after s).context = s.context)
    (same : ∀ s, (x.after s).stream = s.stream) : x.Keeps P := by
  refine keeps_of_context h fun s => ?_
  rw [same s]
  exact Stream.Alike.refl _

theorem keeps_pure {a : α} : (pure a : Run α).Keeps P := keeps_of_same (fun _ => rfl) fun _ => rfl

theorem keeps_throw {failure : Failure} : (throw failure : Run α).Keeps P :=
  keeps_of_same (fun _ => rfl) fun _ => rfl

theorem keeps_fail {fault : Fault} {path : Path} : (fail fault path : Run α).Keeps P :=
  keeps_of_same (fun _ => rfl) fun _ => rfl

theorem keeps_ofExcept {path : Path} {x : Except Fault α} : (ofExcept path x).Keeps P := by
  cases x with
  | ok a => exact keeps_pure
  | error fault => exact keeps_fail

theorem keeps_settle {x : Except Failure α} : (settle x).Keeps P := by
  cases x with
  | ok a => exact keeps_pure
  | error failure => exact keeps_throw

theorem keeps_lookup {x : Lookup Failure α} : (lookup x).Keeps P := by
  refine keeps_of_same (fun s => ?_) fun s => ?_ <;> unfold after lookup <;>
    cases x s.store <;> rfl

theorem keeps_dump {v : Value} : (dump v).Keeps P := keeps_lookup

theorem keeps_context : context.Keeps P := keeps_of_same (fun _ => rfl) fun _ => rfl

theorem keeps_scope : scope.Keeps P := keeps_of_same (fun _ => rfl) fun _ => rfl

theorem keeps_tell : tell.Keeps P := keeps_of_same (fun _ => rfl) fun _ => rfl

theorem keeps_goTo {pos : Nat} : (goTo pos).Keeps P :=
  keeps_of_context (fun _ => rfl) fun s => s.stream.alike_setPos pos

theorem keeps_size : size.Keeps P :=
  keeps_of_context (fun _ => rfl) fun s => s.stream.alike_size

theorem keeps_available : available.Keeps P := keeps_of_same (fun _ => rfl) fun _ => rfl

theorem keeps_readAll : readAll.Keeps P :=
  keeps_of_context (fun _ => rfl) fun s => s.stream.alike_read none

theorem keeps_read {count : Nat} {path : Path} : (read count path).Keeps P := by
  have alike := fun s : State => s.stream.alike_read (some count)
  refine keeps_of_context (fun s => ?_) fun s => ?_ <;> unfold after read <;>
    by_cases h : (s.stream.read (some count)).1.length = count <;> simp [h, alike]

theorem keeps_write {bytes : List UInt8} {path : Path} : (write bytes path).Keeps P := by
  have alike := fun s : State => s.stream.alike_write bytes
  refine keeps_of_context (fun s => ?_) fun s => ?_ <;> unfold after write <;>
    cases h : (s.stream.write bytes).1 <;> simp [h, alike]

theorem keeps_seek {dest : SeekTo} {path : Path} : (seek dest path).Keeps P := by
  have alike := fun s : State => s.stream.alike_seek dest
  refine keeps_of_context (fun s => ?_) fun s => ?_ <;> unfold after seek <;>
    cases h : (s.stream.seek dest).1 <;> simp [h, alike]

theorem keeps_modify {f : Context → Context} (h : ∀ ctx, P ctx → P (f ctx)) :
    (modifyContext f).Keeps P := fun s hs => ⟨h s.context hs, Stream.Alike.refl _⟩

theorem Keeps.bind_of_ok {x : Run α} {f : α → Run β} (hx : x.Keeps P)
    (hf : ∀ a s s', x s = .ok a s' → (f a).Keeps P) : (x >>= f).Keeps P := by
  intro s hs
  cases run : x s with
  | ok a s' =>
      obtain ⟨kept, alike⟩ := hx.of_ok hs run
      obtain ⟨kept', alike'⟩ := hf a s s' run s' kept
      rw [after, Run.bind_of_ok run]
      exact ⟨kept', alike.trans alike'⟩
  | error failure s' =>
      have stop := hx.of_error hs run
      rwa [after, bind_of_error run]

theorem Keeps.bind {x : Run α} {f : α → Run β} (hx : x.Keeps P) (hf : ∀ a, (f a).Keeps P) :
    (x >>= f).Keeps P := hx.bind_of_ok fun a _ _ _ => hf a

theorem keeps_ite {c : Prop} [Decidable c] {x y : Run α} (hx : x.Keeps P) (hy : y.Keeps P) :
    (if c then x else y).Keeps P := by
  split
  · exact hx
  · exact hy

theorem keeps_guard {c : Prop} [Decidable c] {fault : Fault} {path : Path} {f : β → Run α}
    {x : Run α} (hx : x.Keeps P) : (if c then fail fault path >>= f else x).Keeps P :=
  keeps_ite (keeps_of_same (fun _ => rfl) fun _ => rfl) hx

theorem Keeps.outcome {x : Run α} (h : x.Keeps P) : x.outcome.Keeps P := by
  intro s hs
  have kept := h s hs
  unfold after at kept ⊢
  unfold Run.outcome
  cases run : x s <;> rw [run] at kept <;> exact kept

theorem Keeps.tagged {x : Run α} (h : x.Keeps P) : x.tagged.Keeps P := by
  intro s hs
  have kept := h s hs
  unfold after at kept ⊢
  unfold Run.tagged
  cases run : x s <;> rw [run] at kept <;> exact kept

theorem Keeps.onStream {x : Run α} (h : x.Keeps P) (stream : Stream) :
    (Run.onStream stream x).Keeps P := by
  intro s hs
  have kept := (h { s with stream := stream } hs).1
  unfold after at kept ⊢
  unfold Run.onStream
  cases run : x { s with stream := stream } <;> rw [run] at kept <;>
    exact ⟨kept, Stream.Alike.refl _⟩

theorem Keeps.inView {x : Run α} (h : x.Keeps P) (recoding : Recoding) (path : Path) :
    (Codec.inView recoding path x).Keeps P := by
  intro s hs
  have kept := h { s with stream := s.stream.viewed recoding } hs
  unfold after at kept ⊢
  unfold Codec.inView
  cases run : x { s with stream := s.stream.viewed recoding } with
  | ok a s' =>
      rw [run] at kept
      obtain ⟨kept, alike⟩ := kept
      have back := Stream.alike_finish alike
      dsimp only
      rcases left : s'.stream.finish with ⟨_ | fault, outer⟩ <;> rw [left] at back
      · exact ⟨kept, back⟩
      · exact ⟨kept, back.trans (outer.alike_setPos _)⟩
  | error failure s' =>
      rw [run] at kept
      exact ⟨kept.1, (Stream.alike_abandon kept.2).trans (Stream.alike_setPos _ _)⟩

/-- In a frame of its own a run keeps what it keeps of the frame, and leaving the frame
leads back. -/
private theorem keeps_inFrame {x : Run α} {values : Record Value} {Q : Context → Context → Prop}
    (inside : ∀ ctx, P ctx → Q ctx (ctx.push values) ∧ x.Keeps (Q ctx))
    (back : ∀ ctx ctx', P ctx → Q ctx ctx' → P ctx'.pop) : (inFrame values x).Keeps P := by
  intro s hs
  obtain ⟨start, h⟩ := inside s.context hs
  obtain ⟨kept, alike⟩ := h { s with context := s.context.push values } start
  have popped := back s.context _ hs kept
  unfold after at popped alike ⊢
  unfold inFrame
  cases run : x { s with context := s.context.push values } <;> rw [run] at popped alike <;>
    exact ⟨popped, alike⟩

end Run

namespace Engine

variable {P : Context → Prop} (e : Engine)

theorem keeps_eval {x : Expr} {path : Path} : (e.eval x path).Keeps P :=
  .bind Run.keeps_scope fun _ => Run.keeps_lookup

theorem keeps_evalInt {x : Expr} {path : Path} : (e.evalInt x path).Keeps P :=
  .bind Run.keeps_scope fun _ => Run.keeps_lookup

theorem keeps_evalSize {x : Expr} {path : Path} : (e.evalSize x path).Keeps P :=
  .bind Run.keeps_scope fun _ => Run.keeps_lookup

theorem keeps_evalHolds {x : Expr} {path : Path} : (e.evalHolds x path).Keeps P :=
  .bind Run.keeps_scope fun _ => Run.keeps_lookup

theorem keeps_evalOver {x : Expr} {object : Value} {path : Path} :
    (e.evalOver x object path).Keeps P :=
  .bind Run.keeps_scope fun _ => Run.keeps_lookup

theorem keeps_equal {a b : Value} : (e.equal a b).Keeps P := Run.keeps_lookup

private theorem keeps_force {v : Value} : (e.force v).Keeps P := Run.keeps_lookup

theorem keeps_containerInput {v : Value} {path : Path} :
    (e.containerInput v path).Keeps P := by
  cases v with
  | container fields | flags fields | none => exact Run.keeps_pure
  | lazyContainer handle names =>
      refine .bind e.keeps_force fun forced => ?_
      cases forced <;> exact Run.keeps_pure
  | _ => exact Run.keeps_fail

theorem keeps_listInput {v : Value} {path : Path} : (e.listInput v path).Keeps P := by
  cases v with
  | list items | bytes data => exact Run.keeps_pure
  | lazyList handle length =>
      refine .bind e.keeps_force fun forced => ?_
      cases forced <;> exact Run.keeps_pure
  | _ => exact Run.keeps_fail

end Engine

namespace Codec

variable {P : Context → Prop}

theorem keeps_sizeNow (c : Codec) {path : Path} : (c.sizeNow path).Keeps P :=
  .bind Run.keeps_context fun _ => Run.keeps_lookup

theorem keeps_parseSlice {c : Codec} {data : List UInt8} {path : Path}
    (h : (c.parse path).Keeps P) : (c.parseSlice data path).Keeps P :=
  .bind (h.onStream _) fun _ => Run.keeps_pure

theorem keeps_buildScratch {c : Codec} {v : Value} {path : Path}
    (h : (c.build v path).Keeps P) : (c.buildScratch v path).Keeps P :=
  .bind (h.onStream _) fun _ => Run.keeps_pure

end Codec

/-! ## Components of a format -/

private theorem Path.fieldName?_element (path : Path) (i : Nat) :
    (path.element i).fieldName? = none := by
  have last : (path.element i).text.toList.reverse =
      ']' :: (path.text ++ "[" ++ toString i).toList.reverse := by
    simp [Path.text]
  have kept : (']' != '.') = true := by decide
  simp [Path.fieldName?, last, kept]

namespace Format

mutual

/-- A property of the format and of all its components. -/
def All (p : Format → Prop) : Format → Prop
  | prefixedText length encoding => p (prefixedText length encoding) ∧ All p length
  | named name of => p (named name of) ∧ All p of
  | documented docs of => p (documented docs of) ∧ All p of
  | struct fields overwrite => p (struct fields overwrite) ∧ AllOf p fields
  | sequence items => p (sequence items) ∧ AllOf p items
  | embedded of => p (embedded of) ∧ All p of
  | focused focus items => p (focused focus items) ∧ AllOf p items
  | array count of discard => p (array count of discard) ∧ All p of
  | range least most of discard => p (range least most of discard) ∧ All p of
  | greedyRange of discard => p (greedyRange of discard) ∧ All p of
  | repeatUntil last of discard => p (repeatUntil last of discard) ∧ All p of
  | prefixedArray count of => p (prefixedArray count of) ∧ All p count ∧ All p of
  | select alternatives tagged => p (select alternatives tagged) ∧ AllOf p alternatives
  | union key alternatives => p (union key alternatives) ∧ AllOf p alternatives
  | branch condition yes no => p (branch condition yes no) ∧ All p yes ∧ All p no
  | switch key cases otherwise =>
      p (switch key cases otherwise) ∧ AllCases p cases ∧ AllIf p otherwise
  | pointer offset of => p (pointer offset of) ∧ All p of
  | peek of => p (peek of) ∧ All p of
  | padded length of fill => p (padded length of fill) ∧ All p of
  | aligned modulus of fill => p (aligned modulus of fill) ∧ All p of
  | prefixed length of inclusive lenient =>
      p (prefixed length of inclusive lenient) ∧ All p length ∧ All p of
  | fixedSized length of => p (fixedSized length of) ∧ All p of
  | delimited of delimiter => p (delimited of delimiter) ∧ All p of
  | stripped of pad => p (stripped of pad) ∧ All p of
  | rawCopy of => p (rawCopy of) ∧ All p of
  | transformed of transform extent => p (transformed of transform extent) ∧ All p of
  | recoded of recoding checked => p (recoded of recoding checked) ∧ All p of
  | constant of value => p (constant of value) ∧ All p of
  | rebuild of expr => p (rebuild of expr) ∧ All p of
  | fallback of value => p (fallback of value) ∧ All p of
  | checksum of hash data => p (checksum of hash data) ∧ All p of
  | converted of conversion => p (converted of conversion) ∧ All p of
  | convertedIn of conversion => p (convertedIn of conversion) ∧ All p of
  | convertedBy of decode encode => p (convertedBy of decode encode) ∧ All p of
  | validated of rule => p (validated of rule) ∧ All p of
  | labelled of labels unlabelled => p (labelled of labels unlabelled) ∧ All p of
  | mapped of table => p (mapped of table) ∧ All p of
  | flagSet of flags strict => p (flagSet of flags strict) ∧ All p of
  | lazyStruct fields => p (lazyStruct fields) ∧ AllOf p fields
  | lazySequence items => p (lazySequence items) ∧ AllOf p items
  | lazyArray count of => p (lazyArray count of) ∧ All p of
  | lazyRange least most of => p (lazyRange least most of) ∧ All p of
  | f => p f

def AllOf (p : Format → Prop) : List Format → Prop
  | [] => True
  | f :: rest => All p f ∧ AllOf p rest

def AllCases (p : Format → Prop) : List (Value × Format) → Prop
  | [] => True
  | (_, f) :: rest => All p f ∧ AllCases p rest

def AllIf (p : Format → Prop) : Option Format → Prop
  | none => True
  | some f => All p f

end

/-- Neither a patch nor a format that is defined elsewhere. -/
def IsDirect : Format → Prop
  | rebuild _ _ | checksum _ _ _ | reference _ => False
  | _ => True

/-- Nothing that is built queues a patch. -/
def PatchFree (f : Format) : Prop := f.All IsDirect

/-- A patch, if any, of a component without patches. -/
def IsSimple : Format → Prop
  | rebuild of _ | checksum of _ _ => of.PatchFree
  | reference _ => False
  | _ => True

/-- No patch is queued while a patch is built. -/
def Single (f : Format) : Prop := f.All IsSimple

/-- A component that does not keep patches from being moved, or one whose patches are
simple. -/
def IsGuarded : Format → Prop
  | recoded of _ _ | transformed of _ _ => of.Single
  | reference _ => False
  | _ => True

/-- No patch is queued while a patch inside of a view or of a transformation is built. -/
def Guarded (f : Format) : Prop := f.All IsGuarded

mutual

/-- No index is noted in the frame around the component. -/
def Still : Format → Prop
  | array _ _ _ | range _ _ _ _ | greedyRange _ _ | repeatUntil _ _ _ | prefixedArray _ _
  | lazyArray _ _ | lazyRange _ _ _ | reference _ => False
  | prefixedText of _ | named _ of | documented _ of | embedded of | pointer _ of | peek of
  | padded _ of _ | aligned _ of _ | fixedSized _ of | delimited of _ | stripped of _
  | rawCopy of | constant of _ | rebuild of _ | fallback of _ | checksum of _ _
  | converted of _ | convertedIn of _ | convertedBy of _ _ | validated of _
  | labelled of _ _ | mapped of _ | flagSet of _ _ => Still of
  | transformed of _ _ | recoded of _ _ => Still of ∧ of.PatchFree
  | prefixed length of _ _ => Still length ∧ Still of
  | branch _ yes no => Still yes ∧ Still no
  | select alternatives _ => StillOf alternatives
  | switch _ cases otherwise => StillCases cases ∧ StillIf otherwise
  | _ => True

def StillOf : List Format → Prop
  | [] => True
  | f :: rest => Still f ∧ StillOf rest

def StillCases : List (Value × Format) → Prop
  | [] => True
  | (_, f) :: rest => Still f ∧ StillCases rest

def StillIf : Option Format → Prop
  | none => True
  | some f => Still f

end

end Format

/-! ## Frames while something is built -/

/-- What is known of the patches and of the indices of a component. -/
structure Traits where
  /-- No patch is queued while a patch inside of a view or of a transformation is built. -/
  guarded : Prop
  /-- No patch is queued while a patch is built. -/
  single : Prop
  /-- No patch is queued. -/
  free : Prop
  /-- Nothing is noted in the frame around the component. -/
  still : Prop

namespace Traits

/-- Whatever is claimed by the first is claimed by the second. -/
structure Within (t u : Traits) : Prop where
  guarded : t.guarded → u.guarded
  single : t.single → u.single
  free : t.free → u.free
  still : t.still → u.still

theorem Within.refl (t : Traits) : t.Within t := ⟨id, id, id, id⟩

theorem Within.trans {t u w : Traits} (h : t.Within u) (h' : u.Within w) : t.Within w :=
  ⟨h'.guarded ∘ h.guarded, h'.single ∘ h.single, h'.free ∘ h.free, h'.still ∘ h.still⟩

/-- Nothing is claimed about indices. -/
def loose (t : Traits) : Traits := { t with still := False }

theorem loose_within (t : Traits) : t.loose.Within t := ⟨id, id, id, False.elim⟩

theorem within_loose {t : Traits} (moving : ¬ t.still) : t.Within t.loose :=
  ⟨id, id, id, moving⟩

theorem Within.loose {t u : Traits} (h : t.Within u) : t.loose.Within u.loose :=
  ⟨h.guarded, h.single, h.free, id⟩

/-- What is claimed of a component whose patches are resolved at once: those of a guarded one
are simple. -/
def strict (t : Traits) : Traits := { t with single := t.guarded ∨ t.single }

theorem within_strict (t : Traits) : t.Within t.strict := ⟨id, Or.inr, id, id⟩

end Traits

def Format.traits (f : Format) : Traits := ⟨f.Guarded, f.Single, f.PatchFree, f.Still⟩

/-- A patch that is queued over a context knows how many frames there are below the one that
it was registered on.  On the lowest frame it has no name to be noted under. -/
structure Deferred.Placed (d : Deferred) (t : Traits) (ctx : Context) : Prop where
  depth : d.depth = ctx.below.length + d.scopes.length
  within : t.loose.Within d.field.traits
  simple : t.single → d.field.PatchFree ∧ (d.depth = 0 → d.path.fieldName? = none)

private theorem Deferred.Placed.mono {d : Deferred} {t u : Traits} {ctx : Context}
    (h : d.Placed u ctx) (within : t.loose.Within u) : d.Placed t ctx :=
  ⟨h.depth, ⟨h.within.guarded ∘ within.guarded, h.within.single ∘ within.single,
    h.within.free ∘ within.free, False.elim⟩, fun single => h.simple (within.single single)⟩

theorem Deferred.Placed.of_below {d : Deferred} {t : Traits} {a b : Context}
    (h : d.Placed t b) (below : b.below = a.below) : d.Placed t a :=
  ⟨by rw [← below]; exact h.depth, h.within, h.simple⟩

namespace Context

/-- The index that was noted last in the innermost frame. -/
def index? (ctx : Context) : Option Value := Record.get? ctx.innermost "_index"

/-- What parsing may do to a context. -/
structure Calm (t : Traits) (before after : Context) : Prop where
  quiet : before.Quiet after
  entries : t.still → after.innermost = before.innermost
  others : Record.erase after.innermost "_index" = Record.erase before.innermost "_index"

/-- What building may do to a context. -/
structure Grows (t : Traits) (before after : Context) : Prop where
  below : after.below = before.below
  queue : ∃ new, after.top.deferred = before.top.deferred ++ new ∧
    (∀ d ∈ new, d.Placed t before) ∧ (t.free → new = [])
  names : ∀ name, Record.isPrivate name = false →
    Record.get? after.innermost name = none → Record.get? before.innermost name = none
  /-- The parameters stay. -/
  outermost : t.guarded → before.below = [] → ∀ name, Record.isPrivate name = false →
    Record.get? after.innermost name = Record.get? before.innermost name
  entries : t.still → after.innermost = before.innermost

variable {t : Traits}

theorem Calm.refl (ctx : Context) : ctx.Calm t ctx := ⟨Quiet.refl ctx, fun _ => rfl, rfl⟩

theorem Calm.trans {a b c : Context} (h : a.Calm t b) (h' : b.Calm t c) : a.Calm t c :=
  ⟨h.quiet.trans h'.quiet, fun still => (h'.entries still).trans (h.entries still),
    h'.others.trans h.others⟩

theorem Calm.mono {u : Traits} {a b : Context} (h : a.Calm u b) (within : t.Within u) :
    a.Calm t b := ⟨h.quiet, h.entries ∘ within.still, h.others⟩

theorem Calm.grows {a b : Context} (h : a.Calm t b) : a.Grows t b where
  below := h.quiet.below
  queue := ⟨[], by simp [h.quiet.deferred]⟩
  names name hn absent := by rwa [← h.quiet.shown name hn]
  outermost _ _ name hn := h.quiet.shown name hn
  entries := h.entries

theorem Grows.index {a b : Context} (h : a.Grows t b) (still : t.still) :
    b.index? = a.index? := congrArg (Record.get? · "_index") (h.entries still)

theorem Grows.refl (ctx : Context) : ctx.Grows t ctx := (Calm.refl ctx).grows

theorem Grows.trans {a b c : Context} (h : a.Grows t b) (h' : b.Grows t c) : a.Grows t c := by
  obtain ⟨new, queued, placed, free⟩ := h.queue
  obtain ⟨new', queued', placed', free'⟩ := h'.queue
  refine ⟨h'.below.trans h.below, ⟨new ++ new', ?_, ?_, ?_⟩,
    fun name hn absent => h.names name hn (h'.names name hn absent),
    fun guarded bottom name hn => ?_, fun still => (h'.entries still).trans (h.entries still)⟩
  · rw [queued', queued, List.append_assoc]
  · intro d hd
    rcases List.mem_append.mp hd with hd | hd
    · exact placed d hd
    · exact (placed' d hd).of_below h.below
  · intro none
    rw [free none, free' none, List.append_nil]
  · rw [h'.outermost guarded (h.below.trans bottom) name hn,
      h.outermost guarded bottom name hn]

theorem Grows.mono {u : Traits} {a b : Context} (h : a.Grows u b) (within : t.Within u) :
    a.Grows t b := by
  obtain ⟨new, queued, placed, free⟩ := h.queue
  have loose := t.loose_within.trans within
  exact ⟨h.below, ⟨new, queued, fun d hd => (placed d hd).mono loose,
    fun none => free (within.free none)⟩, h.names,
    fun guarded => h.outermost (within.guarded guarded), h.entries ∘ within.still⟩

/-- A name may be noted on a frame that has others below it; a private one on any frame. -/
theorem Grows.insert {a b : Context} (h : a.Grows t b) {name : String} (moving : ¬ t.still)
    (free : t.guarded → a.below ≠ [] ∨ Record.isPrivate name = true) (value : Value) :
    a.Grows t (b.insert name value) := by
  refine h.trans ⟨rfl, ⟨[], by simp [Context.insert]⟩, fun other _ absent => ?_,
    fun guarded bottom other shown => ?_, fun still => absurd still moving⟩
  · by_cases eq : name = other
    · subst eq
      have found : Record.get? (b.insert name value).innermost name = some value :=
        Record.get?_insert_self _ _ _
      rw [found] at absent
      cases absent
    · exact (Record.get?_insert_of_ne eq b.innermost value).symm.trans absent
  · rcases free guarded with inner | hidden
    · exact absurd (h.below.symm.trans bottom) inner
    · refine Record.get?_insert_of_ne ?_ b.innermost value
      rintro rfl
      rw [hidden] at shown
      cases shown

/-- Leaving a frame moves its patches to the one below. -/
theorem Grows.pop {ctx after : Context} {values : Record Value}
    (h : (ctx.push values).Grows t.loose after) : ctx.Grows t after.pop := by
  obtain ⟨below, ⟨new, queued, placed, free⟩, -, -, -⟩ := h
  obtain ⟨⟨top, queue⟩, rest⟩ := after
  simp only [push, List.nil_append] at below queued placed
  subst below queued
  refine ⟨by simp [Context.pop], ⟨_, rfl, ?_, fun none => ?_⟩, fun _ _ absent => absent,
    fun _ _ _ _ => rfl, fun _ => rfl⟩
  · intro d hd
    obtain ⟨d', hd', rfl⟩ := List.mem_map.mp hd
    obtain ⟨depth, within, simple⟩ := placed d' hd'
    simp only [List.length_cons] at depth
    refine ⟨by simp only [List.length_cons]; omega, within, fun single => ⟨(simple single).1, ?_⟩⟩
    intro zero
    simp only at zero
    omega
  · rw [free none]
    rfl

theorem Grows.withDeferred {a b : Context} (h : a.Grows t b) {queue : List Deferred}
    (kept : ∃ new, queue = a.top.deferred ++ new ∧ (∀ d ∈ new, d.Placed t a) ∧
      (t.free → new = [])) : a.Grows t (b.withDeferred queue) :=
  ⟨h.below, kept, h.names, h.outermost, h.entries⟩

theorem take_mark {a b : Context} {new : List Deferred}
    (h : b.top.deferred = a.top.deferred ++ new) :
    b.top.deferred.take a.mark = a.top.deferred := by
  rw [h, Context.mark, List.take_left]

theorem drop_mark {a b : Context} {new : List Deferred}
    (h : b.top.deferred = a.top.deferred ++ new) : b.top.deferred.drop a.mark = new := by
  rw [h, Context.mark, List.drop_left]

private theorem Grows.rebaseSince {a b : Context} (h : a.Grows t b) (base : Nat) :
    a.Grows t (b.rebaseSince a.mark base) := by
  obtain ⟨new, queued, placed, free⟩ := h.queue
  refine h.withDeferred ⟨new.map fun d => { d with offset := d.offset + base }, ?_, ?_, ?_⟩
  · rw [take_mark queued, drop_mark queued]
  · intro d hd
    obtain ⟨d', hd', rfl⟩ := List.mem_map.mp hd
    obtain ⟨depth, within, simple⟩ := placed d' hd'
    exact ⟨depth, within, simple⟩
  · intro none
    rw [free none]
    rfl

theorem Grows.discardSince {a b : Context} (h : a.Grows t b) :
    a.Grows t (b.discardSince a.mark) := by
  obtain ⟨new, queued, -, -⟩ := h.queue
  refine h.withDeferred ⟨[], ?_, by simp, fun _ => rfl⟩
  rw [take_mark queued, List.append_nil]

/-- On the lowest frame only components without a name of their own queue patches. -/
def Anchors (base : Context) (t : Traits) (path : Path) : Prop :=
  t.guarded ∨ t.single → t.free ∨ base.below ≠ [] ∨ path.fieldName? = none

theorem anchors_inside {base : Context} (inner : base.below ≠ []) (path : Path) :
    base.Anchors t path := fun _ => Or.inr (Or.inl inner)

theorem anchors_element {base : Context} (path : Path) (i : Nat) :
    base.Anchors t (path.element i) :=
  fun _ => Or.inr (Or.inr (path.fieldName?_element i))

theorem Anchors.mono {base : Context} {u : Traits} {path : Path} (h : base.Anchors t path)
    (within : t.Within u) (back : u.guarded ∨ u.single → t.guarded ∨ t.single) :
    base.Anchors u path := fun claimed => (h (back claimed)).imp_left within.free

theorem Anchors.strict {base : Context} {path : Path} (h : base.Anchors t path) :
    base.Anchors t.strict path := by
  refine h.mono t.within_strict ?_
  rintro (guarded | guarded | single)
  · exact Or.inl guarded
  · exact Or.inl guarded
  · exact Or.inr single

theorem Anchors.of_grows {a b : Context} {path : Path} (h : a.Anchors t path)
    (grown : a.Grows t b) : b.Anchors t path := by
  intro claimed
  rw [grown.below]
  exact h claimed

theorem Grows.defer {a b : Context} (h : a.Grows t b) {d : Deferred} (fresh : d.scopes = [])
    (some : ¬ t.free) (within : t.loose.Within d.field.traits)
    (simple : t.single → d.field.PatchFree) (anchored : a.Anchors t d.path) :
    a.Grows t (b.defer d) := by
  refine h.trans ⟨rfl, ⟨_, rfl, ?_, fun none => absurd none some⟩, fun _ _ absent => absent,
    fun _ _ _ _ => rfl, fun _ => rfl⟩
  intro d' hd'
  obtain rfl := List.mem_singleton.mp hd'
  refine ⟨by simp [fresh], within, fun single => ⟨simple single, fun zero => ?_⟩⟩
  rcases anchored (Or.inr single) with none | inner | unnamed
  · exact absurd none some
  · rw [← h.below] at inner
    exact absurd (List.eq_nil_of_length_eq_zero zero) inner
  · exact unnamed

end Context

/-! ## Laws of codecs -/

/-- What the runs of a codec do to the frames: parsing leaves them alone, and so does
building apart from new entries and patches. -/
structure Codec.Steady (t : Traits) (c : Codec) : Prop where
  parse : ∀ path base, (c.parse path).Keeps (Context.Calm t base)
  build : ∀ v path base, Context.Anchors base t path →
    (c.build v path).Keeps (Context.Grows t base)
  parseInline : ∀ path overwrite base, (c.parseInline path overwrite).Keeps (Context.Kept base)
  buildInline : ∀ input path base, base.below ≠ [] →
    (c.buildInline input path).Keeps (Context.Grows t.loose base)

structure Engine.Steady (e : Engine) : Prop where
  parse : ∀ f path (t : Traits) base, t.Within (Format.traits f) →
    (e.parse f path).Keeps (Context.Calm t base)
  build : ∀ f v path (t : Traits) base, t.Within (Format.traits f) →
    Context.Anchors base t path → (e.build f v path).Keeps (Context.Grows t base)

namespace Run

variable {α β : Type} {t : Traits} {base : Context}

theorem keeps_kept_of_calm {x : Run α} (h : ∀ ctx, x.Keeps (Context.Calm t ctx)) :
    x.Keeps (Context.Kept base) :=
  keeps_of_start h Context.Calm.refl fun _ _ kept calm => kept.trans calm.quiet.kept

theorem keeps_grows_of_calm {x : Run α} (h : ∀ ctx, x.Keeps (Context.Calm t ctx)) :
    x.Keeps (Context.Grows t base) :=
  keeps_of_start h Context.Calm.refl fun _ _ grown calm => grown.trans calm.grows

/-- Within a frame of its own a run that keeps the frames below may note what it likes. -/
theorem keeps_calm_inFrame {x : Run α} {values : Record Value}
    (inside : ∀ ctx, x.Keeps (Context.Kept ctx)) :
    (inFrame values x).Keeps (Context.Calm t base) := by
  refine keeps_inFrame (Q := fun ctx ctx' => (ctx.push values).Kept ctx')
    (fun ctx _ => ⟨Context.Kept.refl _, inside _⟩) ?_
  intro ctx ctx' h kept
  rw [Context.pop_of_kept kept]
  exact h

theorem keeps_grows_inFrame {x : Run α} {values : Record Value}
    (inside : ∀ ctx, ctx.below ≠ [] → ctx.top.deferred = [] →
      x.Keeps (Context.Grows t.loose ctx)) :
    (inFrame values x).Keeps (Context.Grows t base) := by
  refine keeps_inFrame (Q := fun ctx ctx' => (ctx.push values).Grows t.loose ctx')
    (fun ctx _ => ⟨Context.Grows.refl _, inside _ (by simp [Context.push]) rfl⟩) ?_
  intro ctx ctx' h grown
  exact h.trans grown.pop

theorem keeps_kept_insert {name : String} {value : Value} :
    (Run.insert name value).Keeps (Context.Kept base) :=
  keeps_modify fun ctx h => h.trans (Context.kept_insert ctx name value)

theorem keeps_grows_insert {name : String} {value : Value} (inner : base.below ≠ []) :
    (Run.insert name value).Keeps (Context.Grows t.loose base) :=
  keeps_modify fun _ h => h.insert id (fun _ => Or.inl inner) value

theorem keeps_calm_note {i : Nat} (moving : ¬ t.still) :
    (Codec.noteIndex i).Keeps (Context.Calm t base) := by
  have noted : (Run.insert "_index" (.ofNat i)).Keeps (Context.Calm t base) :=
    keeps_modify fun ctx h => h.trans
      ⟨Context.quiet_insert ctx (by decide) (.ofNat i), fun still => absurd still moving,
        Record.erase_insert_self ctx.innermost "_index" (.ofNat i)⟩
  exact noted

/-- What is done between a mark and the use of it is kept relative to the mark. -/
theorem keeps_mark {u : Traits} {f : Nat → Run α} (within : t.Within u)
    (h : ∀ ctx, base.Grows t ctx → (f ctx.mark).Keeps (Context.Grows u ctx)) :
    (mark >>= f).Keeps (Context.Grows t base) := by
  intro s hs
  obtain ⟨grown, alike⟩ := h s.context hs s (Context.Grows.refl _)
  exact ⟨hs.trans (grown.mono within), alike⟩

theorem keeps_discard :
    (modifyContext (·.discardSince base.mark)).Keeps (Context.Grows t base) :=
  keeps_modify fun _ h => h.discardSince

theorem keeps_splice {data : List UInt8} {path : Path} :
    (splice data base.mark path).Keeps (Context.Grows t base) :=
  .bind keeps_tell fun offset => .bind keeps_write fun _ =>
    keeps_modify fun _ h => h.rebaseSince offset

end Run

end BinaryFormat
