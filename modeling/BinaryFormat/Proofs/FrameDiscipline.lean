import BinaryFormat.Proofs.Frames.Formats

/-!
# Frame discipline

A run may enter frames, fail inside of them and be caught by a format further
out.  However it ends, the frames around it stand as they stood: `_` means the
same to whatever runs next.
-/

namespace BinaryFormat

namespace Context

/-- As many frames as before, and those below the innermost one with the same entries. -/
structure SameOuter (before after : Context) : Prop where
  count : after.frames.length = before.frames.length
  outer : after.frames.tail = before.frames.tail

variable {t : Traits} {before after : Context}

private theorem SameOuter.of_below (below : after.below = before.below) :
    before.SameOuter after := by
  constructor
  · simp [frames, below]
  · simp [frames, below]

private theorem Calm.sameOuter (h : before.Calm t after) : before.SameOuter after :=
  .of_below h.quiet.below

private theorem Grows.sameOuter (h : before.Grows t after) : before.SameOuter after :=
  .of_below h.below

end Context

namespace Traits

/-- Nothing is claimed of a component. -/
def unclaimed : Traits := ⟨False, False, False, False⟩

theorem unclaimed_within (t : Traits) : unclaimed.Within t :=
  ⟨False.elim, False.elim, False.elim, False.elim⟩

theorem anchors_unclaimed (base : Context) (path : Path) : base.Anchors unclaimed path := by
  rintro (claimed | claimed)
  · exact claimed.elim
  · exact claimed.elim

end Traits

namespace Codec

variable {c : Codec}

theorem Steady.sameOuter_parse {t : Traits} (h : c.Steady t) (path : Path) (s : State) :
    s.context.SameOuter ((c.parse path).after s).context ∧
      Record.erase ((c.parse path).after s).context.innermost "_index" =
        Record.erase s.context.innermost "_index" := by
  have calm := (h.parse path s.context s (Context.Calm.refl _)).1
  exact ⟨calm.sameOuter, calm.others⟩

private theorem Steady.sameOuter_build {t : Traits} (h : c.Steady t) (v : Value) {path : Path}
    (s : State) (anchored : s.context.Anchors t path) :
    s.context.SameOuter ((c.build v path).after s).context :=
  (h.build v path s.context anchored s (Context.Grows.refl _)).1.sameOuter

/-- Computing a size can do no more than resolve lazy members. -/
theorem context_sizeNow (c : Codec) (path : Path) (s : State) :
    ((c.sizeNow path).after s).context = s.context ∧
      ((c.sizeNow path).after s).stream = s.stream := by
  have sized : c.sizeNow path s = Run.lookup (c.size s.context path) s := rfl
  rw [Run.after, sized, Run.lookup]
  cases c.size s.context path s.store <;> exact ⟨rfl, rfl⟩

end Codec

/-! ## The frames of sizes

A size is computed from the frames it is given.  A run which enters the frame of a structure,
sizes the members one after the other and leaves it comes to the same.
-/

namespace Run

variable {α β : Type}

private theorem bind_lookup {x : Run α} {next : α → Run β} {y : Lookup Failure α}
    {z : α → Lookup Failure β} {s : State} (first : x s = lookup y s)
    (rest : ∀ a store, next a { s with store } = lookup (z a) { s with store }) :
    (x >>= next) s = lookup (y >>= z) s := by
  simp only [bind, EStateM.bind, first, lookup]
  cases y s.store with
  | ok a store => exact rest a store
  | error e store => rfl

/-- A lookup that is made inside of a new frame. -/
private theorem inFrame_lookup {values : Record Value} {x : Run α} {y : Lookup Failure α}
    {s : State}
    (inside : x { s with context := s.context.push values } =
      lookup y { s with context := s.context.push values }) :
    (do return (← inFrame values x).1) s = lookup y s := by
  simp only [bind, EStateM.bind, inFrame, inside, lookup]
  cases y s.store with
  | ok a store => simp only [Context.pop_push, pure, EStateM.pure]
  | error e store => simp only [Context.pop_push]

end Run

namespace Codec

/-- The sum of the fields' sizes, each computed in the frames as they then stand. -/
def fieldsSizeNow (path : Path) : List Part → Run Nat
  | [] => return 0
  | field :: rest => do
    let n ← field.codec.sizeNow (path.memberIf field.name?)
    return Size.add n (← fieldsSizeNow path rest)

/-- The sum of the items' sizes, each computed in the frames as they then stand. -/
def itemsSizeNow (path : Path) : Nat → List Part → Run Nat
  | _, [] => return 0
  | i, item :: rest => do
    let n ← item.codec.sizeNow (path.item item.name? i)
    return Size.add n (← itemsSizeNow path (i + 1) rest)

-- A size leaves the frames alone, so the members after it have the frames that it had.
private theorem fieldsSizeNow_eq (path : Path) (fields : List Part) (s : State) :
    fieldsSizeNow path fields s = Run.lookup (fieldsSize s.context path fields) s := by
  induction fields generalizing s with
  | nil => rfl
  | cons field rest ih =>
      refine Run.bind_lookup rfl fun n store => ?_
      exact Run.bind_lookup (ih { s with store }) fun _ _ => rfl

private theorem itemsSizeNow_eq (path : Path) (i : Nat) (items : List Part) (s : State) :
    itemsSizeNow path i items s = Run.lookup (itemsSize s.context path i items) s := by
  induction items generalizing i s with
  | nil => rfl
  | cons item rest ih =>
      refine Run.bind_lookup rfl fun n store => ?_
      exact Run.bind_lookup (ih (i + 1) { s with store }) fun _ _ => rfl

private theorem sizeNow_struct (e : Engine) (fields : List Part) (overwrite : Bool) (path : Path) :
    (struct e fields overwrite).sizeNow path =
      do return (← Run.inFrame [] (fieldsSizeNow path fields)).1 := by
  funext s
  exact (Run.inFrame_lookup (fieldsSizeNow_eq path fields _)).symm

private theorem sizeNow_sequence (e : Engine) (items : List Part) (path : Path) :
    (sequence e items).sizeNow path =
      do return (← Run.inFrame [] (itemsSizeNow path 0 items)).1 := by
  funext s
  exact (Run.inFrame_lookup (itemsSizeNow_eq path 0 items _)).symm

private theorem sizeNow_focused (e : Engine) (focus : Selector) (items : List Part) (path : Path) :
    (focused e focus items).sizeNow path =
      do return (← Run.inFrame [] (itemsSizeNow path 0 items)).1 := by
  funext s
  exact (Run.inFrame_lookup (itemsSizeNow_eq path 0 items _)).symm

end Codec

namespace Format

/-- The run that computes a size: a structure enters a frame of its own, sizes its members in it
and leaves it. -/
def sizeInFrames (e : Engine) (defs : Definitions) (path : Path) : Format → Run Nat
  | struct fields _ =>
      do return (← Run.inFrame [] (Codec.fieldsSizeNow path (parts e defs fields))).1
  | sequence items | focused _ items =>
      do return (← Run.inFrame [] (Codec.itemsSizeNow path 0 (parts e defs items))).1
  | f => (f.codec e defs).sizeNow path

private theorem sizeNow_eq_sizeInFrames (e : Engine) (defs : Definitions) (path : Path)
    (f : Format) : (f.codec e defs).sizeNow path = f.sizeInFrames e defs path := by
  unfold sizeInFrames
  split
  · rw [codec, Codec.sizeNow_struct]
  · rw [codec, Codec.sizeNow_sequence]
  · rw [codec, Codec.sizeNow_focused]
  · rfl

end Format

/-! ## Every run -/

/-- However a run ends, there are as many frames as before and those below the innermost one
are the same.  Parsing changes no entry of the innermost one apart from the index, and computing
a size, which enters and leaves frames too, changes nothing. -/
theorem Format.frame_discipline (defs : Definitions) (n : Nat) (f : Format) (path : Path)
    (s : State) :
    (s.context.SameOuter (((f.codec (.level defs n) defs).parse path).after s).context ∧
      Record.erase (((f.codec (.level defs n) defs).parse path).after s).context.innermost
          "_index" =
        Record.erase s.context.innermost "_index") ∧
    (∀ v, s.context.SameOuter (((f.codec (.level defs n) defs).build v path).after s).context) ∧
    (((f.codec (.level defs n) defs).sizeNow path).after s).context = s.context ∧
    (f.codec (.level defs n) defs).sizeNow path = f.sizeInFrames (.level defs n) defs path := by
  have steady : (f.codec (.level defs n) defs).Steady .unclaimed :=
    steady_codec (Engine.steady_level defs n) defs .unclaimed f (Traits.unclaimed_within _)
  refine ⟨steady.sameOuter_parse path s, fun v => ?_, (Codec.context_sizeNow _ path s).1,
    sizeNow_eq_sizeInFrames _ defs path f⟩
  exact steady.sameOuter_build v s (Traits.anchors_unclaimed _ _)

end BinaryFormat
