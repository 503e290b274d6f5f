import BinaryFormat.Proofs.Twins.Structures

/-!
# Fair lazy components

Walking over members that are parsed later finds the same slots from paired states,
and what is put down for later is paired again.
-/

namespace BinaryFormat

open Lookup Run

variable {admitted : String → Prop} {loose : Bool} {w : Pairing admitted loose}

/-- A component whose format reads named fields alone where frames may differ. -/
structure Part.Fair (admitted : String → Prop) (loose : Bool) (p : Part) : Prop where
  codec : p.codec.Fair admitted loose
  named : loose = true → p.format.Named admitted

/-- The formats of slots read named fields alone where frames may differ. -/
def Slot.AllNamed (admitted : String → Prop) (loose : Bool) (slots : List Slot) : Prop :=
  loose = true → ∀ slot ∈ slots, slot.format.Named admitted

namespace Slot

private theorem allNamed_nil : AllNamed admitted loose
    [] := fun _ _ mem => absurd mem List.not_mem_nil

private theorem AllNamed.append {slots slots' : List Slot} (h : AllNamed admitted loose slots)
    (h' : AllNamed admitted loose slots') : AllNamed admitted loose (slots ++ slots') := by
  intro differ slot mem
  rcases List.mem_append.mp mem with mem | mem
  · exact h differ slot mem
  · exact h' differ slot mem

private theorem AllNamed.snoc {slots : List Slot} (h : AllNamed admitted loose slots) {slot : Slot}
    (named : loose = true → slot.format.Named admitted) :
    AllNamed admitted loose (slots ++ [slot]) := by
  refine h.append fun differ slot' mem => ?_
  rw [List.mem_singleton.mp mem]
  exact named differ

end Slot

private theorem Run.fair_addMembers {m m' : Members} (paired : PairedMembers admitted m m') :
    Twins w.States Eq (addMembers m) (addMembers m') := by
  intro s t states
  obtain ⟨handle, stores⟩ := states.store.add paired
  exact .ok handle ⟨states.stream, states.context, stores⟩

private theorem Run.fair_snapshot (start limit : Nat) (path : Path) :
    (snapshot start limit path).Fair w :=
  .bind Run.fair_tell fun pos => .bind (fair_goTo start) fun _ => .bind (fair_read _ path) fun _ =>
    .bind (fair_goTo pos) fun _ => fair_pure _

private theorem pairedMembers_of_contexts {depth : Nat} {ctx ctx' : Context}
    (contexts : PairedContexts loose depth ctx ctx') {slots : List Slot}
    (named : Slot.AllNamed admitted loose slots) (data : List UInt8) (base : Nat) (chained : Bool) :
    PairedMembers admitted ⟨data, base, ctx, slots, chained⟩ ⟨data, base, ctx', slots, chained⟩ :=
  ⟨rfl, rfl, rfl, rfl, loose, PairedFrames.shallow contexts, named⟩

namespace Codec

variable {e : Engine} {p : Part} {ps : List Part} {x y : Expr}

/-! ## Walking over members -/

private theorem twins_fillSlots (fair : e.Fair admitted) : ∀ {slots : List Slot},
    Slot.AllNamed admitted loose slots →
    Twins w.States (Agreed (Slot.AllNamed admitted loose)) (fillSlots e slots) (fillSlots e slots)
  | [], named => twins_pure ⟨rfl, named⟩
  | slot :: rest, named => by
      have first : loose = true → slot.format.Named admitted :=
        fun differ => named differ slot List.mem_cons_self
      have later : Twins w.States (Agreed (Slot.AllNamed admitted loose)) (fillSlots e rest)
          (fillSlots e rest) := twins_fillSlots fair fun differ slot mem =>
        named differ slot (List.mem_cons_of_mem _ mem)
      have done : ∀ slot' : Slot, slot'.format = slot.format →
          Twins w.States (Agreed (Slot.AllNamed admitted loose))
            (do return slot' :: (← fillSlots e rest))
            (do return slot' :: (← fillSlots e rest)) := by
        intro slot' same
        refine later.agreed fun others known => twins_pure ⟨rfl, fun differ s mem => ?_⟩
        rcases List.mem_cons.mp mem with rfl | mem
        · rw [same]
          exact first differ
        · exact known differ s mem
      obtain ⟨name, offset, format, place, index, cache⟩ := slot
      rw [fillSlots]
      cases cache with
      | some v => exact done _ rfl
      | none =>
          refine (fair_goTo offset).both fun _ =>
            (fair.parse w format place first).tagged.both fun v => ?_
          cases name with
          | none => exact done ⟨none, offset, format, place, index, some v⟩ rfl
          | some name =>
              exact (fair_insert name v).both fun _ =>
                done ⟨some name, offset, format, place, index, some v⟩ rfl

private theorem twins_materialize (fair : e.Fair admitted) {slots : List Slot}
    (named : Slot.AllNamed admitted loose slots) :
    Twins w.States (Agreed (Slot.AllNamed admitted loose)) (materialize e slots)
      (materialize e slots) :=
  Run.fair_tell.both fun back => (twins_fillSlots fair named).agreed fun _ known =>
    (fair_goTo back).both fun _ => twins_pure ⟨rfl, known⟩

private theorem twins_scanEmbedded (h : p.Fair admitted loose) (offset : Nat) (place : Path) :
    Twins w.pushed.States (Agreed (Slot.AllNamed admitted loose)) (scanEmbedded p offset place)
      (scanEmbedded p offset place) := by
  refine twins_context.bind fun ctx ctx' before => ?_
  refine (h.codec.parseInline w place false).both fun _ => twins_context.bind fun _ _ after => ?_
  rw [PairedContexts.innermost before, PairedContexts.innermost after]
  refine twins_pure ⟨rfl, fun differ slot mem => ?_⟩
  obtain ⟨_, -, rfl⟩ := List.mem_map.mp mem
  exact h.named differ

private theorem fair_skippable (h : p.codec.Fair admitted loose) (place : Path) :
    (skippable? p place).Fair w := by
  refine .bind (h.sizeNow place).outcome fun found => ?_
  cases found with
  | ok n => exact fair_pure _
  | error failure => exact fair_pure _

private theorem twins_scanMembers (fair : e.Fair admitted) (isStruct : Bool) (path : Path)
    (h : ∀ p ∈ ps, p.Fair admitted loose) (i : Nat) {slots : List Slot}
    (named : Slot.AllNamed admitted loose slots) :
    Twins w.pushed.States (Agreed (Slot.AllNamed admitted loose))
      (scanMembers e isStruct path i ps slots) (scanMembers e isStruct path i ps slots) := by
  induction ps generalizing i slots with
  | nil => exact twins_pure ⟨rfl, named⟩
  | cons member rest ih =>
      have here := h member List.mem_cons_self
      have later : ∀ {slots : List Slot}, Slot.AllNamed admitted loose slots →
          Twins w.pushed.States (Agreed (Slot.AllNamed admitted loose))
            (scanMembers e isStruct path (i + 1) rest slots)
            (scanMembers e isStruct path (i + 1) rest slots) :=
        fun known => ih (fun p mem => h p (List.mem_cons_of_mem member mem)) (i + 1) known
      refine Run.fair_tell.both fun offset => twins_ite ?_ ?_
      · exact (twins_materialize fair named).agreed fun slots known =>
          (twins_scanEmbedded here offset _).agreed fun added known' => later (known.append known')
      · refine (fair_skippable here.codec _).both fun size => ?_
        cases size with
        | some n =>
            exact twins_guard ((Run.fair_seek _ _).both fun _ => later (named.snoc here.named))
        | none =>
            exact (twins_materialize fair named).agreed fun slots known =>
              (here.codec.parsePart _).both fun v => (fair_noteItem member v).both fun _ =>
                later (known.snoc here.named)

private theorem twins_scan (fair : e.Fair admitted) (isStruct : Bool) (path : Path)
    (h : ∀ p ∈ ps, p.Fair admitted loose) :
    Twins w.pushed.States (Agreed (Slot.AllNamed admitted loose)) (scan e isStruct ps path)
      (scan e isStruct ps path) :=
  (twins_scanMembers fair isStruct path h 0 Slot.allNamed_nil).agreed fun _ known =>
    Run.fair_tell.both fun _ => fair_size.both fun _ =>
      twins_ite (twins_materialize fair known) (twins_pure ⟨rfl, known⟩)

private theorem fair_scanRecord (fair : e.Fair admitted) (isStruct : Bool) (path : Path)
    (h : ∀ p ∈ ps, p.Fair admitted loose) : (scanRecord e isStruct ps path).Fair w := by
  have inside : Twins w.pushed.States
      (fun a b => Agreed (Slot.AllNamed admitted loose) a.1 b.1 ∧
        PairedContexts loose (w.depth + 1) a.2 b.2)
      (do
        let slots ← scan e isStruct ps path
        return (slots, ← Run.context))
      (do
        let slots ← scan e isStruct ps path
        return (slots, ← Run.context)) :=
    (twins_scan fair isStruct path h).agreed fun slots known => twins_context.bind
      fun _ _ contexts => twins_pure ⟨⟨rfl, known⟩, contexts⟩
  refine .bind Run.fair_tell fun start => (twins_inFrame inside []).bind fun a b related => ?_
  obtain ⟨⟨slots, ctx⟩, frame⟩ := a
  obtain ⟨⟨slots', ctx'⟩, frame'⟩ := b
  obtain ⟨⟨⟨same, known⟩, contexts⟩, -⟩ := related
  obtain rfl : slots = slots' := same
  exact Twins.both Run.fair_tell fun reached =>
    Twins.both (fair_snapshot start reached path) fun data =>
      (fair_addMembers (pairedMembers_of_contexts contexts known data start true)).both fun _ =>
        fair_pure _

theorem fair_lazyStruct (fair : e.Fair admitted) (h : ∀ p ∈ ps, p.Fair admitted loose) :
    (lazyStruct e ps).Fair admitted loose where
  parse _ path := .bind (fair_scanRecord fair true path h) fun _ => fair_pure _
  parseInline _ _ _ := fair_fail _ _
  size := (fair_struct (e := e) (fun p mem => (h p mem).codec) false).size

theorem fair_lazySequence (fair : e.Fair admitted) (h : ∀ p ∈ ps, p.Fair admitted loose) :
    (lazySequence e ps).Fair admitted loose where
  parse _ path := .bind (fair_scanRecord fair false path h) fun _ => fair_pure _
  parseInline _ _ _ := fair_fail _ _
  size := (fair_sequence (e := e) fun p mem => (h p mem).codec).size

/-! ## Lists -/

private theorem fair_lazyElements (h : p.Fair admitted loose) (count size : Nat) (path : Path) :
    (lazyElements p count size path).Fair w := by
  refine .bind Run.fair_tell fun start => .bind fair_size fun _ => fair_guard ?_
  refine .bind (fair_snapshot start _ path) fun data => .bind (fair_goTo _) fun _ =>
    twins_context.bind fun ctx ctx' contexts => ?_
  have named : Slot.AllNamed admitted loose ((List.range count).map fun i =>
      (⟨none, start + i * size, p.format, path.element i, some i, none⟩ : Slot)) := by
    intro differ slot mem
    obtain ⟨_, -, rfl⟩ := List.mem_map.mp mem
    exact h.named differ
  exact (fair_addMembers (pairedMembers_of_contexts contexts named data start false)).both fun _ =>
    fair_pure _

private theorem fair_parsedElements (h : p.Fair admitted loose) (v : Value) (path : Path) :
    (parsedElements p v path).Fair w := by
  refine twins_context.bind fun ctx ctx' contexts =>
    (fair_addMembers (pairedMembers_of_contexts contexts ?_ [] 0 false)).both fun _ => fair_pure _
  intro differ slot mem
  obtain ⟨_, -, rfl⟩ := List.mem_map.mp mem
  exact h.named differ

theorem fair_lazyArray (fair : e.Fair admitted) (named : loose = true → x.isNamed)
    (h : p.Fair admitted loose) : (lazyArray e x p).Fair admitted loose where
  parse w path := by
    have eager := fair_array fair named h.codec false
    refine .bind (e.fair_evalSize fair named path) fun n =>
      .bind (h.codec.sizeNow _).outcome fun found => ?_
    cases found with
    | ok size => exact fair_lazyElements h n size path
    | error failure => exact .bind (eager.parse w path) fun v => fair_parsedElements h v path
  parseInline _ _ _ := fair_fail _ _
  size := (fair_array fair named h.codec false).size

theorem fair_lazyRange (fair : e.Fair admitted) (named : loose = true → x.isNamed ∧ y.isNamed)
    (h : p.Fair admitted loose) : (lazyRange e x y p).Fair admitted loose where
  parse w path := by
    have eager := fair_range fair named h.codec false
    refine .bind (fair_skippable h.codec _) fun found => ?_
    cases found with
    | none => exact .bind (eager.parse w path) fun v => fair_parsedElements h v path
    | some size =>
        exact .bind (e.fair_evalSize fair (fun differ => (named differ).1) path) fun _ =>
          .bind (e.fair_evalSize fair (fun differ => (named differ).2) path) fun _ =>
            .bind fair_size fun _ => .bind Run.fair_tell fun _ =>
              fair_guard (fair_lazyElements h _ size path)
  parseInline _ _ _ := fair_fail _ _
  size contexts path := by
    have least := e.alike_staticSize fair (fun differ => (named differ).1) path contexts
    have most := e.alike_staticSize fair (fun differ => (named differ).2) path contexts
    exact least.both fun least => most.both fun _ =>
      twins_ite (alike_unsized _ path) (alike_productSize h.codec least contexts path)

end Codec

end BinaryFormat
