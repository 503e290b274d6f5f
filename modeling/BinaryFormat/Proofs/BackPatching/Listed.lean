import BinaryFormat.Proofs.BackPatching.Members

/-!
# Items behind a component

In a sequence, and in a sequence of which one item is the value, the component is one of the items
that are built.
-/

namespace BinaryFormat

open Format (labelOf notedAs parts NestedAll OverlooksAll Unseen)
open Run (InStep)

variable {e : Engine} {defs : Definitions} {of : Format} {width : Nat} {p : Patch} {v : Value}
  {stored : List UInt8} {layers : List Layer} {layer : Layer} {f g : Format} {path : Path}
  {s : State} {before after : List Format} {front back : List (Part × Value)} {u : Value}

/-! ## The items and their inputs -/

theorem Items.unique {frame frame' : Record Value} {pairs pairs' : List (Part × Value)} {w : Value}
    {s₁ s₁' : State} (h : Items e defs f w path s pairs frame s₁)
    (h' : Items e defs f w path s pairs' frame' s₁') :
    pairs' = pairs ∧ frame' = frame ∧ s₁' = s₁ := by
  cases h with
  | sequence given =>
      cases h' with
      | sequence given' =>
          cases given.symm.trans given'
          exact ⟨rfl, rfl, rfl⟩
  | focused chosen =>
      cases h' with
      | focused chosen' =>
          cases chosen.symm.trans chosen'
          exact ⟨rfl, rfl, rfl⟩

namespace Codec

private theorem preload_congr {pairs pairs' : List (Part × Value)}
    (same : pairs.map (fun pair => (pair.1.name?, pair.2)) =
      pairs'.map fun pair => (pair.1.name?, pair.2)) : preload pairs = preload pairs' := by
  have keyed (pairs : List (Part × Value)) : preload pairs =
      Record.ofList ((pairs.map fun pair => (pair.1.name?, pair.2)).filterMap
        fun entry => entry.1.map fun name => (name, entry.2)) := by
    rw [List.filterMap_map]
    rfl
  rw [keyed, keyed, same]

private theorem zip_spread {α β : Type} (xs ys : List α) {zs : List β}
    (enough : xs.length < zs.length)
    (y : α) :
    (xs ++ y :: ys).zip zs = xs.zip (zs.take xs.length) ++
      (y, zs[xs.length]) :: ys.zip (zs.drop (xs.length + 1)) := by
  have parted : zs = zs.take xs.length ++ zs[xs.length] :: zs.drop (xs.length + 1) := by
    rw [← List.drop_eq_getElem_cons enough, List.take_append_drop]
  have same : xs.length = (zs.take xs.length).length := by
    rw [List.length_take, Nat.min_eq_left enough.le]
  conv_lhs => rw [parted, List.zip_append same, List.zip_cons_cons]

private theorem zip_around {α β : Type} {xs ys : List α} {x x' : α} {zs : List β}
    {front back : List (α × β)} {u : β} (h : (xs ++ x :: ys).zip zs = front ++ (x', u) :: back)
    (place : xs.length = front.length) :
    (∀ y, (xs ++ y :: ys).zip zs = front ++ (y, u) :: back) ∧ u ∈ zs ∧
      (∀ pair ∈ front, pair.1 ∈ xs ∧ pair.2 ∈ zs) ∧ ∀ pair ∈ back, pair.1 ∈ ys ∧ pair.2 ∈ zs := by
  have enough : xs.length < zs.length := by
    have counted := congrArg List.length h
    simp only [List.length_zip, List.length_append, List.length_cons] at counted
    omega
  have spread := zip_spread xs ys enough
  rw [spread] at h
  obtain ⟨rfl, rest⟩ := List.append_inj h (by
    rw [List.length_zip, List.length_take]
    omega)
  injection rest with first rest
  obtain rfl : zs[xs.length] = u := congrArg Prod.snd first
  subst rest
  refine ⟨spread, List.getElem_mem enough, fun pair mem => ?_, fun pair mem => ?_⟩
  · obtain ⟨mine, given⟩ := List.of_mem_zip mem
    exact ⟨mine, List.mem_of_mem_take given⟩
  · obtain ⟨mine, given⟩ := List.of_mem_zip mem
    exact ⟨mine, List.mem_of_mem_drop given⟩

private theorem zipIdx_spread {α β : Type} (xs ys : List α) (give : Nat → β) (y : α) :
    ((xs ++ y :: ys).zipIdx.map fun entry => (entry.1, give entry.2)) =
      (xs.zipIdx.map fun entry => (entry.1, give entry.2)) ++ (y, give xs.length) ::
        (ys.zipIdx (xs.length + 1)).map fun entry => (entry.1, give entry.2) := by
  rw [List.zipIdx_append, List.map_append, List.zipIdx_cons, List.map_cons, Nat.zero_add]

private theorem zipIdx_around {α β : Type} {xs ys : List α} {x x' : α} (give : Nat → β)
    {front back : List (α × β)} {u : β}
    (h : ((xs ++ x :: ys).zipIdx.map fun entry => (entry.1, give entry.2)) =
      front ++ (x', u) :: back)
    (place : xs.length = front.length) :
    (∀ y, ((xs ++ y :: ys).zipIdx.map fun entry => (entry.1, give entry.2)) =
      front ++ (y, u) :: back) ∧
      u = give xs.length ∧ (∀ pair ∈ front, pair.1 ∈ xs ∧ ∃ j, pair.2 = give j) ∧
      ∀ pair ∈ back, pair.1 ∈ ys ∧ ∃ j, pair.2 = give j := by
  rw [zipIdx_spread] at h
  obtain ⟨rfl, rest⟩ := List.append_inj h (by simpa using place)
  injection rest with first rest
  obtain rfl : give xs.length = u := congrArg Prod.snd first
  subst rest
  refine ⟨zipIdx_spread xs ys give, rfl, fun pair mem => ?_, fun pair mem => ?_⟩
  · obtain ⟨⟨item, j⟩, there, rfl⟩ := List.mem_map.mp mem
    exact ⟨(List.fst_mem_of_mem_zipIdx there : (item, j).1 ∈ xs), j, rfl⟩
  · obtain ⟨⟨item, j⟩, there, rfl⟩ := List.mem_map.mp mem
    exact ⟨(List.fst_mem_of_mem_zipIdx there : (item, j).1 ∈ ys), j, rfl⟩

end Codec

private theorem Codec.length_of_buildItems {pairs : List (Part × Value)} {i : Nat}
    {values : List Value}
    {s' : State} (run : buildItems path i pairs s = .ok values s') :
    values.length = pairs.length := by
  induction pairs generalizing i s s' values with
  | nil =>
      obtain ⟨rfl, -⟩ := Run.pure_eq_ok_iff.mp run
      rfl
  | cons pair rest ih =>
      obtain ⟨built, s₁, -, run⟩ := Run.bind_eq_ok_iff.mp run
      obtain ⟨_, s₂, -, run⟩ := Run.bind_eq_ok_iff.mp run
      obtain ⟨others, s₃, later, last⟩ := Run.bind_eq_ok_iff.mp run
      obtain ⟨rfl, -⟩ := Run.pure_eq_ok_iff.mp last
      rw [List.length_cons, List.length_cons, ih later]

/-! ## Lists of items -/

namespace Layer

/-- Lists of items that differ in one place, where the component was built. -/
def ItemsAlike (layers : List Layer) (place : Path) (position : Nat)
    (items items' : List Value) : Prop :=
  ∃ first x x' last, items = first ++ x :: last ∧ items' = first ++ x' :: last ∧
    first.length = position ∧ Value.EagerItems items ∧ Format.Alike layers place x x'

/-- The items that are built with the component among them. -/
private theorem carries_of_items (wrap : List Value → Value) {inputs : Record Value}
    {values : List Value}
    {w b : Value} {s₀ s₁ s' : State} (means : e.Means defs) (quiet : p.Quiet e)
    (cell : of.Patchable width) (writes : of.Writes defs v stored) (facade : Format.Facade f g)
    (label : f.name? = labelOf layers)
    (steady : (f.codec e defs).Steady ⟨False, False, False, True⟩) (ahead : NestedAll before)
    (behind : NestedAll after)
    (place : layer.place (labelOf layers) path = path.item (labelOf layers) before.length)
    (unseen : Unseen e layers (path.item (labelOf layers) before.length) after)
    (calm : s.Calm) (calm₀ : s₀.Calm) (same : s₀.context = s.context)
    (count : before.length = front.length) (given : u.Eager)
    (early : ∀ pair ∈ front, pair.1 ∈ parts e defs before ∧ pair.2.Eager)
    (late : ∀ pair ∈ back, pair.1 ∈ parts e defs after ∧ pair.2.Eager)
    (clear : Value.EagerFields inputs)
    (listed : Items e defs (layer.around f) w path s
      (front ++ (⟨f, f.codec e defs⟩, u) :: back) inputs s₀)
    (split : ((layer.around f).codec e defs).build w path s =
      (do
        let x ← Run.inFrame inputs do
          let r ← Codec.buildItems path 0 (front ++ (Part.mk f (f.codec e defs), u) :: back)
          e.resolvePending
          return r
        return wrap x.1) s₀)
    (split' : ((layer.around g).codec e defs).build w path s =
      (do
        let x ← Run.inFrame inputs do
          let r ← Codec.buildItems path 0 (front ++ (Part.mk g (g.codec e defs), u) :: back)
          e.resolvePending
          return r
        return wrap x.1) s₀)
    (wraps : ∀ r r',
      ItemsAlike layers (path.item (labelOf layers) before.length) before.length r r' →
      (wrap r).Eager ∧ Format.Alike (layer :: layers) path (wrap r) (wrap r'))
    (done : Codec.buildItems path 0 front { s₀ with context := s₀.context.push inputs } =
      .ok values s₁)
    (run : ((layer.around f).codec e defs).build w path s = .ok b s') :
    u.Eager ∧ s₁.Calm ∧
      layer.CarriesAt e defs of width p v stored layers path f g w b s s' u s₁ := by
  obtain ⟨eagerFront, calm₁, frame, here, eagerFrame⟩ := calm₀.entered clear
    (Codec.inStep_buildItems Context.notes_same path 0 front fun pair mem =>
      ⟨by
        rintro frame _ ⟨rfl, -⟩
        exact (Format.unaware_parts e defs ahead (Format.overlooksAll_refl e _ ahead) _
          (early pair mem).1).1, (early pair mem).2⟩) done
  -- The items in front are the same in both runs, and the ones behind do not see the difference.
  refine ⟨given, calm₁, carries_of_members _ _ (fun x => wrap x.1) inputs
    (ItemsAlike layers (path.item (labelOf layers) before.length) before.length)
    means quiet cell writes calm same split split' (fun s₃ => ⟨fun gathered => ?_, ?_⟩)
    (fun r r' _ _ fine _ => wraps r r' fine) (fun r s₃ built => ?_) run⟩
  · cases gathered with
    | struct => cases listed
    | items listed' done' =>
        obtain ⟨rfl, rfl, rfl⟩ := listed.unique listed'
        exact ⟨_, done'⟩
  · rintro ⟨r, built⟩
    exact .items listed built
  · rw [Codec.buildItems_append, Run.bind_of_ok done, Nat.zero_add, ← count] at built
    obtain ⟨others, s₄, tail, last⟩ := Run.bind_eq_ok_iff.mp built
    obtain ⟨rfl, rfl⟩ := Run.pure_eq_ok_iff.mp last
    rw [Codec.buildItems] at tail
    obtain ⟨b₁, s₂, child, tail⟩ := Run.bind_eq_ok_iff.mp tail
    obtain ⟨_, s₂', noted, tail⟩ := Run.bind_eq_ok_iff.mp tail
    obtain ⟨later, s₄, rest, last⟩ := Run.bind_eq_ok_iff.mp tail
    obtain ⟨rfl, rfl⟩ := Run.pure_eq_ok_iff.mp last
    have mine : path.item (Part.name? ⟨f, f.codec e defs⟩) before.length =
        path.item (labelOf layers) before.length := congrArg (path.item · before.length) label
    rw [mine] at child
    have child := Part.build_eq_ok_iff.mp child
    obtain ⟨dead, alive⟩ := members_behind of width p stored g
      (Codec.buildItems path (before.length + 1) back) Value.EagerItems
      (fun notes agree => Codec.inStep_buildItems notes path _ back fun pair mem =>
        ⟨fun frame frame' related => (Format.unaware_parts e defs behind
          (agree frame frame' related) _ (late pair mem).1).1, (late pair mem).2⟩)
      behind unseen facade.name label here eagerFrame (Codec.growing_of_build steady calm₁ child)
      noted rest
    rw [same] at dead alive
    rw [place]
    refine ⟨b₁, s₂, child, dead, fun b₂ t₂ known met => ?_⟩
    obtain ⟨t₂', t₃, queue, offset, bytes, noted', rest', eagerBack, left, abreast⟩ :=
      alive b₂ t₂ met
    have eagerItems : Value.EagerItems (values ++ b₁ :: later) := by
      rw [Value.eagerItems_iff] at eagerFront eagerBack ⊢
      intro item mem
      rcases List.mem_append.mp mem with mem | mem
      · exact eagerFront item mem
      · rcases List.mem_cons.mp mem with rfl | mem
        · exact met.eager
        · exact eagerBack item mem
    refine ⟨values ++ b₂ :: later, t₃, queue, offset, bytes, ?_,
      ⟨values, b₁, b₂, later, rfl, rfl, ?_, eagerItems, met.alike⟩, left, abreast⟩
    · have theirs : path.item (Part.name? ⟨g, g.codec e defs⟩) before.length =
          path.item (labelOf layers) before.length :=
        congrArg (path.item · before.length) (facade.name.symm.trans label)
      have ends : Codec.buildItems path before.length (⟨⟨g, g.codec e defs⟩, u⟩ :: back) s₁ =
          .ok (b₂ :: later) t₃ := by
        rw [Codec.buildItems, theirs, Run.bind_of_ok (Part.build_of_ok known),
          Run.bind_of_ok noted', Run.bind_of_ok rest']
        rfl
      rw [Codec.buildItems_append, Run.bind_of_ok done, Nat.zero_add, ← count, Run.bind_of_ok ends]
      rfl
    · rw [Codec.length_of_buildItems done, ← count]

theorem carries_sequence (means : e.Means defs) (quiet : p.Quiet e)
    (cell : of.Patchable width) (writes : of.Writes defs v stored) (facade : Format.Facade f g)
    (label : f.name? = labelOf layers)
    (steady : (f.codec e defs).Steady ⟨False, False, False, True⟩) (ahead : NestedAll before)
    (behind : NestedAll after)
    (unseen : Unseen e layers (path.item (labelOf layers) before.length) after) :
    (sequence before after).Carries e defs of width p v stored layers path f g := by
  intro w s b s' u s₁ calm eager run entered
  cases entered with
  | @items _ front back inputs values _ _ _ _ s₀ _ listed place done =>
      have listed₀ := listed
      generalize pairs : front ++ (⟨f, f.codec e defs⟩, u) :: back = all at listed
      cases listed with
      | @sequence _ input _ _ _ _ given =>
      obtain ⟨calm₀, same⟩ := calm.of_keeps e.keeps_listInput given
      have clear := ((Engine.inStep_listInput eager path).alone calm.alone given).1
      rw [Format.parts_append] at pairs
      have count : (parts e defs before).length = front.length :=
        (Format.length_parts e defs before).trans place
      obtain ⟨swap, mem, early, late⟩ := Codec.zip_around pairs.symm count
      have each := Value.eagerItems_iff.mp clear
      have enough : input.length = (parts e defs (before ++ f :: after)).length := by
        have rest := Run.rest_of_bind given run
        exact Decidable.not_not.mp (Run.guard_eq_ok_iff.mp rest).1
      -- With either format as the item, the items start out with the same entries, as these go by
      -- names.
      have split (h : Format) (facade : f.name? = h.name?) :
          ((Layer.around (.sequence before after) h).codec e defs).build w path s =
          (do
            let x ← Run.inFrame (Codec.preload ((parts e defs (before ++ f :: after)).zip input)) do
              let r ← Codec.buildItems path 0 (front ++ (Part.mk h (h.codec e defs), u) :: back)
              e.resolvePending
              return r
            return Value.list x.1) s₀ := by
        have theirs : parts e defs (before ++ h :: after) =
            parts e defs before ++ ⟨h, h.codec e defs⟩ :: parts e defs after :=
          Format.parts_append ..
        have enough : ¬ input.length ≠ (parts e defs (before ++ h :: after)).length := by
          rw [enough, Format.length_parts, Format.length_parts, List.length_append,
            List.length_append]
          exact fun differ => differ rfl
        have inputs : Codec.preload ((parts e defs (before ++ f :: after)).zip input) =
            Codec.preload (front ++ (Part.mk h (h.codec e defs), u) :: back) := by
          rw [Format.parts_append]
          refine (congrArg Codec.preload pairs.symm).trans (Codec.preload_congr ?_)
          rw [List.map_append, List.map_append, List.map_cons, List.map_cons]
          simp only [Part.name?, facade]
        simp only [around, Format.codec, Codec.sequence]
        rw [Run.bind_of_ok given, if_neg enough, theirs, swap, inputs]
      have wraps (r r' : List Value) (h : ItemsAlike layers
          (path.item (labelOf layers) before.length) before.length r r') :
          (Value.list r).Eager ∧
            Format.Alike (.sequence before after :: layers) path (.list r) (.list r') := by
        obtain ⟨first, x, x', last, rfl, rfl, length, clear, alike⟩ := h
        exact ⟨clear, first, x, x', last, rfl, rfl, length, alike⟩
      exact carries_of_items .list means quiet cell writes facade label steady ahead behind rfl
        unseen calm calm₀ same place (each u mem)
        (fun pair mem => ⟨(early pair mem).1, each _ (early pair mem).2⟩)
        (fun pair mem => ⟨(late pair mem).1, each _ (late pair mem).2⟩)
        (Codec.eager_preload fun pair mem => each _ (List.of_mem_zip mem).2) listed₀ (split f rfl)
        (split g facade.name)
        wraps done run

private theorem ItemsAlike.getD {place : Path} {position : Nat} {items items' : List Value}
    (h : ItemsAlike layers place position items items') (i : Nat) :
    (items.getD i .none).Eager ∧ if i = position
      then Format.Alike layers place (items.getD i .none) (items'.getD i .none)
      else items.getD i .none = items'.getD i .none := by
  obtain ⟨first, x, x', last, rfl, rfl, rfl, clear, alike⟩ := h
  refine ⟨Codec.eager_getD clear i, ?_⟩
  simp only [List.getD_eq_getElem?_getD]
  split
  · next here =>
      subst here
      simpa using alike
  · next elsewhere =>
      rcases Nat.lt_or_gt_of_ne elsewhere with early | late
      · rw [List.getElem?_append_left early, List.getElem?_append_left early]
      · obtain ⟨k, rfl⟩ : ∃ k, i = first.length + (k + 1) :=
          ⟨i - first.length - 1, by omega⟩
        rw [List.getElem?_append_right (by omega), List.getElem?_append_right (by omega),
          Nat.add_sub_cancel_left, List.getElem?_cons_succ, List.getElem?_cons_succ]

theorem carries_focused (focus : Selector) (means : e.Means defs) (quiet : p.Quiet e)
    (cell : of.Patchable width) (writes : of.Writes defs v stored) (facade : Format.Facade f g)
    (label : f.name? = labelOf layers)
    (steady : (f.codec e defs).Steady ⟨False, False, False, True⟩) (ahead : NestedAll before)
    (behind : NestedAll after)
    (unseen : Unseen e layers (path.item (labelOf layers) before.length) after) :
    (focused focus before after).Carries e defs of width p v stored layers path f g := by
  intro w s b s' u s₁ calm eager run entered
  cases entered with
  | @items _ front back inputs values _ _ _ _ s₀ _ listed place done =>
      have listed₀ := listed
      generalize pairs : front ++ (⟨f, f.codec e defs⟩, u) :: back = all at listed
      cases listed with
      | @focused _ _ i _ _ _ _ chosen =>
      obtain ⟨calm₀, same⟩ := calm.of_keeps (Codec.keeps_focusIndex _ _ path) chosen
      have give (j : Nat) : (if j = i then w else Value.none).Eager := by
        split
        · exact eager
        · trivial
      have count : (parts e defs before).length = front.length :=
        (Format.length_parts e defs before).trans place
      have spread := pairs
      rw [Format.parts_append] at spread
      obtain ⟨swap, gets, early, late⟩ := Codec.zipIdx_around
        (fun j => if j = i then w else Value.none) spread.symm count
      obtain ⟨position, unmoved⟩ := Format.focusIndex_eq_ok_iff.mp chosen
      -- With either format as the item, the selector chooses the same position.
      have split (h : Format) (facade : f.name? = h.name?) :
          ((Layer.around (.focused focus before after) h).codec e defs).build w path s =
          (do
            let x ← Run.inFrame (Codec.preload ((((parts e defs (before ++ f :: after)).zipIdx.map
                fun entry : Part × Nat =>
                  (entry.1, if entry.2 = i then w else Value.none)).drop i).take 1)) do
              let r ← Codec.buildItems path 0 (front ++ (Part.mk h (h.codec e defs), u) :: back)
              e.resolvePending
              return r
            return x.1.getD i Value.none) s₀ := by
        have theirs : parts e defs (before ++ h :: after) =
            parts e defs before ++ ⟨h, h.codec e defs⟩ :: parts e defs after :=
          Format.parts_append ..
        have chosen' : Codec.focusIndex focus (parts e defs (before ++ h :: after)) path s =
            .ok i s₀ :=
          Format.focusIndex_eq_ok_iff.mpr
            ⟨Format.position?_congr facade focus before after ▸ position, unmoved⟩
        simp only [around, Format.codec, Codec.focused]
        rw [Run.bind_of_ok chosen', theirs, swap, ← pairs]
        have inputs :
            Codec.preload (((front ++ (Part.mk f (f.codec e defs), u) :: back).drop i).take 1) =
            Codec.preload (((front ++ (Part.mk h (h.codec e defs), u) :: back).drop i).take 1) := by
          refine Codec.preload_congr ?_
          rw [List.map_take, List.map_drop, List.map_take, List.map_drop, List.map_append,
            List.map_append, List.map_cons, List.map_cons]
          simp only [Part.name?, facade]
        rw [inputs]
      refine carries_of_items (·.getD i .none) means quiet cell writes facade label steady ahead
        behind rfl unseen calm calm₀ same place (gets ▸ give _)
        (fun pair mem => ⟨(early pair mem).1, ?_⟩) (fun pair mem => ⟨(late pair mem).1, ?_⟩)
        (Codec.eager_preload fun pair mem => ?_) listed₀ (split f rfl) (split g facade.name)
        (fun r r' fine => ?_) done run
      · obtain ⟨-, j, gives⟩ := early pair mem
        exact gives ▸ give j
      · obtain ⟨-, j, gives⟩ := late pair mem
        exact gives ▸ give j
      · obtain ⟨⟨item, j⟩, -, rfl⟩ :=
          List.mem_map.mp (List.mem_of_mem_drop (List.mem_of_mem_take mem))
        exact give j
      · obtain ⟨clear, alike⟩ := fine.getD i
        refine ⟨clear, ?_⟩
        have chooses :
            Format.position? focus (before ++ Format.within layers .pass :: after) = some i :=
          (Format.position?_congr ((Format.name?_within rfl layers).trans label.symm) focus before
            after).trans position
        simp only [Format.Alike, chooses, Option.some.injEq]
        exact alike

theorem enters_sequence {w b : Value} {s' : State}
    (run : (((sequence before after).around f).codec e defs).build w path s = .ok b s') :
    ∃ u s₁, (sequence before after).Enters e defs f w path s u s₁ := by
  obtain ⟨input, s₀, given, run⟩ := Run.bind_eq_ok_iff.mp run
  obtain ⟨enough, run⟩ := Run.guard_eq_ok_iff.mp run
  obtain ⟨x, s₁, framed, -⟩ := Run.bind_eq_ok_iff.mp run
  obtain ⟨s₂, inside, -, -⟩ := Run.ok_of_inFrame framed
  obtain ⟨_, s₃, built, -⟩ := Run.bind_eq_ok_iff.mp inside
  have length : (parts e defs before).length < input.length := by
    rw [Decidable.not_not.mp enough, Format.length_parts, Format.length_parts, List.length_append,
      List.length_cons]
    omega
  have pairs := Codec.zip_spread (parts e defs before) (parts e defs after) length
    (Part.mk f (f.codec e defs))
  have theirs : parts e defs (before ++ f :: after) =
      parts e defs before ++ ⟨f, f.codec e defs⟩ :: parts e defs after := Format.parts_append ..
  have listed : Items e defs ((sequence before after).around f) w path s
      ((parts e defs (before ++ f :: after)).zip input) _ s₀ := .sequence given
  rw [theirs, pairs, Codec.buildItems_append] at built
  rw [theirs, pairs] at listed
  obtain ⟨values, s₄, done, -⟩ := Run.bind_eq_ok_iff.mp built
  refine ⟨_, s₄, .items listed ?_ done⟩
  rw [List.length_zip, List.length_take, Nat.min_eq_left length.le, Nat.min_self,
    Format.length_parts]
  rfl

theorem enters_focused (focus : Selector) {w b : Value} {s' : State}
    (run : (((focused focus before after).around f).codec e defs).build w path s = .ok b s') :
    ∃ u s₁, (focused focus before after).Enters e defs f w path s u s₁ := by
  obtain ⟨i, s₀, chosen, run⟩ := Run.bind_eq_ok_iff.mp run
  obtain ⟨x, s₁, framed, -⟩ := Run.bind_eq_ok_iff.mp run
  obtain ⟨s₂, inside, -, -⟩ := Run.ok_of_inFrame framed
  obtain ⟨_, s₃, built, -⟩ := Run.bind_eq_ok_iff.mp inside
  have pairs := Codec.zipIdx_spread (parts e defs before) (parts e defs after)
    (fun j => if j = i then w else Value.none) (Part.mk f (f.codec e defs))
  have theirs : parts e defs (before ++ f :: after) =
      parts e defs before ++ ⟨f, f.codec e defs⟩ :: parts e defs after := Format.parts_append ..
  have listed : Items e defs ((focused focus before after).around f) w path s
      ((parts e defs (before ++ f :: after)).zipIdx.map
        fun entry => (entry.1, if entry.2 = i then w else Value.none)) _ s₀ :=
    .focused chosen
  rw [theirs, pairs, Codec.buildItems_append] at built
  rw [theirs, pairs] at listed
  obtain ⟨values, s₄, done, -⟩ := Run.bind_eq_ok_iff.mp built
  refine ⟨_, s₄, .items listed ?_ done⟩
  rw [List.length_map, List.length_zipIdx, Format.length_parts]
  rfl

end Layer

end BinaryFormat
