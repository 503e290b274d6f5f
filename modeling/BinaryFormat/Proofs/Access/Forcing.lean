import BinaryFormat.Proofs.Access.Resolving

/-!
# Reading and forcing lazy values

A member is resolved after the named ones before it; if it is known, so are they, and
nothing is left to do.  Resolving a member thus comes to the same whatever is known,
and so does forcing a value.
-/

namespace BinaryFormat

open Codec Lookup

variable {l : Lineage} {σ τ : LazyStore} {h k : Handle} {m m' : Members} {i : Nat}
  {slot slot' : Slot} {ctx ctx' : Context} {v v' : Value} {e e' : Engine}

/-! ## Resolving -/

private theorem getElem?_of_drop {α : Type} {as rest : List α} {a : α} {i : Nat}
    (h : as.drop i = a :: rest) : as[i]? = some a := by
  have first := congrArg List.head? h
  rwa [List.head?_drop, List.head?_cons] at first

private theorem drop_of_drop {α : Type} {as rest : List α} {a : α} {i : Nat}
    (h : as.drop i = a :: rest) :
    as.drop (i + 1) = rest := by
  have later := congrArg List.tail h
  rwa [List.tail_drop, List.tail_cons] at later

/-- Where a member and the named ones before it are known, walking up to it changes nothing. -/
private theorem chain_of_known {parse : Format → Path → Run Value}
    (members : σ.members? h = some m) :
    ∀ {slots : List Slot} {i more : Nat} {ctx : Context}, m.slots.drop i = slots →
      σ.cached? h (i + more) = some v →
      (∀ j < i + more, ∀ slot, m.slots[j]? = some slot → slot.name ≠ none →
        (σ.cached? h j).isSome) →
      Members.chain parse h m slots i more ctx σ = .ok v σ := by
  intro slots
  induction slots with
  | nil =>
      intro i more _ rest known _
      obtain ⟨slot, here⟩ := LazyStore.slot_of_cached members known
      have outside := List.drop_eq_nil_iff.mp rest
      rw [List.getElem?_eq_none (by omega)] at here
      cases here
  | cons slot rest ih =>
      intro i more ctx here known before
      cases more with
      | zero => exact value_of_cached known
      | succ more =>
          have next : i + (more + 1) = i + 1 + more := by omega
          rw [next] at known before
          have later : ∀ ctx, Members.chain parse h m rest (i + 1) more ctx σ = .ok v σ :=
            fun ctx => ih (drop_of_drop here) known before
          rw [Members.chain]
          cases named : slot.name with
          | none => exact later ctx
          | some name =>
              obtain ⟨w, cached⟩ := Option.isSome_iff_exists.mp
                (before i (by omega) slot (getElem?_of_drop here)
                  (by rw [named]; exact Option.some_ne_none name))
              dsimp only
              rw [Run.bind_of_ok (value_of_cached cached)]
              exact later _

/-- The named members that a walk has passed are known from then on. -/
theorem known_of_chain (lasting : e.Lasting) : ∀ {slots : List Slot} {i more j : Nat}
    {ctx : Context} {σ : LazyStore}, σ.members? h = some m → m.slots.drop i = slots →
      Members.chain e.parse h m slots i more ctx σ = .ok v τ → i ≤ j → j < i + more →
      ∀ {passed : Slot}, m.slots[j]? = some passed → passed.name ≠ none → (τ.cached? h j).isSome
  | [], i, more, j, _, _, _, rest, _, after, _, _, here, _ => by
      have outside := List.drop_eq_nil_iff.mp rest
      rw [List.getElem?_eq_none (by omega)] at here
      cases here
  | _ :: _, i, 0, j, _, _, _, _, _, after, before, _, _, _ => by omega
  | slot :: rest, i, more + 1, j, ctx, σ, members, at_i, run, after, before, passed,
      here, named => by
      rw [Members.chain] at run
      rcases Nat.eq_or_lt_of_le after with rfl | further
      · obtain rfl : slot = passed := Option.some.inj ((getElem?_of_drop at_i).symm.trans here)
        obtain ⟨name, called⟩ := Option.ne_none_iff_exists'.mp named
        rw [called] at run
        obtain ⟨w, σ₁, first, run⟩ := Run.bind_eq_ok_iff.mp run
        obtain ⟨w', known⟩ := Option.isSome_iff_exists.mp
          (known_of_value lasting members (getElem?_of_drop at_i) first)
        have grown := lasts_chain (h := h) (m := m) lasting rest (i + 1) more (ctx.insert name w) σ₁
        rw [run] at grown
        exact Option.isSome_iff_exists.mpr ⟨w', grown.cached known⟩
      · have within : j < i + 1 + more := by omega
        cases called : slot.name with
        | none =>
            rw [called] at run
            exact known_of_chain lasting members (drop_of_drop at_i) run further within here named
        | some name =>
            rw [called] at run
            obtain ⟨w, σ₁, first, run⟩ := Run.bind_eq_ok_iff.mp run
            have grown := lasts_value lasting h m i slot ctx σ
            rw [first] at grown
            exact known_of_chain lasting (grown.members members) (drop_of_drop at_i) run further
              within here named

/-- In a chain a member is found by walking up to it, even if it is known. -/
private theorem resolve_of_chained {parse : Format → Path → Run Value} (sound : Sound l σ)
    (members : σ.members? h = some m) (chained : m.chained = true) :
    Lookup.resolve parse h i σ = Members.chain parse h m m.slots 0 i m.context σ := by
  cases known : σ.cached? h i with
  | none => exact resolve_of_uncached members chained known
  | some v =>
      have start : 0 + i = i := Nat.zero_add i
      rw [resolve_of_cached members known]
      refine (chain_of_known members rfl (by rwa [start]) fun j less slot here named => ?_).symm
      rw [start] at less
      exact sound.known_before members chained known less here named

private theorem resolve_of_free {parse : Format → Path → Run Value}
    (members : σ.members? h = some m)
    (free : m.chained = false) : Lookup.resolve parse h i σ =
      (match m.slots[i]? with
        | some slot => Members.value parse h m i slot m.context
        | none => pure .none) σ := by
  have got : (get : Lookup Failure LazyStore) σ = .ok σ σ := rfl
  unfold Lookup.resolve Members.resolve
  rw [Run.bind_of_ok got, members]
  dsimp only
  rw [Run.bind_of_ok got]
  cases known : σ.cached? h i with
  | none =>
      dsimp only
      rw [free]
      rfl
  | some v =>
      obtain ⟨slot, here⟩ := LazyStore.slot_of_cached members known
      dsimp only
      rw [here]
      exact (value_of_cached known).symm

theorem lasts_resolve (lasting : e.Lasting) : Lasts (Lookup.resolve e.parse h i) := by
  intro σ
  have got : (get : Lookup Failure LazyStore) σ = .ok σ σ := rfl
  unfold Lookup.resolve
  rw [Run.bind_of_ok got]
  cases σ.members? h with
  | none => exact .refl σ
  | some m =>
      dsimp only
      unfold Members.resolve
      rw [Run.bind_of_ok got]
      cases σ.cached? h i with
      | some v => exact .refl σ
      | none =>
          dsimp only
          split
          · exact lasts_chain lasting _ _ _ _ σ
          · cases m.slots[i]? with
            | some slot => exact lasts_value lasting h m i slot m.context σ
            | none => exact .refl σ

section

variable {q : Setting} {w : World} {n n' : Nat}

/-- What is known of the members before a slot. -/
structure Row (l : Lineage) (h : Handle) (m : Members) (i : Nat) (ctx : Context) (σ : LazyStore) :
    Prop where
  members : σ.members? h = some m
  seen : Seen l σ h m i ctx

private theorem Row.grown {σ' : LazyStore} (row : Row l h m i ctx σ) (grown : σ.Grown σ') :
    Row l h m i ctx σ' :=
  ⟨grown.members row.members, row.seen.grown grown⟩

private theorem World.Holds.imp {P P' Q Q' : LazyStore → Prop} (holds : w.Holds P Q)
    (left : ∀ {σ}, P σ → P' σ) (right : ∀ {τ}, Q τ → Q' τ) : w.Holds P' Q' := by
  cases w with
  | apart => trivial
  | pair σ τ => exact ⟨left holds.1, right holds.2⟩

/-- Once the value of a named member is found, the next one sees it. -/
private theorem row_of_value (lasting : (l.engine n).Lasting) (sound : Sound l σ)
    (row : Row l h m i ctx σ) (chained : m.chained = true) (here : m.slots[i]? = some slot)
    {name : String} (named : slot.name = some name)
    (run : Members.value (l.engine n).parse h m i slot ctx σ = .ok v τ) :
    Row l h m (i + 1) (ctx.insert name v) τ := by
  have grown := lasts_value lasting h m i slot ctx σ
  rw [run] at grown
  have genuine := genuine_of_value lasting sound ⟨row.members, here, row.seen⟩ run
  have known := known_of_value lasting row.members here run
  exact ⟨grown.members row.members, .named (row.seen.grown grown) chained here named genuine known⟩

private theorem concurs_chain (peers : Peers q n n') (chained : m.chained = true)
    (chained' : m'.chained = true) : ∀ {w : World} {slots slots' : List Slot} {i more : Nat}
      {ctx ctx' : Context}, w.Related h k → List.Forall₂ (Slot.Matches w.Related) slots slots' →
      m.slots.drop i = slots → m'.slots.drop i = slots' →
      w.Holds (Row q.toLineage h m i ctx) (Row q.toLineage k m' i ctx') →
      ctx.Matches w.Related ctx' →
      Concurs q w .value (Members.chain (q.engine n).parse h m slots i more ctx)
        (Members.chain (q.engine n').parse k m' slots' i more ctx')
  | _, [], _, _, _, _, _, _, matched, _, _, _, _ => by
      cases matched
      exact concurs_pure (.plain trivial)
  | w, slot :: rest, _, i, 0, _, _, related, matched, here, here', row, contexts => by
      cases matched with
      | cons same later =>
          exact concurs_value peers related
            (row.imp (fun row => ⟨row.members, getElem?_of_drop here, row.seen⟩)
              fun row => ⟨row.members, getElem?_of_drop here', row.seen⟩) contexts
  | w, slot :: rest, _, i, more + 1, ctx, ctx', related, matched, here, here', row, contexts => by
      cases matched with
      | @cons _ slot' _ rest' same later =>
          have at_i := getElem?_of_drop here
          have at_i' := getElem?_of_drop here'
          rw [Members.chain, Members.chain, ← same.name]
          cases named : slot.name with
          | none =>
              exact concurs_chain peers chained chained' related later (drop_of_drop here)
                (drop_of_drop here')
                (row.imp (fun row => ⟨row.members, .unnamed row.seen chained at_i named⟩)
                  fun row => ⟨row.members, .unnamed row.seen chained' at_i' (same.name ▸ named)⟩)
                contexts
          -- What the member comes to is noted on both sides, so the rest of the walk starts from
          -- contexts that match again.
          | some name =>
              have first : Concurs q w .value
                  (Members.value (q.engine n).parse h m i slot ctx)
                  (Members.value (q.engine n').parse k m' i slot' ctx') :=
                    concurs_value peers related
                (row.imp (fun row => ⟨row.members, at_i, row.seen⟩)
                  fun row => ⟨row.members, at_i', row.seen⟩) contexts
              refine first.bind_known (fun v => Row q.toLineage h m (i + 1) (ctx.insert name v))
                (fun v => Row q.toLineage k m' (i + 1) (ctx'.insert name v)) ?_ ?_
                fun w' on v v' values row => concurs_chain peers chained chained'
                  (on.related h k related) (later.imp fun _ _ slot => slot.mono on.related)
                  (drop_of_drop here) (drop_of_drop here') row
                  ((contexts.mono on.related).insert name values)
              · intro s t v s' on meeting run
                obtain ⟨row, -⟩ := on.holds row (fun grown row => row.grown grown)
                  fun grown row => row.grown grown
                exact row_of_value peers.left meeting.left row chained at_i named run
              · intro s t v t' on meeting run
                obtain ⟨-, row⟩ := on.holds row (fun grown row => row.grown grown)
                  fun grown row => row.grown grown
                exact row_of_value peers.right meeting.right row chained' at_i'
                  (same.name ▸ named) run

/-- A member comes to the same on both sides, whatever is known on either. -/
theorem concurs_resolve (peers : Peers q n n') (related : w.Related h k) (i : Nat) :
    Concurs q w .value (Lookup.resolve (q.engine n).parse h i)
      (Lookup.resolve (q.engine n').parse k i) := by
  refine ⟨lasts_resolve peers.left, lasts_resolve peers.right, fun {σ τ} here meeting => ?_⟩
  have similar : Similar σ τ h k := here.related h k related
  have sound : Sound q.toLineage σ := meeting.left
  have sound' : Sound q.toLineage τ := meeting.right
  obtain ⟨m, m', members, members', matched⟩ := similar.members
  cases chained : m.chained with
  | true =>
      have chained' := matched.chained.symm.trans chained
      rw [resolve_of_chained sound members chained, resolve_of_chained sound' members' chained']
      exact (concurs_chain (w := .pair σ τ) peers chained chained' similar matched.slots rfl rfl
        ⟨⟨members, .first chained⟩, ⟨members', .first chained'⟩⟩ matched.context).meets (.refl _)
          meeting
  | false =>
      have free' := matched.chained.symm.trans chained
      rw [resolve_of_free members chained, resolve_of_free members' free']
      have slots := List.Forall₂.getElem? matched.slots i
      cases at_i : m.slots[i]? with
      | none =>
          rw [at_i] at slots
          generalize m'.slots[i]? = found at slots
          cases slots
          exact fun _ => .ok (.plain trivial) meeting
      | some slot =>
          cases at_i' : m'.slots[i]? with
          | none =>
              rw [at_i, at_i'] at slots
              cases slots
          | some slot' =>
              exact (concurs_value (w := .pair σ τ) peers similar
                ⟨⟨members, at_i, .unchained i chained⟩, ⟨members', at_i', .unchained i free'⟩⟩
                matched.context).meets (.refl _) meeting

end

/-! ## Forcing -/

namespace Value

variable {q : Setting} {r r' : Resolver}

private theorem concurs_forceMembers (concur : r.Matches q r') : ∀ {w : World}
    {slots slots' : List Slot}
    {R : Handle → Handle → Prop} (i : Nat) {fields fields' : Record Value}, w.Related h k →
      List.Forall₂ (Slot.Matches R) slots slots' → FieldsMatch w.Related fields fields' →
      Concurs q w .fields (forceMembers r h slots i fields) (forceMembers r' k slots' i fields')
  | _, [], _, _, _, _, _, _, matched, fields => by
      cases matched
      exact concurs_pure fields
  | w, slot :: rest, _, _, i, _, _, related, matched, fields => by
      cases matched with
      | cons same later =>
          rw [forceMembers, forceMembers, ← same.name]
          cases slot.name with
          | none => exact concurs_forceMembers concur (i + 1) related later fields
          | some name =>
              exact (concur.resolve related i).bind fun _ on _ _ values =>
                (concur.force values).bind fun _ on' _ _ values =>
                  concurs_forceMembers concur (i + 1) ((on.trans on').related h k related) later
                    ((fields.mono (on.trans on').related).insert name values)

private theorem concurs_forceElements (concur : r.Matches q r') : ∀ {w : World} (count i : Nat),
    w.Related h k →
      Concurs q w .items (forceElements r h count i) (forceElements r' k count i)
  | _, 0, _, _ => concurs_pure .nil
  | _, count + 1, i, related => by
      rw [forceElements, forceElements]
      exact (concur.resolve related i).bind fun _ on _ _ values =>
        (concur.force values).bind fun _ on' _ _ first =>
          (concurs_forceElements concur count (i + 1) ((on.trans on').related h k related)).bind
            fun _ on'' _ _ items => concurs_pure (.cons (first.mono on''.related) items)

private theorem forceWith_lazyContainer (r : Resolver) (handle : Handle) (keys : List String) :
    forceWith r (.lazyContainer handle keys) = slotsOf handle >>= fun slots => do
      return .container (← forceMembers r handle slots 0 []) := by
  rw [forceWith]
  rfl

mutual

theorem concurs_forceWith (concur : r.Matches q r') : ∀ {w : World} {v v' : Value},
    v.Matches w.Related v' → Concurs q w .value (forceWith r v) (forceWith r' v')
  | _, v, _, .plain plain => by
      cases v <;> first
        | exact plain.elim
        | (rw [forceWith, forceWith]
           · exact concurs_pure (.plain trivial)
           all_goals nofun)
  | _, _, _, .lazyContainer related keys => by
      rw [forceWith_lazyContainer, forceWith_lazyContainer]
      exact (concurs_slotsOf related).bind fun _ on _ _ slots =>
        (concurs_forceMembers concur 0 (on.related _ _ related) slots .nil).bind
          fun _ _ _ _ fields => concurs_pure (.container fields)
  | _, _, _, .lazyList related length => by
      rw [forceWith, forceWith]
      exact (concurs_forceElements concur length 0 related).bind fun _ _ _ _ items =>
        concurs_pure (.list items)
  | _, _, _, .list items => by
      rw [forceWith, forceWith]
      exact (concurs_forceItems concur items).bind fun _ _ _ _ items => concurs_pure (.list items)
  | _, _, _, .container fields => by
      rw [forceWith, forceWith]
      exact (concurs_forceFields concur fields).bind fun _ _ _ _ fields =>
        concurs_pure (.container fields)
  | _, _, _, .flags fields => by
      rw [forceWith, forceWith]
      exact (concurs_forceFields concur fields).bind fun _ _ _ _ fields =>
        concurs_pure (.flags fields)

theorem concurs_forceItems (concur : r.Matches q r') : ∀ {w : World} {items items' : List Value},
    ItemsMatch w.Related items items' →
      Concurs q w .items (forceItems r items) (forceItems r' items')
  | _, _, _, .nil => concurs_pure .nil
  | _, _, _, .cons first later => by
      rw [forceItems, forceItems]
      exact (concurs_forceWith concur first).bind fun _ on _ _ first =>
        (concurs_forceItems concur (later.mono on.related)).bind fun _ on' _ _ later =>
          concurs_pure (.cons (first.mono on'.related) later)

theorem concurs_forceFields (concur : r.Matches q r') : ∀ {w : World}
    {fields fields' : List (String × Value)}, FieldsMatch w.Related fields fields' →
      Concurs q w .fields (forceFields r fields) (forceFields r' fields')
  | _, _, _, .nil => concurs_pure .nil
  | _, _, _, .cons key first later => by
      rw [forceFields, forceFields]
      exact (concurs_forceWith concur first).bind fun _ on _ _ first =>
        (concurs_forceFields concur (later.mono on.related)).bind fun _ on' _ _ later =>
          concurs_pure (.cons key (first.mono on'.related) later)

end

end Value

/-! ## Engines -/

/-- What two engines run comes to the same from matching states. -/
structure Engine.Matches (q : Setting) (e e' : Engine) : Prop where
  left : e.Lasting
  right : e'.Lasting
  parse : Engine.ParsesAlike q e e'
  size : ∀ {w : World} (f : Format), (q.Compares → f.Uniform) → ∀ {ctx ctx' : Context},
    ctx.Matches w.Related ctx' → ∀ path,
      Concurs q w .same (e.size f ctx path) (e'.size f ctx' path)
  resolver : e.resolver.Matches q e'.resolver

end BinaryFormat
