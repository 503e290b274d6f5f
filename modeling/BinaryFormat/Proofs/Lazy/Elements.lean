import BinaryFormat.Proofs.Access
import BinaryFormat.Proofs.Lazy
import BinaryFormat.Proofs.Lazy.Widths

/-!
# Lazy lists

A lazy list only counts its elements: their number and their offsets follow from
the size of one element and the bytes that are left.  For elements of constant
width it is the list that the eager repeater parses one by one, and it fails
where that one fails.
-/

namespace BinaryFormat

private theorem Medium.length_rest {m : Medium} (inside : m.base ≤ m.pos) :
    m.base + m.data.length - m.pos = m.rest.length := by
  rw [Medium.rest, if_neg (Nat.not_lt.mpr inside), List.length_drop]
  omega

namespace Codec

variable {defs : Definitions} {f : Format} {n : Nat} {m : Medium} {ctx : Context}
  {store : LazyStore}

/-! ## Elements in place -/

private theorem shows_nothing (ctx : Context) : Shows [] [] ctx := ⟨nofun, trivial⟩

/-- The elements stand one after the other, each on so many bytes. -/
def Laid (defs : Definitions) (f : Format) (n : Nat) (bytes : List UInt8) (items : List Value) :
    Prop :=
  ∀ (i : Nat) (v : Value), items[i]? = some v →
    Stands (fun e => f.codec e defs) [] [] ((bytes.drop (i * n)).take n) v

private theorem laid_nil (n : Nat) (bytes : List UInt8) : Laid defs f n bytes [] :=
  fun _ _ found => nomatch found

private theorem Laid.cons {bytes : List UInt8} {v : Value} {items : List Value}
    (here : Stands (fun e => f.codec e defs) [] [] (bytes.take n) v)
    (later : Laid defs f n (bytes.drop n) items) : Laid defs f n bytes (v :: items) := by
  intro i w found
  cases i with
  | zero =>
      cases found
      rwa [Nat.zero_mul, List.drop_zero]
  | succ i =>
      have there := later i w found
      rwa [List.drop_drop, Nat.add_comm, ← Nat.succ_mul] at there

private theorem element_of_enough (h : f.OfConstants) (size : f.sizeIn [] = some n) (e : Engine)
    (path : Path) (ctx : Context) (store : LazyStore) (room : n ≤ m.rest.length) :
    ∃ v ctx', (f.codec e defs).parse path ⟨.medium m, ctx, store⟩ =
        .ok v ⟨.medium (m.skip n), ctx', store⟩ ∧
      Stands (fun e => f.codec e defs) [] [] (m.rest.take n) v := by
  obtain ⟨v, ctx', ran⟩ := (Format.takes_codec e defs h size path m ctx store).1 room
  have isLocal := Format.local_codec defs (h.isLocal [[]])
  have nothing : AgreesOn [] [] ctx := fun _ mem => nomatch mem
  obtain ⟨k, notes, left, -, -, stands, -⟩ := isLocal.stands nothing trivial ran
  have position := congrArg (fun s : State => s.stream.pos) left
  simp only [Stream.pos, Medium.skip_pos, Nat.add_left_cancel_iff] at position
  subst position
  exact ⟨v, ctx', ran, stands⟩

variable (e : Engine) (path : Path)

private theorem parseCounted_of_enough (h : f.OfConstants) (size : f.sizeIn [] = some n)
    (store : LazyStore) :
    ∀ (count i : Nat) (m : Medium) (ctx : Context), count * n ≤ m.rest.length →
      ∃ items ctx', parseCounted ⟨f, f.codec e defs⟩ path count i ⟨.medium m, ctx, store⟩ =
          .ok items ⟨.medium (m.skip (count * n)), ctx', store⟩ ∧
        items.length = count ∧ Laid defs f n m.rest items
  | 0, _, m, ctx, _ => ⟨[], ctx, by rw [Nat.zero_mul]; rfl, rfl, laid_nil n _⟩
  | count + 1, i, m, ctx, room => by
      rw [Nat.succ_mul] at room
      have here : n ≤ m.rest.length := by omega
      obtain ⟨v, ctx₁, first, stands⟩ := element_of_enough h size e (path.element i)
        (ctx.insert "_index" (.ofNat i)) store here
      have left : (m.skip n).rest = m.rest.drop n := Medium.rest_skip_of_le here
      obtain ⟨items, ctx₂, others, length, laid⟩ := parseCounted_of_enough h size store count
        (i + 1) (m.skip n) ctx₁ (by rw [left, List.length_drop]; omega)
      rw [left] at laid
      refine ⟨v :: items, ctx₂, ?_, congrArg (· + 1) length, .cons stands laid⟩
      refine Run.bind_eq_ok_iff.mpr ⟨(), _, rfl, ?_⟩
      refine Run.bind_eq_ok_iff.mpr ⟨v, _, Run.tagged_of_ok first, ?_⟩
      refine Run.bind_eq_ok_iff.mpr ⟨items, _, others, ?_⟩
      rw [Medium.skip_skip, Nat.succ_mul, Nat.add_comm n]
      rfl

/-- A range takes as many elements as it may and as there are. -/
private theorem parseGreedy_of_sized (h : f.OfConstants) (size : f.sizeIn [] = some n)
    (positive : 0 < n)
    (store : LazyStore) :
    ∀ (most i : Nat) (m : Medium) (ctx : Context),
      ∃ items s, parseGreedy ⟨f, f.codec e defs⟩ path most i ⟨.medium m, ctx, store⟩ =
          .ok items s ∧
        items.length = min most (m.rest.length / n) ∧
        s.stream = .medium (m.skip (items.length * n)) ∧ Laid defs f n m.rest items
  | 0, _, m, ctx => ⟨[], _, rfl, (Nat.zero_min _).symm, by rw [List.length_nil, Nat.zero_mul]; rfl,
      laid_nil n _⟩
  | most + 1, i, m, ctx => by
      -- An element that has enough bytes is taken; one that has not is refused, which ends the
      -- range.
      by_cases room : n ≤ m.rest.length
      · obtain ⟨v, ctx₁, first, stands⟩ := element_of_enough h size e (path.element i)
          (ctx.insert "_index" (.ofNat i)) store room
        have left : (m.skip n).rest = m.rest.drop n := Medium.rest_skip_of_le room
        obtain ⟨items, s, others, length, stream, laid⟩ :=
          parseGreedy_of_sized h size positive store
          most (i + 1) (m.skip n) ctx₁
        rw [left] at laid length
        have parsed : (noteIndex i >>= fun _ => Part.parse ⟨f, f.codec e defs⟩ (path.element i))
            ⟨.medium m, ctx, store⟩ = .ok v ⟨.medium (m.skip n), ctx₁, store⟩ :=
          Run.tagged_of_ok first
        have moved : (⟨.medium (m.skip n), ctx₁, store⟩ : State).stream.pos ≠
            (⟨.medium m, ctx, store⟩ : State).stream.pos := by
          show m.pos + n ≠ m.pos
          omega
        refine ⟨v :: items, s, ?_, ?_, ?_, .cons stands laid⟩
        · rw [parseGreedy_of_parsed most parsed, if_neg moved]
          exact Run.bind_eq_ok_iff.mpr ⟨items, s, others, rfl⟩
        · rw [List.length_cons, length, List.length_drop, Nat.div_eq_sub_div positive room,
            Nat.add_min_add_right]
        · rw [stream, Medium.skip_skip, List.length_cons, Nat.succ_mul, Nat.add_comm n]
      · have short : m.rest.length < n := Nat.lt_of_not_le room
        obtain ⟨failure, cause, p, ctx₁, failed, isShort⟩ :=
          ((Format.takes_codec e defs h size (path.element i)).tagged m
            (ctx.insert "_index" (.ofNat i)) store).2 short
        have stopped : (noteIndex i >>= fun _ => Part.parse ⟨f, f.codec e defs⟩ (path.element i))
            ⟨.medium m, ctx, store⟩ = .error failure ⟨.medium (m.moved p), ctx₁, store⟩ := failed
        refine ⟨[], ⟨.medium m, ctx₁, store⟩, ?_, ?_, ?_, laid_nil n _⟩
        · rw [parseGreedy_of_failed most stopped, isShort]
          rfl
        · rw [Nat.div_eq_of_lt short, Nat.min_zero]
          rfl
        · rw [List.length_nil, Nat.zero_mul]
          rfl

/-! ## Elements found without being parsed -/

private theorem snapshot_of_enough {total : Nat} (room : total ≤ m.rest.length) :
    Run.snapshot m.pos (m.pos + total) path ⟨.medium m, ctx, store⟩ =
      .ok (m.rest.take total) ⟨.medium m, ctx, store⟩ := by
  refine Run.bind_eq_ok_iff.mpr ⟨m.pos, _, rfl, ?_⟩
  refine Run.bind_eq_ok_iff.mpr ⟨(), _, rfl, ?_⟩
  rw [Nat.add_sub_cancel_left]
  refine Run.bind_eq_ok_iff.mpr ⟨m.rest.take total, _, Run.read_eq_ok_iff.mpr ⟨room, rfl, rfl⟩, ?_⟩
  exact Run.bind_eq_ok_iff.mpr ⟨(), _, rfl, rfl⟩

/-- The slots of elements of one size. -/
def elementSlots (f : Format) (start count n : Nat) (path : Path) : List Slot :=
  (List.range count).map fun i => ⟨none, start + i * n, f, path.element i, some i, none⟩

private theorem lazyElements_of_enough {of : Part} {count : Nat} (inside : m.base ≤ m.pos)
    (room : count * n ≤ m.rest.length) :
    lazyElements of count n path ⟨.medium m, ctx, store⟩ =
      .ok (.lazyList store.entries.length count) ⟨.medium (m.skip (count * n)), ctx,
        (store.add ⟨m.rest.take (count * n), m.pos, ctx,
          elementSlots of.format m.pos count n path, false⟩).2⟩ := by
  refine Run.bind_eq_ok_iff.mpr ⟨m.pos, _, rfl, ?_⟩
  refine Run.bind_eq_ok_iff.mpr ⟨m.base + m.data.length, _, rfl, ?_⟩
  rw [Medium.length_rest inside]
  refine Run.guard_eq_ok_iff.mpr ⟨Nat.not_lt.mpr room, ?_⟩
  exact Run.bind_eq_ok_iff.mpr ⟨_, _, snapshot_of_enough path room, rfl⟩

private theorem lazyElements_of_short {of : Part} {count : Nat} (inside : m.base ≤ m.pos)
    (short : m.rest.length < count * n) :
    ∃ failure s, lazyElements of count n path ⟨.medium m, ctx, store⟩ = .error failure s ∧
      failure.fault = .shortage (.elements count n m.rest.length) := by
  have told : Run.tell ⟨.medium m, ctx, store⟩ = .ok m.pos ⟨.medium m, ctx, store⟩ := rfl
  have sized : Run.size ⟨.medium m, ctx, store⟩ =
      .ok (m.base + m.data.length) ⟨.medium m, ctx, store⟩ := rfl
  unfold lazyElements
  rw [Run.bind_of_ok told, Run.bind_of_ok sized, Medium.length_rest inside]
  simp only [if_pos short]
  exact ⟨_, _, rfl, rfl⟩

/-! ## Reading a lazy list -/

/-- Every element of the list behind a handle is at hand, or is what its slot parses to. -/
def Lists (e : Engine) (store : LazyStore) (handle : Handle) (items : List Value) : Prop :=
  ∃ members : Members, store.members? handle = some members ∧ members.chained = false ∧
    ∀ (i : Nat) (v : Value), items[i]? = some v → v.Eager ∧ ∃ slot, members.slots[i]? = some slot ∧
      (store.cached? handle i = some v ∨ store.cached? handle i = none ∧ ∀ store,
        slot.parse e.parse members.data members.base members.context store = .ok v store)

variable {e : Engine} {handle : Handle} {items : List Value}

private theorem Lists.eager (h : Lists e store handle items) {i : Nat} {v : Value}
    (found : items[i]? = some v) : v.Eager := by
  obtain ⟨_, -, -, each⟩ := h
  exact (each i v found).1

private theorem Lists.remember (h : Lists e store handle items) {i : Nat} {v : Value}
    (found : items[i]? = some v) : Lists e (store.remember handle i v) handle items := by
  obtain ⟨members, held, flat, each⟩ := h
  refine ⟨members, by rw [LazyStore.members?_remember, held], flat, fun j w at_j => ?_⟩
  obtain ⟨eager, slot, at_slot, known⟩ := each j w at_j
  refine ⟨eager, slot, at_slot, ?_⟩
  rcases known with known | ⟨unknown, parsed⟩
  · exact .inl (LazyStore.cached?_remember_of_known known handle i v)
  · cases now : (store.remember handle i v).cached? handle j with
    | none => exact .inr ⟨rfl, parsed⟩
    | some old =>
        rcases LazyStore.cached?_of_remember now with before | ⟨-, rfl, rfl⟩
        · rw [unknown] at before
          cases before
        · exact .inl (found.symm.trans at_j)

/-- Reading an element yields it, and the list stays what it was. -/
private theorem resolve_of_lists (h : Lists e store handle items) {i : Nat} {v : Value}
    (found : items[i]? = some v) :
    ∃ store', Lookup.resolve e.parse handle i store = .ok v store' ∧
      Lists e store' handle items := by
  have stays := h
  obtain ⟨members, held, flat, each⟩ := h
  obtain ⟨eager, slot, at_slot, known⟩ := each i v found
  have got : (get : Lookup Failure LazyStore) store = .ok store store := rfl
  unfold Lookup.resolve Members.resolve
  rw [Run.bind_of_ok got]
  simp only [held]
  rw [Run.bind_of_ok got]
  rcases known with cached | ⟨cached, parsed⟩
  · simp only [cached]
    exact ⟨store, rfl, stays⟩
  · simp only [cached, flat, at_slot]
    refine ⟨store.remember handle i v, ?_, stays.remember found⟩
    refine Eq.trans (value_of_uncached cached) ?_
    exact Run.bind_eq_ok_iff.mpr ⟨v, store, parsed store, rfl⟩

private theorem forceElements_of_lists (faithful : e.Faithful defs) : ∀ {i : Nat}
    {store : LazyStore},
    Lists e store handle items → i ≤ items.length →
      ∃ store', Value.forceElements ⟨Lookup.resolve e.parse, e.forceMember⟩ handle
          (items.length - i) i store = .ok (items.drop i) store' ∧
        Lists e store' handle items := by
  intro i store h low
  generalize left : items.length - i = count
  induction count generalizing i store with
  | zero =>
      rw [List.drop_eq_nil_of_le (by omega)]
      exact ⟨store, rfl, h⟩
  | succ count ih =>
      have inside : i < items.length := by omega
      have found : items[i]? = some items[i] := List.getElem?_eq_getElem inside
      obtain ⟨store₁, read, h₁⟩ := resolve_of_lists h found
      obtain ⟨store₂, others, h₂⟩ := ih h₁ (i := i + 1) (by omega) (by omega)
      refine ⟨store₂, ?_, h₂⟩
      rw [List.drop_eq_getElem_cons inside]
      refine Run.bind_eq_ok_iff.mpr ⟨items[i], store₁, read, ?_⟩
      refine Run.bind_eq_ok_iff.mpr ⟨items[i], store₁, ?_, ?_⟩
      · show e.forceMember items[i] store₁ = _
        rw [faithful.force _ (h.eager found)]
        rfl
      · exact Run.bind_eq_ok_iff.mpr ⟨_, store₂, others, rfl⟩

private theorem force_of_lists (faithful : e.Faithful defs) (h : Lists e store handle items) :
    ∃ store', e.resolver.force (.lazyList handle items.length) store =
      .ok (.list items) store' := by
  obtain ⟨store', forced, -⟩ := forceElements_of_lists faithful h (Nat.zero_le _)
  refine ⟨store', ?_⟩
  show Value.forceWith ⟨Lookup.resolve e.parse, e.forceMember⟩
    (.lazyList handle items.length) store = _
  rw [Value.forceWith]
  exact Run.bind_eq_ok_iff.mpr ⟨items, store', forced, rfl⟩

/-- Elements that are read one after the other, in any order, are those of the list. -/
private theorem elements_of_lists : ∀ {is : List Nat} {store : LazyStore},
    Lists e store handle items → (∀ i ∈ is, i < items.length) →
      ∃ store', is.mapM (e.resolver.element handle items.length) store =
          .ok (is.map fun i => items.getD i .none) store' ∧
        Lists e store' handle items
  | [], store, h, _ => ⟨store, rfl, h⟩
  | i :: rest, store, h, inside => by
      have low := inside i List.mem_cons_self
      have found : items[i]? = some items[i] := List.getElem?_eq_getElem low
      obtain ⟨store₁, read, h₁⟩ := resolve_of_lists h found
      obtain ⟨store₂, others, h₂⟩ := elements_of_lists h₁
        fun j mem => inside j (List.mem_cons_of_mem i mem)
      refine ⟨store₂, ?_, h₂⟩
      have first : e.resolver.element handle items.length i store = .ok items[i] store₁ := by
        rw [Resolver.element]
        simp only [if_neg (Nat.not_le.mpr low)]
        exact read
      rw [List.mapM_cons, Run.bind_of_ok first, Run.bind_of_ok others, List.map_cons, List.getD,
        found]
      rfl

/-! ## Lists that can be told apart only by their caches -/

/-- Whatever elements of a lazy list are read first, they are those of the list, and forcing it
then yields the list. -/
def ReadsAs (r : Resolver) (store : LazyStore) (handle : Handle) (items : List Value) : Prop :=
  ∀ is : List Nat, (∀ i ∈ is, i < items.length) →
    ∃ store₁ store₂, is.mapM (r.element handle items.length) store =
        .ok (is.map fun i => items.getD i .none) store₁ ∧
      r.force (.lazyList handle items.length) store₁ = .ok (.list items) store₂

private theorem Lists.readsAs (faithful : e.Faithful defs) (h : Lists e store handle items) :
    ReadsAs e.resolver store handle items := by
  intro is inside
  obtain ⟨store₁, read, h₁⟩ := elements_of_lists h inside
  obtain ⟨store₂, forced⟩ := force_of_lists faithful h₁
  exact ⟨store₁, store₂, read, forced⟩

/-- Two ways to parse a list come to the same: both yield it, the second one as a lazy list, and
leave the stream alike, or both fail with the same kind of fault. -/
inductive SameList (r : Resolver) :
    EStateM.Result Failure State Value → EStateM.Result Failure State Value → Prop
  | parsed {items : List Value} {handle : Handle} {s s' : State} (stream : s'.stream = s.stream)
      (reads : ReadsAs r s'.store handle items) :
      SameList r (.ok (.list items) s) (.ok (.lazyList handle items.length) s')
  | failed {failure failure' : Failure} {s s' : State}
      (kind : failure'.fault.ctorIdx = failure.fault.ctorIdx) :
      SameList r (.error failure s) (.error failure' s')

/-! ### Elements that are found -/

private theorem lists_of_laid (faithful : e.Faithful defs) {bytes : List UInt8}
    (laid : Laid defs f n bytes items) (base : Nat) (ctx : Context) (store : LazyStore)
    (path : Path) :
    Lists e (store.add ⟨bytes.take (items.length * n), base, ctx,
      elementSlots f base items.length n path, false⟩).2 store.entries.length items := by
  refine ⟨_, store.members?_add_self _, rfl, fun i v found => ?_⟩
  have stands := laid i v found
  obtain ⟨low, -⟩ := List.getElem?_eq_some_iff.mp found
  have within : i * n + n ≤ items.length * n := by
    rw [← Nat.succ_mul]
    exact Nat.mul_le_mul_right n low
  have at_i : (elementSlots f base items.length n path)[i]? =
      some ⟨none, base + i * n, f, path.element i, some i, none⟩ := by
    simp [elementSlots, low]
  refine ⟨stands.1, ⟨none, base + i * n, f, path.element i, some i, none⟩, at_i, Or.inr ⟨?_, ?_⟩⟩
  · rw [LazyStore.cached?_add_self, at_i]
    rfl
  · intro store
    obtain ⟨inner, means⟩ := faithful.parse
    have there : (bytes.drop (i * n)).take n <+:
        (⟨.snapshot base, bytes.take (items.length * n), base + i * n⟩ : Medium).rest := by
      have inside : ¬ base + i * n < base := Nat.not_lt.mpr (Nat.le_add_right _ _)
      show _ <+: (if base + i * n < base then [] else
        (bytes.take (items.length * n)).drop (base + i * n - base))
      rw [if_neg inside, Nat.add_sub_cancel_left, List.drop_take]
      exact List.take_prefix_take_left (by omega)
    obtain ⟨notes, -, parsed⟩ := stands.2 inner (path.element i)
      (ctx.insert "_index" (.ofNat i)) ⟨.snapshot base, bytes.take (items.length * n), base + i * n⟩
      store (shows_nothing _) there
    unfold Slot.parse
    rw [means]
    simp only [Run.tagged_of_ok parsed]

private theorem lists_of_parsed (e : Engine) (eager : Value.EagerItems items) (of : Part)
    (ctx : Context)
    (store : LazyStore) (path : Path) :
    Lists e (store.add ⟨[], 0, ctx, items.zipIdx.map fun (v, i) =>
      (⟨none, 0, of.format, path.element i, none, some v⟩ : Slot), false⟩).2 store.entries.length
      items := by
  refine ⟨_, store.members?_add_self _, rfl, fun i v found => ?_⟩
  have mem := List.mem_of_getElem? found
  have at_i : (items.zipIdx.map fun (v, i) =>
      (⟨none, 0, of.format, path.element i, none, some v⟩ : Slot))[i]? =
      some ⟨none, 0, of.format, path.element i, none, some v⟩ := by
    simp [found]
  refine ⟨Value.eagerItems_iff.mp eager v mem, _, at_i, Or.inl ?_⟩
  rw [LazyStore.cached?_add_self, at_i]
  rfl

/-! ### Elements that are parsed at once -/

private theorem eager_of_parseCounted (h : f.OfConstants) {e : Engine} {path : Path} {count i : Nat}
    {s : State} (ran : parseCounted ⟨f, f.codec e defs⟩ path count i ⟨.medium m, ctx, store⟩ =
      .ok items s) : Value.EagerItems items := by
  have isLocal := Format.local_codec defs (h.isLocal [])
  have nowhere : Reach.Carries [] ctx.frames ctx.frames := trivial
  obtain ⟨_, _, -, -, ⟨eager, -⟩, -, -⟩ :=
    followed_parseCounted isLocal f e e path path count i nowhere m store items s ran
  exact eager

private theorem eager_of_parseGreedy (h : f.OfConstants) {e : Engine} {path : Path} :
    ∀ {most i : Nat} {m : Medium} {ctx : Context} {store : LazyStore} {items : List Value}
      {s : State}, parseGreedy ⟨f, f.codec e defs⟩ path most i ⟨.medium m, ctx, store⟩ =
        .ok items s → Value.EagerItems items
  | 0, _, _, _, _, _, _, ran => by
      cases ran
      exact trivial
  | most + 1, i, m, ctx, store, items, s, ran => by
      have isLocal := Format.local_codec defs (h.isLocal [])
      have nowhere (ctx : Context) : Reach.Carries [] ctx.frames ctx.frames := trivial
      cases first : (noteIndex i >>= fun _ => Part.parse ⟨f, f.codec e defs⟩ (path.element i))
          ⟨.medium m, ctx, store⟩ with
      | ok v s₁ =>
          obtain ⟨n, notes, rfl, -, yields, -, -⟩ := isLocal.parse (nowhere _) e e (path.element i)
            (path.element i) m store v s₁
            (Run.tagged_eq_ok_iff.mp first)
          rw [parseGreedy_of_parsed most first] at ran
          split at ran
          · cases ran
            exact trivial
          · obtain ⟨rest, s₂, others, last⟩ := Run.bind_eq_ok_iff.mp ran
            cases last
            exact ⟨yields.1, eager_of_parseGreedy h others⟩
      | error failure s₁ =>
          rw [parseGreedy_of_failed most first] at ran
          split at ran
          · cases ran
          · cases ran
            exact trivial

private theorem sameList_of_parsed (faithful : e.Faithful defs) (eager : Value.EagerItems items)
    (of : Part) (path : Path) {s s' : State} (stream : s'.stream = s.stream) :
    SameList e.resolver (.ok (.list items) s) (parsedElements of (.list items) path s') :=
  .parsed stream ((lists_of_parsed e eager of s'.context s'.store path).readsAs faithful)

private theorem sameList_of_laid (faithful : e.Faithful defs) (inside : m.base ≤ m.pos)
    (laid : Laid defs f n m.rest items) (room : items.length * n ≤ m.rest.length) (of : Codec)
    (path : Path) {s : State} (stream : s.stream = .medium (m.skip (items.length * n))) :
    SameList e.resolver (.ok (.list items) s)
      (lazyElements ⟨f, of⟩ items.length n path ⟨.medium m, ctx, store⟩) := by
  rw [lazyElements_of_enough path inside room]
  exact .parsed stream.symm ((lists_of_laid faithful laid m.pos ctx store path).readsAs faithful)

/-! ### The two repeaters -/

variable {e' : Engine}

private theorem evalSize_eq_ok {e : Engine} {x : Expr} {path : Path} {s s' : State} {k : Nat}
    (ran : e.evalSize x path s = .ok k s') : ∃ store, s' = ⟨s.stream, s.context, store⟩ := by
  have looks := e.looks_evalSize x path s
  rw [Run.after_of_ok ran] at looks
  exact ⟨s'.store, by rw [← looks.1, ← looks.2]⟩

private theorem sizeNow_cases (h : f.OfConstants) (e : Engine) (path : Path) (stream : Stream)
    (ctx : Context) (store : LazyStore) :
    (∃ n, HasSize (fun e => f.codec e defs) ctx n ∧
      (f.codec e defs).sizeNow path ⟨stream, ctx, store⟩ = .ok n ⟨stream, ctx, store⟩) ∨
    (∀ n, ¬ HasSize (fun e => f.codec e defs) ctx n) ∧ ∃ failure,
      (f.codec e defs).sizeNow path ⟨stream, ctx, store⟩ = .error failure ⟨stream, ctx, store⟩ := by
  have isLocal := Format.local_codec defs (h.isLocal [])
  have nowhere : Reach.Carries [] ctx.frames ctx.frames := trivial
  obtain ⟨result, sized, -⟩ := isLocal.size nowhere path path
  have here : (f.codec e defs).size ctx path store = Lookup.ofExcept result store :=
    congrFun (sized e) store
  cases result with
  | ok n =>
      exact Or.inl ⟨n, (isLocal.hasSize nowhere here).1, Run.lookup_of_ok here⟩
  | error failure =>
      refine Or.inr ⟨fun n known => ?_, failure, Run.lookup_of_error here⟩
      have found := known.apply e path store
      beta_reduce at found
      rw [here] at found
      cases found

section Counted

variable {of : Part} {count : Expr} {path : Path} {k : Nat} {s s₁ s₂ : State} {discard : Bool}

private theorem array_of_parsed (counted : e.evalSize count path s = .ok k s₁)
    (parsed : parseCounted of path k 0 s₁ = .ok items s₂) :
    (array e count of discard).parse path s = .ok (kept discard items) s₂ :=
  (Run.bind_of_ok counted _).trans (Run.bind_of_ok parsed _)

private theorem array_of_failed {failure : Failure} (counted : e.evalSize count path s = .ok k s₁)
    (failed : parseCounted of path k 0 s₁ = .error failure s₂) :
    (array e count of discard).parse path s = .error failure s₂ :=
  (Run.bind_of_ok counted _).trans (Run.bind_of_error failed _)

end Counted

section Bounded

variable {of : Part} {least most : Expr} {path : Path} {j k : Nat} {s s₁ s₂ s₃ : State}
  {discard : Bool}

/-- Both bounds are evaluated before any element is parsed. -/
private theorem range_of_bounds (first : e.evalSize least path s = .ok j s₁)
    (second : e.evalSize most path s₁ = .ok k s₂) :
    (range e least most of discard).parse path s =
      if k < j then .error ((Fault.miscount (.bounds j k)).atPath path) s₂
      else
        (do
          let items ← parseGreedy of path k 0
          if items.length < j then Run.fail (.miscount (.tooFew j items.length)) path
          return kept discard items : Run Value) s₂ := by
  have both : bounds e least (some most) path s =
      if k < j then .error ((Fault.miscount (.bounds j k)).atPath path) s₂ else .ok (j, k) s₂ := by
    unfold bounds
    rw [Run.bind_of_ok first]
    simp only
    rw [Run.bind_of_ok second]
    split <;> rfl
  show parseRange e least (some most) of discard path s = _
  unfold parseRange
  split at both
  · rename_i low
    rw [Run.bind_of_error both, if_pos low]
  · rename_i high
    rw [Run.bind_of_ok both, if_neg high]

private theorem range_eq_ok {v : Value}
    (ran : (range e least most of discard).parse path s = .ok v s₃) :
    ∃ j k s₁ s₂ items, e.evalSize least path s = .ok j s₁ ∧ e.evalSize most path s₁ = .ok k s₂ ∧
      parseGreedy of path k 0 s₂ = .ok items s₃ ∧ v = kept discard items := by
  obtain ⟨⟨j, k⟩, s₂, both, rest⟩ := Run.bind_eq_ok_iff.mp ran
  obtain ⟨j', s₁, first, both⟩ := Run.bind_eq_ok_iff.mp both
  obtain ⟨k', s₂', second, both⟩ := Run.bind_eq_ok_iff.mp both
  obtain ⟨-, both⟩ := Run.guard_eq_ok_iff.mp both
  cases both
  obtain ⟨items, s₃', parsed, rest⟩ := Run.bind_eq_ok_iff.mp rest
  obtain ⟨-, rest⟩ := Run.guard_eq_ok_iff.mp rest
  cases rest
  exact ⟨j, k, s₁, s₂, items, first, second, parsed, rfl⟩

end Bounded

private theorem lazyRange_of_bounds {of : Part} {least most : Expr} {path : Path} {j k n : Nat}
    {s s₁ : State}
    (inside : m.base ≤ m.pos) (skips : skippable? of (path.element 0) s = .ok (some n) s)
    (first : e.evalSize least path s = .ok j s₁)
    (second : e.evalSize most path s₁ = .ok k ⟨.medium m, ctx, store⟩) :
    (lazyRange e least most of).parse path s =
      if min k (m.rest.length / n) < j then
        .error ((Fault.miscount (.tooFew j (min k (m.rest.length / n)))).atPath path)
          ⟨.medium m, ctx, store⟩
      else lazyElements of (min k (m.rest.length / n)) n path ⟨.medium m, ctx, store⟩ := by
  have sized : Run.size ⟨.medium m, ctx, store⟩ =
      .ok (m.base + m.data.length) ⟨.medium m, ctx, store⟩ := rfl
  have told : Run.tell ⟨.medium m, ctx, store⟩ = .ok m.pos ⟨.medium m, ctx, store⟩ := rfl
  unfold lazyRange
  dsimp only
  rw [Run.bind_of_ok skips]
  simp only
  rw [Run.bind_of_ok first, Run.bind_of_ok second, Run.bind_of_ok sized, Run.bind_of_ok told,
    Medium.length_rest inside]
  split <;> rfl

section Repeaters

variable (h : f.OfConstants) (adds : f.All Format.AddsUp) (e : Engine)
    (faithful : e'.Faithful defs) (path : Path)
  (inside : m.base ≤ m.pos) (ctx : Context) (store : LazyStore)
include h adds faithful inside

/-- Unless the size of an element is known, the lazy array evaluates its count a second time; it
has to find the same one. -/
private theorem sameList_array (count : Expr)
    (again : (∀ n, ¬ HasSize (fun e => f.codec e defs) ctx n) → ∀ k s,
      e.evalSize count path ⟨.medium m, ctx, store⟩ = .ok k s →
        ∃ s', e.evalSize count path s = .ok k s') :
    SameList e'.resolver
      ((array e count ⟨f, f.codec e defs⟩ false).parse path ⟨.medium m, ctx, store⟩)
      ((lazyArray e count ⟨f, f.codec e defs⟩).parse path ⟨.medium m, ctx, store⟩) := by
  cases counted : e.evalSize count path ⟨.medium m, ctx, store⟩ with
  | error failure s =>
      have eager : (array e count ⟨f, f.codec e defs⟩ false).parse path ⟨.medium m, ctx, store⟩ =
          .error failure s := Run.bind_of_error counted _
      have lazy : (lazyArray e count ⟨f, f.codec e defs⟩).parse path ⟨.medium m, ctx, store⟩ =
          .error failure s := Run.bind_of_error counted _
      rw [eager, lazy]
      exact .failed rfl
  | ok k s =>
      obtain ⟨store₁, rfl⟩ := evalSize_eq_ok counted
      rcases sizeNow_cases h e (path.element 0) (.medium m) ctx store₁ with
        ⟨n, size, known⟩ | ⟨unsized, failure, unknown⟩
      · have lazy : (lazyArray e count ⟨f, f.codec e defs⟩).parse path ⟨.medium m, ctx, store⟩ =
            lazyElements ⟨f, f.codec e defs⟩ k n path ⟨.medium m, ctx, store₁⟩ :=
          (Run.bind_of_ok counted _).trans (Run.bind_of_ok (Run.outcome_of_ok known) _)
        have size := Format.sizeIn_of_hasSize defs h adds size
        rw [lazy]
        -- Either there are bytes for all elements, and both lists stand on them, or both are
        -- refused for want of bytes.
        by_cases room : k * n ≤ m.rest.length
        · obtain ⟨items, ctx', parsed, rfl, laid⟩ :=
            parseCounted_of_enough e path h size store₁ k 0 m ctx room
          rw [array_of_parsed counted parsed]
          exact sameList_of_laid faithful inside laid room _ path rfl
        · have short := Nat.lt_of_not_le room
          obtain ⟨failure, cause, p, ctx', failed, isShort⟩ :=
            (@takes_parseCounted ⟨f, f.codec e defs⟩ n
              (fun place => Format.takes_codec e defs h size place) path k 0 m ctx store₁).2 short
          obtain ⟨failure', s', failed', isShort'⟩ :
              ∃ failure s, lazyElements ⟨f, f.codec e defs⟩ k n path ⟨.medium m, ctx, store₁⟩ =
                .error failure s ∧ failure.fault = .shortage (.elements k n m.rest.length) :=
            lazyElements_of_short path inside short
          rw [array_of_failed counted failed, failed']
          exact .failed (by rw [isShort, isShort']; rfl)
      · -- The elements are parsed at once, for which the count is evaluated again.
        have lazy : (lazyArray e count ⟨f, f.codec e defs⟩).parse path ⟨.medium m, ctx, store⟩ =
            ((array e count ⟨f, f.codec e defs⟩ false).parse path >>= fun v =>
              parsedElements ⟨f, f.codec e defs⟩ v path) ⟨.medium m, ctx, store₁⟩ :=
          (Run.bind_of_ok counted _).trans (Run.bind_of_ok (Run.outcome_of_error unknown) _)
        obtain ⟨s', counted'⟩ := again unsized k _ counted
        obtain ⟨store₂, rfl⟩ := evalSize_eq_ok counted'
        have same := @storeless_parseCounted ⟨f, f.codec e defs⟩
          (Format.storeless_codec e defs h) path k 0 ⟨.medium m, ctx, store₁⟩ store₂
        cases parsed : parseCounted ⟨f, f.codec e defs⟩ path k 0 ⟨.medium m, ctx, store₁⟩ with
        | ok items s =>
            rw [parsed] at same
            rw [array_of_parsed counted parsed, lazy,
              Run.bind_of_ok (array_of_parsed counted' same)]
            exact sameList_of_parsed faithful (eager_of_parseCounted h parsed) _ path rfl
        | error failure s =>
            rw [parsed] at same
            rw [array_of_failed counted parsed, lazy,
              Run.bind_of_error (array_of_failed counted' same)]
            exact .failed rfl

private theorem sameList_range (least most : Expr) :
    SameList e'.resolver
      ((range e least most ⟨f, f.codec e defs⟩ false).parse path ⟨.medium m, ctx, store⟩)
      ((lazyRange e least most ⟨f, f.codec e defs⟩).parse path ⟨.medium m, ctx, store⟩) := by
  have nothing : AgreesOn [] [] ctx := fun _ mem => nomatch mem
  have element := skippable_cases (Format.local_codec defs (h.isLocal [[]])) nothing trivial e f
    (path.element 0) (.medium m) store
  -- Without a size the elements are parsed at once, as the range that is not lazy does.
  rcases element.symm with skips | ⟨n, positive, sized, skips⟩
  · have lazy : (lazyRange e least most ⟨f, f.codec e defs⟩).parse path ⟨.medium m, ctx, store⟩ =
        ((range e least most ⟨f, f.codec e defs⟩ false).parse path >>= fun v =>
          parsedElements ⟨f, f.codec e defs⟩ v path) ⟨.medium m, ctx, store⟩ :=
      Run.bind_of_ok skips _
    rw [lazy]
    cases ran : (range e least most ⟨f, f.codec e defs⟩ false).parse path
        ⟨.medium m, ctx, store⟩ with
    | ok v s =>
        obtain ⟨j, k, s₁, s₂, items, first, second, parsed, rfl⟩ := range_eq_ok ran
        obtain ⟨store₁, rfl⟩ := evalSize_eq_ok first
        obtain ⟨store₂, rfl⟩ := evalSize_eq_ok second
        rw [Run.bind_of_ok ran]
        exact sameList_of_parsed faithful (eager_of_parseGreedy h parsed) _ path rfl
    | error failure s =>
        rw [Run.bind_of_error ran]
        exact .failed rfl
  · have size := Format.sizeIn_of_hasSize defs h adds (sized ctx (shows_nothing ctx))
    cases first : e.evalSize least path ⟨.medium m, ctx, store⟩ with
    | error failure s =>
        have eager : (range e least most ⟨f, f.codec e defs⟩ false).parse path
            ⟨.medium m, ctx, store⟩ = .error failure s :=
          Run.bind_of_error (Run.bind_of_error first _) _
        have lazy : (lazyRange e least most ⟨f, f.codec e defs⟩).parse path
            ⟨.medium m, ctx, store⟩ = .error failure s :=
          (Run.bind_of_ok skips _).trans (Run.bind_of_error first _)
        rw [eager, lazy]
        exact .failed rfl
    | ok j s₁ =>
        obtain ⟨store₁, rfl⟩ := evalSize_eq_ok first
        cases second : e.evalSize most path ⟨.medium m, ctx, store₁⟩ with
        | error failure s =>
            have eager : (range e least most ⟨f, f.codec e defs⟩ false).parse path
                ⟨.medium m, ctx, store⟩ = .error failure s :=
              Run.bind_of_error ((Run.bind_of_ok first _).trans (Run.bind_of_error second _)) _
            have lazy : (lazyRange e least most ⟨f, f.codec e defs⟩).parse path
                ⟨.medium m, ctx, store⟩ = .error failure s :=
              (Run.bind_of_ok skips _).trans
                ((Run.bind_of_ok first _).trans (Run.bind_of_error second _))
            rw [eager, lazy]
            exact .failed rfl
        | ok k s₂ =>
            obtain ⟨store₂, rfl⟩ := evalSize_eq_ok second
            rw [range_of_bounds first second, lazyRange_of_bounds inside skips first second]
            obtain ⟨items, s, parsed, length, stream, laid⟩ :=
              parseGreedy_of_sized e path h size positive store₂ k 0 m ctx
            rw [← length]
            -- Both refuse bounds in the wrong order, and too few elements, for the same reason.
            by_cases order : k < j
            · have few : items.length < j := by omega
              rw [if_pos order, if_pos few]
              exact .failed rfl
            · rw [if_neg order, Run.bind_of_ok parsed]
              by_cases few : items.length < j
              · simp only [if_pos few]
                exact .failed rfl
              · simp only [if_neg few]
                have room : items.length * n ≤ m.rest.length := by
                  have quotient : items.length ≤ m.rest.length / n := by omega
                  exact (Nat.le_div_iff_mul_le positive).mp quotient
                exact sameList_of_laid faithful inside laid room _ path stream

end Repeaters

end Codec

/-! ## Formats -/

namespace Format

open Codec (HasSize SameList ReadsAs)

/-- For elements of constant width whose sizes add up to a size, a lazy array and a lazy range parse
where the eager ones do, up to the same position, as many elements; each of them and all of them
read as the eager list.  Elsewhere all fail with faults of one kind.  Where the elements have no
size, the lazy array evaluates its count twice, which comes to the same. -/
theorem lazy_lists_as_eager (defs : Definitions) (j n : Nat) (of : Format)
    (constants : of.OfConstants) (adds : of.All AddsUp) (count least most : Expr) {m : Medium}
    (inside : m.base ≤ m.pos) (path : Path) (ctx : Context) (store : LazyStore)
    (repeatable : (∀ k, ¬ HasSize (fun e => of.codec e defs) ctx k) →
      Repeatable defs j count path ⟨.medium m, ctx, store⟩) :
    SameList (Engine.level defs (n + 1)).resolver
      (((array count of false).codec (.level defs j) defs).parse path ⟨.medium m, ctx, store⟩)
      (((lazyArray count of).codec (.level defs j) defs).parse path ⟨.medium m, ctx, store⟩) ∧
    SameList (Engine.level defs (n + 1)).resolver
      (((range least most of false).codec (.level defs j) defs).parse path
        ⟨.medium m, ctx, store⟩)
      (((lazyRange least most of).codec (.level defs j) defs).parse path
        ⟨.medium m, ctx, store⟩) :=
  ⟨Codec.sameList_array constants adds _ (Engine.faithful_level defs n) path inside ctx store count
      fun unsized _ _ ran => (repeatable unsized).again ran,
    Codec.sameList_range constants adds _ (Engine.faithful_level defs n) path inside ctx store least
      most⟩

/-- Numbers of two bytes, of which five bytes hold two, and no byte strings of a length that is
none. -/
theorem lazy_lists_as_eager_pairs :
    (∃ s handle s', ((range (.const (.int 1)) (.const (.int 7)) (unsigned 2 .big) false).codec
        (.level [] 1) []).parse .this
          ⟨.medium ⟨.growing, [9, 1, 2, 3, 4, 5], 1⟩, .ofParams [], .empty⟩ =
          .ok (.list [.int 258, .int 772]) s ∧
      ((lazyRange (.const (.int 1)) (.const (.int 7)) (unsigned 2 .big)).codec (.level [] 1)
        []).parse .this ⟨.medium ⟨.growing, [9, 1, 2, 3, 4, 5], 1⟩, .ofParams [], .empty⟩ =
          .ok (.lazyList handle 2) s' ∧
      s.stream.pos = 5 ∧ s'.stream = s.stream ∧
      ReadsAs (Engine.level [] 1).resolver s'.store handle [.int 258, .int 772]) ∧
    ∃ handle s', ((lazyArray (.const (.int 0)) (bytes (.const (.int (-1))))).codec (.level [] 1)
        []).parse .this ⟨.medium ⟨.growing, [7], 0⟩, .ofParams [], .empty⟩ =
          .ok (.lazyList handle 0) s' ∧
      s'.stream.pos = 0 := by
  have uniform : Definitions.Uniform [] := fun _ => trivial
  have start : State.Arises [] ⟨.medium ⟨.growing, [7], 0⟩, .ofParams [], .empty⟩ :=
    Session.arises (n := 1) uniform .refl
      (fun _ mem => by cases List.mem_singleton.mp mem; trivial) _
  have pairs := (lazy_lists_as_eager [] 1 0 (unsigned 2 .big) ⟨2, rfl, by decide, by decide⟩
    trivial (.const (.int 2)) (.const (.int 1)) (.const (.int 7))
    (m := ⟨.growing, [9, 1, 2, 3, 4, 5], 1⟩) (Nat.zero_le 1) .this (.ofParams []) .empty
    fun unsized => absurd (fun _ _ => rfl) (unsized 2)).2
  have none := (lazy_lists_as_eager [] 1 0 (bytes (.const (.int (-1)))) ⟨-1, rfl⟩ trivial
    (.const (.int 0)) (.const (.int 0)) (.const (.int 0)) (m := ⟨.growing, [7], 0⟩) (Nat.zero_le 0)
    .this (.ofParams []) .empty fun _ => .literal uniform start (Nat.zero_le _)).1
  constructor
  · obtain ⟨s, eager, pos⟩ : ∃ s, ((range (.const (.int 1)) (.const (.int 7)) (unsigned 2 .big)
        false).codec (.level [] 1) []).parse .this
          ⟨.medium ⟨.growing, [9, 1, 2, 3, 4, 5], 1⟩, .ofParams [], .empty⟩ =
            .ok (.list [.int 258, .int 772]) s ∧ s.stream.pos = 5 := ⟨_, rfl, rfl⟩
    rw [eager] at pairs
    generalize ((lazyRange (.const (.int 1)) (.const (.int 7)) (unsigned 2 .big)).codec
      (.level [] 1) []).parse .this _ = result at pairs
    cases pairs with
    | parsed stream reads => exact ⟨s, _, _, eager, rfl, pos, stream, reads⟩
  · obtain ⟨s, eager, pos⟩ : ∃ s, ((array (.const (.int 0)) (bytes (.const (.int (-1))))
        false).codec (.level [] 1) []).parse .this
          ⟨.medium ⟨.growing, [7], 0⟩, .ofParams [], .empty⟩ = .ok (.list []) s ∧
            s.stream.pos = 0 := ⟨_, rfl, rfl⟩
    rw [eager] at none
    generalize ((lazyArray (.const (.int 0)) (bytes (.const (.int (-1))))).codec (.level [] 1)
      []).parse .this _ = result at none
    cases none with
    | parsed stream reads => exact ⟨_, _, rfl, by rw [stream, pos]⟩

/-- Two byte strings whose lengths add up to 2^64. -/
def vastPair : Format :=
  struct [bytes (.const (.int (Nat.pow 2 63))), bytes (.const (.int (Nat.pow 2 63)))] false

theorem vastPair_unread :
    vastPair.OfConstants ∧
    (∃ failure s, ((array (.const (.int 1)) vastPair false).codec (.level [] 1) []).parse .this
      ⟨.memory [], .ofParams [], .empty⟩ = .error failure s) ∧
    ∃ handle s, ((lazyArray (.const (.int 1)) vastPair).codec (.level [] 1) []).parse .this
      ⟨.memory [], .ofParams [], .empty⟩ = .ok (.lazyList handle 1) s :=
  ⟨⟨⟨_, rfl⟩, ⟨_, rfl⟩, trivial⟩, ⟨_, _, rfl⟩, _, _, rfl⟩

end Format

end BinaryFormat
