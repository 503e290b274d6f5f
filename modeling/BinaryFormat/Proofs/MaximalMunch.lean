import BinaryFormat.Proofs.MildFormats
import BinaryFormat.Proofs.Positions

/-!
# Ranges take as many elements as there are

A range of mild elements takes one after the other until it has the most that it may take, or the
element at the position fails or takes nothing.  Every element that it takes moves the position,
so the bytes that are left bound how often it goes on.
-/

namespace BinaryFormat

namespace Codec

/-- What comes of the element of index `i` at a position of the byte string, its index noted. -/
def attempt (of : Part) (path : Path) (m : Medium) (store : LazyStore) (i : Nat) (ctx : Context)
    (pos : Nat) : EStateM.Result Failure State Value :=
  (noteIndex i >>= fun _ => of.parse (path.element i)) ⟨.medium { m with pos := pos }, ctx, store⟩

/-- The component takes nothing at the position, or fails there for a reason that may be passed
over. -/
def NoFurther (of : Part) (path : Path) (m : Medium) (store : LazyStore) (i : Nat) (ctx : Context)
    (pos : Nat) : Prop :=
  (∃ v ctx', attempt of path m store i ctx pos =
      .ok v ⟨.medium { m with pos := pos }, ctx', store⟩) ∨
    ∃ failure s, failure.fault.isExplicit = false ∧
      attempt of path m store i ctx pos = .error failure s

/-- Elements from index `first` on that stand one behind the other, each between its position and
the next: as many as may be taken, or all up to a position where there is no further one. -/
structure Munch (of : Part) (path : Path) (m : Medium) (store : LazyStore) (first most : Nat)
    (items : List Value) (pos : Nat → Nat) (ctx : Nat → Context) : Prop where
  start : pos 0 = m.pos
  room : items.length ≤ most
  ahead : ∀ i < items.length, pos i < pos (i + 1)
  element : ∀ (i : Nat) (h : i < items.length),
    attempt of path m store (first + i) (ctx i) (pos i) =
      .ok (items.get ⟨i, h⟩) ⟨.medium { m with pos := pos (i + 1) }, ctx (i + 1), store⟩
  last : items.length = most ∨
    NoFurther of path m store (first + items.length) (ctx items.length) (pos items.length)
  within : pos items.length ≤ m.pos + m.rest.length
  steady : ∀ i ≤ items.length, (ctx 0).Eagerly (ctx i)

/-- A sequence with one more element in front. -/
def onFront {α : Type} (a : α) (f : Nat → α) : Nat → α
  | 0 => a
  | i + 1 => f i

variable {of : Part} {path : Path} {m : Medium} {store : LazyStore} {first most : Nat}
  {ctx : Context} {items : List Value} {pos : Nat → Nat} {ctxs : Nat → Context}

/-! ## Steps -/

private theorem munch_nil (last : 0 = most ∨ NoFurther of path m store first ctx m.pos) :
    Munch of path m store first most [] (fun _ => m.pos) (fun _ => ctx) where
  start := rfl
  room := Nat.zero_le most
  ahead _ none := nomatch none
  element _ none := nomatch none
  last := last
  within := Nat.le_add_right _ _
  steady _ _ := .refl ctx

private theorem Munch.cons {count : Nat} {v : Value} (positive : 0 < count)
    (room : count ≤ m.rest.length)
    (parsed : attempt of path m store first ctx m.pos =
      .ok v ⟨.medium (m.skip count), ctxs 0, store⟩) (eagerly : ctx.Eagerly (ctxs 0))
    (later : Munch of path (m.skip count) store (first + 1) most items pos ctxs) :
    Munch of path m store first (most + 1) (v :: items) (onFront m.pos pos) (onFront ctx ctxs) where
  start := rfl
  room := Nat.succ_le_succ later.room
  ahead i inside := by
    cases i with
    | zero =>
        have start : pos 0 = m.pos + count := later.start
        simp only [onFront]
        omega
    | succ i => exact later.ahead i (Nat.lt_of_succ_lt_succ inside)
  element i inside := by
    cases i with
    | zero =>
        have start : pos 0 = m.pos + count := later.start
        simp only [onFront, start]
        exact parsed
    | succ i =>
        have there := later.element i (Nat.lt_of_succ_lt_succ inside)
        rw [Nat.add_right_comm, Nat.add_assoc] at there
        exact there
  last := by
    have there := later.last
    rw [Nat.add_right_comm, Nat.add_assoc] at there
    exact there.imp (congrArg (· + 1)) id
  within := by
    have there := later.within
    have total := Medium.length_rest_skip room
    simp only [Medium.skip_pos] at there
    simp only [List.length_cons, onFront]
    omega
  steady i inside := by
    cases i with
    | zero => exact .refl ctx
    | succ i => exact eagerly.trans (later.steady i (Nat.le_of_succ_le_succ inside))

private theorem Munch.le_pos (munch : Munch of path m store first most items pos ctxs) (i : Nat)
    (inside : i ≤ items.length) : m.pos + i ≤ pos i := by
  induction i with
  | zero => exact munch.start.ge
  | succ i ih =>
      have before := ih (Nat.le_of_succ_le inside)
      have next := munch.ahead i inside
      omega

/-- Elements that each move the position are no more than the bytes in front of it. -/
private theorem Munch.length_le (munch : Munch of path m store first most items pos ctxs) :
    items.length ≤ m.rest.length := by
  have reached := munch.le_pos items.length (Nat.le_refl _)
  have within := munch.within
  omega

/-! ## Runs -/

/-- After an element the range goes on, unless the element took nothing. -/
private theorem parseGreedy_of_attempt {ctx' : Context} {v : Value} {count : Nat} (most : Nat)
    (run : attempt of path m store first ctx m.pos = .ok v ⟨.medium (m.skip count), ctx', store⟩) :
    parseGreedy of path (most + 1) first ⟨.medium m, ctx, store⟩ =
      (if count = 0 then pure [] else do return v :: (← parseGreedy of path most (first + 1)) :
        Run (List Value)) ⟨.medium (m.skip count), ctx', store⟩ := by
  have still : (m.skip count).pos = m.pos ↔ count = 0 := Nat.add_eq_left
  refine (parseGreedy_of_parsed most run).trans ?_
  exact congrFun (if_congr still rfl rfl) _

private theorem parseRange_of_taken {e : Engine} {least : Expr} {upper : Option Expr}
    {low high : Nat}
    {s s₁ ended : State} (bounded : bounds e least upper path s = .ok (low, high) s₁)
    (taken : parseGreedy of path high 0 s₁ = .ok items ended) :
    parseRange e least upper of false path s =
      if low ≤ items.length then .ok (.list items) ended
      else .error ((Fault.miscount (.tooFew low items.length)).atPath path) ended := by
  rw [parseRange, Run.bind_of_ok bounded]
  dsimp only
  rw [Run.bind_of_ok taken]
  by_cases enough : low ≤ items.length
  · rw [if_neg (Nat.not_lt.mpr enough), if_pos enough]
    rfl
  · rw [if_pos (Nat.lt_of_not_le enough), if_neg enough]
    rfl

/-- The bounds are evaluated where the range starts, and may resolve lazy members. -/
private theorem bounds_of_sizes {e : Engine} {least upper : Expr} {low high : Nat} {s s₁ s₂ : State}
    (ordered : low ≤ high) (lower : e.evalSize least path s = .ok low s₁)
    (higher : e.evalSize upper path s₁ = .ok high s₂) :
    bounds e least (some upper) path s = .ok (low, high) ⟨s.stream, s.context, s₂.store⟩ := by
  have first := e.looks_evalSize least path s
  have second := e.looks_evalSize upper path s₁
  rw [Run.after_of_ok lower] at first
  rw [Run.after_of_ok higher, first.1, first.2] at second
  rw [← second.1, ← second.2, bounds, Run.bind_of_ok lower]
  dsimp only
  rw [Run.bind_of_ok higher, if_neg (Nat.not_lt.mpr ordered)]
  rfl

section Runs

variable {dynamic : Bool} (mild : of.codec.Mild dynamic)
include mild

private theorem tame_attempt (path : Path) (store : LazyStore) (i : Nat) (m : Medium)
    (readable : ctx.Readable dynamic) :
    (noteIndex i >>= fun _ => of.parse (path.element i)).Tame m ctx store
      (fun _ ctx' => ctx.Eagerly ctx') ctx.Eagerly := by
  refine (tame_insert "_index" (v := .ofNat i) trivial (.refl ctx)).bind ?_
  intro _ m₁ ctx₁ eagerly
  exact (mild.part readable eagerly).mono (fun _ _ h => h.2) fun _ h => h

private theorem munch_parseGreedy (path : Path) (m : Medium) (store : LazyStore) (most first : Nat)
    (readable : ctx.Readable dynamic) :
    ∃ items pos ctxs ctx', Munch of path m store first most items pos ctxs ∧ ctxs 0 = ctx ∧
      parseGreedy of path most first ⟨.medium m, ctx, store⟩ =
        .ok items ⟨.medium { m with pos := pos items.length }, ctx', store⟩ := by
  induction most generalizing first m ctx with
  | zero => exact ⟨[], fun _ => m.pos, fun _ => ctx, ctx, munch_nil (.inl rfl), rfl, rfl⟩
  | succ most ih =>
      have tried := tame_attempt mild path store first m readable
      unfold Run.Tame at tried
      cases run : (noteIndex first >>= fun _ => of.parse (path.element first))
          ⟨.medium m, ctx, store⟩ with
      | error failure s =>
          rw [run] at tried
          obtain ⟨implicit, p, ctx₁, rfl, -⟩ := tried
          refine ⟨[], fun _ => m.pos, fun _ => ctx, ctx₁,
            munch_nil (.inr (.inr ⟨failure, _, implicit, run⟩)), rfl, ?_⟩
          rw [parseGreedy_of_failed most run, implicit]
          rfl
      | ok v s =>
          rw [run] at tried
          obtain ⟨count, ctx₁, rfl, room, eagerly⟩ := tried
          rw [parseGreedy_of_attempt most run]
          rcases Nat.eq_zero_or_pos count with rfl | positive
          · exact ⟨[], fun _ => m.pos, fun _ => ctx, ctx₁,
              munch_nil (.inr (.inl ⟨v, ctx₁, run⟩)), rfl, rfl⟩
          · -- The element has moved the position, so the range goes on behind it.
            obtain ⟨items, pos, ctxs, ctx', munch, rfl, rest⟩ :=
              ih (m.skip count) (first + 1) (readable.after eagerly)
            refine ⟨v :: items, onFront m.pos pos, onFront ctx ctxs, ctx',
              .cons positive room run eagerly munch, rfl, ?_⟩
            rw [if_neg positive.ne']
            exact Run.bind_of_ok rest _

/-- Once more elements may be taken than there are bytes left, it does not matter how many. -/
private theorem parseGreedy_of_enough (path : Path) {n n' first : Nat}
    (readable : ctx.Readable dynamic)
    (enough : m.rest.length < n) (enough' : m.rest.length < n') :
    parseGreedy of path n first ⟨.medium m, ctx, store⟩ =
      parseGreedy of path n' first ⟨.medium m, ctx, store⟩ := by
  induction n generalizing n' first m ctx with
  | zero => exact absurd enough (Nat.not_lt_zero _)
  | succ n ih =>
      obtain ⟨n', rfl⟩ : ∃ k, n' = k + 1 := ⟨n' - 1, by omega⟩
      have tried := tame_attempt mild path store first m readable
      unfold Run.Tame at tried
      cases run : (noteIndex first >>= fun _ => of.parse (path.element first))
          ⟨.medium m, ctx, store⟩ with
      | error failure s => rw [parseGreedy_of_failed n run, parseGreedy_of_failed n' run]
      | ok v s =>
          rw [run] at tried
          obtain ⟨count, ctx₁, rfl, room, eagerly⟩ := tried
          rw [parseGreedy_of_attempt n run, parseGreedy_of_attempt n' run]
          by_cases zero : count = 0
          · rw [if_pos zero, if_pos zero]
          · have total := Medium.length_rest_skip room
            have rest : parseGreedy of path n (first + 1) ⟨.medium (m.skip count), ctx₁, store⟩ =
                parseGreedy of path n' (first + 1) ⟨.medium (m.skip count), ctx₁, store⟩ :=
              ih (readable.after eagerly) (by omega) (by omega)
            rw [if_neg zero, if_neg zero]
            simp only [bind, EStateM.bind, rest]

/-- A range that may take as many elements as there are bytes stops where there is no further
one. -/
private theorem Munch.no_further (munch : Munch of path m store first most items pos ctxs)
    (readable : (ctxs 0).Readable dynamic) (enough : m.rest.length ≤ most) :
    NoFurther of path m store (first + items.length) (ctxs items.length) (pos items.length) := by
  rcases munch.last with full | stopped
  · have far := munch.le_pos items.length (Nat.le_refl _)
    have within := munch.within
    -- The elements have taken all bytes, and none of them was left for another one.
    have reached : pos items.length = m.pos + m.rest.length := by omega
    have nothing : (m.skip m.rest.length).rest = [] := Medium.rest_skip (List.append_nil _).symm
    have tried := tame_attempt mild path store (first + items.length) (m.skip m.rest.length)
      (readable.after (munch.steady items.length (Nat.le_refl _)))
    rw [reached]
    unfold Run.Tame at tried
    cases run : (noteIndex (first + items.length) >>=
        fun _ => of.parse (path.element (first + items.length)))
        ⟨.medium (m.skip m.rest.length), ctxs items.length, store⟩ with
    | error failure s =>
        rw [run] at tried
        exact .inr ⟨failure, s, tried.1, run⟩
    | ok v s =>
        rw [run] at tried
        obtain ⟨count, ctx₁, rfl, none, -⟩ := tried
        rw [nothing] at none
        obtain rfl := Nat.le_zero.mp none
        exact .inl ⟨v, ctx₁, run⟩
  · exact stopped

end Runs

end Codec

namespace Format

open Codec

/-- A range takes elements one behind the other, each exactly from its position to the next one,
until it has the most that it may take or there is no further element; it stops where the last one
ends and is refused if these are too few.  A greedy range takes whatever there is and is never
refused. -/
theorem ranges_munch (e : Engine) (defs : Definitions) {dynamic : Bool} {of : Format}
    (mild : of.Mild dynamic) (m : Medium) {ctx : Context} (readable : ctx.Readable dynamic)
    (store : LazyStore) (path : Path) :
    let part : Part := ⟨of, of.codec e defs⟩
    (∀ (least most : Expr) (low high : Nat) (s₁ s₂ : State), low ≤ high →
      e.evalSize least path ⟨.medium m, ctx, store⟩ = .ok low s₁ →
      e.evalSize most path s₁ = .ok high s₂ →
      ∃ items pos ctxs ctx', Munch part path m s₂.store 0 high items pos ctxs ∧ ctxs 0 = ctx ∧
        items.length ≤ m.rest.length ∧
        let ended : State := ⟨.medium { m with pos := pos items.length }, ctx', s₂.store⟩
        ((range least most of false).codec e defs).parse path ⟨.medium m, ctx, store⟩ =
          if low ≤ items.length then .ok (.list items) ended
          else .error ((Fault.miscount (.tooFew low items.length)).atPath path) ended) ∧
    ∃ items pos ctxs ctx', Munch part path m store 0 Value.maxSize items pos ctxs ∧ ctxs 0 = ctx ∧
      items.length ≤ m.rest.length ∧
      let ended : State := ⟨.medium { m with pos := pos items.length }, ctx', store⟩
      ((greedyRange of false).codec e defs).parse path ⟨.medium m, ctx, store⟩ =
        .ok (.list items) ended ∧
      (m.rest.length < Value.maxSize →
        NoFurther part path m store items.length (ctxs items.length) (pos items.length) ∧
        ∀ n, m.rest.length < n →
          parseGreedy part path n 0 ⟨.medium m, ctx, store⟩ = .ok items ended) := by
  intro part
  have inner : part.codec.Mild dynamic := mild.codec e defs
  constructor
  · intro least most low high s₁ s₂ ordered lower higher
    obtain ⟨items, pos, ctxs, ctx', munch, start, taken⟩ :=
      munch_parseGreedy inner path m s₂.store high 0 readable
    refine ⟨items, pos, ctxs, ctx', munch, start, munch.length_le, ?_⟩
    exact parseRange_of_taken (bounds_of_sizes ordered lower higher) taken
  · obtain ⟨items, pos, ctxs, ctx', munch, start, taken⟩ :=
      munch_parseGreedy inner path m store Value.maxSize 0 readable
    refine ⟨items, pos, ctxs, ctx', munch, start, munch.length_le, ?_, fun finite => ⟨?_, ?_⟩⟩
    · have bounded := bounds_greedy e path ⟨.medium m, ctx, store⟩
      exact (parseRange_of_taken bounded taken).trans (if_pos (Nat.zero_le _))
    · have stopped := munch.no_further inner (start ▸ readable) finite.le
      rwa [Nat.zero_add] at stopped
    · intro n enough
      rw [parseGreedy_of_enough inner path readable enough finite, taken]

/-- Two pairs of bytes are taken, and the single byte behind them is left. -/
theorem ranges_munch_pairs :
    let pair : Format := integer (.const (.int 2)) false .big
    let m : Medium := ⟨.growing, [0, 1, 0, 2, 9], 0⟩
    pair.Mild false ∧ (default : Context).Readable false ∧
      ∃ pos ctxs ctx', Munch ⟨pair, pair.codec .exhausted []⟩ .this m .empty 0 3 [.int 1, .int 2]
          pos ctxs ∧ pos 2 = 4 ∧
        ((range (.const (.int 1)) (.const (.int 3)) pair false).codec .exhausted []).parse .this
            ⟨.medium m, default, .empty⟩ =
          .ok (.list [.int 1, .int 2]) ⟨.medium { m with pos := 4 }, ctx', .empty⟩ := by
  intro pair m
  have mild : pair.Mild false := .inl ⟨2, rfl⟩
  have readable : (default : Context).Readable false := nofun
  refine ⟨mild, readable, ?_⟩
  obtain ⟨items, pos, ctxs, ctx', munch, -, -, parsed⟩ :=
    (ranges_munch .exhausted [] mild m readable .empty .this).1 (.const (.int 1)) (.const (.int 3))
      1 3 _ _ (by decide) rfl rfl
  have run : ∃ ctx₁, ((range (.const (.int 1)) (.const (.int 3)) pair false).codec .exhausted
      []).parse .this ⟨.medium m, default, .empty⟩ =
        .ok (.list [.int 1, .int 2]) ⟨.medium { m with pos := 4 }, ctx₁, .empty⟩ := ⟨_, rfl⟩
  obtain ⟨ctx₁, run⟩ := run
  rw [run] at parsed
  split at parsed
  · injection parsed with values ended
    injection values with same
    subst same
    have last : 4 = pos 2 := congrArg (·.stream.pos) ended
    exact ⟨pos, ctxs, ctx₁, munch, last.symm, run⟩
  · cases parsed

end Format

end BinaryFormat
