import BinaryFormat.Format.Meaning
import BinaryFormat.Proofs.EagerScope
import BinaryFormat.Proofs.Locality.Codecs
import BinaryFormat.Proofs.RoundTrip.Tame

/-!
# Formats that can be tried

Whatever stands in a byte string, a format of numbers, flags, blocks, texts and constants, or of
groups of them, either takes some of the bytes or fails for a reason that a caller may pass over.
It leaves the bytes, the frames below and the store as they were, and nothing lazy comes up.
-/

namespace BinaryFormat

/-! ## Frames that gain values without lazy parts -/

namespace Context

/-- The innermost frame may have other entries, but nothing lazy was noted in it. -/
structure Eagerly (before after : Context) : Prop where
  kept : before.Kept after
  eager : Value.EagerFields before.innermost → Value.EagerFields after.innermost

theorem Eagerly.refl (ctx : Context) : ctx.Eagerly ctx := ⟨.refl ctx, id⟩

theorem Eagerly.trans {a b c : Context} (h : a.Eagerly b) (h' : b.Eagerly c) : a.Eagerly c :=
  ⟨h.kept.trans h'.kept, fun eager => h'.eager (h.eager eager)⟩

private theorem eagerly_insert (ctx : Context) (name : String) {v : Value} (h : v.Eager) :
    ctx.Eagerly (ctx.insert name v) :=
  ⟨ctx.kept_insert name v, fun eager => eager.insert name h⟩

/-- Where expressions read the scope, nothing in the frames is lazy. -/
def Readable (dynamic : Bool) (ctx : Context) : Prop := dynamic = true → EagerFrames ctx.frames

variable {dynamic : Bool} {ctx ctx' : Context}

theorem Readable.after (h : ctx.Readable dynamic) (eagerly : ctx.Eagerly ctx') :
    ctx'.Readable dynamic := by
  intro reads frame mem
  have eager := h reads
  rcases List.mem_cons.mp mem with rfl | mem
  · exact eagerly.eager (eager ctx.innermost List.mem_cons_self)
  · rw [eagerly.kept.below] at mem
    exact eager frame (List.mem_cons_of_mem _ mem)

private theorem Readable.push (h : ctx.Readable dynamic) : (ctx.push []).Readable dynamic := by
  intro reads frame mem
  rcases List.mem_cons.mp mem with rfl | mem
  · exact trivial
  · exact h reads frame mem

end Context

/-! ## Steps of a run -/

namespace Run

variable {α : Type} {m : Medium} {ctx : Context} {store : LazyStore} {refuse : Context → Prop}

private theorem tame_lookup {good : α → Prop} {x : Lookup Failure α}
    (h : x.Answers good Failure.IsImplicit) (hr : refuse ctx) :
    (lookup x).Tame m ctx store (fun a ctx' => ctx' = ctx ∧ good a) refuse := by
  rcases h with ⟨a, ok, rfl⟩ | ⟨failure, implicit, rfl⟩
  · exact tame_of_ok rfl ⟨rfl, ok⟩
  · exact tame_of_error rfl implicit hr

private theorem Tame.framed {good : α → Prop} {x : Run α}
    (h : x.Tame m (ctx.push []) store (fun a ctx' => good a ∧ (ctx.push []).Eagerly ctx')
      (ctx.push []).Eagerly) (hr : refuse ctx) :
    (Run.inFrame [] x).Tame m ctx store
      (fun r ctx' => ctx' = ctx ∧ good r.1 ∧ Value.EagerFields r.2) refuse := by
  unfold Tame at h
  cases hx : x ⟨.medium m, ctx.push [], store⟩ with
  | error failure s =>
      rw [hx] at h
      obtain ⟨implicit, pos, ctx', rfl, eagerly⟩ := h
      have step : Run.inFrame [] x ⟨.medium m, ctx, store⟩ =
          .error failure ⟨.medium { m with pos := pos }, ctx'.pop, store⟩ := by
        rw [Run.inFrame, hx]
      rw [Tame, step, Context.pop_of_kept eagerly.kept]
      exact ⟨implicit, pos, ctx, rfl, hr⟩
  | ok a s =>
      rw [hx] at h
      obtain ⟨count, ctx', rfl, room, ok, eagerly⟩ := h
      rw [Tame, inFrame_of_ok hx]
      exact ⟨count, ctx'.pop, rfl, room, Context.pop_of_kept eagerly.kept, ok,
        eagerly.eager trivial⟩

end Run

/-! ## Lengths -/

/-- A number, or an expression over the scope where that may be read. -/
def Expr.Measures (dynamic : Bool) (x : Expr) : Prop :=
  (∃ n : Int, x = .const (.int n)) ∨ dynamic = true ∧ x.Hostless

namespace Engine

variable {e : Engine} {dynamic : Bool} {x : Expr} {ctx : Context} {path : Path}

private theorem answers_evaluateSize (h : x.Measures dynamic) (readable : ctx.Readable dynamic) :
    (x.evaluateSize e.resolver ctx.scope path).Answers (fun _ => True) Failure.IsImplicit := by
  rcases h with ⟨n, rfl⟩ | ⟨reads, plain⟩
  · -- A number is the same in every scope, so also where there is nothing to see.
    have nothing : Scope.Eager ⟨[], none, none⟩ := ⟨nofun, nofun, nofun⟩
    exact Expr.answers_evaluateSize e nothing (x := .const (.int n)) trivial path
  · have clear : Scope.Eager ⟨ctx.frames, none, none⟩ := ⟨readable reads, nofun, nofun⟩
    exact Expr.answers_evaluateSize e clear plain path

private theorem tame_measure (h : x.Measures dynamic) (readable : ctx.Readable dynamic) {m : Medium}
    {store : LazyStore} {refuse : Context → Prop} (hr : refuse ctx) :
    (e.evalSize x path).Tame m ctx store (fun _ ctx' => ctx' = ctx) refuse :=
  (Run.tame_lookup (answers_evaluateSize h readable) hr).mono (fun _ _ h => h.1) fun _ h => h

private theorem answers_staticSize (h : x.Measures dynamic) (readable : ctx.Readable dynamic) :
    (e.staticSize x ctx path).Answers (fun _ => True) Failure.IsImplicit := by
  rw [staticSize]
  have outcome : (x.evaluateSize e.resolver ctx.scope path).Answers (fun _ => True)
      Failure.IsImplicit := answers_evaluateSize h readable
  rcases outcome with ⟨n, -, found⟩ | ⟨failure, -, failed⟩
  · rw [found]
    exact .pure trivial
  · rw [failed]
    exact .throw rfl

end Engine

/-! ## Codecs -/

namespace Codec

/-- Parsing takes some of the bytes or fails for a reason that may be passed over, the size is
known or not for such a reason, and nothing lazy comes up. -/
structure Mild (dynamic : Bool) (c : Codec) : Prop where
  parse : ∀ (m : Medium) (ctx : Context) (store : LazyStore) (path : Path), ctx.Readable dynamic →
    (c.parse path).Tame m ctx store (fun v ctx' => v.Eager ∧ ctx.Eagerly ctx') ctx.Eagerly
  size : ∀ (ctx : Context) (path : Path), ctx.Readable dynamic →
    (c.size ctx path).Answers (fun _ => True) Failure.IsImplicit

variable {e : Engine} {dynamic : Bool}

section Steps

variable {m : Medium} {ctx ctx' : Context} {store : LazyStore}

private theorem Mild.after {c : Codec} (h : c.Mild dynamic) {path : Path}
    (readable : ctx.Readable dynamic)
    (eagerly : ctx.Eagerly ctx') :
    (c.parse path).Tame m ctx' store (fun v ctx'' => v.Eager ∧ ctx.Eagerly ctx'') ctx.Eagerly :=
  (h.parse m ctx' store path (readable.after eagerly)).mono
    (fun _ _ h => ⟨h.1, eagerly.trans h.2⟩) fun _ h => eagerly.trans h

theorem Mild.part {p : Part} (h : p.codec.Mild dynamic) {path : Path}
    (readable : ctx.Readable dynamic) (eagerly : ctx.Eagerly ctx') :
    (p.parse path).Tame m ctx' store (fun v ctx'' => v.Eager ∧ ctx.Eagerly ctx'') ctx.Eagerly :=
  (h.after readable eagerly).tagged

theorem tame_insert (name : String) {v : Value} (h : v.Eager) (eagerly : ctx.Eagerly ctx') :
    (Run.insert name v).Tame m ctx' store (fun _ ctx'' => ctx.Eagerly ctx'') ctx.Eagerly :=
  ⟨0, _, rfl, Nat.zero_le _, eagerly.trans (ctx'.eagerly_insert name h)⟩

end Steps

/-! ### Numbers and blocks -/

private theorem mild_integer {width : Expr} (measures : width.Measures dynamic) (signed : Bool)
    (endian : Endian) : (integer e width signed endian).Mild dynamic where
  parse m ctx store path readable := by
    have still := Context.Eagerly.refl ctx
    refine (Engine.tame_measure measures readable still).bind ?_
    rintro n m₁ _ rfl
    refine (Run.tame_ofExcept (fun _ => checkWidth_implicit) still).bind ?_
    rintro _ m₂ _ rfl
    refine (Run.tame_read n still).bind ?_
    rintro data m₃ _ rfl
    refine (Run.tame_ofExcept (fun _ => ofPattern_implicit) still).bind ?_
    rintro value m₄ _ rfl
    exact Run.tame_pure ⟨trivial, still⟩
  size ctx path readable := Engine.answers_staticSize measures readable

private theorem mild_flag : flag.Mild dynamic where
  parse m ctx store path _ := by
    refine (Run.tame_read 1 (Context.Eagerly.refl ctx)).bind ?_
    rintro data m₁ _ rfl
    exact Run.tame_pure ⟨trivial, .refl _⟩
  size _ _ _ := .pure trivial

private theorem mild_varint (bits : Nat) : (varint bits).Mild dynamic where
  parse m ctx store path _ := by
    refine (tame_readNumeral bits path (Context.Eagerly.refl ctx)).bind ?_
    rintro n m₁ _ rfl
    exact Run.tame_pure ⟨trivial, .refl _⟩
  size _ _ _ := .throw rfl

private theorem mild_bytes {length : Expr} (measures : length.Measures dynamic) :
    (bytes e length).Mild dynamic where
  parse m ctx store path readable := by
    have still := Context.Eagerly.refl ctx
    refine (Engine.tame_measure measures readable still).bind ?_
    rintro n m₁ _ rfl
    refine (Run.tame_read n still).bind ?_
    rintro data m₂ _ rfl
    exact Run.tame_pure ⟨trivial, still⟩
  size ctx path readable := Engine.answers_staticSize measures readable

private theorem mild_constant {of : Codec} (inner : of.Mild dynamic) {value : Value}
    (eager : value.Eager) :
    (constant e of value).Mild dynamic where
  parse m ctx store path readable := by
    refine (inner.parse m ctx store path readable).bind ?_
    rintro found m₁ ctx₁ ⟨plain, eagerly⟩
    refine (Run.tame_lookup (e.resolver.answers_equal plain eager) eagerly).bind ?_
    rintro same m₂ _ ⟨rfl, -⟩
    refine Run.tame_ite (fun _ => Run.tame_of_error rfl rfl eagerly) fun _ => ?_
    exact Run.tame_pure ⟨plain, eagerly⟩
  size := inner.size

private theorem mild_prefixedText {length : Part} (counted : length.codec.Mild dynamic)
    (encoding : Encoding) : (prefixedText length encoding).Mild dynamic where
  parse m ctx store path readable := by
    refine (counted.part readable (.refl ctx)).bind ?_
    rintro stored m₁ ctx₁ ⟨-, eagerly⟩
    cases stored.int? with
    | none => exact Run.tame_of_error rfl rfl eagerly
    | some n =>
        refine Run.tame_ite (fun _ => Run.tame_of_error rfl rfl eagerly) fun _ => ?_
        refine (Run.tame_read _ eagerly).bind ?_
        rintro data m₂ _ rfl
        cases decoded : TextField.decode encoding data with
        | error fault => exact Run.tame_fail (decode_implicit decoded) eagerly
        | ok v => exact Run.tame_pure ⟨eager_of_decode decoded, eagerly⟩
  size _ _ _ := .throw rfl

/-! ### Repetition -/

private theorem tame_parseElements {of : Part} (inner : of.codec.Mild dynamic) (path : Path)
    (count i : Nat) {m : Medium} {ctx ctx' : Context} {store : LazyStore}
    (readable : ctx.Readable dynamic) (eagerly : ctx.Eagerly ctx') :
    (parseCounted of path count i).Tame m ctx' store
      (fun items ctx'' => Value.EagerItems items ∧ ctx.Eagerly ctx'') ctx.Eagerly := by
  induction count generalizing i m ctx' with
  | zero => exact Run.tame_pure ⟨trivial, eagerly⟩
  | succ count ih =>
      rw [parseCounted]
      refine (tame_insert "_index" (v := .ofNat i) trivial eagerly).bind ?_
      intro _ m₁ ctx₁ eagerly₁
      refine (inner.part readable eagerly₁).bind ?_
      rintro v m₂ ctx₂ ⟨plain, eagerly₂⟩
      refine (ih (i + 1) eagerly₂).bind ?_
      rintro items m₃ ctx₃ ⟨rest, eagerly₃⟩
      exact Run.tame_pure ⟨⟨plain, rest⟩, eagerly₃⟩

private theorem eager_kept (discard : Bool) {items : List Value} (h : Value.EagerItems items) :
    (kept discard items).Eager := by
  cases discard
  · exact h
  · exact trivial

private theorem mild_array {count : Expr} (measures : count.Measures dynamic) {of : Part}
    (inner : of.codec.Mild dynamic) (discard : Bool) : (array e count of discard).Mild dynamic where
  parse m ctx store path readable := by
    have still := Context.Eagerly.refl ctx
    refine (Engine.tame_measure measures readable still).bind ?_
    rintro n m₁ _ rfl
    refine (tame_parseElements inner path n 0 readable still).bind ?_
    rintro items m₂ ctx₂ ⟨plain, eagerly⟩
    exact Run.tame_pure ⟨eager_kept discard plain, eagerly⟩
  size ctx path readable := by
    refine .bind (Engine.answers_staticSize measures readable) fun n _ => ?_
    refine .bind (inner.size ctx (path.element 0) readable) fun k _ => ?_
    by_cases fits : n * k ≤ Value.maxSize
    · rw [if_pos fits]
      exact .pure trivial
    · rw [if_neg fits]
      exact .throw rfl

/-! ### Payloads -/

private theorem Mild.parseSlice {c : Codec} (h : c.Mild dynamic) (data : List UInt8) {path : Path}
    {m : Medium} {ctx ctx' : Context} {store : LazyStore} (readable : ctx.Readable dynamic)
    (eagerly : ctx.Eagerly ctx') :
    (c.parseSlice data path).Tame m ctx' store
      (fun r ctx'' => r.1.Eager ∧ ctx.Eagerly ctx'') ctx.Eagerly := by
  refine ((h.after readable eagerly).onStream).bind ?_
  rintro r m₁ ctx₁ here
  exact Run.tame_pure here

private theorem tame_prefixOverhead {length : Part} (counted : length.codec.Mild dynamic)
    (inclusive : Bool) (path : Path) {m : Medium} {ctx : Context} {store : LazyStore}
    {refuse : Context → Prop} (readable : ctx.Readable dynamic) (hr : refuse ctx) :
    (overhead length inclusive path).Tame m ctx store (fun _ ctx' => ctx' = ctx) refuse := by
  cases inclusive with
  | false => exact Run.tame_pure rfl
  | true =>
      exact (Run.tame_lookup (counted.size ctx path readable) hr).mono (fun _ _ h => h.1)
        fun _ h => h

private theorem mild_prefixed {length : Part} (counted : length.codec.Mild dynamic) {of : Codec}
    (inner : of.Mild dynamic) (inclusive lenient : Bool) :
    (prefixed length of inclusive lenient).Mild dynamic where
  parse m ctx store path readable := by
    refine (counted.part readable (.refl ctx)).bind ?_
    rintro stored m₁ ctx₁ ⟨-, eagerly⟩
    cases stored.int? with
    | none => exact Run.tame_of_error rfl rfl eagerly
    | some n =>
        refine (tame_prefixOverhead counted inclusive path (readable.after eagerly) eagerly).bind ?_
        rintro extra m₂ _ rfl
        refine Run.tame_guard rfl eagerly fun _ => ?_
        refine (Run.tame_read _ eagerly).bind ?_
        rintro data m₃ _ rfl
        refine (inner.parseSlice data readable eagerly).bind ?_
        rintro r m₄ ctx₄ ⟨plain, eagerly₄⟩
        exact Run.tame_guard rfl eagerly₄ fun _ => Run.tame_pure ⟨plain, eagerly₄⟩
  size ctx path readable := by
    refine .bind (counted.size ctx path readable) fun n _ => ?_
    exact .bind (inner.size ctx path readable) fun k _ => .pure trivial

/-! ### Groups -/

theorem eager_tag (tagged : Bool) (alternative : Part) {v : Value} (h : v.Eager) :
    (tag tagged alternative v).Eager := by
  cases tagged with
  | false => exact h
  | true =>
      have name : ((alternative.name?.map Value.str).getD .none).Eager := by
        cases alternative.name? <;> exact trivial
      exact ⟨name, h, trivial⟩

section Groups

variable {parts : List Part} (each : ∀ p ∈ parts, p.codec.Mild dynamic)
include each

private theorem tame_parseEach (path : Path) (i : Nat) {m : Medium} {ctx ctx' : Context}
    {store : LazyStore} (readable : ctx.Readable dynamic) (eagerly : ctx.Eagerly ctx') :
    (parseItems path i parts).Tame m ctx' store
      (fun items ctx'' => Value.EagerItems items ∧ ctx.Eagerly ctx'') ctx.Eagerly := by
  induction parts generalizing i m ctx' with
  | nil => exact Run.tame_pure ⟨trivial, eagerly⟩
  | cons item rest ih =>
      rw [parseItems]
      refine ((each item List.mem_cons_self).part readable eagerly).bind ?_
      rintro v m₁ ctx₁ ⟨plain, eagerly₁⟩
      have note : (noteItem item v).Tame m₁ ctx₁ store (fun _ ctx'' => ctx.Eagerly ctx'')
          ctx.Eagerly := by
        unfold noteItem
        cases item.name? with
        | none => exact Run.tame_pure eagerly₁
        | some name => exact tame_insert name plain eagerly₁
      refine note.bind ?_
      intro _ m₂ ctx₂ eagerly₂
      refine (ih (fun p mem => each p (List.mem_cons_of_mem _ mem)) (i + 1) eagerly₂).bind ?_
      rintro items m₃ ctx₃ ⟨plain', eagerly₃⟩
      exact Run.tame_pure ⟨⟨plain, plain'⟩, eagerly₃⟩

private theorem tame_parseNamed (flat : ∀ p ∈ parts, p.format.isEmbedded = false) (overwrite : Bool)
    (path : Path) {m : Medium} {ctx ctx' : Context} {store : LazyStore}
    (readable : ctx.Readable dynamic) (eagerly : ctx.Eagerly ctx') :
    (parseFields overwrite false path parts).Tame m ctx' store
      (fun _ ctx'' => True ∧ ctx.Eagerly ctx'') ctx.Eagerly := by
  induction parts generalizing m ctx' with
  | nil => exact Run.tame_pure ⟨trivial, eagerly⟩
  | cons field rest ih =>
      have first (place : Path) : (field.parse place).Tame m ctx' store
          (fun v ctx'' => v.Eager ∧ ctx.Eagerly ctx'') ctx.Eagerly :=
        (each field List.mem_cons_self).part readable eagerly
      have later {m : Medium} {ctx' : Context} (eagerly : ctx.Eagerly ctx') :=
        ih (fun p mem => each p (List.mem_cons_of_mem _ mem))
          (fun p mem => flat p (List.mem_cons_of_mem _ mem)) (m := m) eagerly
      rw [parseFields]
      simp only [flat field List.mem_cons_self, Bool.false_eq_true, if_false]
      cases field.name? with
      | none =>
          refine (first path).bind ?_
          rintro v m₁ ctx₁ ⟨-, eagerly₁⟩
          exact later eagerly₁
      | some name =>
          refine (first (path.member name)).bind ?_
          rintro v m₁ ctx₁ ⟨plain, eagerly₁⟩
          refine (tame_insert name plain eagerly₁).bind ?_
          intro _ m₂ ctx₂ eagerly₂
          exact later eagerly₂

private theorem answers_fieldsSize {ctx : Context} (path : Path) (readable : ctx.Readable dynamic) :
    (fieldsSize ctx path parts).Answers (fun _ => True) Failure.IsImplicit := by
  induction parts with
  | nil => exact .pure trivial
  | cons field rest ih =>
      refine .bind ((each field List.mem_cons_self).size ctx _ readable) fun n _ => ?_
      exact .bind (ih fun p mem => each p (List.mem_cons_of_mem _ mem)) fun k _ => .pure trivial

private theorem answers_itemsSize {ctx : Context} (path : Path) (i : Nat)
    (readable : ctx.Readable dynamic) :
    (itemsSize ctx path i parts).Answers (fun _ => True) Failure.IsImplicit := by
  induction parts generalizing i with
  | nil => exact .pure trivial
  | cons item rest ih =>
      refine .bind ((each item List.mem_cons_self).size ctx _ readable) fun n _ => ?_
      exact .bind (ih (fun p mem => each p (List.mem_cons_of_mem _ mem)) (i + 1)) fun k _ =>
        .pure trivial

private theorem answers_sizes {ctx : Context} (path : Path) (readable : ctx.Readable dynamic) :
    (Part.sizes ctx path parts).Answers (fun _ => True) Failure.IsImplicit := by
  induction parts with
  | nil => exact .pure trivial
  | cons p rest ih =>
      refine .bind ((each p List.mem_cons_self).size ctx path readable) fun n _ => ?_
      exact .bind (ih fun q mem => each q (List.mem_cons_of_mem _ mem)) fun k _ => .pure trivial

private theorem mild_struct (flat : ∀ p ∈ parts, p.format.isEmbedded = false) (overwrite : Bool) :
    (struct e parts overwrite).Mild dynamic where
  parse m ctx store path readable := by
    refine ((tame_parseNamed each flat overwrite path readable.push
      (.refl (ctx.push []))).framed (Context.Eagerly.refl ctx)).bind ?_
    rintro ⟨_, frame⟩ m₁ _ ⟨rfl, -, plain⟩
    exact Run.tame_pure ⟨plain, .refl _⟩
  size ctx path readable := answers_fieldsSize each path readable.push

private theorem mild_sequence : (sequence e parts).Mild dynamic where
  parse m ctx store path readable := by
    refine ((tame_parseEach each path 0 readable.push
      (.refl (ctx.push []))).framed (Context.Eagerly.refl ctx)).bind ?_
    rintro ⟨items, _⟩ m₁ _ ⟨rfl, plain, -⟩
    exact Run.tame_pure ⟨plain, .refl _⟩
  size ctx path readable := answers_itemsSize each path 0 readable.push

/-- Whatever an alternative has read, the next one starts at the same position. -/
private theorem tame_parseFirst (tagged : Bool) (path : Path) {m : Medium} {ctx ctx' : Context}
    {store : LazyStore} (readable : ctx.Readable dynamic) (eagerly : ctx.Eagerly ctx') :
    (parseFirst tagged m.pos path parts).Tame m ctx' store
      (fun found ctx'' => (∀ v, found = some v → v.Eager) ∧ ctx.Eagerly ctx'') ctx.Eagerly := by
  induction parts generalizing ctx' with
  | nil => exact Run.tame_pure ⟨nofun, eagerly⟩
  | cons alternative rest ih =>
      have first : (alternative.parse path).Tame m ctx' store
          (fun v ctx'' => v.Eager ∧ ctx.Eagerly ctx'') ctx.Eagerly :=
        (each alternative List.mem_cons_self).part readable eagerly
      rw [parseFirst]
      unfold Run.Tame at first
      cases run : alternative.parse path ⟨.medium m, ctx', store⟩ with
      | ok v s =>
          rw [run] at first
          obtain ⟨count, ctx₁, rfl, room, plain, eagerly₁⟩ := first
          refine Run.Tame.of_eq (Run.bind_of_ok (Run.outcome_of_ok run) _) room ?_
          refine Run.tame_pure ⟨fun w found => ?_, eagerly₁⟩
          cases found
          exact eager_tag tagged alternative plain
      | error failure s =>
          rw [run] at first
          obtain ⟨implicit, pos, ctx₁, rfl, eagerly₁⟩ := first
          have back : Run.goTo m.pos ⟨.medium { m with pos := pos }, ctx₁, store⟩ =
              .ok () ⟨.medium (m.skip 0), ctx₁, store⟩ := rfl
          refine Run.Tame.of_eq (y := parseFirst tagged m.pos path rest) ?_ (Nat.zero_le _)
            (ih (fun p mem => each p (List.mem_cons_of_mem _ mem)) eagerly₁)
          rw [Run.bind_of_ok (Run.outcome_of_error run)]
          simp only [implicit, Bool.false_eq_true, if_false]
          exact Run.bind_of_ok back _

private theorem mild_select (tagged : Bool) : (select parts tagged).Mild dynamic where
  parse m ctx store path readable := by
    have start : Run.tell ⟨.medium m, ctx, store⟩ =
        .ok m.pos ⟨.medium (m.skip 0), ctx, store⟩ := rfl
    refine Run.Tame.of_eq (Run.bind_of_ok start _) (Nat.zero_le _) ?_
    refine (tame_parseFirst each tagged path readable (.refl ctx)).bind ?_
    rintro found m₁ ctx₁ ⟨plain, eagerly⟩
    cases found with
    | none => exact Run.tame_fail rfl eagerly
    | some v => exact Run.tame_pure ⟨plain v rfl, eagerly⟩
  size ctx path readable := by
    refine .bind (answers_sizes each path readable) fun sizes _ => ?_
    cases commonSize sizes with
    | none => exact .throw rfl
    | some n => exact .pure trivial

end Groups

end Codec

/-! ## Formats -/

namespace Format

mutual

/-- Integers, flags, numerals, blocks, constants and texts, and what is built from them by
counting, prefixing, grouping and choosing.  Lengths are numbers or, if `dynamic`, expressions
over the scope. -/
def Mild (dynamic : Bool) : Format → Prop
  | integer width _ _ => width.Measures dynamic
  | flag => True
  | varint _ => True
  | bytes length => length.Measures dynamic
  | constant of value => Mild dynamic of ∧ value.Eager
  | prefixedText length _ => Mild dynamic length
  | array count of _ => count.Measures dynamic ∧ Mild dynamic of
  | prefixed length of _ _ => Mild dynamic length ∧ Mild dynamic of
  | struct fields _ => MildAll dynamic fields
  | sequence items => MildAll dynamic items
  | select alternatives _ => MildAll dynamic alternatives
  | named _ of => Mild dynamic of
  | documented _ of => Mild dynamic of
  | _ => False

def MildAll (dynamic : Bool) : List Format → Prop
  | [] => True
  | f :: rest => Mild dynamic f ∧ MildAll dynamic rest

end

private theorem Mild.not_embedded {dynamic : Bool} {f : Format} (h : f.Mild dynamic) :
    f.isEmbedded = false :=
  isEmbedded_eq_false_of (P := Mild dynamic) (fun h => h) (fun h => h) (fun h => h) h

private theorem MildAll.not_embedded {dynamic : Bool} (e : Engine) (defs : Definitions) :
    ∀ {fs : List Format}, MildAll dynamic fs →
      ∀ p ∈ parts e defs fs, p.format.isEmbedded = false := by
  intro fs h p mem
  induction fs with
  | nil => cases mem
  | cons f rest ih =>
      rcases List.mem_cons.mp mem with rfl | mem
      · exact h.1.not_embedded
      · exact ih h.2 mem

variable (e : Engine) (defs : Definitions) {dynamic : Bool}

mutual

theorem Mild.codec : ∀ {f : Format}, f.Mild dynamic → (f.codec e defs).Mild dynamic
  | integer _ signed endian, h => Codec.mild_integer h signed endian
  | flag, _ => Codec.mild_flag
  | varint bits, _ => Codec.mild_varint bits
  | bytes _, h => Codec.mild_bytes h
  | constant _ _, h => Codec.mild_constant (Mild.codec h.1) h.2
  | prefixedText length encoding, h => Codec.mild_prefixedText (Mild.codec (f := length) h) encoding
  | array _ _ discard, h => Codec.mild_array h.1 (Mild.codec h.2) discard
  | prefixed _ _ inclusive lenient, h =>
      Codec.mild_prefixed (Mild.codec h.1) (Mild.codec h.2) inclusive lenient
  | struct _ overwrite, h =>
      Codec.mild_struct (MildAll.codec h) (MildAll.not_embedded e defs h) overwrite
  | sequence _, h => Codec.mild_sequence (MildAll.codec h)
  | select _ tagged, h => Codec.mild_select (MildAll.codec h) tagged
  | named _ of, h => Mild.codec (f := of) h
  | documented _ of, h => Mild.codec (f := of) h

theorem MildAll.codec : ∀ {fs : List Format}, MildAll dynamic fs →
    ∀ p ∈ parts e defs fs, p.codec.Mild dynamic
  | [], _, _, mem => nomatch mem
  | f :: rest, h, p, mem => by
      rcases List.mem_cons.mp mem with rfl | mem
      · exact Mild.codec h.1
      · exact MildAll.codec h.2 p mem

end

end Format

end BinaryFormat
