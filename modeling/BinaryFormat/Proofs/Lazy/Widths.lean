import BinaryFormat.Proofs.Lazy.Slots
import BinaryFormat.Proofs.Number
import BinaryFormat.Proofs.Paces

/-!
# Formats of constant width

Integers, byte strings and arrays whose width, length and count are literals,
and structures and sequences of them, take as many bytes as their size says:
they parse wherever so many are left and fail for want of bytes everywhere else.
None of them asks a lazy member.
-/

namespace BinaryFormat

namespace Run

variable {α β : Type} {x : Run α} {n k : Nat}

/-! ## Runs that take so many bytes -/

/-- The run takes so many bytes where they are left, and fails for want of them where they are
not.  The lazy members stay as they are. -/
def Takes (n : Nat) (x : Run α) : Prop :=
  ∀ (m : Medium) (ctx : Context) (store : LazyStore),
    (n ≤ m.rest.length → ∃ a ctx', x ⟨.medium m, ctx, store⟩ =
      .ok a ⟨.medium (m.skip n), ctx', store⟩) ∧
    (m.rest.length < n → ∃ failure cause p ctx', x ⟨.medium m, ctx, store⟩ =
      .error failure ⟨.medium (m.moved p), ctx', store⟩ ∧ failure.fault = .shortage cause)

private theorem takes_pure (a : α) : (pure a : Run α).Takes 0 := fun _ ctx _ =>
  ⟨fun _ => ⟨a, ctx, rfl⟩, fun short => absurd short (Nat.not_lt_zero _)⟩

private theorem takes_insert (name : String) (v : Value) : (insert name v).Takes 0 := fun _ ctx _ =>
  ⟨fun _ => ⟨(), ctx.insert name v, rfl⟩, fun short => absurd short (Nat.not_lt_zero _)⟩

private theorem Takes.bind {f : α → Run β} (first : x.Takes n) (second : ∀ a, (f a).Takes k) :
    (x >>= f).Takes (n + k) := by
  intro m ctx store
  obtain ⟨enough, short⟩ := first m ctx store
  by_cases room : n ≤ m.rest.length
  · obtain ⟨a, ctx₁, ran⟩ := enough room
    obtain ⟨enough', short'⟩ := second a (m.skip n) ctx₁ store
    rw [Medium.rest_skip_of_le room, List.length_drop] at enough' short'
    rw [bind_of_ok ran, ← Medium.skip_skip]
    refine ⟨fun total => enough' (by omega), fun missing => ?_⟩
    obtain ⟨failure, cause, p, ctx₂, failed, isShort⟩ := short' (by omega)
    exact ⟨failure, cause, p, ctx₂, failed, isShort⟩
  · obtain ⟨failure, cause, p, ctx₁, failed, isShort⟩ := short (by omega)
    rw [bind_of_error failed]
    exact ⟨fun total => absurd total (by omega), fun _ => ⟨failure, cause, p, ctx₁, rfl, isShort⟩⟩

private theorem Takes.after {a : α} {f : α → Run β} (here : ∀ s, x s = .ok a s)
    (next : (f a).Takes n) :
    (x >>= f).Takes n := by
  intro m ctx store
  rw [bind_of_ok (here _)]
  exact next m ctx store

private theorem takes_read_bind {path : Path} {f : List UInt8 → Run β}
    (next : ∀ data, data.length = n → (f data).Takes k) :
    (Run.read n path >>= f).Takes (n + k) := by
  intro m ctx store
  by_cases room : n ≤ m.rest.length
  · have size : (m.rest.take n).length = n := by rw [List.length_take, Nat.min_eq_left room]
    have ran : Run.read n path ⟨.medium m, ctx, store⟩ =
        .ok (m.rest.take n) ⟨.medium (m.skip n), ctx, store⟩ :=
      read_eq_ok_iff.mpr ⟨room, rfl, rfl⟩
    obtain ⟨enough', short'⟩ := next _ size (m.skip n) ctx store
    rw [Medium.rest_skip_of_le room, List.length_drop] at enough' short'
    rw [bind_of_ok ran, ← Medium.skip_skip]
    refine ⟨fun total => enough' (by omega), fun missing => ?_⟩
    obtain ⟨failure, cause, p, ctx₂, failed, isShort⟩ := short' (by omega)
    exact ⟨failure, cause, p, ctx₂, failed, isShort⟩
  · refine ⟨fun total => absurd total (by omega), fun _ => ?_⟩
    have found : m.rest.take n = m.rest := List.take_of_length_le (by omega)
    have failed : Run.read n path ⟨.medium m, ctx, store⟩ =
        .error ((Fault.shortage (.read n m.rest.length)).atPath path)
          ⟨.medium (m.skip m.rest.length), ctx, store⟩ := by
      have differ : m.rest.length ≠ n := by omega
      simp [Run.read, Stream.read, Medium.read, Medium.upTo, found, differ, Medium.skip]
    rw [bind_of_error failed]
    exact ⟨_, _, _, _, rfl, rfl⟩

protected theorem Takes.tagged (h : x.Takes n) : (tagged x).Takes n := by
  intro m ctx store
  obtain ⟨enough, short⟩ := h m ctx store
  refine ⟨fun room => ?_, fun missing => ?_⟩
  · obtain ⟨a, ctx', ran⟩ := enough room
    exact ⟨a, ctx', tagged_of_ok ran⟩
  · obtain ⟨failure, cause, p, ctx', failed, isShort⟩ := short missing
    refine ⟨_, cause, p, ctx', tagged_of_error failed, ?_⟩
    exact isShort

protected theorem Takes.inFrame (h : x.Takes n) (values : Record Value) :
    (inFrame values x).Takes n := by
  intro m ctx store
  obtain ⟨enough, short⟩ := h m (ctx.push values) store
  refine ⟨fun room => ?_, fun missing => ?_⟩
  · obtain ⟨a, ctx', ran⟩ := enough room
    exact ⟨_, _, inFrame_of_ok ran⟩
  · obtain ⟨failure, cause, p, ctx', failed, isShort⟩ := short missing
    exact ⟨failure, cause, p, ctx'.pop, by rw [inFrame, failed], isShort⟩

/-! ## Runs that ask no lazy member -/

/-- A result in a state with another store. -/
def overStore (store : LazyStore) :
    EStateM.Result Failure State α → EStateM.Result Failure State α
  | .ok a s => .ok a { s with store := store }
  | .error failure s => .error failure { s with store := store }

/-- The run does the same over every store and leaves it as it is. -/
def Storeless (x : Run α) : Prop :=
  ∀ (s : State) (store : LazyStore), x { s with store := store } = overStore store (x s)

private theorem storeless_pure (a : α) : (pure a : Run α).Storeless := fun _ _ => rfl

private theorem storeless_fail (fault : Fault) (path : Path) :
    (fail fault path : Run α).Storeless :=
  fun _ _ => rfl

private theorem storeless_ofExcept (path : Path) (result : Except Fault α) :
    (ofExcept path result).Storeless := by
  cases result with
  | ok a => exact storeless_pure a
  | error fault => exact storeless_fail fault path

private theorem storeless_insert (name : String) (v : Value) :
    (insert name v).Storeless := fun _ _ => rfl

private theorem storeless_read (count : Nat) (path : Path) : (Run.read count path).Storeless := by
  intro s store
  simp only [Run.read]
  split <;> rfl

private theorem Storeless.bind {f : α → Run β} (first : x.Storeless)
    (second : ∀ a, (f a).Storeless) :
    (x >>= f).Storeless := by
  intro s store
  have here := first s store
  cases ran : x s with
  | ok a s₁ =>
      rw [ran] at here
      rw [bind_of_ok ran, bind_of_ok here]
      exact second a s₁ store
  | error failure s₁ =>
      rw [ran] at here
      rw [bind_of_error ran, bind_of_error here]
      rfl

protected theorem Storeless.tagged (h : x.Storeless) : (tagged x).Storeless := by
  intro s store
  have here := h s store
  unfold Run.tagged
  rw [here]
  cases x s <;> rfl

protected theorem Storeless.inFrame (h : x.Storeless) (values : Record Value) :
    (inFrame values x).Storeless := by
  intro s store
  have here := h { s with context := s.context.push values } store
  simp only [inFrame]
  rw [here]
  cases x { s with context := s.context.push values } <;> rfl

end Run

namespace Codec

/-! ## Sizes that are literals -/

private theorem storeless_evalSize (e : Engine) (n : Int) (path : Path) :
    (e.evalSize (.const (.int n)) path).Storeless := by
  intro s store
  have size (store : LazyStore) := Expr.evaluateSize_of_int e.resolver s.context.scope path store
    (Expr.evaluate_const e.resolver s.context.scope path store (.int n))
  simp only [Engine.evalSize, Run.scope, bind, EStateM.bind, Run.lookup, size]
  by_cases range : 0 ≤ n ∧ n ≤ Value.maxSize
  · rw [if_pos range, if_pos range]
    rfl
  · rw [if_neg range, if_neg range]
    rfl

private theorem hasSize_literal {n : Int} {k : Nat} {c : Engine → Codec} {ctx : Context}
    (size : ∀ e path, (c e).size ctx path = e.staticSize (.const (.int n)) ctx path)
    (known : HasSize c ctx k) : n = k ∧ k ≤ Value.maxSize := by
  have found := known.apply .exhausted .this default
  rw [size] at found
  obtain ⟨result, store, outcome, rest⟩ := Run.bind_eq_ok_iff.mp found
  simp only [Lookup.outcome, Expr.evaluateSize_of_int _ _ _ _ (Expr.evaluate_const _ _ _ _ _)]
    at outcome
  by_cases range : 0 ≤ n ∧ n ≤ Value.maxSize
  · rw [if_pos range] at outcome
    cases outcome
    cases rest
    omega
  · rw [if_neg range] at outcome
    cases outcome
    cases rest

/-! ## Repetition -/

theorem takes_parseCounted {of : Part} {n : Nat} (each : ∀ path, (of.codec.parse path).Takes n)
    (path : Path) : ∀ count i : Nat, (parseCounted of path count i).Takes (count * n)
  | 0, _ => by
      rw [Nat.zero_mul]
      exact Run.takes_pure []
  | count + 1, i => by
      have total : (count + 1) * n = 0 + (n + (count * n + 0)) := by
        rw [Nat.succ_mul]
        omega
      rw [total]
      refine (Run.takes_insert "_index" (.ofNat i)).bind fun _ => ?_
      refine (each (path.element i)).tagged.bind fun v => ?_
      exact (takes_parseCounted each path count (i + 1)).bind fun items => Run.takes_pure _

theorem storeless_parseCounted {of : Part} (each : ∀ path, (of.codec.parse path).Storeless)
    (path : Path) : ∀ count i : Nat, (parseCounted of path count i).Storeless
  | 0, _ => Run.storeless_pure []
  | count + 1, i => by
      refine (Run.storeless_insert "_index" (.ofNat i)).bind fun _ => ?_
      refine (each (path.element i)).tagged.bind fun v => ?_
      exact (storeless_parseCounted each path count (i + 1)).bind fun _ => Run.storeless_pure _

/-! ## Members -/

private theorem takes_noteItem (p : Part) (v : Value) : (noteItem p v).Takes 0 := by
  unfold noteItem
  cases p.name? with
  | none => exact Run.takes_pure ()
  | some name => exact Run.takes_insert name v

private theorem storeless_noteItem (p : Part) (v : Value) : (noteItem p v).Storeless := by
  unfold noteItem
  cases p.name? with
  | none => exact Run.storeless_pure ()
  | some name => exact Run.storeless_insert name v

private theorem storeless_parseMembers (place : Nat → Option String → Path) : ∀ (i : Nat)
    {members : List Part}, (∀ p ∈ members, ∀ path, (p.codec.parse path).Storeless) →
      (parseMembers place i members).Storeless
  | _, [], _ => Run.storeless_pure []
  | i, p :: rest, each => by
      refine (each p List.mem_cons_self _).tagged.bind fun v => ?_
      refine (storeless_noteItem p v).bind fun _ => ?_
      refine (storeless_parseMembers place (i + 1)
        fun q mem => each q (List.mem_cons_of_mem p mem)).bind
        fun _ => Run.storeless_pure _

end Codec

namespace Format

/-! ## Formats -/

mutual

/-- Integers of up to eight bytes, byte strings and arrays whose width, length or count is a
literal, and structures and sequences of them. -/
def OfConstants : Format → Prop
  | integer width _ _ => ∃ n : Nat, width = .const (.int n) ∧ 1 ≤ n ∧ n ≤ 8
  | bytes length => ∃ n : Int, length = .const (.int n)
  | array count of _ => (∃ n : Int, count = .const (.int n)) ∧ OfConstants of
  | named _ of | documented _ of => OfConstants of
  | struct fields _ | sequence fields => AllOfConstants fields
  | _ => False

def AllOfConstants : List Format → Prop
  | [] => True
  | f :: rest => OfConstants f ∧ AllOfConstants rest

end

mutual

theorem OfConstants.isLocal (near : Reach) : ∀ {f : Format}, f.OfConstants → f.Local near
  | integer .., ⟨n, same, _⟩ => by
      subst same
      exact trivial
  | bytes _, ⟨n, same⟩ => by
      subst same
      exact trivial
  | array _ of _, ⟨⟨n, same⟩, h⟩ => by
      subst same
      exact ⟨trivial, h.isLocal near⟩
  | named _ of, h => OfConstants.isLocal near (f := of) h
  | documented _ of, h => OfConstants.isLocal near (f := of) h
  | struct fields _, h => (show AllOfConstants fields from h).isLocal near []
  | sequence items, h => (show AllOfConstants items from h).isLocal near []

theorem AllOfConstants.isLocal (near : Reach) : ∀ (names : List String) {fs : List Format},
    AllOfConstants fs → LocalFields near names fs
  | _, [], _ => trivial
  | names, f :: _, ⟨h, later⟩ =>
      ⟨h.isLocal (names :: near), later.isLocal near (f.name?.toList ++ names)⟩

end

/-! ### What they take -/

open Codec (HasSize SizesTo)

theorem ofPattern_of_narrow {data : List UInt8} (narrow : data.length ≤ 8) (endian : Endian)
    (bits : Nat) (signed : Bool) :
    ∃ v, Integer.ofPattern (Bytes.toNat (Integer.inOrder endian data)) bits signed = .ok v := by
  have below := Bytes.toNat_lt_pow (Integer.inOrder endian data)
  rw [Integer.length_inOrder] at below
  have small : 256 ^ data.length ≤ 256 ^ 8 := Nat.pow_le_pow_right (by decide) narrow
  have least : (256 : Nat) ^ 8 < Nat.pow 2 127 := by decide
  have fits : ¬ Nat.pow 2 127 ≤ Bytes.toNat (Integer.inOrder endian data) := by omega
  unfold Integer.ofPattern
  cases signed with
  | true => exact ⟨_, rfl⟩
  | false => exact ⟨_, by rw [if_neg fits]; rfl⟩

private theorem takes_integer (e : Engine) {n : Nat} (positive : 1 ≤ n) (narrow : n ≤ 8)
    (signed : Bool)
    (endian : Endian) (path : Path) :
    ((Codec.integer e (.const (.int n)) signed endian).parse path).Takes n := by
  have small : n ≤ Value.maxSize := by
    have large : 8 ≤ Value.maxSize := by decide
    omega
  have width : Integer.checkWidth n 16 "bytes" = .ok () := by
    rw [Integer.checkWidth, if_neg (by omega)]
  refine .after (fun s => Codec.evalSize_const e path s small) ?_
  refine .after (a := ()) (fun s => by rw [width]; rfl) ?_
  refine Run.takes_read_bind (k := 0) fun data size => ?_
  have narrow : data.length ≤ 8 := by omega
  obtain ⟨v, number⟩ := ofPattern_of_narrow narrow endian (n * 8) signed
  exact .after (a := v) (fun s => by rw [number]; rfl) (Run.takes_pure _)

/-- The sizes of the members, as far as there are any, add up to a size. -/
def AddsUp : Format → Prop
  | struct members _ | sequence members =>
      ∀ n, Sizes.total (sizesIn [] members) = some n → n ≤ Value.maxSize
  | _ => True

private theorem sizeIn_literal {params : Record Value} {n : Int} {k : Nat} :
    (Expr.const (.int n)).sizeIn params = some k ↔ n = k ∧ k ≤ Value.maxSize := by
  simp only [Expr.sizeIn, Expr.valueIn, Value.int?, Option.bind_some]
  by_cases range : 0 ≤ n ∧ n ≤ Value.maxSize
  · rw [if_pos range, Option.some.injEq]
    omega
  · rw [if_neg range]
    simp only [reduceCtorEq, false_iff]
    omega

private theorem fitted_of_whole {j : Option Nat} {n : Nat}
    (whole : ∃ total, j = some total ∧ (total ≤ Value.maxSize → n = total))
    (small : ∀ total, j = some total → total ≤ Value.maxSize) : j.bind Sizes.fitted = some n := by
  obtain ⟨total, known, same⟩ := whole
  have fits := small total known
  rw [same fits]
  exact Sizes.bind_fitted.mpr ⟨known, fits⟩

mutual

/-- Where no sum passes the largest size, the size that is counted is that of the format. -/
theorem sizeIn_of_hasSize (defs : Definitions) : ∀ {f : Format} {ctx : Context} {n : Nat},
    f.OfConstants → f.All AddsUp → HasSize (fun e => f.codec e defs) ctx n → f.sizeIn [] = some n
  | integer _ _ _, _, _, ⟨_, same, _⟩, _, size => by
      subst same
      exact sizeIn_literal.mpr (Codec.hasSize_literal (fun _ _ => rfl) size)
  | bytes _, _, _, ⟨_, same⟩, _, size => by
      subst same
      exact sizeIn_literal.mpr (Codec.hasSize_literal (fun _ _ => rfl) size)
  | array _ of _, ctx, k, ⟨⟨c, same⟩, h⟩, adds, size => by
      subst same
      have nowhere : Reach.Carries [] ctx.frames ctx.frames := trivial
      obtain ⟨count, s₁, counted, product⟩ :=
        Run.bind_eq_ok_iff.mp (size.apply .exhausted .this default)
      -- The count is a literal, whose value does not depend on where it is evaluated.
      have literal : HasSize (fun e => Codec.bytes e (.const (.int c))) ctx count := by
        intro e' path'
        have static := Expr.carried_staticSize nowhere (x := .const (.int c)) trivial .this path'
        exact (static.eq_pure counted).2.2.2 e'
      have number : (Expr.const (.int c)).sizeIn [] = some count :=
        sizeIn_literal.mpr (Codec.hasSize_literal (fun _ _ => rfl) literal)
      obtain ⟨each, s₂, one, rest⟩ := Run.bind_eq_ok_iff.mp product
      have known := sizeIn_of_hasSize defs h adds.2
        ((local_codec defs (h.isLocal [])).hasSize nowhere one).1
      simp only [sizeIn, number, known, Sizes.times, Option.bind_some,
        Option.map_some, Sizes.fitted]
      split at rest
      · rename_i small
        cases rest
        exact if_pos small
      · cases rest
  | named _ of, _, _, h, adds, size => sizeIn_of_hasSize defs (f := of) h adds.2 size
  | documented _ of, _, _, h, adds, size => sizeIn_of_hasSize defs (f := of) h adds.2 size
  | struct fields _, ctx, n, h, adds, size => by
      have nowhere : Reach.Carries [] ctx.frames ctx.frames := trivial
      have isLocal := local_fields defs (AllOfConstants.isLocal [] [] h)
      have sizes := ((Codec.carried_fieldsSize nowhere.push .this .this isLocal).eq_pure
        (size.apply .exhausted .this default)).1
      exact fitted_of_whole (total_of_sizesTo defs h adds.2 sizes) adds.1
  | sequence items, ctx, n, h, adds, size => by
      have nowhere : Reach.Carries [] ctx.frames ctx.frames := trivial
      have isLocal := local_fields defs (AllOfConstants.isLocal [] [] h)
      have sizes := ((Codec.carried_itemsSize nowhere.push .this .this 0 isLocal).eq_pure
        (size.apply .exhausted .this default)).1
      exact fitted_of_whole (total_of_sizesTo defs h adds.2 sizes) adds.1

theorem total_of_sizesTo (defs : Definitions) : ∀ {fs : List Format} {ctx : Context} {n : Nat},
    AllOfConstants fs → AllOf AddsUp fs → SizesTo defs ctx fs n →
      ∃ total, Sizes.total (sizesIn [] fs) = some total ∧ (total ≤ Value.maxSize → n = total)
  | [], _, _, _, _, empty => ⟨0, rfl, fun _ => empty⟩
  | f :: rest, _, _, ⟨h, later⟩, ⟨adds, others⟩, ⟨a, b, one, behind, sum⟩ => by
      have first := sizeIn_of_hasSize defs h adds one
      obtain ⟨total, known, whole⟩ := total_of_sizesTo defs later others behind
      refine ⟨a + total, Sizes.plus_eq_some.mpr ⟨a, total, first, known, rfl⟩, fun small => ?_⟩
      rw [sum, whole (by omega), Size.add_of_le small]

end

mutual

/-- A format takes as many bytes as its size says. -/
theorem takes_codec (e : Engine) (defs : Definitions) : ∀ {f : Format} {n : Nat},
    f.OfConstants → f.sizeIn [] = some n → ∀ path, ((f.codec e defs).parse path).Takes n
  | integer _ signed endian, _, ⟨n, same, positive, narrow⟩, size, path => by
      subst same
      cases (sizeIn_literal.mp size).1
      exact takes_integer e positive narrow signed endian path
  | bytes _, k, ⟨n, same⟩, size, path => by
      subst same
      obtain ⟨rfl, small⟩ := sizeIn_literal.mp size
      refine .after (fun s => Codec.evalSize_const e path s small) ?_
      exact Run.takes_read_bind (k := 0) fun data _ => Run.takes_pure _
  | array _ of discard, k, ⟨⟨c, same⟩, h⟩, size, path => by
      subst same
      obtain ⟨count, number, product⟩ := Option.bind_eq_some_iff.mp size
      obtain ⟨rfl, small⟩ := sizeIn_literal.mp number
      obtain ⟨each, known, rfl⟩ := Option.map_eq_some_iff.mp (Sizes.bind_fitted.mp product).1
      refine .after (fun s => Codec.evalSize_const e path s small) ?_
      exact (Codec.takes_parseCounted
        (fun place => takes_codec e defs h known place) path count 0).bind
        (k := 0) fun items => Run.takes_pure _
  | named _ of, _, h, size, path => takes_codec e defs (f := of) h size path
  | documented _ of, _, h, size, path => takes_codec e defs (f := of) h size path
  | struct fields overwrite, n, h, size, path => by
      have isLocal := local_fields defs (AllOfConstants.isLocal [] [] h)
      have members := takes_parseMembers e defs (fun _ name => path.memberIf name) 0 h
        (Sizes.bind_fitted.mp size).1
      have all : (Codec.parseFields overwrite false path (parts e defs fields)).Takes n := by
        rw [Codec.parseFields_eq overwrite path _ 0 (Codec.isEmbedded_parts e isLocal)]
        exact members.bind (k := 0) fun _ => Run.takes_pure ()
      exact (all.inFrame []).bind (k := 0) fun _ => Run.takes_pure _
  | sequence items, n, h, size, path => by
      have members := takes_parseMembers e defs (fun i name => path.item name i) 0 h
        (Sizes.bind_fitted.mp size).1
      rw [← Codec.parseItems_eq] at members
      exact (members.inFrame []).bind (k := 0) fun _ => Run.takes_pure _

theorem takes_parseMembers (e : Engine) (defs : Definitions) (place : Nat → Option String → Path) :
    ∀ (i : Nat) {fs : List Format} {n : Nat}, AllOfConstants fs →
      Sizes.total (sizesIn [] fs) = some n →
        (Codec.parseMembers place i (parts e defs fs)).Takes n
  | _, [], _, _, empty => by
      cases empty
      exact Run.takes_pure []
  | i, f :: rest, _, ⟨h, later⟩, sum => by
      obtain ⟨a, b, one, others, rfl⟩ := Sizes.plus_eq_some.mp sum
      have split : a + b = a + (0 + (b + 0)) := by omega
      rw [split]
      refine (takes_codec e defs h one _).tagged.bind fun v => ?_
      refine (Codec.takes_noteItem _ v).bind fun _ => ?_
      exact (takes_parseMembers e defs place (i + 1) later others).bind fun _ => Run.takes_pure _

end

mutual

theorem storeless_codec (e : Engine) (defs : Definitions) : ∀ {f : Format}, f.OfConstants →
    ∀ path, ((f.codec e defs).parse path).Storeless
  | integer _ signed endian, ⟨n, same, _⟩, path => by
      subst same
      refine (Codec.storeless_evalSize e n path).bind fun width => ?_
      refine (Run.storeless_ofExcept path _).bind fun _ => ?_
      refine (Run.storeless_read width path).bind fun data => ?_
      exact (Run.storeless_ofExcept path _).bind fun _ => Run.storeless_pure _
  | bytes _, ⟨n, same⟩, path => by
      subst same
      refine (Codec.storeless_evalSize e n path).bind fun length => ?_
      exact (Run.storeless_read length path).bind fun _ => Run.storeless_pure _
  | array _ of discard, ⟨⟨n, same⟩, h⟩, path => by
      subst same
      refine (Codec.storeless_evalSize e n path).bind fun count => ?_
      exact (Codec.storeless_parseCounted
        (fun place => storeless_codec e defs h place) path count 0).bind
        fun _ => Run.storeless_pure _
  | named _ of, h, path => storeless_codec e defs (f := of) h path
  | documented _ of, h, path => storeless_codec e defs (f := of) h path
  | struct fields overwrite, h, path => by
      have isLocal := local_fields defs (AllOfConstants.isLocal [] [] h)
      have members : (Codec.parseFields overwrite false path (parts e defs fields)).Storeless := by
        rw [Codec.parseFields_eq overwrite path _ 0 (Codec.isEmbedded_parts e isLocal)]
        exact (Codec.storeless_parseMembers _ 0 (storeless_parts e defs h)).bind
          fun _ => Run.storeless_pure ()
      exact (members.inFrame []).bind fun _ => Run.storeless_pure _
  | sequence items, h, path => by
      have members := Codec.storeless_parseMembers (fun i name => path.item name i) 0
        (storeless_parts e defs h)
      rw [← Codec.parseItems_eq] at members
      exact (members.inFrame []).bind fun _ => Run.storeless_pure _

theorem storeless_parts (e : Engine) (defs : Definitions) : ∀ {fs : List Format},
    AllOfConstants fs → ∀ p ∈ parts e defs fs, ∀ path, (p.codec.parse path).Storeless
  | [], _, _, mem => nomatch mem
  | _ :: _, ⟨h, later⟩, p, mem => by
      rcases List.mem_cons.mp mem with rfl | mem
      · exact storeless_codec e defs h
      · exact storeless_parts e defs later p mem

end

end Format

end BinaryFormat
