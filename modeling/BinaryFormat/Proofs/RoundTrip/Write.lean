import BinaryFormat.Proofs.Deferral
import BinaryFormat.Proofs.RoundTrip.Parse

/-!
# Plain formats are built as they encode

At the end of a byte string, building appends the bytes that `Encodes` names,
leaves no patches behind, and yields the value together with whatever else the
caller's records held.
-/

namespace BinaryFormat

namespace Value

private theorem bounds_none (v : Value) : v.Bounds .none := by
  have fields : ∀ fs : List (String × Value), BoundsFields fs [] := by
    intro fs
    induction fs with
    | nil => simp [BoundsFields]
    | cons entry rest ih => exact ⟨by simp [Record.get?], ih⟩
  cases v with
  | container fs =>
      intro input given
      cases given
      exact ⟨fun _ _ _ => rfl, fields fs⟩
  | list vs =>
      intro us given
      cases given
  | _ => trivial

private theorem bounds_int (v : Value) (n : Int) : v.Bounds (.int n) := by
  cases v with
  | container fs =>
      intro input given
      cases given
  | list vs =>
      intro us given
      cases given
  | _ => trivial

end Value

namespace Context

theorem rebaseSince_mark (ctx : Context) (base : Nat) : ctx.rebaseSince ctx.mark base = ctx := by
  simp [rebaseSince, withDeferred, mark]

end Context

namespace Engine

private theorem listInput_of_elements (e : Engine) {u : Value} {us : List Value}
    (given : u.elements? = some us) (path : Path) (s : State) :
    e.listInput u path s = .ok us s := by
  cases u <;> cases given <;> rfl

private theorem containerInput_of_entries (e : Engine) {u : Value} {input : Record Value}
    (given : u.entries? = some input) (path : Path) (s : State) :
    e.containerInput u path s = .ok input s := by
  cases u <;> cases given <;> rfl

end Engine

/-- Building appends these bytes and yields an extension of the value; an exact one, if the
input has no entries of its own. -/
def Codec.Writes (near : Surroundings) (c : Codec) (u v : Value) (data : List UInt8) : Prop :=
  ∀ (before : List UInt8) (ctx : Context) (store : LazyStore) (path : Path),
    near.Held ctx → near.Counted ctx →
      ∃ w ctx', c.build u path ⟨.atEnd before, ctx, store⟩ =
          .ok w ⟨.atEnd (before ++ data), ctx', store⟩ ∧
        ctx.Quiet ctx' ∧ v.Extends false w ∧ (v.Bounds u → v.Extends true w)

namespace Codec

/-- Elements that one codec writes. -/
inductive WritesEach (near : Surroundings) (c : Codec) : List Value → List Value →
    List (List UInt8) → Prop
  | nil : WritesEach near c [] [] []
  | cons {u us v vs part parts} (head : c.Writes near u v part)
      (tail : WritesEach near c us vs parts) :
      WritesEach near c (u :: us) (v :: vs) (part :: parts)

variable {e : Engine} {near : Surroundings} {u v : Value} {data : List UInt8}

private theorem writes_of_eq {c : Codec} (same : ∀ exact, v.Extends exact v)
    (h : ∀ (before : List UInt8) (ctx : Context) (store : LazyStore) (path : Path),
      near.Held ctx → near.Counted ctx → c.build u path ⟨.atEnd before, ctx, store⟩ =
        .ok v ⟨.atEnd (before ++ data), ctx, store⟩) :
    c.Writes near u v data := by
  intro before ctx store path held counted
  exact ⟨v, ctx, h before ctx store path held counted, Context.Quiet.refl ctx, same false,
    fun _ => same true⟩

/-! ## Numbers and byte strings -/

theorem writes_integer {width : Nat} {signed : Bool} {endian : Endian} {n : Int}
    (positive : 1 ≤ width) (narrow : width ≤ 16) (given : u.int? = some n)
    (fits : Integer.fits n (width * 8) signed = true) :
    (integer e (.const (.int width)) signed endian).Writes near u (.int n)
      (Integer.inOrder endian (Bytes.ofNat width (Integer.toPattern n (width * 8)))) := by
  refine writes_of_eq (fun exact => Value.extends_int exact n) ?_
  intro before ctx store path _ _
  have room : width ≤ Value.maxSize := Nat.le_trans narrow (by decide)
  have number : Integer.ofValue u = .ok n := by rw [Integer.ofValue, given]
  have pattern : Integer.checkedPattern n (width * 8) signed =
      .ok (Integer.toPattern n (width * 8)) := by rw [Integer.checkedPattern, if_pos fits]
  simp only [integer]
  rw [Run.bind_of_ok (evalSize_const e path _ room), checkWidth_of_le positive narrow,
    Run.bind_ofExcept_ok, number, Run.bind_ofExcept_ok, pattern, Run.bind_ofExcept_ok,
    Run.bind_of_ok (Run.write_atEnd before _)]
  rfl

theorem writes_flag {b : Bool} (given : u.bit? = some b) :
    flag.Writes near u (.bool b) [Bits.unit b] := by
  refine writes_of_eq (by simp [Value.Extends]) ?_
  intro before ctx store path _ _
  cases u with
  | bool _ | int _ =>
      cases given
      simp only [flag]
      rw [Run.bind_pure_apply, Run.bind_of_ok (Run.write_atEnd before _)]
      rfl
  | _ => cases given

theorem writes_varint {bits n : Nat} (given : u.int? = some (n : Int))
    (small : n < Nat.pow 2 bits) :
    (varint bits).Writes near u (.int n) (Varint.numeral n) := by
  refine writes_of_eq (fun exact => Value.extends_int exact n) ?_
  intro before ctx store path _ _
  have number : Integer.ofValue u = .ok (n : Int) := by rw [Integer.ofValue, given]
  simp only [varint]
  rw [number, Run.bind_ofExcept_ok, if_neg (by omega), if_neg (by omega), Int.toNat_natCast,
    Run.bind_of_ok (Run.write_atEnd before _)]
  rfl

theorem writes_zigzag {n : Int} (given : u.int? = some n) :
    zigzag.Writes near u (.int n) (Varint.numeral (Varint.zigzag n)) := by
  refine writes_of_eq (fun exact => Value.extends_int exact n) ?_
  intro before ctx store path _ _
  have number : Integer.ofValue u = .ok n := by rw [Integer.ofValue, given]
  simp only [zigzag]
  rw [number, Run.bind_ofExcept_ok, Run.bind_of_ok (Run.write_atEnd before _)]
  rfl

private theorem build_bytes {length : Expr} {before : List UInt8} {ctx : Context}
    (store : LazyStore)
    (path : Path) (size : near.Length length data.length) (held : near.Held ctx) :
    (bytes e length).build (.bytes data) path ⟨.atEnd before, ctx, store⟩ =
      .ok (.bytes data) ⟨.atEnd (before ++ data), ctx, store⟩ := by
  simp only [bytes]
  rw [Run.bind_of_ok (evalSize_of_length e path size held), if_neg (by simp),
    Run.bind_of_ok (Run.write_atEnd before data)]
  rfl

theorem writes_bytes {length : Expr} (size : near.Length length data.length) :
    (bytes e length).Writes near (.bytes data) (.bytes data) data := by
  refine writes_of_eq (by simp [Value.Extends]) ?_
  intro before ctx store path held _
  exact build_bytes store path size held

theorem writes_literal (small : data.length ≤ Value.maxSize) :
    (constant e (bytes e (.const (.int data.length))) (.bytes data)).Writes near u
      (.bytes data) data := by
  refine writes_of_eq (by simp [Value.Extends]) ?_
  intro before ctx store path held _
  exact build_bytes store path ⟨small, Or.inl rfl⟩ held

theorem writes_pass : pass.Writes near u .none [] := by
  refine writes_of_eq (by simp [Value.Extends]) ?_
  intro before ctx store path _ _
  rw [List.append_nil]
  rfl

theorem writes_greedyBytes : greedyBytes.Writes near (.bytes data) (.bytes data) data := by
  refine writes_of_eq (by simp [Value.Extends]) ?_
  intro before ctx store path _ _
  simp only [greedyBytes]
  rw [Run.bind_of_ok (Run.write_atEnd before data)]
  rfl

/-! ## Text -/

private theorem build_count {c : Codec} {n : Int} {stored before : List UInt8} {ctx : Context}
    (h : c.Writes near u (.int n) stored) (store : LazyStore) (path : Path)
    (held : near.Held ctx) (counted : near.Counted ctx) :
    ∃ w ctx', c.build u path ⟨.atEnd before, ctx, store⟩ =
        .ok w ⟨.atEnd (before ++ stored), ctx', store⟩ ∧ ctx.Quiet ctx' := by
  obtain ⟨w, ctx', built, quiet, -⟩ := h before ctx store path held counted
  exact ⟨w, ctx', built, quiet⟩

private theorem encode_str {encoding : Encoding} {text : String}
    (encoded : encoding.encode text = .ok data) :
    TextField.encode encoding (.str text) = .ok data := by
  simp only [TextField.encode, encoded]

theorem writes_prefixedText {length : Part} {encoding : Encoding} {text : String}
    {stored : List UInt8} (encoded : encoding.encode text = .ok data)
    (count : length.codec.Writes near (.ofNat data.length) (.int data.length) stored) :
    (prefixedText length encoding).Writes near (.str text) (.str text) (stored ++ data) := by
  intro before ctx store path held counted
  obtain ⟨w, ctx', built, quiet⟩ := build_count count store path held counted
  refine ⟨.str text, ctx', ?_, quiet, by simp [Value.Extends], fun _ => by simp [Value.Extends]⟩
  simp only [prefixedText]
  rw [encode_str encoded, Run.bind_ofExcept_ok, Run.bind_of_ok (Part.build_of_ok built),
    Run.bind_of_ok (Run.write_atEnd _ data), List.append_assoc]
  rfl

theorem writes_terminatedText {encoding : Encoding} {text : String} {first : List UInt8}
    {others : List (List UInt8)} (encoded : encoding.encode text = .ok data)
    (clear : ∀ t ∈ first :: others, t ∉ Bytes.chunks encoding.unit data) :
    (terminatedText (first :: others) encoding).Writes near (.str text) (.str text)
      (data ++ first) := by
  refine writes_of_eq (by simp [Value.Extends]) ?_
  intro before ctx store path _ _
  have free : ¬ (Bytes.chunks encoding.unit data).any (first :: others).contains = true := by
    rw [List.any_eq_true]
    rintro ⟨chunk, mem, found⟩
    exact clear chunk (by simpa using found) mem
  simp only [terminatedText]
  rw [encode_str encoded, Run.bind_ofExcept_ok, if_neg free,
    Run.bind_of_ok (Run.write_atEnd before _)]
  rfl

/-! ## Repetition -/

private theorem buildElements_of_writes {of : Part} {us vs : List Value} {parts : List (List UInt8)}
    (each : WritesEach near of.codec us vs parts) (path : Path)
    (store : LazyStore) (i : Nat) {before : List UInt8} {ctx : Context}
    (held : near.Held ctx) (counted : near.Counted ctx) :
    ∃ ws ctx', buildElements of path i us ⟨.atEnd before, ctx, store⟩ =
        .ok ws ⟨.atEnd (before ++ parts.flatten), ctx', store⟩ ∧ ctx.Quiet ctx' ∧
      Value.ExtendsItems false vs ws ∧
      (Value.BoundsItems vs us → Value.ExtendsItems true vs ws) := by
  induction each generalizing i before ctx with
  | nil =>
      refine ⟨[], ctx, ?_, Context.Quiet.refl ctx, by simp [Value.ExtendsItems], ?_⟩
      · rw [List.flatten_nil, List.append_nil]
        rfl
      · simp [Value.ExtendsItems]
  | @cons u us v vs part parts head _ ih =>
      have quiet := quiet_noteIndex ctx i
      obtain ⟨w, ctx₁, built, quiet₁, ext, exact_⟩ := head before _ store (path.element i)
        (held.quiet quiet) (counted.quiet quiet)
      have quiet' := quiet.trans quiet₁
      obtain ⟨ws, ctx₂, rest, quiet₂, exts, exacts⟩ := ih (i + 1) (held.quiet quiet')
        (counted.quiet quiet')
      refine ⟨w :: ws, ctx₂, ?_, quiet'.trans quiet₂, ⟨ext, exts⟩, ?_⟩
      · rw [buildElements, Run.bind_of_ok (noteIndex_eq i _ ctx store),
          Run.bind_of_ok (Part.build_of_ok built), Run.bind_of_ok rest, List.flatten_cons,
          List.append_assoc]
        rfl
      · intro bounds
        exact ⟨exact_ bounds.1, exacts bounds.2⟩

private theorem extends_list {us vs ws : List Value} (given : u.elements? = some us)
    (exts : Value.ExtendsItems false vs ws)
    (exacts : Value.BoundsItems vs us → Value.ExtendsItems true vs ws) :
    (Value.list vs).Extends false (.list ws) ∧
      ((Value.list vs).Bounds u → (Value.list vs).Extends true (.list ws)) := by
  simp only [Value.Extends, Value.Bounds]
  exact ⟨exts, fun bounds => exacts (bounds us given)⟩

theorem writes_array {count : Expr} {of : Part} {us vs : List Value}
    {parts : List (List UInt8)} (given : u.elements? = some us)
    (size : near.Length count us.length) (each : WritesEach near of.codec us vs parts) :
    (array e count of false).Writes near u (.list vs) parts.flatten := by
  intro before ctx store path held counted
  obtain ⟨ws, ctx', built, quiet, exts, exacts⟩ :=
    buildElements_of_writes each path store 0 held counted
  refine ⟨.list ws, ctx', ?_, quiet, extends_list given exts exacts⟩
  simp only [array]
  rw [Run.bind_of_ok (evalSize_of_length e path size held),
    Run.bind_of_ok (e.listInput_of_elements given path _), if_neg (by simp),
    Run.bind_of_ok built]
  rfl

theorem writes_prefixedArray {count of : Part} {us vs : List Value}
    {parts : List (List UInt8)} {stored : List UInt8} (given : u.elements? = some us)
    (first : count.codec.Writes near (.ofNat us.length) (.int us.length) stored)
    (each : WritesEach near of.codec us vs parts) :
    (prefixedArray e count of).Writes near u (.list vs) (stored ++ parts.flatten) := by
  intro before ctx store path held counted
  obtain ⟨w, ctx₁, counting, quiet₁⟩ := build_count first store path held counted
  obtain ⟨ws, ctx₂, built, quiet₂, exts, exacts⟩ :=
    buildElements_of_writes each path store 0 (held.quiet quiet₁) (counted.quiet quiet₁)
  refine ⟨.list ws, ctx₂, ?_, quiet₁.trans quiet₂, extends_list given exts exacts⟩
  simp only [prefixedArray]
  rw [Run.bind_of_ok (e.listInput_of_elements given path _),
    Run.bind_of_ok (Part.build_of_ok counting), Run.bind_of_ok built, List.append_assoc]
  rfl

theorem writes_greedyRange {of : Part} {us vs : List Value} {parts : List (List UInt8)}
    (given : u.elements? = some us) (small : us.length ≤ Value.maxSize)
    (each : WritesEach near of.codec us vs parts) (discard : Bool) :
    (greedyRange e of discard).Writes near u (.list vs) parts.flatten := by
  intro before ctx store path held counted
  obtain ⟨ws, ctx', built, quiet, exts, exacts⟩ :=
    buildElements_of_writes each path store 0 held counted
  refine ⟨.list ws, ctx', ?_, quiet, extends_list given exts exacts⟩
  have step : buildRange e (.const (.int 0)) none of u path ⟨.atEnd before, ctx, store⟩ =
      .ok (.list ws) ⟨.atEnd (before ++ parts.flatten), ctx', store⟩ := by
    rw [buildRange, Run.bind_of_ok (bounds_greedy e path _)]
    dsimp only
    rw [Run.bind_of_ok (e.listInput_of_elements given path _), if_neg (by omega),
      Run.bind_of_ok built]
    rfl
  exact step

/-! ## Envelopes -/

private theorem mark_apply (s : State) : Run.mark s = .ok s.context.mark s := rfl

private theorem buildScratch_of_writes {c : Codec} (h : c.Writes near u v data) (path : Path)
    (stream : Stream) {ctx : Context} (store : LazyStore) (held : near.Held ctx)
    (counted : near.Counted ctx) :
    ∃ w ctx', c.buildScratch u path ⟨stream, ctx, store⟩ =
        .ok (w, data) ⟨stream, ctx', store⟩ ∧
      ctx.Quiet ctx' ∧ v.Extends false w ∧ (v.Bounds u → v.Extends true w) := by
  obtain ⟨w, ctx', built, rest⟩ := h [] ctx store path held counted
  have step : Run.onStream (.memory []) (c.build u path) ⟨stream, ctx, store⟩ =
      .ok (w, .atEnd ([] ++ data)) ⟨stream, ctx', store⟩ := Run.onStream_of_ok built
  refine ⟨w, ctx', ?_, rest⟩
  rw [buildScratch, Run.bind_of_ok step]
  rfl

/-- Bytes that brought no patches are copied into the stream. -/
private theorem splice_of_mark {mark : Nat} {before : List UInt8} {ctx : Context}
    (store : LazyStore)
    (path : Path) (data : List UInt8) (none : mark = ctx.mark) :
    Run.splice data mark path ⟨.atEnd before, ctx, store⟩ =
      .ok () ⟨.atEnd (before ++ data), ctx, store⟩ := by
  rw [none, Run.splice, Run.bind_of_ok (Run.tell_atEnd before ctx store),
    Run.bind_of_ok (Run.write_atEnd before data)]
  simp [Run.modifyContext, Context.rebaseSince_mark]

private theorem mark_of_quiet {a b : Context} (h : a.Quiet b) : a.mark = b.mark := by
  rw [Context.mark, Context.mark, h.deferred]

theorem writes_prefixed {length : Format} {of : Codec} {defs : Definitions}
    {inclusive lenient : Bool} {stored : List UInt8} {extra : Nat}
    (inner : of.Writes near u v data) (overhead : Format.Overhead inclusive length extra)
    (first : (length.codec e defs).Writes near (.ofNat (Size.add data.length extra))
      (.int (Size.add data.length extra : Nat)) stored) :
    (prefixed ⟨length, length.codec e defs⟩ of inclusive lenient).Writes near u v
      (stored ++ data) := by
  intro before ctx store path held counted
  obtain ⟨w, ctx₁, built, quiet₁, ext⟩ :=
    buildScratch_of_writes inner path (.atEnd before) store held counted
  have extraKnown := overhead_eq e defs overhead path ⟨.atEnd before, ctx₁, store⟩
  obtain ⟨_, ctx₂, counting, quiet₂⟩ :=
    build_count first store path (held.quiet quiet₁) (counted.quiet quiet₁)
  have quiet := quiet₁.trans quiet₂
  refine ⟨w, ctx₂, ?_, quiet, ext⟩
  simp only [prefixed]
  rw [Run.bind_of_ok (mark_apply _), Run.bind_of_ok built]
  dsimp only
  rw [Run.bind_of_ok extraKnown, Run.bind_of_ok (Part.build_of_ok counting),
    Run.bind_of_ok (splice_of_mark store path data (mark_of_quiet quiet)), List.append_assoc]
  rfl

theorem writes_fixedSized {of : Codec} {n : Nat} (inner : of.Writes near u v data)
    (room : data.length ≤ n) (small : n ≤ Value.maxSize) :
    (fixedSized e (.const (.int n)) of).Writes near u v
      (data ++ List.replicate (n - data.length) 0) := by
  intro before ctx store path held counted
  obtain ⟨w, ctx', built, quiet, ext⟩ :=
    buildScratch_of_writes inner path (.atEnd before) store held counted
  refine ⟨w, ctx', ?_, quiet, ext⟩
  simp only [fixedSized]
  rw [Run.bind_of_ok (evalSize_const e path _ small), Run.bind_of_ok (mark_apply _),
    Run.bind_of_ok built]
  dsimp only
  rw [if_neg (by omega), Run.bind_of_ok (splice_of_mark store path _ (mark_of_quiet quiet))]
  rfl

/-! ## Padding -/

private theorem writeFill_atEnd (fill : Fill) (count : Nat) (path : Path) (before : List UInt8)
    (ctx : Context) (store : LazyStore) :
    writeFill fill count path ⟨.atEnd before, ctx, store⟩ =
      .ok () ⟨.atEnd (before ++ List.replicate count fill.pattern), ctx, store⟩ :=
  Run.write_atEnd before _

theorem writes_padded {of : Codec} {fill : Fill} {n : Nat} (inner : of.Writes near u v data)
    (room : data.length ≤ n) (small : n ≤ Value.maxSize) :
    (padded e (.const (.int n)) of fill).Writes near u v
      (data ++ List.replicate (n - data.length) fill.pattern) := by
  intro before ctx store path held counted
  obtain ⟨w, ctx', built, quiet, ext⟩ := inner before ctx store path held counted
  have used : Size.sub (before ++ data).length before.length = data.length := by simp
  refine ⟨w, ctx', ?_, quiet, ext⟩
  simp only [padded]
  rw [Run.bind_of_ok (evalSize_const e path _ small),
    Run.bind_of_ok (Run.tell_atEnd before ctx store),
    Run.bind_of_ok built, Run.bind_of_ok (Run.tell_atEnd _ ctx' store), used,
    Run.bind_of_ok (remainder_of_le room path _),
    Run.bind_of_ok (writeFill_atEnd fill _ path _ ctx' store), List.append_assoc]
  rfl

theorem writes_aligned {of : Codec} {fill : Fill} {n : Nat} (inner : of.Writes near u v data)
    (positive : 0 < n) (small : n ≤ Value.maxSize) :
    (aligned e (.const (.int n)) of fill).Writes near u v
      (data ++ List.replicate (toMultiple data.length n) fill.pattern) := by
  intro before ctx store path held counted
  obtain ⟨w, ctx', built, quiet, ext⟩ := inner before ctx store path held counted
  have used : Size.sub (before ++ data).length before.length = data.length := by simp
  refine ⟨w, ctx', ?_, quiet, ext⟩
  simp only [aligned]
  rw [Run.bind_of_ok (evalModulus_const e path _ positive small),
    Run.bind_of_ok (Run.tell_atEnd before ctx store), Run.bind_of_ok built,
    Run.bind_of_ok (Run.tell_atEnd _ ctx' store), used,
    Run.bind_of_ok (writeFill_atEnd fill _ path _ ctx' store), List.append_assoc]
  rfl

/-! ## Choice -/

theorem writes_branch {k : String} {yes no : Codec} {n : Int}
    (shown : Record.isPrivate k = false) (known : near.ints k = some n)
    (inner : (if n = 0 then no else yes).Writes near u v data) :
    (branch e (.field k) yes no).Writes near u v data := by
  intro before ctx store path held counted
  have sees : Engine.Sees ⟨.atEnd before, ctx, store⟩ (.field k) (.int n) :=
    Engine.sees_field shown (held k n shown known)
  obtain ⟨w, ctx', built, rest⟩ := inner before ctx store path held counted
  refine ⟨w, ctx', ?_, rest⟩
  simp only [branch]
  rw [Run.bind_of_ok (e.evalHolds_of_sees sees), holds_int]
  by_cases zero : n = 0
  · rw [if_pos zero] at built
    simp [zero, built]
  · rw [if_neg zero] at built
    simp [zero, built]

theorem writes_switch {k : String} {defs : Definitions} {n : Int} {otherwise : Option Format}
    {cases : List (Value × Format)} {f : Format} (shown : Record.isPrivate k = false)
    (known : near.ints k = some n) (eager : ∀ c ∈ cases, c.1.isLazy = false)
    (chosen : Format.caseOf n otherwise cases = some f)
    (inner : (f.codec e defs).Writes near u v data) :
    (switch e (.field k) (Format.casesOf e defs cases)
      (Format.partIf e defs otherwise)).Writes near u v data := by
  intro before ctx store path held counted
  have sees : Engine.Sees ⟨.atEnd before, ctx, store⟩ (.field k) (.int n) :=
    Engine.sees_field shown (held k n shown known)
  obtain ⟨w, ctx', built, rest⟩ := inner before ctx store path held counted
  refine ⟨w, ctx', ?_, rest⟩
  have scope : Run.scope ⟨.atEnd before, ctx, store⟩ =
      .ok ctx.scope ⟨.atEnd before, ctx, store⟩ := rfl
  have choice := chooseCase_eq e defs otherwise path sees eager
  simp only [chosen] at choice
  simp only [switch]
  rw [Run.bind_of_ok scope, Run.bind_of_ok choice]
  exact built

/-- A field that stores how long a list is is built from that length, whatever is given. -/
theorem writes_rebuild {of : Part} {x : String} {n : Nat} (shown : Record.isPrivate x = false)
    (known : near.lengths x = some n) (inner : of.codec.Writes near (.ofNat n) v data) :
    (rebuild e of (.lengthOf x)).Writes near u v data := by
  intro before ctx store path held counted
  obtain ⟨list, found, length⟩ := counted x n shown known
  have sees : Engine.Sees ⟨.atEnd before, ctx, store⟩ (.lengthOf x) (.ofNat n) :=
    Engine.sees_lengthOf shown found length
  obtain ⟨w, ctx', built, quiet, ext, exact_⟩ := inner before ctx store path held counted
  refine ⟨w, ctx', ?_, quiet, ext, fun _ => exact_ (Value.bounds_int v n)⟩
  simp only [rebuild]
  rw [Run.bind_of_ok (Run.outcome_of_ok (e.eval_of_sees sees))]
  exact built

/-! ## Sequences and structures -/

/-- Items that are each written, from inputs of their own. -/
inductive WritesItems : List Part → List Value → List Value → List UInt8 → Prop
  | nil : WritesItems [] [] [] []
  | cons {item items u us v vs part data} (head : item.codec.Writes .nothing u v part)
      (tail : WritesItems items us vs data) :
      WritesItems (item :: items) (u :: us) (v :: vs) (part ++ data)

private theorem WritesItems.length_eq {items : List Part} {us vs : List Value} {data : List UInt8}
    (h : WritesItems items us vs data) : us.length = items.length := by
  induction h with
  | nil => rfl
  | cons _ _ ih => rw [List.length_cons, List.length_cons, ih]

private theorem buildItems_of_writes {items : List Part} {us vs : List Value}
    (each : WritesItems items us vs data) (path : Path) (store : LazyStore) (i : Nat)
    {before : List UInt8} (ctx : Context) :
    ∃ ws ctx', buildItems path i (items.zip us) ⟨.atEnd before, ctx, store⟩ =
        .ok ws ⟨.atEnd (before ++ data), ctx', store⟩ ∧ ctx.Kept ctx' ∧
      Value.ExtendsItems false vs ws ∧
      (Value.BoundsItems vs us → Value.ExtendsItems true vs ws) := by
  induction each generalizing i before ctx with
  | nil =>
      refine ⟨[], ctx, ?_, Context.Kept.refl ctx, by simp [Value.ExtendsItems], ?_⟩
      · rw [List.append_nil]
        rfl
      · simp [Value.ExtendsItems]
  | @cons item items u us v vs part data head _ ih =>
      obtain ⟨w, ctx₁, built, quiet, ext, exact_⟩ := head before ctx store
        (path.item item.name? i) (Surroundings.held_nothing ctx)
        (Surroundings.counted_nothing ctx)
      obtain ⟨ctx₂, noted, kept⟩ := kept_noteItem item w (.atEnd (before ++ part)) ctx₁ store
      obtain ⟨ws, ctx₃, rest, kept', exts, exacts⟩ := ih (i + 1) ctx₂
      refine ⟨w :: ws, ctx₃, ?_, (quiet.kept.trans kept).trans kept', ⟨ext, exts⟩, ?_⟩
      · rw [List.zip_cons_cons, buildItems, Run.bind_of_ok (Part.build_of_ok built),
          Run.bind_of_ok noted, Run.bind_of_ok rest, List.append_assoc]
        rfl
      · intro bounds
        exact ⟨exact_ bounds.1, exacts bounds.2⟩

theorem writes_sequence {items : List Part} {us vs : List Value}
    (given : u.elements? = some us) (each : WritesItems items us vs data) :
    (sequence e items).Writes near u (.list vs) data := by
  intro before ctx store path _ _
  obtain ⟨ws, ctx', built, kept, exts, exacts⟩ := buildItems_of_writes each path store 0
    (ctx.push (preload (items.zip us)))
  have empty : ctx'.top.deferred = [] := kept.deferred
  have framed : Run.inFrame (preload (items.zip us)) (do
      let values ← buildItems path 0 (items.zip us)
      e.resolvePending
      return values) ⟨.atEnd before, ctx, store⟩ =
        .ok (ws, ctx'.innermost) ⟨.atEnd (before ++ data), ctx'.pop, store⟩ := by
    apply Run.inFrame_of_ok
    rw [Run.bind_of_ok built, Run.bind_of_ok (e.resolvePending_of_empty empty)]
    rfl
  rw [Context.pop_of_kept kept] at framed
  refine ⟨.list ws, ctx, ?_, Context.Quiet.refl ctx, extends_list given exts exacts⟩
  simp only [sequence]
  rw [Run.bind_of_ok (e.listInput_of_elements given path _), if_neg (by simp [each.length_eq]),
    Run.bind_of_ok framed]
  rfl

/-- Fields that are each written from a record, given the ones before. -/
inductive WritesFields (input : Record Value) :
    Surroundings → List Part → Record Value → List UInt8 → Prop
  | nil {near : Surroundings} : WritesFields input near [] [] []
  | named {near : Surroundings} {field fields name u v record part data}
      (hasName : field.name? = some name) (flat : field.format.isEmbedded = false)
      (given : input.get? name = some u ∨
        input.get? name = none ∧ field.format.isSelfSupplying = true ∧ u = .none)
      (lists : ∀ n, near.lengths name = some n → ∃ vs, v = .list vs ∧ vs.length = n)
      (head : field.codec.Writes near u v part)
      (tail : WritesFields input (near.note name v) fields record data) :
      WritesFields input near (field :: fields) ((name, v) :: record) (part ++ data)
  | unnamed {near : Surroundings} {field fields v record part data}
      (hasNone : field.name? = none) (flat : field.format.isEmbedded = false)
      (head : field.codec.Writes near .none v part)
      (tail : WritesFields input near fields record data) :
      WritesFields input near (field :: fields) record (part ++ data)

private theorem fieldInput_eq {input : Record Value} {field : Part} {name : String}
    (given : input.get? name = some u ∨
      input.get? name = none ∧ field.format.isSelfSupplying = true ∧ u = .none)
    (path : Path) (s : State) : fieldInput input field name path s = .ok u s := by
  rw [fieldInput]
  rcases given with found | ⟨missing, supplied, rfl⟩
  · rw [found]
    rfl
  · rw [missing]
    simp [supplied]

theorem counted_insert {ctx : Context} {name : String} {w : Value}
    (counted : near.Counted ctx) (ext : v.Extends false w)
    (lists : ∀ n, near.lengths name = some n → ∃ vs, v = .list vs ∧ vs.length = n) :
    (near.note name v).Counted (ctx.insert name w) := by
  intro x n hx known
  by_cases eq : x = name
  · subst eq
    obtain ⟨vs, rfl, length⟩ := lists n known
    cases w with
    | list ws =>
        simp only [Value.Extends] at ext
        refine ⟨.list ws, Record.get?_insert_self _ _ _, ?_⟩
        rw [Value.length?, ← ext.length_eq, length]
    | _ => simp [Value.Extends] at ext
  · obtain ⟨list, found, length⟩ := counted x n hx known
    have other := Record.get?_insert_of_ne (fun h => eq h.symm) ctx.innermost w
    exact ⟨list, other.trans found, length⟩

private theorem buildFields_of_writes {input : Record Value} {fields : List Part}
    {record : Record Value} (each : WritesFields input near fields record data)
    (distinct : (Record.keys record).Nodup) (path : Path) (store : LazyStore)
    {before : List UInt8} {ctx : Context} (held : near.Held ctx)
    (counted : near.Counted ctx) :
    ∃ ctx', buildFields input path fields ⟨.atEnd before, ctx, store⟩ =
        .ok () ⟨.atEnd (before ++ data), ctx', store⟩ ∧ ctx.Kept ctx' ∧
      Gathers false record ctx.innermost ctx'.innermost ∧
      (Value.BoundsFields record input → Gathers true record ctx.innermost ctx'.innermost) := by
  -- By the fields, whose values are gathered in the frame while their bytes are appended.
  induction each generalizing before ctx with
  | nil =>
      have quiet := Context.Quiet.refl ctx
      refine ⟨ctx, ?_, quiet.kept, gathers_nil quiet, fun _ => gathers_nil quiet⟩
      rw [List.append_nil]
      rfl
  | @named near field fields name u v record part data hasName flat given lists head _ ih =>
      obtain ⟨fresh, distinct⟩ := List.nodup_cons.mp distinct
      obtain ⟨w, ctx₁, built, quiet, ext, exact_⟩ :=
        head before ctx store (path.member name) held counted
      obtain ⟨ctx₂, rest, kept, gathers, gathers'⟩ := ih distinct
        ((held.quiet quiet).note ext name) (counted_insert (counted.quiet quiet) ext lists)
      have kept' := (quiet.kept.trans (Context.kept_insert ctx₁ name w)).trans kept
      have noted : Run.insert name w ⟨.atEnd (before ++ part), ctx₁, store⟩ =
          .ok () ⟨.atEnd (before ++ part), ctx₁.insert name w, store⟩ := rfl
      refine ⟨ctx₂, ?_, kept', gathers.cons quiet (fun _ => ext) fresh, ?_⟩
      · rw [buildFields]
        simp only [flat, Bool.false_eq_true, if_false, hasName]
        rw [Run.bind_of_ok (fieldInput_eq given _ _), Run.bind_of_ok (Part.build_of_ok built),
          Run.bind_of_ok noted, rest, List.append_assoc]
      · intro bounds
        refine (gathers' bounds.2).cons quiet (fun shown => exact_ ?_) fresh
        rcases given with found | ⟨-, -, rfl⟩
        · exact bounds.1 shown u found
        · exact Value.bounds_none v
  | @unnamed near field fields v record part data hasNone flat head _ ih =>
      obtain ⟨w, ctx₁, built, quiet, -⟩ := head before ctx store path held counted
      obtain ⟨ctx₂, rest, kept, gathers, gathers'⟩ :=
        ih distinct (held.quiet quiet) (counted.quiet quiet)
      refine ⟨ctx₂, ?_, quiet.kept.trans kept, gathers.quiet quiet,
        fun bounds => (gathers' bounds).quiet quiet⟩
      rw [buildFields]
      simp only [flat, Bool.false_eq_true, if_false, hasNone]
      rw [Run.bind_of_ok (Part.build_of_ok built), rest, List.append_assoc]

/-- A record that was gathered on top of the caller's entries. -/
private theorem Gathers.extends_over {exact : Bool} {record input after : Record Value}
    (h : Gathers exact record input after) (distinct : (Record.keys input).Nodup)
    (only : exact = true → ∀ k, Record.isPrivate k = false → Record.get? record k = none →
      Record.get? input k = none) :
    (Value.container record).Extends exact (.container after) := by
  simp only [Value.Extends]
  refine ⟨h.distinct distinct, Value.extendsFields_iff.mpr h.fields, ?_⟩
  intro hexact k hk absent
  rw [h.others k hk (Record.not_mem_keys_iff.mpr absent)]
  exact only hexact k hk absent

theorem writes_struct {fields : List Part} {record input : Record Value} {overwrite : Bool}
    {lengths : String → Option Nat} (given : u.entries? = some input)
    (distinctInput : (Record.keys input).Nodup) (distinct : (Record.keys record).Nodup)
    (lists : ∀ x n, lengths x = some n → (input.get? x).bind Value.length? = some n)
    (each : WritesFields input ⟨fun _ => none, lengths⟩ fields record data) :
    (struct e fields overwrite).Writes near u (.container record) data := by
  intro before ctx store path _ _
  have held : (⟨fun _ => none, lengths⟩ : Surroundings).Held (ctx.push input) := by
    intro k n _ h
    cases h
  have counted : (⟨fun _ => none, lengths⟩ : Surroundings).Counted (ctx.push input) := by
    intro x n _ h
    obtain ⟨list, found, length⟩ := Option.bind_eq_some_iff.mp (lists x n h)
    exact ⟨list, found, length⟩
  obtain ⟨ctx', built, kept, gathers, gathers'⟩ :=
    buildFields_of_writes each distinct path store held counted
  have empty : ctx'.top.deferred = [] := kept.deferred
  have framed : Run.inFrame input (do
      buildFields input path fields
      e.resolvePending) ⟨.atEnd before, ctx, store⟩ =
        .ok ((), ctx'.innermost) ⟨.atEnd (before ++ data), ctx'.pop, store⟩ := by
    apply Run.inFrame_of_ok
    rw [Run.bind_of_ok built, e.resolvePending_of_empty empty]
  rw [Context.pop_of_kept kept] at framed
  refine ⟨.container ctx'.innermost, ctx, ?_, Context.Quiet.refl ctx,
    gathers.extends_over distinctInput (by simp), ?_⟩
  · simp only [struct]
    rw [Run.bind_of_ok (e.containerInput_of_entries given path _), Run.bind_of_ok framed]
    rfl
  · intro bounds
    obtain ⟨only, members⟩ := bounds input given
    exact (gathers' members).extends_over distinctInput (fun _ => only)

end Codec

end BinaryFormat
