import BinaryFormat.Proofs.Encoding
import BinaryFormat.Proofs.Number
import BinaryFormat.Proofs.RoundTrip.Plain
import Mathlib

/-!
# Plain formats are read back

From a stream that goes on with the bytes of a value, parsing takes exactly
those bytes and yields the value, whatever follows them and whatever stands in
the frame beside the fields that the format refers to.
-/

namespace BinaryFormat

/-- Parsing takes these bytes and yields the value, up to private entries.  If `toEnd`,
nothing may follow them. -/
def Codec.Reads (toEnd : Bool) (near : Surroundings) (c : Codec) (v : Value)
    (data : List UInt8) : Prop :=
  ∀ (m : Medium) (suffix : List UInt8) (ctx : Context) (store : LazyStore) (path : Path),
    m.rest = data ++ suffix → (toEnd = true → suffix = []) → near.Held ctx →
      ∃ p ctx', c.parse path ⟨.medium m, ctx, store⟩ =
          .ok p ⟨.medium (m.skip data.length), ctx', store⟩ ∧
        ctx.Quiet ctx' ∧ v.Extends true p

namespace Codec

variable {e : Engine} {toEnd : Bool} {near : Surroundings} {v : Value} {data : List UInt8}

private theorem reads_of_eq {c : Codec} (extends_ : v.Extends true v)
    (h : ∀ (m : Medium) (suffix : List UInt8) (ctx : Context) (store : LazyStore) (path : Path),
      m.rest = data ++ suffix → (toEnd = true → suffix = []) → near.Held ctx →
        c.parse path ⟨.medium m, ctx, store⟩ =
          .ok v ⟨.medium (m.skip data.length), ctx, store⟩) :
    c.Reads toEnd near v data := by
  intro m suffix ctx store path next last held
  exact ⟨v, ctx, h m suffix ctx store path next last held, Context.Quiet.refl ctx, extends_⟩

/-! ## Sizes -/

/-- A length that the surroundings determine has its value. -/
theorem evalSize_of_length {x : Expr} {n : Nat} {s : State} (e : Engine) (path : Path)
    (h : near.Length x n) (held : near.Held s.context) : e.evalSize x path s = .ok n s := by
  obtain ⟨small, rfl | ⟨k, shown, known, rfl⟩⟩ := h
  · exact e.evalSize_of_sees (Engine.sees_const s _) small
  · exact e.evalSize_of_sees (Engine.sees_field shown (held k n shown known)) small

/-! ## Numbers and byte strings -/

theorem reads_integer {width : Nat} {signed : Bool} {endian : Endian} {n : Int}
    (positive : 1 ≤ width) (narrow : width ≤ 16)
    (fits : Integer.fits n (width * 8) signed = true) (proper : Value.fitsInt n = true) :
    (integer e (.const (.int width)) signed endian).Reads toEnd near (.int n)
      (Integer.inOrder endian (Bytes.ofNat width (Integer.toPattern n (width * 8)))) := by
  refine reads_of_eq (Value.extends_int true n) ?_
  intro m suffix ctx store path next _ _
  have room : width ≤ Value.maxSize := Nat.le_trans narrow (by decide)
  have length : (Integer.inOrder endian
      (Bytes.ofNat width (Integer.toPattern n (width * 8)))).length = width := by
    rw [Integer.length_inOrder, Bytes.length_ofNat]
  have data : Run.read width path ⟨.medium m, ctx, store⟩ =
    .ok _ ⟨.medium (m.skip _), ctx, store⟩ :=
    Run.read_of_rest_of_eq next length.symm
  simp only [integer]
  rw [Run.bind_of_ok (evalSize_const e path _ room), checkWidth_of_le positive narrow,
    Run.bind_ofExcept_ok, Run.bind_of_ok data, Integer.toNat_inOrder_ofNat,
    Integer.ofPattern_toPattern positive narrow fits proper]
  rfl

theorem reads_flag {b : Bool} : flag.Reads toEnd near (.bool b) [Bits.unit b] := by
  refine reads_of_eq (by simp [Value.Extends]) ?_
  intro m suffix ctx store path next _ _
  have unit : Run.read 1 path ⟨.medium m, ctx, store⟩ =
      .ok [Bits.unit b] ⟨.medium (m.skip 1), ctx, store⟩ := Run.read_of_rest_of_eq next rfl
  have bit : (Bits.unit b != 0) = b := by cases b <;> decide
  simp only [flag]
  rw [Run.bind_of_ok unit, List.headD_cons, bit]
  rfl

theorem reads_varint {bits n : Nat} (small : n < Nat.pow 2 bits) :
    (varint bits).Reads toEnd near (.int n) (Varint.numeral n) := by
  refine reads_of_eq (Value.extends_int true n) ?_
  intro m suffix ctx store path next _ _
  simp only [varint]
  rw [Run.bind_of_ok (Varint.read_numeral next small)]
  rfl

theorem reads_zigzag {n : Int} (proper : Value.fitsInt n = true) :
    zigzag.Reads toEnd near (.int n) (Varint.numeral (Varint.zigzag n)) := by
  refine reads_of_eq (Value.extends_int true n) ?_
  intro m suffix ctx store path next _ _
  simp only [zigzag]
  rw [Run.bind_of_ok (Varint.read_numeral next (Varint.zigzag_lt proper)),
    Varint.unzigzag_zigzag]
  rfl

private theorem parse_bytes {length : Expr} {m : Medium} {suffix : List UInt8} {ctx : Context}
    (store : LazyStore) (path : Path) (size : near.Length length data.length)
    (next : m.rest = data ++ suffix) (held : near.Held ctx) :
    (bytes e length).parse path ⟨.medium m, ctx, store⟩ =
      .ok (.bytes data) ⟨.medium (m.skip data.length), ctx, store⟩ := by
  simp only [bytes]
  rw [Run.bind_of_ok (evalSize_of_length e path size held),
    Run.bind_of_ok (Run.read_of_rest next)]
  rfl

theorem reads_bytes {length : Expr} (size : near.Length length data.length) :
    (bytes e length).Reads toEnd near (.bytes data) data := by
  refine reads_of_eq (by simp [Value.Extends]) ?_
  intro m suffix ctx store path next _ held
  exact parse_bytes store path size next held

private theorem equal_bytes (e : Engine) (data : List UInt8) (s : State) :
    e.equal (.bytes data) (.bytes data) s = .ok true s := by
  have same : (Value.bytes data).same (.bytes data) = true := by simp [Value.same]
  simp [Engine.equal, Run.lookup, Resolver.equal, Resolver.compare, Value.isLazy, same]

theorem reads_literal (small : data.length ≤ Value.maxSize) :
    (constant e (bytes e (.const (.int data.length))) (.bytes data)).Reads toEnd near
      (.bytes data) data := by
  refine reads_of_eq (by simp [Value.Extends]) ?_
  intro m suffix ctx store path next _ held
  have known : near.Length (.const (.int data.length)) data.length := ⟨small, .inl rfl⟩
  simp only [constant]
  rw [Run.bind_of_ok (parse_bytes store path known next held),
    Run.bind_of_ok (equal_bytes e data _)]
  rfl

theorem reads_pass : pass.Reads toEnd near .none [] := by
  refine reads_of_eq (by simp [Value.Extends]) ?_
  intro m suffix ctx store path _ _ _
  rfl

theorem reads_greedyBytes : greedyBytes.Reads true near (.bytes data) data := by
  refine reads_of_eq (by simp [Value.Extends]) ?_
  intro m suffix ctx store path next last _
  rw [last rfl, List.append_nil] at next
  simp only [greedyBytes]
  rw [Run.bind_of_ok Run.readAll_eq, next]
  rfl

/-! ## Text -/

private theorem parse_count {c : Codec} {n : Int} {stored suffix : List UInt8} {m : Medium}
    {ctx : Context} (h : c.Reads false near (.int n) stored) (store : LazyStore) (path : Path)
    (next : m.rest = stored ++ suffix) (held : near.Held ctx) :
    ∃ ctx', c.parse path ⟨.medium m, ctx, store⟩ =
        .ok (.int n) ⟨.medium (m.skip stored.length), ctx', store⟩ ∧ ctx.Quiet ctx' := by
  obtain ⟨p, ctx', parsed, quiet, ext⟩ := h m suffix ctx store path next (by simp) held
  rw [Value.eq_of_extends_int ext] at parsed
  exact ⟨ctx', parsed, quiet⟩

private theorem decode_of_encode {encoding : Encoding} {text : String}
    (encoded : encoding.encode text = .ok data) :
    TextField.decode encoding data = .ok (.str text) := by
  rw [TextField.decode, Encoding.decode_encode encoded]

theorem reads_prefixedText {length : Part} {encoding : Encoding} {text : String}
    {stored : List UInt8} (encoded : encoding.encode text = .ok data)
    (small : data.length ≤ Value.maxSize)
    (counted : length.codec.Reads false near (.int data.length) stored) :
    (prefixedText length encoding).Reads toEnd near (.str text) (stored ++ data) := by
  intro m suffix ctx store path next _ held
  rw [List.append_assoc] at next
  obtain ⟨ctx', parsed, quiet⟩ := parse_count counted store path next held
  have later := Medium.rest_skip next
  have size : (data.length : Int).toNat % Nat.pow 2 64 = data.length := by
    rw [Int.toNat_natCast, Nat.mod_eq_of_lt]
    exact Nat.lt_of_le_of_lt small (by decide)
  refine ⟨.str text, ctx', ?_, quiet, by simp [Value.Extends]⟩
  simp only [prefixedText]
  rw [Run.bind_of_ok (Part.parse_of_ok parsed)]
  simp only [Value.int?, size]
  rw [if_neg (by omega), Run.bind_of_ok (Run.read_of_rest later), decode_of_encode encoded,
    Medium.skip_skip, List.length_append]
  rfl

private theorem readTerminated_of_clear {unit : Nat} {terminators : List (List UInt8)}
    {first rest : List UInt8} {ctx : Context} {store : LazyStore} {path : Path}
    (positive : 0 < unit) (isLast : first ∈ terminators) (width : first.length = unit)
    {more : Nat} {d seen : List UInt8} {m : Medium} (next : m.rest = d ++ (first ++ rest))
    (whole : d.length % unit = 0) (clear : ∀ t ∈ terminators, t ∉ Bytes.chunks unit d)
    (enough : d.length < more) :
    readTerminated unit terminators path more seen ⟨.medium m, ctx, store⟩ =
      .ok (seen ++ d) ⟨.medium (m.skip (d.length + unit)), ctx, store⟩ := by
  -- By the attempts that are left, of which each takes one unit: the first of the text, or the
  -- terminator.
  induction more generalizing d seen m with
  | zero => omega
  | succ more ih =>
      by_cases empty : d = []
      · subst empty
        have step : Run.read unit path ⟨.medium m, ctx, store⟩ =
            .ok first ⟨.medium (m.skip first.length), ctx, store⟩ :=
          Run.read_of_rest_of_eq next width.symm
        have found : terminators.contains first = true := by simpa using isLast
        rw [readTerminated, Run.bind_of_ok (Run.outcome_of_ok step)]
        simp only [found, if_true, width, List.append_nil, List.length_nil, Nat.zero_add]
        rfl
      · have positive' := List.length_pos_iff.mpr empty
        have room : unit ≤ d.length := Nat.le_of_dvd positive' (Nat.dvd_of_mod_eq_zero whole)
        have cut : d = d.take unit ++ d.drop unit := (List.take_append_drop unit d).symm
        have taken : (d.take unit).length = unit := by simp [room]
        have chunks := Bytes.chunks_of_ne_nil positive empty
        have next' : m.rest = d.take unit ++ (d.drop unit ++ (first ++ rest)) := by
          rw [← List.append_assoc, ← cut, next]
        have step : Run.read unit path ⟨.medium m, ctx, store⟩ =
            .ok (d.take unit) ⟨.medium (m.skip (d.take unit).length), ctx, store⟩ :=
          Run.read_of_rest_of_eq next' taken.symm
        have passed : terminators.contains (d.take unit) = false := by
          rw [List.contains_eq_mem, decide_eq_false_iff_not]
          intro h
          apply clear _ h
          rw [chunks]
          exact List.mem_cons_self
        have later := Medium.rest_skip next'
        have whole' : (d.drop unit).length % unit = 0 := by
          rw [List.length_drop, ← Nat.mod_eq_sub_mod room, whole]
        have clear' : ∀ t ∈ terminators, t ∉ Bytes.chunks unit (d.drop unit) := by
          intro t ht h
          apply clear t ht
          rw [chunks]
          exact List.mem_cons_of_mem _ h
        have enough' : (d.drop unit).length < more := by
          rw [List.length_drop]
          omega
        have tail : readTerminated unit terminators path more (seen ++ d.take unit)
            ⟨.medium (m.skip _), ctx, store⟩ = _ := ih later whole' clear' enough'
        rw [readTerminated, Run.bind_of_ok (Run.outcome_of_ok step)]
        simp only [passed, Bool.false_eq_true, if_false]
        have total : unit + (d.length - unit + unit) = d.length + unit := by omega
        rw [tail, List.append_assoc, List.take_append_drop, Medium.skip_skip, taken,
          List.length_drop, total]

private theorem unit_pos (encoding : Encoding) : 0 < encoding.unit := by
  cases encoding <;> decide

theorem reads_terminatedText {encoding : Encoding} {text : String} {first : List UInt8}
    {others : List (List UInt8)} (encoded : encoding.encode text = .ok data)
    (units : ∀ t ∈ first :: others, t.length = encoding.unit)
    (clear : ∀ t ∈ first :: others, t ∉ Bytes.chunks encoding.unit data) :
    (terminatedText (first :: others) encoding).Reads toEnd near (.str text)
      (data ++ first) := by
  refine reads_of_eq (by simp [Value.Extends]) ?_
  intro m suffix ctx store path next _ _
  rw [List.append_assoc] at next
  have width := units first List.mem_cons_self
  have enough : data.length < m.rest.length + 1 := by
    rw [next, List.length_append]
    omega
  have read : readTerminated encoding.unit (first :: others) path (m.rest.length + 1) []
      ⟨.medium m, ctx, store⟩ = _ :=
    readTerminated_of_clear (unit_pos encoding) List.mem_cons_self width next
      (Encoding.length_encode_mod encoded) clear enough
  simp only [terminatedText]
  rw [Run.bind_of_ok (Varint.available_medium m ctx store), Run.bind_of_ok read,
    List.nil_append, decode_of_encode encoded, List.length_append, width]
  rfl

/-! ## Repetition -/

theorem noteIndex_eq (i : Nat) (stream : Stream) (ctx : Context) (store : LazyStore) :
    noteIndex i ⟨stream, ctx, store⟩ =
      .ok () ⟨stream, ctx.insert "_index" (.ofNat i), store⟩ := rfl

theorem quiet_noteIndex (ctx : Context) (i : Nat) :
    ctx.Quiet (ctx.insert "_index" (.ofNat i)) :=
  Context.quiet_insert ctx (by decide) (.ofNat i)

/-- Elements that are each read back are read back as a whole. -/
private theorem parseCounted_of_reads {of : Part} {vs : List Value} {parts : List (List UInt8)}
    (each : List.Forall₂ (of.codec.Reads false near) vs parts) (path : Path)
    (store : LazyStore) {suffix : List UInt8} (i : Nat) {m : Medium} {ctx : Context}
    (next : m.rest = parts.flatten ++ suffix) (held : near.Held ctx) :
    ∃ ps ctx', parseCounted of path vs.length i ⟨.medium m, ctx, store⟩ =
        .ok ps ⟨.medium (m.skip parts.flatten.length), ctx', store⟩ ∧
      ctx.Quiet ctx' ∧ Value.ExtendsItems true vs ps := by
  induction each generalizing i m ctx with
  | nil => exact ⟨[], ctx, rfl, Context.Quiet.refl ctx, by simp [Value.ExtendsItems]⟩
  | @cons v part vs parts head _ ih =>
      rw [List.flatten_cons, List.append_assoc] at next
      have quiet := quiet_noteIndex ctx i
      obtain ⟨p, ctx₁, parsed, quiet₁, ext⟩ :=
        head m _ _ store (path.element i) next (by simp) (held.quiet quiet)
      obtain ⟨ps, ctx₂, rest, quiet₂, exts⟩ :=
        ih (i + 1) (Medium.rest_skip next) ((held.quiet quiet).quiet quiet₁)
      refine ⟨p :: ps, ctx₂, ?_, (quiet.trans quiet₁).trans quiet₂, ?_⟩
      · rw [List.length_cons, parseCounted, Run.bind_of_ok (noteIndex_eq i _ ctx store),
          Run.bind_of_ok (Part.parse_of_ok parsed), Run.bind_of_ok rest, Medium.skip_skip,
          List.flatten_cons, List.length_append]
        rfl
      · exact ⟨ext, exts⟩

theorem reads_array {count : Expr} {of : Part} {vs : List Value} {parts : List (List UInt8)}
    (size : near.Length count vs.length)
    (each : List.Forall₂ (of.codec.Reads false near) vs parts) :
    (array e count of false).Reads toEnd near (.list vs) parts.flatten := by
  intro m suffix ctx store path next _ held
  obtain ⟨ps, ctx', parsed, quiet, ext⟩ := parseCounted_of_reads each path store 0 next held
  refine ⟨.list ps, ctx', ?_, quiet, by simpa [Value.Extends] using ext⟩
  simp only [array]
  rw [Run.bind_of_ok (evalSize_of_length e path size held), Run.bind_of_ok parsed]
  rfl

theorem reads_prefixedArray {count of : Part} {vs : List Value} {parts : List (List UInt8)}
    {stored : List UInt8} (small : vs.length ≤ Value.maxSize)
    (counted : count.codec.Reads false near (.int vs.length) stored)
    (each : List.Forall₂ (of.codec.Reads false near) vs parts) :
    (prefixedArray e count of).Reads toEnd near (.list vs) (stored ++ parts.flatten) := by
  intro m suffix ctx store path next _ held
  rw [List.append_assoc] at next
  obtain ⟨ctx₁, first, quiet₁⟩ := parse_count counted store path next held
  obtain ⟨ps, ctx₂, parsed, quiet₂, ext⟩ :=
    parseCounted_of_reads each path store 0 (Medium.rest_skip next) (held.quiet quiet₁)
  have size : (vs.length : Int).toNat % Nat.pow 2 64 = vs.length := by
    rw [Int.toNat_natCast, Nat.mod_eq_of_lt]
    exact Nat.lt_of_le_of_lt small (by decide)
  refine ⟨.list ps, ctx₂, ?_, quiet₁.trans quiet₂, by simpa [Value.Extends] using ext⟩
  simp only [prefixedArray]
  rw [Run.bind_of_ok (Part.parse_of_ok first)]
  simp only [Value.int?, size]
  rw [if_neg (by omega), Run.bind_of_ok parsed, Medium.skip_skip, List.length_append]
  rfl

theorem bounds_greedy (e : Engine) (path : Path) (s : State) :
    bounds e (.const (.int 0)) none path s = .ok (0, Value.maxSize) s := by
  have least : e.evalSize (.const (.int 0)) path s = .ok 0 s :=
    evalSize_const e path s (Nat.zero_le _)
  rw [bounds, Run.bind_of_ok least]
  rfl

/-! ## Envelopes -/

theorem parseSlice_of_reads {c : Codec} (h : c.Reads toEnd near v data) (tail : List UInt8)
    (last : toEnd = true → tail = []) (path : Path) (s : State) (held : near.Held s.context) :
    ∃ p ctx', c.parseSlice (data ++ tail) path s =
        .ok (p, data.length) { s with context := ctx' } ∧
      s.context.Quiet ctx' ∧ v.Extends true p := by
  have next : (⟨.growing, data ++ tail, 0⟩ : Medium).rest = data ++ tail := by
    simp [Medium.rest, Medium.base]
  obtain ⟨p, ctx', parsed, quiet, ext⟩ := h _ tail s.context s.store path next last held
  refine ⟨p, ctx', ?_, quiet, ext⟩
  have step : Run.onStream (.memory (data ++ tail)) (c.parse path) s = .ok (p, _) _ :=
    Run.onStream_of_ok parsed
  rw [parseSlice, Run.bind_of_ok step]
  simp [Stream.pos]

private theorem overhead_le {length : Format} {inclusive : Bool} {extra : Nat}
    (h : Format.Overhead inclusive length extra) : extra ≤ Value.maxSize := by
  cases inclusive with
  | false =>
      simp only [Format.Overhead, Bool.false_eq_true, if_false] at h
      omega
  | true =>
      simp only [Format.Overhead, if_true] at h
      exact Nat.le_trans h.1 (by decide)

theorem overhead_eq (e : Engine) (defs : Definitions) {length : Format} {inclusive : Bool}
    {extra : Nat} (h : Format.Overhead inclusive length extra) (path : Path) (s : State) :
    overhead ⟨length, length.codec e defs⟩ inclusive path s = .ok extra s := by
  have small := overhead_le h
  cases inclusive with
  | false =>
      simp only [Format.Overhead, Bool.false_eq_true, if_false] at h
      rw [h]
      rfl
  | true =>
      simp only [Format.Overhead, if_true] at h
      obtain ⟨-, signed, endian, rfl⟩ := h
      have size := Expr.evaluateSize_of_int e.resolver s.context.scope path s.store
        (Expr.evaluate_const e.resolver s.context.scope path s.store (.int extra))
      rw [if_pos (by omega)] at size
      simp [overhead, sizeNow, Format.codec, integer, Engine.staticSize, Run.lookup, Run.context,
        bind, EStateM.bind, pure, EStateM.pure, Lookup.outcome, size]

theorem reads_prefixed {length : Format} {of : Codec} {defs : Definitions}
    {inclusive lenient : Bool} {stored : List UInt8} {extra : Nat}
    (inner : of.Reads true near v data) (overhead : Format.Overhead inclusive length extra)
    (small : data.length + extra ≤ Value.maxSize)
    (counted : (length.codec e defs).Reads false near (.int (data.length + extra : Nat))
      stored) :
    (prefixed ⟨length, length.codec e defs⟩ of inclusive lenient).Reads toEnd near v
      (stored ++ data) := by
  intro m suffix ctx store path next _ held
  rw [List.append_assoc] at next
  obtain ⟨ctx₁, first, quiet₁⟩ := parse_count counted store path next held
  have extraKnown := overhead_eq e defs overhead path
    ⟨.medium (m.skip stored.length), ctx₁, store⟩
  have later := Medium.rest_skip next
  obtain ⟨p, ctx₂, parsed, quiet₂, ext⟩ := parseSlice_of_reads inner []
    (fun _ => rfl) path ⟨.medium ((m.skip stored.length).skip data.length), ctx₁, store⟩
    (held.quiet quiet₁)
  rw [List.append_nil] at parsed
  have size : ((data.length + extra : Nat) : Int) - (extra : Nat) = data.length := by omega
  have read : Run.read data.length path ⟨.medium (m.skip stored.length), ctx₁, store⟩ =
      .ok data _ := Run.read_of_rest later
  refine ⟨p, ctx₂, ?_, quiet₁.trans quiet₂, ext⟩
  simp only [prefixed]
  rw [Run.bind_of_ok (Part.parse_of_ok first)]
  simp only [Value.int?]
  rw [Run.bind_of_ok extraKnown, size, if_neg (by omega), Int.toNat_natCast,
    Run.bind_of_ok read, Run.bind_of_ok parsed]
  simp [Medium.skip_skip]

theorem reads_fixedSized {of : Codec} {n : Nat} (inner : of.Reads false near v data)
    (room : data.length ≤ n) (small : n ≤ Value.maxSize) :
    (fixedSized e (.const (.int n)) of).Reads toEnd near v
      (data ++ List.replicate (n - data.length) 0) := by
  intro m suffix ctx store path next _ held
  have length : (data ++ List.replicate (n - data.length) 0).length = n := by
    rw [List.length_append, List.length_replicate]
    omega
  have read : Run.read n path ⟨.medium m, ctx, store⟩ = .ok _ ⟨.medium (m.skip _), ctx, store⟩ :=
    Run.read_of_rest_of_eq next length.symm
  obtain ⟨p, ctx', parsed, quiet, ext⟩ := parseSlice_of_reads inner
    (List.replicate (n - data.length) 0) (by simp) path
    ⟨.medium (m.skip (data ++ List.replicate (n - data.length) 0).length), ctx, store⟩ held
  refine ⟨p, ctx', ?_, quiet, ext⟩
  simp only [fixedSized]
  rw [Run.bind_of_ok (evalSize_const e path _ small), Run.bind_of_ok read,
    Run.bind_of_ok parsed]
  rfl

/-! ## Padding -/

private theorem firstOther_replicate (pattern : UInt8) (i count : Nat) :
    firstOther pattern i (List.replicate count pattern) = none := by
  induction count generalizing i with
  | zero => rfl
  | succ count ih => rw [List.replicate_succ, firstOther, if_pos rfl, ih]

private theorem skipFill_of_rest {fill : Fill} {count : Nat} {suffix : List UInt8} {m : Medium}
    {ctx : Context} {store : LazyStore} {path : Path}
    (next : m.rest = List.replicate count fill.pattern ++ suffix) :
    skipFill fill count path ⟨.medium m, ctx, store⟩ =
      .ok () ⟨.medium (m.skip count), ctx, store⟩ := by
  have read : Run.read count path ⟨.medium m, ctx, store⟩ =
      .ok _ ⟨.medium (m.skip _), ctx, store⟩ := Run.read_of_rest_of_eq next (by simp)
  rw [skipFill, Run.bind_of_ok read, firstOther_replicate, List.length_replicate]
  split <;> rfl

theorem remainder_of_le {total used : Nat} (room : used ≤ total) (path : Path) (s : State) :
    remainder total used path s = .ok (total - used) s := by
  rw [remainder, if_pos room]
  rfl

theorem reads_padded {of : Codec} {fill : Fill} {n : Nat} (inner : of.Reads false near v data)
    (room : data.length ≤ n) (small : n ≤ Value.maxSize) :
    (padded e (.const (.int n)) of fill).Reads toEnd near v
      (data ++ List.replicate (n - data.length) fill.pattern) := by
  intro m suffix ctx store path next _ held
  rw [List.append_assoc] at next
  obtain ⟨p, ctx', parsed, quiet, ext⟩ := inner m _ ctx store path next (by simp) held
  have filled : skipFill fill (n - data.length) path ⟨.medium (m.skip data.length), ctx', store⟩ =
      .ok () _ := skipFill_of_rest (Medium.rest_skip next)
  refine ⟨p, ctx', ?_, quiet, ext⟩
  simp only [padded]
  rw [Run.bind_of_ok (evalSize_const e path _ small), Run.bind_of_ok (Run.tell_medium m ctx store),
    Run.bind_of_ok parsed, Run.bind_of_ok (Run.tell_medium _ ctx' store), Medium.skip_pos,
    Size.add_sub_cancel_left,
    Run.bind_of_ok (remainder_of_le room path _), Run.bind_of_ok filled, Medium.skip_skip,
      List.length_append,
    List.length_replicate]
  rfl

theorem evalModulus_const {n : Nat} (e : Engine) (path : Path) (s : State) (positive : 0 < n)
    (small : n ≤ Value.maxSize) : evalModulus e (.const (.int n)) path s = .ok n s := by
  rw [evalModulus, Run.bind_of_ok (evalSize_const e path _ small), if_neg (by omega)]
  rfl

theorem reads_aligned {of : Codec} {fill : Fill} {n : Nat} (inner : of.Reads false near v data)
    (positive : 0 < n) (small : n ≤ Value.maxSize) :
    (aligned e (.const (.int n)) of fill).Reads toEnd near v
      (data ++ List.replicate (toMultiple data.length n) fill.pattern) := by
  intro m suffix ctx store path next _ held
  rw [List.append_assoc] at next
  obtain ⟨p, ctx', parsed, quiet, ext⟩ := inner m _ ctx store path next (by simp) held
  have filled : skipFill fill (toMultiple data.length n) path
      ⟨.medium (m.skip data.length), ctx', store⟩ = .ok () _ :=
    skipFill_of_rest (Medium.rest_skip next)
  refine ⟨p, ctx', ?_, quiet, ext⟩
  simp only [aligned]
  rw [Run.bind_of_ok (evalModulus_const e path _ positive small),
    Run.bind_of_ok (Run.tell_medium m ctx store),
    Run.bind_of_ok parsed, Run.bind_of_ok (Run.tell_medium _ ctx' store), Medium.skip_pos,
    Size.add_sub_cancel_left,
    Run.bind_of_ok filled, Medium.skip_skip, List.length_append, List.length_replicate]
  rfl

/-! ## Choice -/

theorem holds_int (n : Int) : (Value.int n).holds = (n != 0) := rfl

theorem reads_branch {k : String} {yes no : Codec} {n : Int}
    (shown : Record.isPrivate k = false) (known : near.ints k = some n)
    (inner : (if n = 0 then no else yes).Reads false near v data) :
    (branch e (.field k) yes no).Reads toEnd near v data := by
  intro m suffix ctx store path next _ held
  have sees : Engine.Sees ⟨.medium m, ctx, store⟩ (.field k) (.int n) :=
    Engine.sees_field shown (held k n shown known)
  obtain ⟨p, ctx', parsed, quiet, ext⟩ := inner m suffix ctx store path next (by simp) held
  refine ⟨p, ctx', ?_, quiet, ext⟩
  simp only [branch]
  rw [Run.bind_of_ok (e.evalHolds_of_sees sees), holds_int]
  by_cases zero : n = 0
  · rw [if_pos zero] at parsed
    simp [zero, parsed]
  · rw [if_neg zero] at parsed
    simp [zero, parsed]

theorem equal_int (r : Resolver) {key : Value} (eager : key.isLazy = false) (n : Int)
    (store : LazyStore) : r.equal key (.int n) store = .ok (key.same (.int n)) store := by
  cases key <;> simp_all [Resolver.equal, Resolver.compare, Value.isLazy]

private theorem findCase_eq (e : Engine) (defs : Definitions) (n : Int) (otherwise : Option Format)
    {cases : List (Value × Format)} (eager : ∀ c ∈ cases, c.1.isLazy = false)
    (store : LazyStore) :
    findCase e.resolver (.int n) (Format.partIf e defs otherwise)
        (Format.casesOf e defs cases) store =
      .ok (Format.partIf e defs (Format.caseOf n otherwise cases)) store := by
  induction cases with
  | nil => rfl
  | cons c rest ih =>
      obtain ⟨key, g⟩ := c
      have test := equal_int e.resolver (eager _ List.mem_cons_self) n store
      have eager' : ∀ c ∈ rest, c.1.isLazy = false :=
        fun c hc => eager c (List.mem_cons_of_mem _ hc)
      rw [Format.caseOf, Format.casesOf, findCase, Run.bind_of_ok test]
      by_cases eq : key.same (.int n) = true
      · rw [if_pos eq, if_pos eq]
        rfl
      · rw [if_neg eq, if_neg eq]
        exact ih eager'

theorem chooseCase_eq {s : State} {k : String} {n : Int} (e : Engine) (defs : Definitions)
    (otherwise : Option Format) {cases : List (Value × Format)} (path : Path)
    (sees : Engine.Sees s (.field k) (.int n)) (eager : ∀ c ∈ cases, c.1.isLazy = false) :
    Run.lookup (chooseCase e.resolver (.field k) (Format.casesOf e defs cases)
        (Format.partIf e defs otherwise) s.context.scope path) s =
      match Format.caseOf n otherwise cases with
      | some f => .ok ⟨f, f.codec e defs⟩ s
      | none => .error ((Fault.noCase ((Value.int n).dump s.store.resolved)).atPath path) s := by
  have choice : chooseCase e.resolver (.field k) (Format.casesOf e defs cases)
      (Format.partIf e defs otherwise) s.context.scope path s.store =
        match Format.caseOf n otherwise cases with
        | some f => .ok ⟨f, f.codec e defs⟩ s.store
        | none =>
          .error ((Fault.noCase ((Value.int n).dump s.store.resolved)).atPath path) s.store := by
    rw [chooseCase, Run.bind_of_ok (sees e.resolver path s.store),
      Run.bind_of_ok (findCase_eq e defs n otherwise eager s.store)]
    cases Format.caseOf n otherwise cases <;> rfl
  rw [Run.lookup, choice]
  cases Format.caseOf n otherwise cases <;> rfl

theorem reads_switch {k : String} {defs : Definitions} {n : Int} {otherwise : Option Format}
    {cases : List (Value × Format)} {f : Format} (shown : Record.isPrivate k = false)
    (known : near.ints k = some n) (eager : ∀ c ∈ cases, c.1.isLazy = false)
    (chosen : Format.caseOf n otherwise cases = some f)
    (inner : (f.codec e defs).Reads false near v data) :
    (switch e (.field k) (Format.casesOf e defs cases)
      (Format.partIf e defs otherwise)).Reads toEnd near v data := by
  intro m suffix ctx store path next _ held
  have sees : Engine.Sees ⟨.medium m, ctx, store⟩ (.field k) (.int n) :=
    Engine.sees_field shown (held k n shown known)
  obtain ⟨p, ctx', parsed, quiet, ext⟩ := inner m suffix ctx store path next (by simp) held
  refine ⟨p, ctx', ?_, quiet, ext⟩
  have scope : Run.scope ⟨.medium m, ctx, store⟩ = .ok ctx.scope ⟨.medium m, ctx, store⟩ := rfl
  have choice := chooseCase_eq e defs otherwise path sees eager
  simp only [chosen] at choice
  simp only [switch]
  rw [Run.bind_of_ok scope, Run.bind_of_ok choice]
  exact parsed

theorem reads_rebuild {of : Part} {x : Expr} (inner : of.codec.Reads false near v data) :
    (rebuild e of x).Reads toEnd near v data := by
  intro m suffix ctx store path next _ held
  exact inner m suffix ctx store path next (by simp) held

/-! ## Sequences and structures -/

/-- Items that are each read back from their share of the bytes. -/
inductive ReadsItems : List Part → List Value → List UInt8 → Prop
  | nil : ReadsItems [] [] []
  | cons {item items v vs part data} (head : item.codec.Reads false .nothing v part)
      (tail : ReadsItems items vs data) : ReadsItems (item :: items) (v :: vs) (part ++ data)

theorem kept_noteItem (item : Part) (v : Value) (stream : Stream) (ctx : Context)
    (store : LazyStore) :
    ∃ ctx', noteItem item v ⟨stream, ctx, store⟩ = .ok () ⟨stream, ctx', store⟩ ∧
      ctx.Kept ctx' := by
  rw [noteItem]
  cases item.name? with
  | some name => exact ⟨_, rfl, Context.kept_insert ctx name v⟩
  | none => exact ⟨ctx, rfl, Context.Kept.refl ctx⟩

private theorem parseItems_of_reads {items : List Part} {vs : List Value}
    (each : ReadsItems items vs data) (path : Path) (store : LazyStore) {suffix : List UInt8}
    (i : Nat) {m : Medium} (ctx : Context) (next : m.rest = data ++ suffix) :
    ∃ ps ctx', parseItems path i items ⟨.medium m, ctx, store⟩ =
        .ok ps ⟨.medium (m.skip data.length), ctx', store⟩ ∧
      ctx.Kept ctx' ∧ Value.ExtendsItems true vs ps := by
  induction each generalizing i m ctx with
  | nil => exact ⟨[], ctx, rfl, Context.Kept.refl ctx, by simp [Value.ExtendsItems]⟩
  | @cons item items v vs part data head _ ih =>
      rw [List.append_assoc] at next
      obtain ⟨p, ctx₁, parsed, quiet, ext⟩ := head m _ ctx store (path.item item.name? i) next
        (by simp) (Surroundings.held_nothing ctx)
      obtain ⟨ctx₂, noted, kept⟩ := kept_noteItem item p (.medium (m.skip part.length)) ctx₁ store
      obtain ⟨ps, ctx₃, rest, kept', exts⟩ := ih (i + 1) ctx₂ (Medium.rest_skip next)
      refine ⟨p :: ps, ctx₃, ?_, (quiet.kept.trans kept).trans kept', ext, exts⟩
      rw [parseItems, Run.bind_of_ok (Part.parse_of_ok parsed), Run.bind_of_ok noted,
        Run.bind_of_ok rest, Medium.skip_skip, List.length_append]
      rfl

theorem reads_sequence {items : List Part} {vs : List Value}
    (each : ReadsItems items vs data) :
    (sequence e items).Reads toEnd near (.list vs) data := by
  intro m suffix ctx store path next _ _
  obtain ⟨ps, ctx', parsed, kept, ext⟩ :=
    parseItems_of_reads each path store 0 (ctx.push []) next
  have framed : Run.inFrame [] (parseItems path 0 items) ⟨.medium m, ctx, store⟩ =
      .ok (ps, ctx'.innermost) ⟨.medium (m.skip data.length), ctx'.pop, store⟩ :=
    Run.inFrame_of_ok parsed
  rw [Context.pop_of_kept kept] at framed
  refine ⟨.list ps, ctx, ?_, Context.Quiet.refl ctx, by simpa [Value.Extends] using ext⟩
  simp only [sequence]
  rw [Run.bind_of_ok framed]
  rfl

/-- Fields that are each read back, given the integers of the ones before. -/
inductive ReadsFields : Surroundings → List Part → Record Value → List UInt8 → Prop
  | nil {near : Surroundings} : ReadsFields near [] [] []
  | named {near : Surroundings} {field fields name v record part data}
      (hasName : field.name? = some name)
      (flat : field.format.isEmbedded = false) (head : field.codec.Reads false near v part)
      (tail : ReadsFields (near.note name v) fields record data) :
      ReadsFields near (field :: fields) ((name, v) :: record) (part ++ data)
  | unnamed {near : Surroundings} {field fields v record part data} (hasNone : field.name? = none)
      (flat : field.format.isEmbedded = false) (head : field.codec.Reads false near v part)
      (tail : ReadsFields near fields record data) :
      ReadsFields near (field :: fields) record (part ++ data)

/-- What parsing fields adds to a frame. -/
structure Gathers (exact : Bool) (record : Record Value) (before after : Record Value) :
    Prop where
  distinct : (Record.keys before).Nodup → (Record.keys after).Nodup
  others : ∀ k, Record.isPrivate k = false → k ∉ Record.keys record →
    Record.get? after k = Record.get? before k
  fields : ∀ k v, (k, v) ∈ record → Record.isPrivate k = false →
    ∃ p, Record.get? after k = some p ∧ v.Extends exact p

theorem gathers_nil {exact : Bool} {before after : Context} (quiet : before.Quiet after) :
    Gathers exact [] before.innermost after.innermost where
  distinct := quiet.distinct
  others k hk _ := quiet.shown k hk
  fields k v h := by cases h

theorem Gathers.cons {exact : Bool} {record after : Record Value} {before mid : Context}
    {name : String} {v p : Value} (quiet : before.Quiet mid)
    (ext : Record.isPrivate name = false → v.Extends exact p)
    (fresh : name ∉ Record.keys record)
    (h : Gathers exact record (mid.insert name p).innermost after) :
    Gathers exact ((name, v) :: record) before.innermost after where
  distinct hd := h.distinct (Record.nodup_insert (quiet.distinct hd) name p)
  others k hk absent := by
    have ne : name ≠ k := by
      rintro rfl
      exact absent List.mem_cons_self
    have rest := h.others k hk (fun hm => absent (List.mem_cons_of_mem _ hm))
    exact (rest.trans (Record.get?_insert_of_ne ne mid.innermost p)).trans (quiet.shown k hk)
  fields k x hx hk := by
    rcases List.mem_cons.mp hx with eq | later
    · cases eq
      exact ⟨p, (h.others name hk fresh).trans (Record.get?_insert_self _ _ _), ext hk⟩
    · exact h.fields k x later hk

theorem Gathers.quiet {exact : Bool} {record after : Record Value} {before mid : Context}
    (quiet : before.Quiet mid) (h : Gathers exact record mid.innermost after) :
    Gathers exact record before.innermost after where
  distinct hd := h.distinct (quiet.distinct hd)
  others k hk absent := (h.others k hk absent).trans (quiet.shown k hk)
  fields := h.fields

private theorem Gathers.extends {record after : Record Value} (h : Gathers true record [] after) :
    (Value.container record).Extends true (.container after) := by
  simp only [Value.Extends]
  refine ⟨h.distinct (by simp [Record.keys]), Value.extendsFields_iff.mpr h.fields, ?_⟩
  intro _ k hk absent
  exact h.others k hk (Record.not_mem_keys_iff.mpr absent)

theorem parseFields_of_reads {fields : List Part} {record : Record Value}
    (each : ReadsFields near fields record data) (distinct : (Record.keys record).Nodup)
    (overwrite : Bool) (path : Path) (store : LazyStore) {suffix : List UInt8} {m : Medium}
    {ctx : Context} (next : m.rest = data ++ suffix) (held : near.Held ctx) :
    ∃ ctx', parseFields overwrite false path fields ⟨.medium m, ctx, store⟩ =
        .ok () ⟨.medium (m.skip data.length), ctx', store⟩ ∧
      ctx.Kept ctx' ∧ Gathers true record ctx.innermost ctx'.innermost := by
  induction each generalizing m ctx with
  | nil =>
      have quiet := Context.Quiet.refl ctx
      exact ⟨ctx, rfl, quiet.kept, gathers_nil quiet⟩
  | @named near field fields name v record part data hasName flat head _ ih =>
      rw [List.append_assoc] at next
      obtain ⟨fresh, distinct⟩ := List.nodup_cons.mp distinct
      obtain ⟨p, ctx₁, parsed, quiet, ext⟩ :=
        head m _ ctx store (path.member name) next (by simp) held
      obtain ⟨ctx₂, rest, kept, gathers⟩ := ih distinct (Medium.rest_skip next)
        ((held.quiet quiet).note ext name)
      have kept' := (quiet.kept.trans (Context.kept_insert ctx₁ name p)).trans kept
      have noted : Run.insert name p ⟨.medium (m.skip part.length), ctx₁, store⟩ =
          .ok () ⟨.medium (m.skip part.length), ctx₁.insert name p, store⟩ := rfl
      refine ⟨ctx₂, ?_, kept', gathers.cons quiet (fun _ => ext) fresh⟩
      rw [parseFields]
      simp only [flat, Bool.false_eq_true, if_false, hasName]
      rw [Run.bind_of_ok (Part.parse_of_ok parsed), Run.bind_of_ok noted, rest,
        Medium.skip_skip, List.length_append]
  | @unnamed near field fields v record part data hasNone flat head _ ih =>
      rw [List.append_assoc] at next
      obtain ⟨p, ctx₁, parsed, quiet, -⟩ := head m _ ctx store path next (by simp) held
      obtain ⟨ctx₂, rest, kept, gathers⟩ :=
        ih distinct (Medium.rest_skip next) (held.quiet quiet)
      refine ⟨ctx₂, ?_, quiet.kept.trans kept, gathers.quiet quiet⟩
      rw [parseFields]
      simp only [flat, Bool.false_eq_true, if_false, hasNone]
      rw [Run.bind_of_ok (Part.parse_of_ok parsed), rest, Medium.skip_skip, List.length_append]

theorem reads_struct {fields : List Part} {record : Record Value} {overwrite : Bool}
    {lengths : String → Option Nat} (distinct : (Record.keys record).Nodup)
    (each : ReadsFields ⟨fun _ => none, lengths⟩ fields record data) :
    (struct e fields overwrite).Reads toEnd near (.container record) data := by
  intro m suffix ctx store path next _ _
  have held : (⟨fun _ => none, lengths⟩ : Surroundings).Held (ctx.push []) := by
    intro k n _ h
    cases h
  obtain ⟨ctx', parsed, kept, gathers⟩ :=
    parseFields_of_reads each distinct overwrite path store next held
  have framed : Run.inFrame [] (parseFields overwrite false path fields)
      ⟨.medium m, ctx, store⟩ = .ok ((), ctx'.innermost) _ := Run.inFrame_of_ok parsed
  rw [Context.pop_of_kept kept] at framed
  refine ⟨.container ctx'.innermost, ctx, ?_, Context.Quiet.refl ctx, gathers.extends⟩
  simp only [struct]
  rw [Run.bind_of_ok framed]
  rfl

end Codec

end BinaryFormat
