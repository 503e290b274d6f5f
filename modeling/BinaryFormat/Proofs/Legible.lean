import BinaryFormat.Proofs.FrameDiscipline
import BinaryFormat.Proofs.Rigid

/-!
# Fields that take the bytes written for them

Runs of fields are composed one after another.  Each takes its bytes wherever it
is parsed, and says what it makes of the frame.  Raw copies note the bytes that
they occupy, and the field of a checksum stores digests that are accepted again.
-/

namespace BinaryFormat

/-! ## Fields one after another -/

namespace Codec

theorem buildFields_append (input : Record Value) (path : Path) (first second : List Part) :
    buildFields input path (first ++ second) =
      (buildFields input path first >>= fun _ => buildFields input path second) := by
  induction first with
  | nil => rfl
  | cons field rest ih =>
      rw [List.cons_append, buildFields, buildFields, ih]
      split
      · simp only [bind_assoc]
      · split <;> simp only [bind_assoc]

theorem parseFields_append (overwrite inlined : Bool) (path : Path)
    (first second : List Part) :
    parseFields overwrite inlined path (first ++ second) =
      (parseFields overwrite inlined path first >>= fun _ =>
        parseFields overwrite inlined path second) := by
  induction first with
  | nil => rfl
  | cons field rest ih =>
      rw [List.cons_append, parseFields, parseFields, ih]
      split
      · simp only [bind_assoc]
      · split
        · cases inlined <;> simp [bind_assoc]
        · simp only [bind_assoc]

/-- Parsing the fields takes these bytes and leads from one kind of frame to another. -/
def Takes (overwrite : Bool) (fields : List Part) (data : List UInt8)
    (before after : Record Value → Prop) : Prop :=
  ∀ (m : Medium) (suffix : List UInt8) (ctx : Context) (store : LazyStore) (path : Path),
    m.rest = data ++ suffix → before ctx.innermost →
      ∃ ctx', parseFields overwrite false path fields ⟨.medium m, ctx, store⟩ =
          .ok () ⟨.medium (m.skip data.length), ctx', store⟩ ∧
        ctx.Kept ctx' ∧ after ctx'.innermost

theorem Takes.append {overwrite : Bool} {first second : List Part} {a b : List UInt8}
    {before between after : Record Value → Prop}
    (h : Takes overwrite first a before between) (h' : Takes overwrite second b between after) :
    Takes overwrite (first ++ second) (a ++ b) before after := by
  intro m suffix ctx store path next start
  rw [List.append_assoc] at next
  obtain ⟨ctx₁, parsed, kept, middle⟩ := h m _ ctx store path next start
  obtain ⟨ctx₂, parsed', kept', last⟩ :=
    h' _ suffix ctx₁ store path (Medium.rest_skip next) middle
  refine ⟨ctx₂, ?_, kept.trans kept', last⟩
  rw [parseFields_append, Run.bind_of_ok parsed, parsed', Medium.skip_skip, List.length_append]

theorem parse_of_takes {e : Engine} {fields : List Part} {overwrite : Bool} {data : List UInt8}
    {before after : Record Value → Prop} (takes : Takes overwrite fields data before after)
    (start : before []) {m : Medium} {suffix : List UInt8} (next : m.rest = data ++ suffix)
    (ctx : Context) (store : LazyStore) (path : Path) :
    ∃ p, (struct e fields overwrite).parse path ⟨.medium m, ctx, store⟩ =
      .ok p ⟨.medium (m.skip data.length), ctx, store⟩ := by
  obtain ⟨ctx', parsed, kept, -⟩ := takes m suffix (ctx.push []) store path next start
  have framed : Run.inFrame [] (parseFields overwrite false path fields)
      ⟨.medium m, ctx, store⟩ = .ok ((), ctx'.innermost) _ := Run.inFrame_of_ok parsed
  rw [Context.pop_of_kept kept] at framed
  refine ⟨.container ctx'.innermost, ?_⟩
  simp only [struct]
  rw [Run.bind_of_ok framed]
  rfl

/-- Fields that are read back, with a record of their names. -/
def Legible (fields : List Part) (data : List UInt8) : Prop :=
  ∃ record, Record.keys record = Part.names fields ∧
    ∀ near, ReadsFields near fields record data

/-- Legible fields leave the entries of other names as they are. -/
theorem takes_of_legible {fields : List Part} {data : List UInt8} {kind : Record Value → Prop}
    (legible : Legible fields data) (distinct : (Part.names fields).Nodup) (overwrite : Bool)
    (stable : ∀ frame frame', (∀ k ∉ Part.names fields, Record.isPrivate k = false →
      Record.get? frame' k = Record.get? frame k) → kind frame → kind frame') :
    Takes overwrite fields data kind kind := by
  intro m suffix ctx store path next start
  obtain ⟨record, keys, reads⟩ := legible
  obtain ⟨ctx', parsed, kept, gathers⟩ := parseFields_of_reads (reads .nothing)
    (by rwa [keys]) overwrite path store next (Surroundings.held_nothing ctx)
  exact ⟨ctx', parsed, kept, stable _ _
    (fun k absent shown => gathers.others k shown (by rwa [keys])) start⟩

theorem takes_field {field : Part} {data : List UInt8} {before after : Record Value → Prop}
    (flat : field.format.isEmbedded = false)
    (parsed : ∀ m suffix ctx store place, m.rest = data ++ suffix → before ctx.innermost →
      ∃ p ctx', field.codec.parse place ⟨.medium m, ctx, store⟩ =
          .ok p ⟨.medium (m.skip data.length), ctx', store⟩ ∧ ctx.Quiet ctx' ∧
        (field.name? = none → after ctx'.innermost) ∧
        ∀ name, field.name? = some name → after (ctx'.insert name p).innermost)
    (overwrite : Bool) : Takes overwrite [field] data before after := by
  intro m suffix ctx store path next start
  cases hasName : field.name? with
  | none =>
      obtain ⟨p, ctx', here, quiet, bare, -⟩ := parsed m suffix ctx store path next start
      refine ⟨ctx', ?_, quiet.kept, bare hasName⟩
      rw [parseFields]
      simp only [flat, Bool.false_eq_true, if_false, hasName]
      rw [Run.bind_of_ok (Part.parse_of_ok here)]
      rfl
  | some name =>
      obtain ⟨p, ctx', here, quiet, -, labelled⟩ :=
        parsed m suffix ctx store (path.member name) next start
      have noted : Run.insert name p ⟨.medium (m.skip data.length), ctx', store⟩ =
          .ok () ⟨.medium (m.skip data.length), ctx'.insert name p, store⟩ := rfl
      refine ⟨ctx'.insert name p, ?_, quiet.kept.trans (Context.kept_insert ctx' name p),
        labelled name hasName⟩
      rw [parseFields]
      simp only [flat, Bool.false_eq_true, if_false, hasName]
      rw [Run.bind_of_ok (Part.parse_of_ok here), Run.bind_of_ok noted]
      rfl

end Codec

/-! ## The bytes of a raw copy -/

namespace Expr

/-- The bytes that the raw copy in a field occupies. -/
def dataOf (name : String) : Expr := .attr (.field name) "data"

variable {r : Resolver} {scope : Scope} {path : Path} {store : LazyStore} {name : String}
  {fields : Record Value}

theorem evaluate_dataOf {v : Value} (shown : Record.isPrivate name = false)
    (copy : Record.get? scope.innermost name = some (.container fields))
    (data : Record.get? fields "data" = some v) :
    (dataOf name).evaluate r scope path store = .ok v store := by
  have denoted := denote_field r scope store shown copy
  simp [dataOf, evaluate, denote, member, Resolver.attr, Lookup.atPath, bind, EStateM.bind, pure,
    EStateM.pure, denoted, data, Denoted.toValue]

theorem pending_dataOf (shown : Record.isPrivate name = false)
    (copy : Record.get? scope.innermost name = some (.container fields))
    (missing : Record.get? fields "data" = none) :
    ((dataOf name).evaluate r scope path).Pending store := by
  have denoted := denote_field r scope store shown copy
  refine ⟨(Fault.unevaluable (.noField "data")).atPath path, ?_, rfl⟩
  simp [dataOf, evaluate, denote, member, Resolver.attr, Lookup.atPath, bind, EStateM.bind, pure,
    EStateM.pure, denoted, missing]

end Expr

namespace Codec

theorem copySince_skip {m : Medium} {data suffix : List UInt8} (next : m.rest = data ++ suffix)
    (ctx : Context) (store : LazyStore) (path : Path) :
    copySince m.pos path ⟨.medium (m.skip data.length), ctx, store⟩ =
      .ok data ⟨.medium (m.skip data.length), ctx, store⟩ := by
  have returned : Run.goTo m.pos ⟨.medium (m.skip data.length), ctx, store⟩ =
      .ok () ⟨.medium m, ctx, store⟩ := rfl
  rw [copySince, Run.bind_of_ok (Run.tell_medium _ _ _), Run.bind_of_ok returned]
  exact Run.read_of_rest_of_eq next (by simp)

theorem copySince_atEnd (before data : List UInt8) (ctx : Context) (store : LazyStore)
    (path : Path) :
    copySince before.length path ⟨.atEnd (before ++ data), ctx, store⟩ =
      .ok data ⟨.atEnd (before ++ data), ctx, store⟩ := by
  have next : (⟨.growing, before ++ data, before.length⟩ : Medium).rest = data ++ [] := by
    simp [Medium.rest, Medium.base]
  have back := copySince_skip next ctx store path
  simp only [Medium.skip] at back
  simpa only [Stream.atEnd, List.length_append] using back

variable {e : Engine} (of : Part) {path : Path} {ctx : Context} {store : LazyStore}
  {data : List UInt8}

/-- A copy is read back where its component is, with the offsets of the place. -/
theorem parse_rawCopy {toEnd : Bool} {near : Surroundings} {v : Value} {m : Medium}
    {suffix : List UInt8} (path : Path) (store : LazyStore)
    (reads : of.codec.Reads toEnd near v data)
    (next : m.rest = data ++ suffix) (last : toEnd = true → suffix = [])
    (held : near.Held ctx) :
    ∃ p ctx', (rawCopy e of).parse path ⟨.medium m, ctx, store⟩ =
        .ok (rawRecord data p m.pos (m.pos + data.length))
          ⟨.medium (m.skip data.length), ctx', store⟩ ∧
      ctx.Quiet ctx' ∧ v.Extends true p := by
  obtain ⟨p, ctx', parsed, quiet, ext⟩ := reads m suffix ctx store path next last held
  refine ⟨p, ctx', ?_, quiet, ext⟩
  rw [rawCopy]
  dsimp only
  rw [Run.bind_of_ok (Run.tell_medium _ _ _), Run.bind_of_ok (Part.parse_of_ok parsed),
    Run.bind_of_ok (Run.tell_medium _ _ _),
    Run.bind_of_ok (copySince_skip next ctx' store path)]
  rfl

/-- These are the bytes that a component appends when it is built from the value. -/
def Occupies (c : Codec) (u : Value) (before data : List UInt8) : Prop :=
  ∃ path ctx store w store', c.build u path ⟨.atEnd before, ctx, store⟩ =
    .ok w ⟨.atEnd (before ++ data), ctx, store'⟩

theorem build_rawCopy {given : Record Value} {u w : Value} {before : List UInt8} {s : State}
    (verifies : of.codec.Verifies) (value : Record.get? given "value" = some u)
    (present : u.isNone = false)
    (built : (rawCopy e of).build (.container given) path ⟨.atEnd before, ctx, store⟩ =
      .ok w s) :
    ∃ data store' v, s = ⟨.atEnd (before ++ data), ctx, store'⟩ ∧
      w = rawRecord data v before.length (before ++ data).length ∧
      of.codec.Occupies u before data ∧
      (v.InRange → ∃ p, of.codec.Reads false .nothing p data) := by
  rw [rawCopy] at built
  obtain ⟨input, s₁, entered, run⟩ := Run.bind_eq_ok_iff.mp built
  cases entered
  rw [Run.bind_of_ok (Run.tell_atEnd _ _ _)] at run
  simp only [value, Option.getD_some, present, Bool.not_false, if_true] at run
  obtain ⟨v, s₂, inner, run⟩ := Run.bind_eq_ok_iff.mp run
  obtain ⟨data, store', rfl, reads⟩ :=
    verifies u path before ctx store v s₂ (Part.build_eq_ok_iff.mp inner)
  rw [Run.bind_of_ok (Run.tell_atEnd _ _ _),
    Run.bind_of_ok (copySince_atEnd before data ctx store' path)] at run
  cases run
  exact ⟨data, store', v, rfl, rfl, ⟨path, ctx, store, v, store', Part.build_eq_ok_iff.mp inner⟩,
    fun small => reads (Or.inr small)⟩

end Codec

/-! ## Stored digests -/

namespace Codec

/-- These bytes are read as a value that agrees with the digest. -/
def Holds (e : Engine) (c : Codec) (stored : List UInt8) (digest : Value) : Prop :=
  ∀ (m : Medium) (suffix : List UInt8) (ctx : Context) (store : LazyStore) (path : Path),
    m.rest = stored ++ suffix →
      ∃ p ctx', c.parse path ⟨.medium m, ctx, store⟩ =
          .ok p ⟨.medium (m.skip stored.length), ctx', store⟩ ∧
        ctx.Quiet ctx' ∧ ∀ s, digestsAgree e p digest s = .ok true s

private theorem holds_of_reads {e : Engine} {c : Codec} {v digest : Value} {stored : List UInt8}
    (reads : c.Reads false .nothing v stored)
    (agree : ∀ p, v.Extends true p → ∀ s, digestsAgree e p digest s = .ok true s) :
    c.Holds e stored digest := by
  intro m suffix ctx store path next
  obtain ⟨p, ctx', parsed, quiet, ext⟩ :=
    reads m suffix ctx store path next (by simp) (Surroundings.held_nothing ctx)
  exact ⟨p, ctx', parsed, quiet, agree p ext⟩

theorem agree_int (e : Engine) (n : Int) (s : State) :
    digestsAgree e (.int n) (.int n) s = .ok true s := by
  have equal : e.resolver.equal (.int n) (.int n) s.store =
      .ok ((Value.int n).same (.int n)) s.store := equal_int e.resolver rfl n s.store
  simp [digestsAgree, Engine.equal, Run.lookup, equal, Value.same]

theorem agree_bytes (e : Engine) (data : List UInt8) (s : State) :
    digestsAgree e (.bytes data) (.bytes data) s = .ok true s := by
  have equal : e.resolver.equal (.bytes data) (.bytes data) s.store = .ok true s.store := by
    simp [Resolver.equal, Resolver.compare, Value.isLazy, Value.same]
  simp [digestsAgree, Engine.equal, Run.lookup, equal]

theorem parse_checksum {e : Engine} (of : Part) {hash : Hash} (expr : Expr) {m : Medium}
    {stored suffix data : List UInt8} {ctx : Context} (store : LazyStore) (path : Path)
    (holds : of.codec.Holds e stored (hash data).value) (next : m.rest = stored ++ suffix)
    (sees : ∀ ctx', ctx.Quiet ctx' →
      expr.evaluate e.resolver ctx'.scope path store = .ok (.bytes data) store) :
    ∃ p ctx', (checksum e of hash expr).parse path ⟨.medium m, ctx, store⟩ =
        .ok p ⟨.medium (m.skip stored.length), ctx', store⟩ ∧ ctx.Quiet ctx' := by
  obtain ⟨p, ctx', parsed, quiet, agree⟩ := holds m suffix ctx store path next
  refine ⟨p, ctx', ?_, quiet⟩
  have eval : e.eval expr path ⟨.medium (m.skip stored.length), ctx', store⟩ =
      .ok (.bytes data) ⟨.medium (m.skip stored.length), ctx', store⟩ := by
    simp [Engine.eval, Run.lookup, Run.scope, bind, EStateM.bind, sees ctx' quiet]
  have digest : Checksum.digest hash (.bytes data) = .ok (hash data).value := rfl
  rw [checksum]
  dsimp only
  rw [Run.bind_of_ok parsed, Run.bind_of_ok eval, digest, Run.bind_ofExcept_ok,
    Run.bind_of_ok (agree _)]
  rfl

theorem build_checksum {e : Engine} {of : Part} {hash : Hash} {expr : Expr}
    {data : List UInt8} {s : State} {path : Path} (v : Value)
    (sees : expr.evaluate e.resolver s.context.scope path s.store = .ok (.bytes data) s.store) :
    (checksum e of hash expr).build v path s = of.codec.build (hash data).value path s := by
  have eval : e.eval expr path s = .ok (.bytes data) s := by
    simp [Engine.eval, Run.lookup, Run.scope, bind, EStateM.bind, sees]
  have compute : (e.eval expr path >>= fun input =>
      Run.ofExcept path (Checksum.digest hash input)) s = .ok (hash data).value s := by
    rw [Run.bind_of_ok eval]
    rfl
  rw [checksum]
  dsimp only
  rw [Run.bind_of_ok (Run.outcome_of_ok compute)]

end Codec

namespace Format

/-- The engines that run the components of a whole run and its patches. -/
def Serves (defs : Definitions) (e : Engine) : Prop :=
  ∃ k, Engine.depthLimit ≤ k + 2 ∧ e = .level defs k

theorem serves_inner (defs : Definitions) : Serves defs (inner defs) :=
  ⟨Engine.depthLimit - 1, by decide, rfl⟩

/-- These bytes are read as a value that agrees with the digest. -/
def Holds (defs : Definitions) (of : Format) (stored : List UInt8) (digest : Value) : Prop :=
  ∀ e, Serves defs e → (of.codec e defs).Holds e stored digest

/-- A field of constant size that holds a digest wherever it can be built from it. -/
structure Stores (defs : Definitions) (of : Format) (width : Nat) (digest : Value) : Prop where
  size : ∀ e, Serves defs e → ∀ ctx path store,
    (of.codec e defs).size ctx path store = .ok width store
  holds : ∀ e, Serves defs e → ∀ data pos ctx store path w s,
    (of.codec e defs).build digest path ⟨.growing data pos, ctx, store⟩ = .ok w s →
      ∃ stored, stored.length = width ∧
        s = ⟨.growing (Medium.overlay data pos stored) (pos + width), ctx, store⟩ ∧
        of.Holds defs stored digest

theorem stores_integer (defs : Definitions) {width : Nat} (signed : Bool) (endian : Endian)
    (positive : 1 ≤ width) (narrow : width ≤ 16) (digest : Digest) :
    Stores defs (integer (.const (.int width)) signed endian) width digest.value where
  size e _ ctx path store := e.staticSize_const (Nat.le_trans narrow (by decide)) ctx path store
  holds e _ data pos ctx store path w s built := by
    obtain ⟨n, k, same, -, -, isNumber, fits, rfl, rfl⟩ := Codec.integer_of_build built
    obtain rfl : width = n := Int.ofNat.inj same
    cases digest with
    | bytes data => cases isNumber
    | number k =>
        cases isNumber
        have length : (Integer.inOrder endian
            (Bytes.ofNat width (Integer.toPattern k.toNat (width * 8)))).length = width := by
          rw [Integer.length_inOrder, Bytes.length_ofNat]
        refine ⟨_, length, rfl, fun e' _ => ?_⟩
        have small : Value.fitsInt k.toNat = true := by
          have bound := k.toNat_lt
          have low : Value.minInt ≤ 0 := by decide
          have high : 18446744073709551616 ≤ Value.maxInt := by decide
          exact Bool.and_eq_true_iff.mpr
            ⟨decide_eq_true (by omega), decide_eq_true (by omega)⟩
        refine Codec.holds_of_reads (Codec.reads_integer positive narrow fits small)
          fun p ext s => ?_
        rw [Value.eq_of_extends_int ext]
        exact Codec.agree_int e' _ s

/-! ## Patches -/

/-- An engine whose patches are built by one that runs the components of a whole run. -/
def BuildsPatches (defs : Definitions) (e : Engine) : Prop :=
  ∀ (of : Format) (v : Value) (path : Path),
    ∃ e', Serves defs e' ∧ e.build of v path = (of.codec e' defs).build v path

theorem buildsPatches_inner (defs : Definitions) : BuildsPatches defs (inner defs) :=
  fun _ _ _ => ⟨.level defs (Engine.depthLimit - 2), ⟨_, by decide, rfl⟩, rfl⟩

private theorem overlay_between {front old back new : List UInt8} (same : new.length = old.length) :
    Medium.overlay (front ++ (old ++ back)) front.length new = front ++ (new ++ back) := by
  have behind : (front ++ (old ++ back)).drop (front.length + new.length) = back := by
    rw [same, ← List.length_append, ← List.append_assoc, List.drop_left]
  have gap : front.length - (front ++ (old ++ back)).length = 0 := by
    rw [List.length_append]
    omega
  rw [Medium.overlay, behind, gap, List.take_left]
  simp

/-- A patch whose component fills the reserved bytes exchanges them for its own. -/
theorem patched_of_apply {defs : Definitions} {e : Engine} {d : Deferred} {value : Value}
    {width : Nat} {front old back : List UInt8} {ctx : Context} {store : LazyStore} {s : State}
    {good : Value → List UInt8 → Prop} (patches : BuildsPatches defs e)
    (reserved : old.length = width) (offset : d.offset = front.length)
    (fills : ∀ e, Serves defs e → ∀ data pos ctx store path w s,
      (d.field.codec e defs).build value path ⟨.growing data pos, ctx, store⟩ = .ok w s →
        ∃ stored, stored.length = width ∧
          s = ⟨.growing (Medium.overlay data pos stored) (pos + width), ctx, store⟩ ∧ good w stored)
    (run : e.applyPatch d value ⟨.atEnd (front ++ (old ++ back)), ctx, store⟩ = .ok () s) :
    ∃ w stored, stored.length = width ∧ good w stored ∧
      s = ⟨.atEnd (front ++ (stored ++ back)), ctx.noted d w, store⟩ := by
  obtain ⟨reached, s₁, written, s₂, sought, made, -, rfl⟩ := Engine.applyPatch_of_ok run
  rw [Stream.atEnd_eq, offset] at sought
  obtain rfl := Run.seek_growing sought
  obtain ⟨e', serves, build⟩ := patches d.field value d.path
  rw [build] at made
  obtain ⟨stored, length, rfl, holds⟩ := fills e' serves _ _ _ _ _ _ _ made
  refine ⟨written, stored, length, holds, ?_⟩
  rw [overlay_between (length.trans reserved.symm)]
  have ended : Stream.growing (front ++ (stored ++ back)) (front ++ (old ++ back)).length =
      .atEnd (front ++ (stored ++ back)) := by
    rw [Stream.atEnd_eq]
    simp only [List.length_append, reserved, length]
  rw [← ended]
  rfl

/-- A structure is built by its fields, in a frame of the entries that were given. -/
theorem fields_of_buildBytes {defs : Definitions} {fs : List Format} {overwrite : Bool}
    {input params : Record Value} {store : LazyStore} {w : Value} {s : State}
    (built : (struct fs overwrite).buildBytes (.ofDefinitions defs) (.container input) params
      store = .ok w s) :
    ∃ s₁ s₂, Codec.buildFields input .this (parts (inner defs) defs fs)
        ⟨.atEnd [], (Context.ofParams params).push input, store⟩ = .ok () s₁ ∧
      (inner defs).resolvePending s₁ = .ok () s₂ ∧ w = .container s₂.context.innermost ∧
      (Engine.ofDefinitions defs).resolveSince 0 true { s₂ with context := s₂.context.pop } =
        .ok () s := by
  obtain ⟨s₁, run, resolved⟩ := build_of_buildBytes built
  obtain ⟨fields, s₂, taken, run⟩ := Run.bind_eq_ok_iff.mp run
  obtain ⟨rfl, rfl⟩ := Run.pure_eq_ok_iff.mp taken
  obtain ⟨⟨_, frame⟩, s₃, framed, run⟩ := Run.bind_eq_ok_iff.mp run
  obtain ⟨rfl, rfl⟩ := Run.pure_eq_ok_iff.mp run
  obtain ⟨s₄, inside, rfl, rfl⟩ := Run.ok_of_inFrame framed
  obtain ⟨_, s₅, fieldsBuilt, settled⟩ := Run.bind_eq_ok_iff.mp inside
  exact ⟨s₅, s₄, fieldsBuilt, settled, rfl, resolved⟩

theorem parts_append (e : Engine) (defs : Definitions) (fs gs : List Format) :
    parts e defs (fs ++ gs) = parts e defs fs ++ parts e defs gs := by
  induction fs with
  | nil => rfl
  | cons f rest ih => rw [List.cons_append, parts, parts, ih, List.cons_append]

end Format

end BinaryFormat
