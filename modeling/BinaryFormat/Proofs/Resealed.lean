import BinaryFormat.Format.Checksums
import BinaryFormat.Proofs.Legible
import BinaryFormat.Proofs.Locality.Formats
import BinaryFormat.Proofs.Restored

/-!
# Checksums that are built again

Integers, byte strings and structures and raw copies of them write the value
that was parsed as the bytes that it was parsed from, also where a length is
read from the fields before.  Behind a raw copy stands a checksum: the digest
is handed to its field as it is, so that a checksum that was accepted can be
built again just if the field takes digests of this kind.
-/

namespace BinaryFormat

private theorem Context.insert_of_get? {ctx : Context} {name : String} {v : Value}
    (held : Record.get? ctx.innermost name = some v) : ctx.insert name v = ctx := by
  have same := Record.insert_of_get? held
  simp only [innermost] at same
  rw [insert, same]

private theorem Reach.Carries.unread {near : Reach} {ctx ctx' : Context}
    (h : near.Carries ctx.frames ctx'.frames) (values values' : Record Value) :
    Reach.Carries ([] :: near) (ctx.push values).frames (ctx'.push values').frames :=
  ⟨fun _ mem => absurd mem List.not_mem_nil, h⟩

namespace Codec

section Expressions

variable {e : Engine} {near : Reach} {x : Expr} {path : Path} {s s' : State}

private theorem eval_again (reads : x.Reads near)
    (self : near.Carries s.context.frames s.context.frames)
    {v : Value} (seen : e.eval x path s = .ok v s') :
    s' = s ∧ ∀ (t : State) (path' : Path), near.Carries s.context.frames t.context.frames →
      e.eval x path' t = .ok v t := by
  have here : Run.Agrees _ (e.eval x path) (e.eval x path) _ _ := agrees_eval self reads
  refine ⟨(here s s' v rfl seen).1, fun t path' carries => ?_⟩
  have there : Run.Agrees _ (e.eval x path) (e.eval x path') _ _ := agrees_eval carries reads
  exact (there s s' v rfl seen).2.2 t rfl

private theorem evalSize_again (reads : x.Reads near)
    (self : near.Carries s.context.frames s.context.frames) {n : Nat}
    (size : e.evalSize x path s = .ok n s') :
    s' = s ∧ ∀ (t : State) (path' : Path), near.Carries s.context.frames t.context.frames →
      e.evalSize x path' t = .ok n t := by
  have here : Run.Agrees _ (e.evalSize x path) (e.evalSize x path) _ _ := agrees_evalSize self reads
  refine ⟨(here s s' n rfl size).1, fun t path' carries => ?_⟩
  have there : Run.Agrees _ (e.evalSize x path) (e.evalSize x path') _ _ :=
    agrees_evalSize carries reads
  exact (there s s' n rfl size).2.2 t rfl

end Expressions

/-- What is parsed from a byte string is built into the bytes that it was parsed from, at a place
of the same offset where the names within reach stand for the same.  The result is the value. -/
def Reproduces (near : Reach) (c : Codec) : Prop :=
  ∀ (m : Medium) (ctx : Context) (store : LazyStore) (path : Path) (v : Value) (s : State),
    near.Carries ctx.frames ctx.frames →
    c.parse path ⟨.medium m, ctx, store⟩ = .ok v s →
    ∃ data rest, m.rest = data ++ rest ∧ s = ⟨.medium (m.skip data.length), ctx, store⟩ ∧
      v.Eager ∧ v.isNone = false ∧
      ∀ (before : List UInt8) (ctx' : Context) (store' : LazyStore) (path' : Path),
        before.length = m.pos → near.Carries ctx.frames ctx'.frames →
        c.build v path' ⟨.atEnd before, ctx', store'⟩ =
          .ok v ⟨.atEnd (before ++ data), ctx', store'⟩

variable {e : Engine} {near : Reach}

/-! ## Numbers and bytes -/

private theorem reproduces_integer {width : Expr} (reads : width.Reads near) (signed : Bool)
    (endian : Endian) : (integer e width signed endian).Reproduces near := by
  intro m ctx store path v s self parsed
  obtain ⟨n, s₁, size, run₁⟩ := Run.bind_eq_ok_iff.mp parsed
  obtain ⟨rfl, sizeAgain⟩ := evalSize_again reads self size
  obtain ⟨_, s₂, check, run₂⟩ := Run.bind_eq_ok_iff.mp run₁
  obtain ⟨checked, rfl⟩ := Run.ofExcept_eq_ok_iff.mp check
  obtain ⟨data, s₃, read, run₃⟩ := Run.bind_eq_ok_iff.mp run₂
  obtain ⟨enough, rfl, rfl⟩ := Run.read_eq_ok_iff.mp read
  obtain ⟨k, s₄, pattern, run₄⟩ := Run.bind_eq_ok_iff.mp run₃
  obtain ⟨isPattern, rfl⟩ := Run.ofExcept_eq_ok_iff.mp pattern
  cases run₄
  have length : (m.rest.take n).length = n := List.length_take_of_le enough
  refine ⟨m.rest.take n, m.rest.drop n, (List.take_append_drop n m.rest).symm, by rw [length],
    trivial, rfl, fun before ctx' store' path' _ carries => ?_⟩
  obtain ⟨positive, narrow⟩ := Integer.bounds_of_checkWidth checked
  have sized := sizeAgain ⟨.atEnd before, ctx', store'⟩ path' carries
  generalize m.rest.take n = data at *
  subst length
  obtain ⟨fits, same⟩ := Integer.written_of_ofPattern positive narrow isPattern
  have built : (integer e width signed endian).build (.int k) path'
      ⟨.atEnd before, ctx', store'⟩ = (do
        Run.write (Integer.inOrder endian (Bytes.ofNat data.length
          (Integer.toPattern k (data.length * 8)))) path'
        return .int k : Run Value) ⟨.atEnd before, ctx', store'⟩ := by
    simp only [integer]
    rw [Run.bind_of_ok sized, checked, Run.bind_ofExcept_ok]
    simp only [Integer.ofValue, Value.int?, Integer.checkedPattern, fits, if_true,
      Run.bind_ofExcept_ok]
  rw [built, same, Run.bind_of_ok (Run.write_atEnd _ _)]
  rfl

private theorem reproduces_bytes {length : Expr} (reads : length.Reads near) :
    (bytes e length).Reproduces near := by
  intro m ctx store path v s self parsed
  obtain ⟨n, s₁, size, run⟩ := Run.bind_eq_ok_iff.mp parsed
  obtain ⟨rfl, sizeAgain⟩ := evalSize_again reads self size
  obtain ⟨data, s₂, read, run⟩ := Run.bind_eq_ok_iff.mp run
  obtain ⟨enough, rfl, rfl⟩ := Run.read_eq_ok_iff.mp read
  cases run
  have length : (m.rest.take n).length = n := List.length_take_of_le enough
  refine ⟨m.rest.take n, m.rest.drop n, (List.take_append_drop n m.rest).symm, by rw [length],
    trivial, rfl, fun before ctx' store' path' _ carries => ?_⟩
  have sized := sizeAgain ⟨.atEnd before, ctx', store'⟩ path' carries
  simp only [Codec.bytes]
  rw [Run.bind_of_ok sized]
  simp only [length, ne_eq, not_true_eq_false, if_false]
  rw [Run.bind_of_ok (Run.write_atEnd _ _)]
  rfl

/-! ## Raw copies -/

private theorem rawCopy_again {of : Part} (h : of.codec.Reproduces near) {m : Medium}
    {ctx : Context}
    {store : LazyStore} {path : Path} {w : Value} {s : State}
    (self : near.Carries ctx.frames ctx.frames)
    (parsed : (rawCopy e of).parse path ⟨.medium m, ctx, store⟩ = .ok w s) :
    ∃ data rest v, m.rest = data ++ rest ∧ s = ⟨.medium (m.skip data.length), ctx, store⟩ ∧
      w = rawRecord data v m.pos (m.pos + data.length) ∧ v.Eager ∧
      ∀ (before : List UInt8) (ctx' : Context) (store' : LazyStore) (path' : Path),
        before.length = m.pos → near.Carries ctx.frames ctx'.frames →
        (rawCopy e of).build w path' ⟨.atEnd before, ctx', store'⟩ =
          .ok w ⟨.atEnd (before ++ data), ctx', store'⟩ := by
  obtain ⟨_, s₁, told, run⟩ := Run.bind_eq_ok_iff.mp parsed
  cases told
  obtain ⟨v, s₂, inner, run⟩ := Run.bind_eq_ok_iff.mp run
  obtain ⟨data, rest, next, rfl, eager, present, again⟩ :=
    h m ctx store path v s₂ self (Run.tagged_eq_ok_iff.mp inner)
  rw [Run.bind_of_ok (Run.tell_medium _ _ _)] at run
  have run := Run.rest_of_bind (copySince_skip next ctx store path) run
  cases run
  refine ⟨data, rest, v, next, rfl, rfl, eager,
    fun before ctx' store' path' place carries => ?_⟩
  have built := Part.build_of_ok (again before ctx' store' path' place carries)
  have reached : (before ++ data).length = m.pos + data.length := by
    rw [List.length_append, place]
  have run : (rawCopy e of).build (rawRecord data v m.pos (m.pos + data.length)) path'
      ⟨.atEnd before, ctx', store'⟩ = (do
        let built ← of.build v path'
        let offset2 ← Run.tell
        let copy ← copySince before.length path'
        return rawRecord copy built before.length offset2 : Run Value)
      ⟨.atEnd before, ctx', store'⟩ := by
    simp [rawCopy, rawRecord, Engine.containerInput, Record.get?, present, bind, EStateM.bind,
      Run.tell]
  refine run.trans ?_
  rw [Run.bind_of_ok built, Run.bind_of_ok (Run.tell_atEnd _ _ _),
    Run.bind_of_ok (copySince_atEnd before data ctx' store' path'), reached, place]
  rfl

private theorem reproduces_rawCopy {of : Part} (h : of.codec.Reproduces near) :
    (rawCopy e of).Reproduces near := by
  intro m ctx store path w s self parsed
  obtain ⟨data, rest, v, next, rfl, rfl, eager, again⟩ := rawCopy_again h self parsed
  exact ⟨data, rest, next, rfl, ⟨trivial, trivial, eager, trivial, trivial, trivial⟩, rfl, again⟩

/-! ## Structures -/

/-- Fields with names, each of which may read the fields before it by their names. -/
def ReproducesAll (near : Reach) : List String → List Part → Prop
  | _, [] => True
  | names, p :: rest => ∃ name, p.name? = some name ∧ p.format.isEmbedded = false ∧
      p.codec.Reproduces (names :: near) ∧ ReproducesAll near (name :: names) rest

/-- A field is built from an input, and noted in a frame, that hold what is built already. -/
private theorem buildFields_of_held {p : Part} {rest : List Part} {name : String}
    {input : Record Value}
    {path : Path} {v : Value} {ctx : Context} {store : LazyStore} {before after : List UInt8}
    (own : p.name? = some name) (flat : p.format.isEmbedded = false)
    (given : Record.get? input name = some v) (held : Record.get? ctx.innermost name = some v)
    (built : p.codec.build v (path.member name) ⟨.atEnd before, ctx, store⟩ =
      .ok v ⟨.atEnd after, ctx, store⟩) :
    buildFields input path (p :: rest) ⟨.atEnd before, ctx, store⟩ =
      buildFields input path rest ⟨.atEnd after, ctx, store⟩ := by
  have noted : Run.insert name v ⟨.atEnd after, ctx, store⟩ =
    .ok () ⟨.atEnd after, ctx, store⟩ := by
    rw [Run.insert, Run.modifyContext, Context.insert_of_get? held]
  rw [buildFields]
  simp only [flat, own, Bool.false_eq_true, if_false, fieldInput, given]
  rw [Run.bind_of_ok (Run.pure_apply _ _), Run.bind_of_ok (Part.build_of_ok built),
    Run.bind_of_ok noted]

private theorem reproduced_of_parseFields {overwrite : Bool} {path : Path} {store : LazyStore}
    {fields : List Part} {names : List String} {m : Medium} {ctx : Context} {s : State}
    (each : ReproducesAll near names fields) (distinct : (Part.names fields).Nodup)
    (self : Reach.Carries (names :: near) ctx.frames ctx.frames)
    (parsed : parseFields overwrite false path fields ⟨.medium m, ctx, store⟩ = .ok () s) :
    ∃ data rest ctx', m.rest = data ++ rest ∧ s = ⟨.medium (m.skip data.length), ctx', store⟩ ∧
      ctx.Kept ctx' ∧
      (Value.EagerFields ctx.innermost → Value.EagerFields ctx'.innermost) ∧
      (∀ k ∉ Part.names fields, Record.get? ctx'.innermost k = Record.get? ctx.innermost k) ∧
      ∀ (input : Record Value) (before : List UInt8) (there : Context) (store' : LazyStore)
        (path' : Path), before.length = m.pos →
        Reach.Carries (names :: near) ctx.frames there.frames →
        (∀ k ∈ Part.names fields, ∀ v, Record.get? ctx'.innermost k = some v →
          Record.get? input k = some v ∧ Record.get? there.innermost k = some v) →
        buildFields input path' fields ⟨.atEnd before, there, store'⟩ =
          .ok () ⟨.atEnd (before ++ data), there, store'⟩ := by
  -- The frame that is built in holds every entry from the start, so that noting one changes
  -- nothing and a field finds those before it as it did when it was parsed.
  induction fields generalizing names m ctx with
  | nil =>
      cases parsed
      refine ⟨[], m.rest, ctx, rfl, rfl, .refl ctx, id, fun _ _ => rfl, ?_⟩
      intro input before there store' path' _ _ _
      rw [List.append_nil]
      rfl
  | cons p fields ih =>
      obtain ⟨name, own, flat, reproduces, each⟩ := each
      obtain ⟨v, s₁, first, parsed⟩ := first_of_parseFields flat own parsed
      obtain ⟨part, after, next, rfl, eager, -, again⟩ :=
        reproduces m ctx store _ v s₁ self first
      rw [Part.names_cons_of_some own] at distinct ⊢
      obtain ⟨apart, distinct⟩ := List.nodup_cons.mp distinct
      obtain ⟨data, rest, ctx', next', rfl, kept, eager', same, again'⟩ :=
        ih each distinct (self.insert name eager) parsed
      rw [Medium.rest_skip next] at next'
      have noted : Record.get? ctx'.innermost name = some v :=
        (same name apart).trans (Record.get?_insert_self _ _ _)
      refine ⟨part ++ data, rest, ctx', ?_, ?_, (ctx.kept_insert name v).trans kept,
        fun start => eager' (start.insert name eager), fun k absent => ?_, ?_⟩
      · rw [next, next', List.append_assoc]
      · rw [Medium.skip_skip, List.length_append]
      · obtain ⟨other, absent'⟩ := not_or.mp (mt List.mem_cons.mpr absent)
        exact (same k absent').trans
          (Record.get?_insert_of_ne (fun eq => other eq.symm) ctx.innermost v)
      · intro input before there store' path' place carries holds
        obtain ⟨given, held⟩ := holds name List.mem_cons_self v noted
        have here := again before there store' (path'.member name) place carries
        have further := carries.insert name eager
        rw [Context.insert_of_get? held] at further
        rw [buildFields_of_held own flat given held here, ← List.append_assoc]
        exact again' input (before ++ part) there store' path'
          (by rw [List.length_append, place, Medium.skip_pos]) further
          fun k mem => holds k (List.mem_cons_of_mem name mem)

private theorem build_struct {fields : List Part} {overwrite : Bool} {input : Record Value}
    {path : Path}
    {ctx : Context} {store : LazyStore} {before after : List UInt8}
    (built : buildFields input path fields ⟨.atEnd before, ctx.push input, store⟩ =
      .ok () ⟨.atEnd after, ctx.push input, store⟩) :
    (struct e fields overwrite).build (.container input) path ⟨.atEnd before, ctx, store⟩ =
      .ok (.container input) ⟨.atEnd after, ctx, store⟩ := by
  have inside : (do
      buildFields input path fields
      e.resolvePending : Run Unit) ⟨.atEnd before, ctx.push input, store⟩ =
        .ok () ⟨.atEnd after, ctx.push input, store⟩ := by
    rw [Run.bind_of_ok built]
    exact e.resolvePending_of_empty rfl
  have framed := Run.inFrame_of_ok inside
  rw [Context.pop_push] at framed
  exact Run.bind_of_ok framed _

private theorem refuses_struct {fields : List Part} {overwrite : Bool} {input : Record Value}
    {path : Path} {s s' : State} {failure : Failure}
    (refused : buildFields input path fields { s with context := s.context.push input } =
      .error failure s') :
    ∃ failure s', (struct e fields overwrite).build (.container input) path s =
      .error failure s' := by
  cases run : (struct e fields overwrite).build (.container input) path s with
  | error failure s' => exact ⟨failure, s', rfl⟩
  | ok w s' =>
      obtain ⟨_, _, given, run⟩ := Run.bind_eq_ok_iff.mp run
      cases given
      obtain ⟨_, _, framed, -⟩ := Run.bind_eq_ok_iff.mp run
      obtain ⟨_, inside, -, -⟩ := Run.ok_of_inFrame framed
      obtain ⟨_, _, built, -⟩ := Run.bind_eq_ok_iff.mp inside
      cases refused.symm.trans built

private theorem reproduces_struct {fields : List Part} (each : ReproducesAll near [] fields)
    (distinct : (Part.names fields).Nodup) (overwrite : Bool) :
    (struct e fields overwrite).Reproduces near := by
  intro m ctx store path w s self parsed
  obtain ⟨⟨_, frame⟩, s₁, framed, run⟩ := Run.bind_eq_ok_iff.mp parsed
  cases run
  obtain ⟨s₂, inside, isFrame, rfl⟩ := Run.ok_of_inFrame framed
  obtain ⟨data, rest, ctx₁, next, rfl, kept, eager, -, again⟩ :=
    reproduced_of_parseFields each distinct (self.unread [] []) inside
  dsimp only at isFrame
  subst isFrame
  refine ⟨data, rest, next, by rw [Context.pop_of_kept kept], eager trivial, rfl,
    fun before ctx' store' path' place carries => ?_⟩
  exact build_struct (again _ before _ store' path' place (carries.unread _ _)
    fun k _ v found => ⟨found, found⟩)

end Codec

namespace Format

mutual

/-- Integers and byte strings, the sizes of which may read the fields before them, and raw copies
and structures of them.  All fields have names of their own. -/
def Rebuildable (near : Reach) : Format → Prop
  | integer width _ _ => width.Reads near
  | bytes length => length.Reads near
  | named _ of | documented _ of | rawCopy of => Rebuildable near of
  | struct fields _ => (fieldNames fields).Nodup ∧ RebuildableAll near [] fields
  | _ => False

def RebuildableAll (near : Reach) : List String → List Format → Prop
  | _, [] => True
  | names, f :: rest => ∃ name, f.name? = some name ∧ Rebuildable (names :: near) f ∧
      RebuildableAll near (name :: names) rest

end

private theorem isEmbedded_of_rebuildable {near : Reach} : ∀ {f : Format}, f.Rebuildable near →
    f.isEmbedded = false :=
  isEmbedded_eq_false_of (P := Rebuildable near) id id id

mutual

private theorem reproduces_codec (e : Engine) (defs : Definitions) : ∀ {f : Format} {near : Reach},
    f.Rebuildable near → (f.codec e defs).Reproduces near
  | integer width signed endian, _, h => Codec.reproduces_integer h signed endian
  | bytes length, _, h => Codec.reproduces_bytes h
  | named _ of, _, h => reproduces_codec e defs (f := of) h
  | documented _ of, _, h => reproduces_codec e defs (f := of) h
  | rawCopy of, near, h =>
      have inner : (⟨of, of.codec e defs⟩ : Part).codec.Reproduces near := reproduces_codec e defs h
      Codec.reproduces_rawCopy inner
  | struct fields overwrite, _, h => Codec.reproduces_struct (reproduces_parts e defs h.2)
      (by rw [names_parts]; exact h.1) overwrite

theorem reproduces_parts (e : Engine) (defs : Definitions) : ∀ {fs : List Format} {near : Reach}
    {names : List String}, RebuildableAll near names fs →
      Codec.ReproducesAll near names (parts e defs fs)
  | [], _, _, _ => trivial
  | f :: _, _, _, h => by
      obtain ⟨name, own, rebuildable, rest⟩ := h
      exact ⟨name, own, isEmbedded_of_rebuildable rebuildable, reproduces_codec e defs rebuildable,
        reproduces_parts e defs rest⟩

end

end Format

/-! ## Entries of any name but those for paths -/

namespace Expr

variable (r : Resolver) (scope : Scope) (path : Path) (store : LazyStore) {name : String}

private theorem denote_plain {v : Value} (plain : Record.isReserved name = false)
    (held : Record.get? scope.innermost name = some v) :
    denote r scope (field name) store = .ok (.value v) store := by
  have found : Denoted.ofFrame scope.frames scope.frames name = .ok (.value v) := by
    rw [Scope.innermost] at held
    rw [ofFrame_of_plain plain, held]
  simp [field, denote, member, bind, EStateM.bind, pure, EStateM.pure, found, Lookup.ofExcept]

private theorem evaluate_plain {v : Value} (plain : Record.isReserved name = false)
    (held : Record.get? scope.innermost name = some v) :
    (field name).evaluate r scope path store = .ok v store := by
  have denoted := denote_plain r scope store plain held
  rw [field] at denoted ⊢
  simp [evaluate, Lookup.atPath, bind, EStateM.bind, pure, EStateM.pure, denoted, Denoted.toValue]

private theorem evaluate_dataOf_of_plain {fields : Record Value} {v : Value}
    (plain : Record.isReserved name = false)
    (copy : Record.get? scope.innermost name = some (.container fields))
    (data : Record.get? fields "data" = some v) :
    (dataOf name).evaluate r scope path store = .ok v store := by
  have denoted := denote_plain r scope store plain copy
  simp [dataOf, evaluate, denote, member, Resolver.attr, Lookup.atPath, bind, EStateM.bind, pure,
    EStateM.pure, denoted, data, Denoted.toValue]

end Expr

/-! ## Digests and their fields -/

namespace Codec

variable {e : Engine}

private theorem int_of_parse {width : Expr} {signed : Bool} {endian : Endian} {path : Path}
    {v : Value}
    {s s' : State} (parsed : (integer e width signed endian).parse path s = .ok v s') :
    ∃ k, v = .int k := by
  obtain ⟨_, _, -, run⟩ := Run.bind_eq_ok_iff.mp parsed
  obtain ⟨_, _, -, run⟩ := Run.bind_eq_ok_iff.mp run
  obtain ⟨_, _, -, run⟩ := Run.bind_eq_ok_iff.mp run
  obtain ⟨k, _, -, run⟩ := Run.bind_eq_ok_iff.mp run
  exact ⟨k, (Run.pure_eq_ok_iff.mp run).1.symm⟩

private theorem bytes_of_parse {length : Expr} {path : Path} {v : Value} {s s' : State}
    (parsed : (bytes e length).parse path s = .ok v s') : ∃ data, v = .bytes data := by
  obtain ⟨_, _, -, run⟩ := Run.bind_eq_ok_iff.mp parsed
  obtain ⟨data, _, -, run⟩ := Run.bind_eq_ok_iff.mp run
  exact ⟨data, (Run.pure_eq_ok_iff.mp run).1.symm⟩

private theorem integer_refuses (width : Expr) (signed : Bool) (endian : Endian) (data : List UInt8)
    (path : Path) (s : State) :
    ∃ failure s', (integer e width signed endian).build (.bytes data) path s =
      .error failure s' := by
  cases run : (integer e width signed endian).build (.bytes data) path s with
  | error failure s' => exact ⟨failure, s', rfl⟩
  | ok w s' =>
      obtain ⟨_, _, -, run⟩ := Run.bind_eq_ok_iff.mp run
      obtain ⟨_, _, -, run⟩ := Run.bind_eq_ok_iff.mp run
      obtain ⟨_, _, number, -⟩ := Run.bind_eq_ok_iff.mp run
      cases number

private theorem bytes_refuses (length : Expr) (k : Int) (path : Path) (s : State) :
    ∃ failure s', (bytes e length).build (.int k) path s = .error failure s' := by
  cases run : (bytes e length).build (.int k) path s with
  | error failure s' => exact ⟨failure, s', rfl⟩
  | ok w s' =>
      obtain ⟨_, _, -, run⟩ := Run.bind_eq_ok_iff.mp run
      cases run

private theorem digest_eq_ok_iff {hash : Hash} {u w : Value} : Checksum.digest hash u = .ok w ↔
    ∃ covered, Checksum.input u = .ok covered ∧ w = (hash covered).value := by
  rw [Checksum.digest]
  cases Checksum.input u with
  | error fault => simp [Except.map]
  | ok covered => simp [Except.map, eq_comm]

private theorem build_checksum_of_eval {of : Part} {hash : Hash} {data : Expr} {u : Value}
    {covered : List UInt8} {path : Path} {s : State} (seen : e.eval data path s = .ok u s)
    (isInput : Checksum.input u = .ok covered) (w : Value) :
    (checksum e of hash data).build w path s = of.codec.build (hash covered).value path s := by
  have compute : (do
      let input ← e.eval data path
      Run.ofExcept path (Checksum.digest hash input) : Run Value) s =
        .ok (hash covered).value s := by
    rw [Run.bind_of_ok seen, digest_eq_ok_iff.mpr ⟨covered, isInput, rfl⟩]
    rfl
  exact Run.bind_of_ok (Run.outcome_of_ok compute) _

private theorem agree_of_parse_checksum {of : Part} {hash : Hash} {data : Expr} {v : Value}
    {path : Path}
    {s s' : State} (parsed : (checksum e of hash data).parse path s = .ok v s') :
    ∃ s₁ u s₂ covered, of.codec.parse path s = .ok v s₁ ∧ e.eval data path s₁ = .ok u s₂ ∧
      Checksum.input u = .ok covered ∧ digestsAgree e v (hash covered).value s₂ = .ok true s' := by
  obtain ⟨stored, s₁, here, run⟩ := Run.bind_eq_ok_iff.mp parsed
  obtain ⟨u, s₂, seen, run⟩ := Run.bind_eq_ok_iff.mp run
  obtain ⟨computed, s₃, digested, run⟩ := Run.bind_eq_ok_iff.mp run
  obtain ⟨isDigest, rfl⟩ := Run.ofExcept_eq_ok_iff.mp digested
  obtain ⟨covered, isInput, rfl⟩ := digest_eq_ok_iff.mp isDigest
  obtain ⟨answer, s₄, agree, run⟩ := Run.bind_eq_ok_iff.mp run
  cases answer with
  | false =>
      obtain ⟨_, _, -, run⟩ := Run.bind_eq_ok_iff.mp run
      obtain ⟨_, _, -, run⟩ := Run.bind_eq_ok_iff.mp run
      obtain ⟨_, _, refused, -⟩ := Run.bind_eq_ok_iff.mp run
      cases refused
  | true =>
      cases run
      exact ⟨s₁, u, s₂, covered, here, seen, isInput, agree⟩

private theorem digestsAgree_int (e : Engine) (k n : Int) (s : State) :
    digestsAgree e (.int k) (.int n) s = .ok ((Value.int k).same (.int n)) s := by
  simp [digestsAgree, Engine.equal, Run.lookup, Resolver.equal, Resolver.compare, Value.isLazy]

private theorem digestsAgree_bytes (e : Engine) (a b : List UInt8) (s : State) :
    digestsAgree e (.bytes a) (.bytes b) s = .ok ((Value.bytes a).same (.bytes b)) s := by
  simp [digestsAgree, Engine.equal, Run.lookup, Resolver.equal, Resolver.compare, Value.isLazy]

end Codec

namespace Format

/-- The fields that store a digest, numbers and bytes of a size that may be read before. -/
def IsSum (near : Reach) : Format → Prop
  | integer width _ _ => width.Reads near
  | bytes length => length.Reads near
  | _ => False

/-- Whether a digest is of the kind that the field is built from. -/
def takes : Format → Digest → Bool
  | integer _ _ _, .number _ => true
  | bytes _, .bytes _ => true
  | _, _ => false

variable {e : Engine} {defs : Definitions} {near : Reach} {f : Format} {digest : Digest}

private theorem rebuildable_of_isSum (h : f.IsSum near) : f.Rebuildable near := by
  cases f with
  | integer width signed endian => exact h
  | bytes length => exact h
  | _ => exact h.elim

/-- Looking whether a stored digest agrees changes nothing; one of the kind of the field has to be
the one that is stored. -/
private theorem digestsAgree_stored (h : f.IsSum near) {path : Path} {v : Value} {s s' t t' : State}
    {answer : Bool} (parsed : (f.codec e defs).parse path s = .ok v s')
    (agree : Codec.digestsAgree e v digest.value t = .ok answer t') :
    t' = t ∧ (answer = true → f.takes digest = true → v = digest.value) := by
  cases f with
  | integer width signed endian =>
      obtain ⟨k, rfl⟩ := Codec.int_of_parse parsed
      cases digest with
      | number n =>
          cases (Codec.digestsAgree_int e k n.toNat t).symm.trans agree
          refine ⟨rfl, fun same _ => ?_⟩
          simpa [Value.same, Digest.value] using same
      | bytes data =>
          cases agree
          exact ⟨rfl, fun _ other => absurd other Bool.false_ne_true⟩
  | bytes length =>
      obtain ⟨data, rfl⟩ := Codec.bytes_of_parse parsed
      cases digest with
      | number n =>
          cases agree
          exact ⟨rfl, fun _ other => absurd other Bool.false_ne_true⟩
      | bytes other =>
          cases (Codec.digestsAgree_bytes e data other t).symm.trans agree
          refine ⟨rfl, fun same _ => ?_⟩
          simpa [Value.same, Digest.value] using same
  | _ => exact h.elim

private theorem refuses_of_not_takes (h : f.IsSum near) (other : f.takes digest = false)
    (path : Path)
    (s : State) : ∃ failure s', (f.codec e defs).build digest.value path s = .error failure s' := by
  cases f with
  | integer width signed endian =>
      cases digest with
      | number n => cases other
      | bytes data => exact Codec.integer_refuses width signed endian data path s
  | bytes length =>
      cases digest with
      | number n => exact Codec.bytes_refuses length n.toNat path s
      | bytes data => cases other
  | _ => exact h.elim

/-- The digest of an accepted checksum is built as the bytes that were parsed if it is of the kind
of the field, and refused otherwise. -/
private theorem checksum_again (h : f.IsSum near) {data : Expr} (reads : data.Reads near)
    (hash : Hash)
    {m : Medium} {ctx : Context} {store : LazyStore} {path : Path} {v : Value} {s : State}
    (self : near.Carries ctx.frames ctx.frames)
    (parsed : (Codec.checksum e ⟨f, f.codec e defs⟩ hash data).parse path
      ⟨.medium m, ctx, store⟩ = .ok v s) :
    ∃ sum rest u covered, m.rest = sum ++ rest ∧ s = ⟨.medium (m.skip sum.length), ctx, store⟩ ∧
      e.eval data path s = .ok u s ∧ Checksum.input u = .ok covered ∧
      ∀ (before : List UInt8) (ctx' : Context) (store' : LazyStore) (path' : Path) (w : Value),
        before.length = m.pos → near.Carries ctx.frames ctx'.frames →
        (f.takes (hash covered) = true →
          (Codec.checksum e ⟨f, f.codec e defs⟩ hash data).build w path'
            ⟨.atEnd before, ctx', store'⟩ = .ok v ⟨.atEnd (before ++ sum), ctx', store'⟩) ∧
        (f.takes (hash covered) = false → ∃ failure s',
          (Codec.checksum e ⟨f, f.codec e defs⟩ hash data).build w path'
            ⟨.atEnd before, ctx', store'⟩ = .error failure s') := by
  obtain ⟨s₁, u, s₂, covered, stored, seen, isInput, agree⟩ :=
    Codec.agree_of_parse_checksum parsed
  obtain ⟨sum, rest, next, rfl, -, -, again⟩ :=
    reproduces_codec e defs (rebuildable_of_isSum h) m ctx store path v s₁ self stored
  obtain ⟨rfl, seenAgain⟩ := Codec.eval_again reads self seen
  obtain ⟨rfl, same⟩ := digestsAgree_stored h stored agree
  refine ⟨sum, rest, u, covered, next, rfl, seen, isInput,
    fun before ctx' store' path' w place carries => ?_⟩
  have there := seenAgain ⟨.atEnd before, ctx', store'⟩ path' carries
  rw [Codec.build_checksum_of_eval there isInput]
  constructor
  · intro kind
    rw [← same rfl kind]
    exact again before ctx' store' path' place carries
  · intro other
    exact refuses_of_not_takes h other path' ⟨.atEnd before, ctx', store'⟩

end Format

/-! ## The last field -/

namespace Codec

private theorem parseFields_single {overwrite : Bool} {path : Path} {field : Part}
    (flat : field.format.isEmbedded = false) : parseFields overwrite false path [field] =
      (field.parse (path.memberIf field.name?) >>= noteItem field) := by
  unfold noteItem
  simp only [parseFields, flat, Bool.false_eq_true, if_false]
  cases field.name? <;> simp [Path.memberIf]

private theorem buildFields_single (input : Record Value) (path : Path) {field : Part}
    (flat : field.format.isEmbedded = false)
    (given : ∀ name ∈ field.name?, ∃ v, Record.get? input name = some v) :
    ∃ u place, buildFields input path [field] = (field.build u place >>= noteItem field) := by
  unfold noteItem
  simp only [buildFields, flat, Bool.false_eq_true, if_false]
  cases own : field.name? with
  | none => exact ⟨.none, path, by simp⟩
  | some name =>
      obtain ⟨v, held⟩ := given name own
      exact ⟨v, path.member name, by simp [fieldInput, held]⟩

end Codec

namespace Format

/-! ## A raw copy and its checksum -/

/-- A raw copy and behind it a checksum of it, which need not have a name.  The sizes and the
data of the checksum are read by the names of fields before them or of what is outside. -/
structure Resealable (outer : Reach) where
  copy : String
  child : Format
  sum : Option String
  stored : Format
  hash : Hash
  data : Expr
  overwrite : Bool
  plain : Record.isReserved copy = false
  distinct : copy ∉ sum
  rebuildable : child.Rebuildable ([] :: outer)
  isSum : stored.IsSum ([copy] :: outer)
  reads : data.Reads ([copy] :: outer)

namespace Resealable

variable {outer : Reach} (f : Resealable outer)

def sumField : Format := f.sum.elim id named (.checksum f.stored f.hash f.data)

def format : Format := .struct [.named f.copy (.rawCopy f.child), f.sumField] f.overwrite

variable {f}

private theorem codec_sumField (e : Engine) : f.sumField.codec e defs =
    Codec.checksum e ⟨f.stored, f.stored.codec e defs⟩ f.hash f.data := by
  unfold sumField
  cases f.sum <;> rfl

private theorem name?_sumField : f.sumField.name? = f.sum := by
  unfold sumField
  cases f.sum <;> rfl

private theorem isEmbedded_sumField : f.sumField.isEmbedded = false := by
  unfold sumField
  cases f.sum <;> rfl

private theorem digested_of_eval {e : Engine} {covered : List UInt8} {v u : Value} {a b : Nat}
    {path : Path}
    {s s' : State} {digested : List UInt8}
    (ofCopy : f.data = .field f.copy ∨ f.data = .dataOf f.copy)
    (held : Record.get? s.context.innermost f.copy = some (Codec.rawRecord covered v a b))
    (seen : e.eval f.data path s = .ok u s') (isInput : Checksum.input u = .ok digested) :
    digested = covered := by
  rcases ofCopy with own | own
  · have copy : Engine.Sees s (.field f.copy) (Codec.rawRecord covered v a b) :=
      fun r path store => Expr.evaluate_plain r s.context.scope path store f.plain held
    rw [own, e.eval_of_sees copy] at seen
    cases seen
    cases isInput
    rfl
  · have data : Engine.Sees s (.dataOf f.copy) (.bytes covered) := fun r path store =>
      Expr.evaluate_dataOf_of_plain r s.context.scope path store f.plain held rfl
    rw [own, e.eval_of_sees data] at seen
    cases seen
    cases isInput
    rfl

/-! ### The fields of the record -/

/-- What is parsed from the two fields. -/
def record (f : Resealable outer) (copied digest : Value) : Record Value :=
  Record.extend [(f.copy, copied)] (Codec.entryOf f.sum digest)

variable {copied digest : Value}

private theorem get?_record_copy : Record.get? (f.record copied digest) f.copy = some copied := by
  unfold record
  cases own : f.sum with
  | none => exact Record.get?_insert_self [] f.copy copied
  | some name =>
      have other : name ≠ f.copy := fun eq => f.distinct (by rw [own, eq]; rfl)
      exact (Record.get?_insert_of_ne other _ _).trans (Record.get?_insert_self [] f.copy copied)

private theorem get?_record_sum {name : String} (own : name ∈ f.sum) :
    Record.get? (f.record copied digest) name = some digest := by
  unfold record
  rw [Option.mem_def.mp own]
  exact Record.get?_insert_self _ _ _

variable {e : Engine} {defs : Definitions} {path : Path} {ctx : Context} {store : LazyStore}
  {before middle after : List UInt8}

def copyPart (f : Resealable outer) (e : Engine) (defs : Definitions) : Part :=
  ⟨named f.copy (.rawCopy f.child), Codec.rawCopy e ⟨f.child, f.child.codec e defs⟩⟩

def sumPart (f : Resealable outer) (e : Engine) (defs : Definitions) : Part :=
  ⟨f.sumField, Codec.checksum e ⟨f.stored, f.stored.codec e defs⟩ f.hash f.data⟩

private theorem codec_format : f.format.codec e defs =
    Codec.struct e [f.copyPart e defs, f.sumPart e defs] f.overwrite := by
  rw [sumPart, ← codec_sumField]
  rfl

private theorem buildFields_of_copy
    (built : (f.copyPart e defs).codec.build copied (path.member f.copy)
      ⟨.atEnd before, ctx.push (f.record copied digest), store⟩ =
        .ok copied ⟨.atEnd middle, ctx.push (f.record copied digest), store⟩) :
    ∃ u place, Codec.buildFields (f.record copied digest) path
        [f.copyPart e defs, f.sumPart e defs]
        ⟨.atEnd before, ctx.push (f.record copied digest), store⟩ =
      ((f.sumPart e defs).build u place >>= Codec.noteItem (f.sumPart e defs))
        ⟨.atEnd middle, ctx.push (f.record copied digest), store⟩ := by
  have flat : (f.sumPart e defs).format.isEmbedded = false := isEmbedded_sumField
  obtain ⟨u, place, last⟩ := Codec.buildFields_single (f.record copied digest) path flat
    fun name own => ⟨digest, get?_record_sum (name?_sumField (f := f) ▸ own)⟩
  have held : Record.get? (ctx.push (f.record copied digest)).innermost f.copy = some copied :=
    get?_record_copy
  refine ⟨u, place, ?_⟩
  rw [Codec.buildFields_of_held rfl rfl get?_record_copy held built, last]

private theorem noteItem_of_held :
    Codec.noteItem (f.sumPart e defs) digest
        ⟨.atEnd after, ctx.push (f.record copied digest), store⟩ =
      .ok () ⟨.atEnd after, ctx.push (f.record copied digest), store⟩ := by
  have held : (ctx.push (f.record copied digest)).extend (Codec.entryOf f.sum digest) =
      ctx.push (f.record copied digest) := by
    cases own : f.sum with
    | none => rfl
    | some name => exact Context.insert_of_get? (get?_record_sum own)
  rw [Codec.noteItem_apply]
  simp only [sumPart, Part.name?, name?_sumField, held]

private theorem build_of_copy
    (copyBuilt : (f.copyPart e defs).codec.build copied (path.member f.copy)
      ⟨.atEnd before, ctx.push (f.record copied digest), store⟩ =
        .ok copied ⟨.atEnd middle, ctx.push (f.record copied digest), store⟩)
    (sumBuilt : ∀ w place, (f.sumPart e defs).codec.build w place
      ⟨.atEnd middle, ctx.push (f.record copied digest), store⟩ =
        .ok digest ⟨.atEnd after, ctx.push (f.record copied digest), store⟩) :
    (f.format.codec e defs).build (.container (f.record copied digest)) path
      ⟨.atEnd before, ctx, store⟩ =
        .ok (.container (f.record copied digest)) ⟨.atEnd after, ctx, store⟩ := by
  obtain ⟨w, place, fields⟩ := buildFields_of_copy copyBuilt
  rw [Run.bind_of_ok (Part.build_of_ok (sumBuilt w place)), noteItem_of_held] at fields
  rw [codec_format]
  exact Codec.build_struct fields

private theorem refuses_of_copy
    (copyBuilt : (f.copyPart e defs).codec.build copied (path.member f.copy)
      ⟨.atEnd before, ctx.push (f.record copied digest), store⟩ =
        .ok copied ⟨.atEnd middle, ctx.push (f.record copied digest), store⟩)
    (sumRefused : ∀ w place, ∃ failure s', (f.sumPart e defs).codec.build w place
      ⟨.atEnd middle, ctx.push (f.record copied digest), store⟩ = .error failure s') :
    ∃ failure s', (f.format.codec e defs).build (.container (f.record copied digest)) path
      ⟨.atEnd before, ctx, store⟩ = .error failure s' := by
  obtain ⟨w, place, fields⟩ := buildFields_of_copy copyBuilt
  obtain ⟨failure, s', refused⟩ := sumRefused w place
  have failed : (f.sumPart e defs).build w place
      ⟨.atEnd middle, ctx.push (f.record copied digest), store⟩ = .error _ s' :=
    Run.tagged_of_error refused
  rw [Run.bind_of_error failed] at fields
  rw [codec_format]
  exact Codec.refuses_struct fields

/-! ### Parsed and built again -/

/-- The record that was parsed is built into the bytes that it was parsed from if the digest of
the data is of the kind of the field, and refused otherwise. -/
private theorem again_of_parse {m : Medium} {p : Value} {s : State}
    (known : outer.Carries ctx.frames ctx.frames)
    (parsed : (f.format.codec e defs).parse path ⟨.medium m, ctx, store⟩ = .ok p s) :
    ∃ covered v sum rest digest digested, m.rest = covered ++ sum ++ rest ∧
      s = ⟨.medium (m.skip (covered ++ sum).length), ctx, store⟩ ∧
      p = .container (f.record
        (Codec.rawRecord covered v m.pos (m.pos + covered.length)) digest) ∧
      (f.data = .field f.copy ∨ f.data = .dataOf f.copy → digested = covered) ∧
      ∀ (before : List UInt8) (ctx' : Context) (store' : LazyStore) (path' : Path),
        before.length = m.pos → outer.Carries ctx.frames ctx'.frames →
        (f.stored.takes (f.hash digested) = true →
          (f.format.codec e defs).build p path' ⟨.atEnd before, ctx', store'⟩ =
            .ok p ⟨.atEnd (before ++ (covered ++ sum)), ctx', store'⟩) ∧
        (f.stored.takes (f.hash digested) = false → ∃ failure s',
          (f.format.codec e defs).build p path' ⟨.atEnd before, ctx', store'⟩ =
            .error failure s') := by
  rw [codec_format] at parsed
  obtain ⟨⟨_, frame⟩, s₁, framed, run⟩ := Run.bind_eq_ok_iff.mp parsed
  cases run
  obtain ⟨s₂, inside, isFrame, rfl⟩ := Run.ok_of_inFrame framed
  obtain ⟨w, s₃, first, inside⟩ := Codec.first_of_parseFields rfl rfl inside
  obtain ⟨covered, rest, v, next, rfl, rfl, eager, copyAgain⟩ :=
    Codec.rawCopy_again (reproduces_codec e defs f.rebuildable) (known.unread [] []) first
  have stands : (Codec.rawRecord covered v m.pos (m.pos + covered.length)).Eager :=
    ⟨trivial, trivial, eager, trivial, trivial, trivial⟩
  generalize copyIs : Codec.rawRecord covered v m.pos (m.pos + covered.length) = copied at *
  rw [Codec.parseFields_single isEmbedded_sumField] at inside
  obtain ⟨d, s₄, second, noted⟩ := Run.bind_eq_ok_iff.mp inside
  obtain ⟨sum, rest', u, digested, next', rfl, seen, isInput, sumAgain⟩ :=
    checksum_again f.isSum f.reads f.hash ((known.unread [] []).insert f.copy stands)
      (Run.tagged_eq_ok_iff.mp second)
  rw [Codec.noteItem_apply, show (f.sumPart e defs).name? = f.sum from name?_sumField] at noted
  cases noted
  obtain rfl : frame = f.record copied d := isFrame
  have popped : ((((ctx.push []).insert f.copy copied).extend (Codec.entryOf f.sum d)).pop) = ctx :=
    Context.pop_of_kept (((ctx.push []).kept_insert f.copy copied).trans
      (Context.kept_extend _ _))
  rw [Medium.rest_skip next] at next'
  refine ⟨covered, v, sum, rest', d, digested, by rw [next, next', List.append_assoc], ?_,
    by rw [copyIs], fun ofCopy => ?_, fun before ctx' store' path' place carries => ?_⟩
  · rw [popped, Medium.skip_skip, List.length_append]
  · have held : Record.get? ((ctx.push []).insert f.copy copied).innermost f.copy = some copied :=
      Record.get?_insert_self [] f.copy copied
    rw [← copyIs] at held seen
    exact digested_of_eval ofCopy held seen isInput
  · have copyBuilt := copyAgain before (ctx'.push (f.record copied d)) store'
      (path'.member f.copy) place (carries.unread _ _)
    have there : (ctx'.push (f.record copied d)).insert f.copy copied =
        ctx'.push (f.record copied d) := Context.insert_of_get? get?_record_copy
    have later := (carries.unread [] (f.record copied d)).insert f.copy stands
    rw [there] at later
    have reached : (before ++ covered).length = (m.skip covered.length).pos := by
      rw [List.length_append, place, Medium.skip_pos]
    -- Behind the copy, which is built as it was read, it is up to the digest whether the checksum
    -- is.
    have decided (w : Value) (spot : Path) :=
      sumAgain (before ++ covered) _ store' spot w reached later
    rw [← List.append_assoc]
    exact ⟨fun kind => build_of_copy copyBuilt fun w place => (decided w place).1 kind,
      fun other => refuses_of_copy copyBuilt fun w place => (decided w place).2 other⟩

/-- The record that was parsed from a raw copy and its checksum is built again into the bytes that
were parsed, if the digest of the data is of the kind of the field that stores it.  It is not built
at all otherwise, although the checksum was accepted. -/
theorem resealed_of_parseBytes (f : Resealable outer) {input : List UInt8} {params : Record Value}
    {p : Value} {s : State} (known : outer.Carries [params] [params])
    (parsed : f.format.parseBytes (.ofDefinitions defs) params input store = .ok p s) :
    ∃ covered v digest digested, covered <+: input ∧
      p = .container (f.record (Codec.rawRecord covered v 0 covered.length) digest) ∧
      (f.data = .field f.copy ∨ f.data = .dataOf f.copy → digested = covered) ∧
      ∀ store' : LazyStore,
        (f.stored.takes (f.hash digested) = true → ∃ s',
          f.format.buildBytes (.ofDefinitions defs) p params store' = .ok p s' ∧
            s'.stream = .atEnd (input.take s.stream.pos)) ∧
        (f.stored.takes (f.hash digested) = false → ∃ failure s',
          f.format.buildBytes (.ofDefinitions defs) p params store' = .error failure s') := by
  have run : (f.format.codec (inner defs) defs).parse .this
      ⟨.medium ⟨.growing, input, 0⟩, .ofParams params, store⟩ = .ok p s :=
    Run.tagged_eq_ok_iff.mp parsed
  obtain ⟨covered, v, sum, rest, digest, digested, next, rfl, isRecord, ofCopy, again⟩ :=
    again_of_parse known run
  have next : input = covered ++ sum ++ rest := next
  rw [Nat.zero_add] at isRecord
  have taken : input.take (0 + (covered ++ sum).length) = covered ++ sum := by
    rw [Nat.zero_add, next, List.take_left]
  refine ⟨covered, v, digest, digested, ⟨sum ++ rest, by rw [next, List.append_assoc]⟩, isRecord,
    ofCopy, fun store' => ?_⟩
  obtain ⟨same, refused⟩ := again [] (.ofParams params) store' .this rfl known
  refine ⟨fun kind => ⟨_, buildBytes_of_build rfl (same kind), congrArg Stream.atEnd taken.symm⟩,
    fun other => ?_⟩
  obtain ⟨failure, s', failed⟩ := refused other
  exact ⟨_, s', Run.bind_of_error (Run.tagged_of_error failed) _⟩

/-- A counted body and the sum of its bytes. -/
def counted : Resealable [] where
  copy := "body"
  child := .struct [.named "n" (unsigned 1 .big), .named "data" (.bytes (.field "n"))] false
  sum := some "sum"
  stored := unsigned 1 .big
  hash := Checksums.sum
  data := .dataOf "body"
  overwrite := false
  plain := by decide
  distinct := by decide
  rebuildable :=
    ⟨by decide, "n", rfl, trivial, "data", rfl, ⟨by decide, ["n"], rfl, by decide⟩, trivial⟩
  isSum := trivial
  reads := ⟨by decide, ["body"], rfl, by decide⟩

/-- The sum is a number, and is stored in one. -/
theorem resealed_of_parseBytes_counted : ∃ p s s',
    counted.format.parseBytes (.ofDefinitions []) [] [2, 3, 4, 9, 255] .empty = .ok p s ∧
      counted.format.buildBytes (.ofDefinitions []) p [] .empty = .ok p s' ∧
      s'.stream = .atEnd [2, 3, 4, 9] := by
  have run : Run.left? (counted.format.parseBytes (.ofDefinitions []) [] [2, 3, 4, 9, 255]
      .empty) = some ([2, 3, 4, 9, 255], 4) := by
    decide +kernel
  obtain ⟨p, s, parsed, -, pos⟩ := Run.ok_of_left? run
  obtain ⟨covered, v, digest, digested, -, -, -, again⟩ :=
    resealed_of_parseBytes counted trivial parsed
  obtain ⟨s', built, stream⟩ := (again .empty).1 rfl
  exact ⟨p, s, s', parsed, built, by rw [stream, pos]; rfl⟩

/-- Accepted, but not built again: bytes that a number stands for, and a number that bytes stand
for. -/
theorem resealed_other_kind :
    let sealed := fun (stored : Format) (hash : Hash) => Format.struct
      [.named "body" (.rawCopy (unsigned 1 .big)),
        .named "sum" (.checksum stored hash (.dataOf "body"))] false
    ∀ format ∈ [sealed (unsigned 1 .big) Checksums.reversed,
        sealed (.bytes (.const (.int 1))) Checksums.sum],
      Run.yields (format.parseBytes (.ofDefinitions []) [] [5, 5] .empty) (fun p s =>
        decide (s.stream.pos = 2) &&
          decide (Run.left? (format.buildBytes (.ofDefinitions []) p [] .empty) = none)) =
        true := by
  decide +kernel

end Resealable

end Format

end BinaryFormat
