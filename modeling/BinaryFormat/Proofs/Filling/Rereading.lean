import BinaryFormat.Proofs.Filling.Matching
import BinaryFormat.Proofs.Locality

/-!
# Components that are parsed again elsewhere

Without raw copies, which note where they stand, a component of constant size is
parsed from the same bytes as the same value, wherever these are, behind fields
that come to the same.
-/

namespace BinaryFormat

namespace Format

/-! ## Values that are parsed -/

/-- A value of the component without placeholders, and without raw copies. -/
structure Definite (f : Format) (v : Value) : Prop where
  fills : v.FillsTo v
  filled : v.isFilled = true
  shapes : f.Shapes v
  current : ∀ final, f.UpToDate final v

private theorem Definite.of_atom {f : Format} {v : Value} (atom : v.IsAtom) (present : v ≠ .none)
    (nothing : ∀ steps, f.Reaches steps → steps = []) (current : ∀ final, f.UpToDate final v) :
    f.Definite v :=
  ⟨atom.fillsTo, atom.isFilled present, shapes_of_nil nothing v, current⟩

/-- Parsed from some bytes, the component is parsed as the same value wherever they are. -/
def Rereads (e : Engine) (defs : Definitions) (sources : List (Record Format)) (f : Format) :
    Prop :=
  ∀ (m : Medium) (ctx : Context) (store : LazyStore) (path : Path) (v : Value) (s : State),
    (f.codec e defs).parse path ⟨.medium m, ctx, store⟩ = .ok v s →
    ∃ data suffix store', m.rest = data ++ suffix ∧ data.length = f.extent ∧
      s = ⟨.medium (m.skip data.length), ctx, store'⟩ ∧ f.Definite v ∧
      ∀ (m₂ : Medium) (suffix₂ : List UInt8) (ctx₂ : Context) (store₂ : LazyStore) (path₂ : Path),
        m₂.rest = data ++ suffix₂ → Matches sources ctx.frames ctx₂.frames →
        (f.codec e defs).parse path₂ ⟨.medium m₂, ctx₂, store₂⟩ =
          .ok v ⟨.medium (m₂.skip data.length), ctx₂, store₂⟩

variable {e : Engine} {defs : Definitions} {sources : List (Record Format)} {of : Format} {n : Nat}

private theorem reread_of_leaf (leaf : of.Patchable n) {m : Medium} {ctx : Context}
    {store : LazyStore}
    {path : Path} {v : Value} {s : State}
    (run : (of.codec e defs).parse path ⟨.medium m, ctx, store⟩ = .ok v s) :
    ∃ data suffix, m.rest = data ++ suffix ∧ data.length = n ∧
      s = ⟨.medium (m.skip data.length), ctx, store⟩ ∧ v.IsAtom ∧ v ≠ .none ∧
      ∀ (m₂ : Medium) (suffix₂ : List UInt8) (ctx₂ : Context) (store₂ : LazyStore) (path₂ : Path),
        m₂.rest = data ++ suffix₂ →
        (of.codec e defs).parse path₂ ⟨.medium m₂, ctx₂, store₂⟩ =
          .ok v ⟨.medium (m₂.skip data.length), ctx₂, store₂⟩ := by
  cases leaf with
  | integer narrow signed endian =>
      have small : n ≤ Value.maxSize := narrow.trans (by decide)
      simp only [codec, Codec.integer] at run
      rw [Run.bind_of_ok (Codec.evalSize_const e path _ small)] at run
      obtain ⟨_, s₁, checked, run⟩ := Run.bind_eq_ok_iff.mp run
      obtain ⟨valid, rfl⟩ := Run.ofExcept_eq_ok_iff.mp checked
      obtain ⟨data, s₂, taken, run⟩ := Run.bind_eq_ok_iff.mp run
      obtain ⟨enough, rfl, rfl⟩ := Run.read_eq_ok_iff.mp taken
      obtain ⟨k, s₃, decoded, run⟩ := Run.bind_eq_ok_iff.mp run
      obtain ⟨number, rfl⟩ := Run.ofExcept_eq_ok_iff.mp decoded
      cases run
      have length : (m.rest.take n).length = n := List.length_take_of_le enough
      refine ⟨m.rest.take n, m.rest.drop n, (List.take_append_drop n m.rest).symm, length,
        by rw [length], trivial, Value.noConfusion, fun m₂ suffix₂ ctx₂ store₂ path₂ next => ?_⟩
      simp only [codec, Codec.integer]
      rw [Run.bind_of_ok (Codec.evalSize_const e path₂ _ small), valid, Run.bind_ofExcept_ok,
        Run.bind_of_ok (Run.read_of_rest_of_eq next length.symm), number, Run.bind_ofExcept_ok]
      rfl
  | bytes room =>
      simp only [codec, Codec.bytes] at run
      rw [Run.bind_of_ok (Codec.evalSize_const e path _ room)] at run
      obtain ⟨data, s₂, taken, run⟩ := Run.bind_eq_ok_iff.mp run
      obtain ⟨enough, rfl, rfl⟩ := Run.read_eq_ok_iff.mp taken
      cases run
      have length : (m.rest.take n).length = n := List.length_take_of_le enough
      refine ⟨m.rest.take n, m.rest.drop n, (List.take_append_drop n m.rest).symm, length,
        by rw [length], trivial, Value.noConfusion, fun m₂ suffix₂ ctx₂ store₂ path₂ next => ?_⟩
      simp only [codec, Codec.bytes]
      rw [Run.bind_of_ok (Codec.evalSize_const e path₂ _ room),
        Run.bind_of_ok (Run.read_of_rest_of_eq next length.symm)]
      rfl

private theorem rereads_leaf (leaf : of.Patchable n) : of.Rereads e defs sources := by
  intro m ctx store path v s run
  obtain ⟨data, suffix, split, length, rfl, atom, present, again⟩ := reread_of_leaf leaf run
  exact ⟨data, suffix, store, split, length.trans (extent_of_patchable leaf).symm, rfl,
    .of_atom atom present (eq_nil_of_leaf leaf) fun final => upToDate_of_leaf leaf final v,
    fun m₂ suffix₂ ctx₂ store₂ path₂ next _ => again m₂ suffix₂ ctx₂ store₂ path₂ next⟩

private theorem Rereads.named {f : Format} (name : String) (h : f.Rereads e defs sources) :
    (Format.named name f).Rereads e defs sources := by
  intro m ctx store path v s run
  obtain ⟨data, suffix, store', split, length, left, definite, again⟩ :=
    h m ctx store path v s (by simpa only [codec] using run)
  refine ⟨data, suffix, store', split, by simpa only [extent] using length, left,
    ⟨definite.fills, definite.filled, ?_, fun final => ?_⟩, by simpa only [codec] using again⟩
  · simpa only [Shapes, Reaches] using definite.shapes
  · simpa only [UpToDate] using definite.current final

private theorem Rereads.documented {f : Format} (docs : String) (h : f.Rereads e defs sources) :
    (Format.documented docs f).Rereads e defs sources := by
  intro m ctx store path v s run
  obtain ⟨data, suffix, store', split, length, left, definite, again⟩ :=
    h m ctx store path v s (by simpa only [codec] using run)
  refine ⟨data, suffix, store', split, by simpa only [extent] using length, left,
    ⟨definite.fills, definite.filled, ?_, fun final => ?_⟩, by simpa only [codec] using again⟩
  · simpa only [Shapes, Reaches] using definite.shapes
  · simpa only [UpToDate] using definite.current final

private theorem rereads_constant (leaf : of.Patchable n) {value : Value} (atom : value.IsAtom) :
    (constant of value).Rereads e defs sources := by
  intro m ctx store path v s run
  have compared {found : Value} (isAtom : found.IsAtom) (t : State) :
      e.equal found value t = .ok (found.same value) t := by
    have plain : found.isLazy = false := by cases found <;> first | rfl | exact isAtom.elim
    rw [Engine.equal, Run.lookup, e.resolver.equal_atom plain atom]
  simp only [codec, Codec.constant] at run
  obtain ⟨found, s₁, here, run⟩ := Run.bind_eq_ok_iff.mp run
  obtain ⟨data, suffix, split, length, rfl, isAtom, present, again⟩ := reread_of_leaf leaf here
  rw [Run.bind_of_ok (compared isAtom _)] at run
  have equal : found.same value = true := by
    by_contra differs
    simp only [Bool.not_eq_true] at differs
    simp only [differs, Bool.not_false, if_true] at run
    obtain ⟨_, _, -, run⟩ := Run.bind_eq_ok_iff.mp run
    obtain ⟨_, _, -, run⟩ := Run.bind_eq_ok_iff.mp run
    cases run
  simp only [equal, Bool.not_true, Bool.false_eq_true, if_false] at run
  cases run
  refine ⟨data, suffix, store, split, ?_, rfl, .of_atom isAtom present
    (fun names reaches => by simpa only [Reaches] using reaches)
    fun final => by simp only [UpToDate], fun m₂ suffix₂ ctx₂ store₂ path₂ next _ => ?_⟩
  · simp only [extent, length, extent_of_patchable leaf]
  · simp only [codec, Codec.constant]
    rw [Run.bind_of_ok (again m₂ suffix₂ ctx₂ store₂ path₂ next),
      Run.bind_of_ok (compared isAtom _)]
    simp only [equal, Bool.not_true, Bool.false_eq_true, if_false]
    rfl

private theorem rereads_rebuild (leaf : of.Patchable n) (expr : Expr) :
    (rebuild of expr).Rereads e defs sources := by
  intro m ctx store path v s run
  obtain ⟨data, suffix, split, length, rfl, atom, present, again⟩ := reread_of_leaf leaf run
  refine ⟨data, suffix, store, split, ?_, rfl, .of_atom atom present
    (fun names reaches => by simpa only [Reaches] using reaches) fun final => ?_,
    fun m₂ suffix₂ ctx₂ store₂ path₂ next _ => again m₂ suffix₂ ctx₂ store₂ path₂ next⟩
  · simp only [extent, length, extent_of_patchable leaf]
  · simp only [UpToDate]
    exact Or.inr present

private theorem agree_of_atom {stored : Value} (atom : stored.IsAtom) (d : Digest) :
    ∃ agree, ∀ s : State, Codec.digestsAgree e stored d.value s = .ok agree s := by
  have plain : stored.isLazy = false := by cases stored <;> first | rfl | exact atom.elim
  have isAtom : d.value.IsAtom := by cases d <;> exact trivial
  have compared (s : State) : e.equal stored d.value s = .ok (stored.same d.value) s := by
    rw [Engine.equal, Run.lookup, e.resolver.equal_atom plain isAtom]
  cases d with
  | bytes data =>
      cases stored with
      | int k => exact ⟨_, fun _ => rfl⟩
      | bytes | none => exact ⟨_, compared⟩
      | _ => exact atom.elim
  | number k =>
      cases stored with
      | bytes data => exact ⟨_, fun _ => rfl⟩
      | int | none => exact ⟨_, compared⟩
      | _ => exact atom.elim

private theorem rereads_checksum (leaf : of.Patchable n) (hash : Hash) {data : Expr}
    (sighted : Sighted sources data) : (checksum of hash data).Rereads e defs sources := by
  intro m ctx store path v s run
  simp only [codec, Codec.checksum] at run
  obtain ⟨stored, s₁, here, run⟩ := Run.bind_eq_ok_iff.mp run
  obtain ⟨octets, suffix, split, length, rfl, atom, present, again⟩ := reread_of_leaf leaf here
  obtain ⟨x, s₂, seen, run⟩ := Run.bind_eq_ok_iff.mp run
  obtain ⟨digest, s₃, made, run⟩ := Run.bind_eq_ok_iff.mp run
  obtain ⟨digested, rfl⟩ := Run.ofExcept_eq_ok_iff.mp made
  obtain ⟨d, rfl⟩ := Checksum.digest_cases digested
  obtain ⟨agree, agrees⟩ := agree_of_atom (e := e) atom d
  rw [Run.bind_of_ok (agrees _)] at run
  cases agree with
  | false =>
      simp only [Bool.not_false, if_true] at run
      obtain ⟨_, _, -, run⟩ := Run.bind_eq_ok_iff.mp run
      obtain ⟨_, _, -, run⟩ := Run.bind_eq_ok_iff.mp run
      cases run
  | true =>
      cases run
      -- Evaluating changes nothing but lazy members.
      rw [Engine.eval_apply, Run.lookup] at seen
      dsimp only at seen
      cases computed : data.evaluate e.resolver ctx.scope path store with
      | error failure store' =>
          rw [computed] at seen
          cases seen
      | ok x' store' =>
          rw [computed] at seen
          cases seen
          refine ⟨octets, suffix, store', split, ?_, rfl, .of_atom atom present
            (fun names reaches => by simpa only [Reaches] using reaches)
            fun final => by simp only [UpToDate],
            fun m₂ suffix₂ ctx₂ store₂ path₂ next same => ?_⟩
          · simp only [extent, length, extent_of_patchable leaf]
          obtain ⟨x', y, yields, yields', fills⟩ := sighted.filled _ _ same
          obtain rfl : x = x' := by
            have twice := computed.symm.trans (yields e.resolver path store)
            cases twice
            rfl
          have sees : Engine.Sees ⟨.medium (m₂.skip octets.length), ctx₂, store₂⟩ data y := yields'
          simp only [codec, Codec.checksum]
          rw [Run.bind_of_ok (again m₂ suffix₂ ctx₂ store₂ path₂ next),
            Run.bind_of_ok (e.eval_of_sees sees), Checksum.digest_of_fillsTo fills digested,
            Run.bind_ofExcept_ok, Run.bind_of_ok (agrees _)]
          rfl

/-! ## Fields -/

private theorem exists_of_mem_fieldNames {fs : List Format} {key : String}
    (h : key ∈ fieldNames fs) :
    ∃ f ∈ fs, f.name? = some key := by
  simpa only [fieldNames, List.mem_filterMap] using h

private theorem exists_of_fieldReaches {fs : List Format} {key : String} {steps : List Value.Step}
    (h : FieldReaches fs key steps) : ∃ f ∈ fs, f.name? = some key ∧ f.Reaches steps := by
  induction fs with
  | nil => simp only [FieldReaches] at h
  | cons f rest ih =>
      simp only [FieldReaches] at h
      rcases h with ⟨own, reaches⟩ | later
      · exact ⟨f, List.mem_cons_self, own, reaches⟩
      · obtain ⟨g, mem, found⟩ := ih later
        exact ⟨g, List.mem_cons_of_mem f mem, found⟩

private theorem fieldsUpToDate {final : List UInt8} {record : Record Value} {fs : List Format}
    (h : ∀ f ∈ fs, ∀ name w, f.name? = some name → Record.get? record name = some w →
      f.UpToDate final w) : FieldsUpToDate final fs record := by
  induction fs with
  | nil => simp only [FieldsUpToDate]
  | cons f rest ih =>
      simp only [FieldsUpToDate]
      exact ⟨h f List.mem_cons_self, ih fun g mem => h g (List.mem_cons_of_mem f mem)⟩

/-- Fields that have been parsed into the innermost frame. -/
structure Regathered (fs : List Format) (ctx ctx' : Context) : Prop where
  kept : ctx.Kept ctx'
  distinct : (Record.keys ctx.innermost).Nodup → (Record.keys ctx'.innermost).Nodup
  others : ∀ key ∉ fieldNames fs, Record.get? ctx'.innermost key = Record.get? ctx.innermost key
  shows : ∀ f ∈ fs, ∀ name, f.name? = some name →
    ∃ v, Record.get? ctx'.innermost name = some v ∧ f.Definite v

/-- Fields are parsed from the same bytes as the same values, into another frame as well. -/
def FieldsReread (e : Engine) (defs : Definitions) (sources : List (Record Format))
    (front : Record Format) (fs : List Format) : Prop :=
  ∀ (overwrite : Bool) (m : Medium) (ctx : Context) (store : LazyStore) (path : Path) (s : State),
    Codec.parseFields overwrite false path (parts e defs fs) ⟨.medium m, ctx, store⟩ = .ok () s →
    ∃ data suffix ctx' store', m.rest = data ++ suffix ∧ data.length = extents fs ∧
      s = ⟨.medium (m.skip data.length), ctx', store'⟩ ∧ Regathered fs ctx ctx' ∧
      ∀ (m₂ : Medium) (suffix₂ : List UInt8) (ctx₂ : Context) (store₂ : LazyStore) (path₂ : Path),
        m₂.rest = data ++ suffix₂ → Matches (front :: sources) ctx.frames ctx₂.frames →
        ∃ ctx₃, Codec.parseFields overwrite false path₂ (parts e defs fs)
            ⟨.medium m₂, ctx₂, store₂⟩ = .ok () ⟨.medium (m₂.skip data.length), ctx₃, store₂⟩ ∧
          ctx₂.Kept ctx₃ ∧ (ctx₂.innermost = ctx.innermost → ctx₃.innermost = ctx'.innermost)

variable {front : Record Format} {f : Format} {rest : List Format}

private theorem FieldsReread.nil : FieldsReread e defs sources front [] := by
  intro overwrite m ctx store path s run
  cases run
  exact ⟨[], m.rest, ctx, store, rfl, rfl, rfl, ⟨.refl ctx, id, fun _ _ => rfl, nofun⟩,
    fun m₂ suffix₂ ctx₂ store₂ path₂ _ _ => ⟨ctx₂, rfl, .refl ctx₂, id⟩⟩

theorem parseFields_cons_iff {overwrite : Bool} {path : Path} {s s' : State}
    (flat : f.isEmbedded = false) :
    Codec.parseFields overwrite false path (parts e defs (f :: rest)) s = .ok () s' ↔
      ∃ p s₁, (f.codec e defs).parse (path.memberIf f.name?) s = .ok p s₁ ∧
        Codec.parseFields overwrite false path (parts e defs rest)
          { s₁ with context := s₁.context.noting f.name? p } = .ok () s' := by
  have flat : (⟨f, f.codec e defs⟩ : Part).format.isEmbedded = false := flat
  rw [parts, Codec.parseFields]
  simp only [flat, Bool.false_eq_true, if_false]
  cases own : f.name? with
  | some name =>
      have labelled : (⟨f, f.codec e defs⟩ : Part).name? = some name := own
      simp only [labelled]
      constructor
      · intro run
        obtain ⟨p, s₁, here, later⟩ := Run.bind_eq_ok_iff.mp run
        exact ⟨p, s₁, Run.tagged_eq_ok_iff.mp here, later⟩
      · rintro ⟨p, s₁, here, later⟩
        have parsed : (⟨f, f.codec e defs⟩ : Part).parse (path.member name) s = .ok p s₁ :=
          Part.parse_of_ok here
        rw [Run.bind_of_ok parsed]
        exact later
  | none =>
      have unlabelled : (⟨f, f.codec e defs⟩ : Part).name? = none := own
      simp only [unlabelled]
      constructor
      · intro run
        obtain ⟨p, s₁, here, later⟩ := Run.bind_eq_ok_iff.mp run
        exact ⟨p, s₁, Run.tagged_eq_ok_iff.mp here, later⟩
      · rintro ⟨p, s₁, here, later⟩
        have parsed : (⟨f, f.codec e defs⟩ : Part).parse path s = .ok p s₁ :=
          Part.parse_of_ok here
        rw [Run.bind_of_ok parsed]
        exact later

private theorem FieldsReread.cons (flat : f.isEmbedded = false)
    (distinct : (fieldNames (f :: rest)).Nodup) (head : f.Rereads e defs (front :: sources))
    (tail : FieldsReread e defs sources (f.note front) rest) :
    FieldsReread e defs sources front (f :: rest) := by
  intro overwrite m ctx store path s run
  obtain ⟨-, fresh⟩ := distinct_rest distinct
  obtain ⟨v, s₁, here, later⟩ := (parseFields_cons_iff flat).mp run
  obtain ⟨data, suffix, store₁, split, length, rfl, definite, again⟩ := head m ctx store _ v s₁ here
  obtain ⟨data', suffix', ctx', store', split', length', rfl, gathered, again'⟩ :=
    tail _ _ _ _ _ _ later
  have skipped := Medium.rest_skip split
  refine ⟨data ++ data', suffix', ctx', store', ?_, ?_, ?_, ?_, ?_⟩
  · rw [split, ← skipped, split', List.append_assoc]
  · rw [List.length_append, length, length', extents]
  · rw [Medium.skip_skip, List.length_append]
  · refine ⟨(ctx.kept_noting f.name? v).trans gathered.kept,
      fun start => gathered.distinct (Context.distinct_noting f.name? v start),
      fun key absent => ?_, fun g mem name own => ?_⟩
    · obtain ⟨other, absent⟩ := not_or.mp (mt mem_fieldNames_cons.mpr absent)
      exact (gathered.others key absent).trans (Context.get?_noting other)
    · rcases List.mem_cons.mp mem with rfl | mem
      · refine ⟨v, ?_, definite⟩
        rw [gathered.others name (fresh name own), own]
        exact Record.get?_insert_self _ _ _
      · exact gathered.shows g mem name own
  · intro m₂ suffix₂ ctx₂ store₂ path₂ next same
    rw [List.append_assoc] at next
    have first := again m₂ _ ctx₂ store₂ (path₂.memberIf f.name?) next same
    obtain ⟨ctx₃, others, kept, frame⟩ := again' (m₂.skip data.length) suffix₂
      (ctx₂.noting f.name? v) store₂ path₂ (Medium.rest_skip next)
      (same.note definite.fills definite.shapes)
    rw [Medium.skip_skip, ← List.length_append] at others
    refine ⟨ctx₃, (parseFields_cons_iff flat).mpr ⟨v, _, first, others⟩,
      (ctx₂.kept_noting f.name? v).trans kept, fun equal => frame ?_⟩
    unfold Context.noting
    cases f.name? with
    | none => exact equal
    | some name => exact congrArg (fun frame => Record.insert frame name v) equal

private theorem rereads_struct {fields : List Format} {overwrite : Bool}
    (inner : FieldsReread e defs sources [] fields) :
    (struct fields overwrite).Rereads e defs sources := by
  intro m ctx store path v s run
  obtain ⟨⟨_, frame⟩, s₁, framed, run⟩ := Run.bind_eq_ok_iff.mp run
  obtain ⟨rfl, rfl⟩ := Run.pure_eq_ok_iff.mp run
  obtain ⟨s₂, inside, isFrame, rfl⟩ := Run.ok_of_inFrame framed
  obtain ⟨data, suffix, ctx', store', split, length, rfl, gathered, again⟩ :=
    inner overwrite m (ctx.push []) store path s₂ inside
  dsimp only at isFrame
  subst isFrame
  -- Every field has noted a value without placeholders, and there are no other entries.
  have shows (key : String) (mem : key ∈ fieldNames fields) :
      ∃ f ∈ fields, f.name? = some key ∧
        ∃ v, Record.get? ctx'.innermost key = some v ∧ f.Definite v := by
    obtain ⟨f, listed, own⟩ := exists_of_mem_fieldNames mem
    exact ⟨f, listed, own, gathered.shows f listed key own⟩
  have unique : (Record.keys ctx'.innermost).Nodup := gathered.distinct List.nodup_nil
  refine ⟨data, suffix, store', split, by simpa only [extent] using length, ?_,
    ⟨?_, ?_, ?_, fun final => ?_⟩, ?_⟩
  · rw [Context.pop_of_kept gathered.kept]
  · refine Value.fillsTo_container unique unique fun key _ => ?_
    by_cases mine : key ∈ fieldNames fields
    · obtain ⟨f, _, _, v, found, definite⟩ := shows key mine
      exact Or.inr ⟨v, v, found, found, definite.fills⟩
    · exact Or.inl ⟨gathered.others key mine, gathered.others key mine⟩
  · simp only [Value.isFilled]
    refine Value.haveFilled_iff.mpr fun key w mem _ => ?_
    have found := Record.get?_eq_some_of_mem unique mem
    by_cases mine : key ∈ fieldNames fields
    · obtain ⟨f, _, _, v, found', definite⟩ := shows key mine
      obtain rfl := Option.some.inj (found.symm.trans found')
      exact definite.filled
    · cases found.symm.trans (gathered.others key mine)
  · intro names reaches
    simp only [Reaches] at reaches
    rcases reaches with rfl | ⟨name, rest, rfl, reaches⟩
    · exact ⟨_, rfl⟩
    · obtain ⟨f, mem, own, reaches⟩ := exists_of_fieldReaches reaches
      obtain ⟨v, found, definite⟩ := gathered.shows f mem name own
      obtain ⟨x, reached⟩ := definite.shapes rest reaches
      exact ⟨x, Option.bind_eq_some_iff.mpr ⟨v, found, reached⟩⟩
  · simp only [UpToDate]
    rintro _ ⟨⟩
    refine fieldsUpToDate fun f mem name w own found => ?_
    obtain ⟨v, found', definite⟩ := gathered.shows f mem name own
    obtain rfl := Option.some.inj (found.symm.trans found')
    exact definite.current final
  · intro m₂ suffix₂ ctx₂ store₂ path₂ next same
    obtain ⟨ctx₃, parsed, kept, frame⟩ := again m₂ suffix₂ (ctx₂.push []) store₂ path₂ next
      (same.push [] [])
    have framed : Run.inFrame [] (Codec.parseFields overwrite false path₂ (parts e defs fields))
        ⟨.medium m₂, ctx₂, store₂⟩ = .ok ((), ctx₃.innermost) _ := Run.inFrame_of_ok parsed
    rw [Context.pop_of_kept kept, frame rfl] at framed
    simp only [codec, Codec.struct]
    rw [Run.bind_of_ok framed]
    rfl

/-! ## Items -/

/-- Items are parsed from the same bytes as the same values, into another frame as well. -/
def ItemsReread (e : Engine) (defs : Definitions) (sources : List (Record Format))
    (front : Record Format) (items : List Format) : Prop :=
  ∀ (i : Nat) (m : Medium) (ctx : Context) (store : LazyStore) (path : Path) (vs : List Value)
    (s : State),
    Codec.parseItems path i (parts e defs items) ⟨.medium m, ctx, store⟩ = .ok vs s →
    ∃ data suffix ctx' store', m.rest = data ++ suffix ∧ data.length = extents items ∧
      s = ⟨.medium (m.skip data.length), ctx', store'⟩ ∧ ctx.Kept ctx' ∧
      List.Forall₂ Definite items vs ∧
      ∀ (m₂ : Medium) (suffix₂ : List UInt8) (ctx₂ : Context) (store₂ : LazyStore) (path₂ : Path),
        m₂.rest = data ++ suffix₂ → Matches (front :: sources) ctx.frames ctx₂.frames →
        ∃ ctx₃, Codec.parseItems path₂ i (parts e defs items) ⟨.medium m₂, ctx₂, store₂⟩ =
          .ok vs ⟨.medium (m₂.skip data.length), ctx₃, store₂⟩ ∧ ctx₂.Kept ctx₃

private theorem ItemsReread.nil : ItemsReread e defs sources front [] := by
  intro i m ctx store path vs s run
  cases run
  exact ⟨[], m.rest, ctx, store, rfl, rfl, rfl, .refl ctx, .nil,
    fun m₂ suffix₂ ctx₂ store₂ path₂ _ _ => ⟨ctx₂, rfl, .refl ctx₂⟩⟩

theorem noteItem_noting (c : Codec) (v : Value) (s : State) :
    Codec.noteItem ⟨f, c⟩ v s = .ok () { s with context := s.context.noting f.name? v } := by
  rw [Codec.noteItem, show (⟨f, c⟩ : Part).name? = f.name? from rfl]
  cases f.name? <;> rfl

private theorem ItemsReread.cons (head : f.Rereads e defs (front :: sources))
    (tail : ItemsReread e defs sources (f.note front) rest) :
    ItemsReread e defs sources front (f :: rest) := by
  intro i m ctx store path vs s run
  rw [parts, Codec.parseItems] at run
  obtain ⟨v, s₁, here, run⟩ := Run.bind_eq_ok_iff.mp run
  obtain ⟨data, suffix, store₁, split, length, rfl, definite, again⟩ :=
    head m ctx store _ v s₁ (Run.tagged_eq_ok_iff.mp here)
  rw [Run.bind_of_ok (noteItem_noting _ v _)] at run
  obtain ⟨others, s₂, later, run⟩ := Run.bind_eq_ok_iff.mp run
  cases run
  obtain ⟨data', suffix', ctx', store', split', length', rfl, kept, definite', again'⟩ :=
    tail _ _ _ _ _ _ _ later
  have skipped := Medium.rest_skip split
  refine ⟨data ++ data', suffix', ctx', store', ?_, ?_, ?_,
    (ctx.kept_noting f.name? v).trans kept, .cons definite definite', ?_⟩
  · rw [split, ← skipped, split', List.append_assoc]
  · rw [List.length_append, length, length', extents]
  · rw [Medium.skip_skip, List.length_append]
  · intro m₂ suffix₂ ctx₂ store₂ path₂ next same
    rw [List.append_assoc] at next
    have first := again m₂ _ ctx₂ store₂ (path₂.item f.name? i) next same
    obtain ⟨ctx₃, parsed, kept'⟩ := again' (m₂.skip data.length) suffix₂
      (ctx₂.noting f.name? v) store₂ path₂ (Medium.rest_skip next)
      (same.note definite.fills definite.shapes)
    rw [Medium.skip_skip, ← List.length_append] at parsed
    refine ⟨ctx₃, ?_, (ctx₂.kept_noting f.name? v).trans kept'⟩
    have first' : (⟨f, f.codec e defs⟩ : Part).parse (path₂.item f.name? i)
        ⟨.medium m₂, ctx₂, store₂⟩ = .ok v _ := Part.parse_of_ok first
    rw [parts, Codec.parseItems, show (⟨f, f.codec e defs⟩ : Part).name? = f.name? from rfl,
      Run.bind_of_ok first', Run.bind_of_ok (noteItem_noting _ v _), Run.bind_of_ok parsed]
    rfl

private theorem definite_items {items : List Format} {vs : List Value}
    (h : List.Forall₂ Definite items vs) : Value.FillsToItems vs vs ∧ Value.areFilled vs = true ∧
      ∀ final, ItemsUpToDate final items vs := by
  induction h with
  | nil => simp [Value.FillsToItems, Value.areFilled, ItemsUpToDate]
  | cons here _ ih =>
      obtain ⟨fills, filled, current⟩ := ih
      simp only [Value.FillsToItems, Value.areFilled, ItemsUpToDate, here.filled, filled,
        Bool.and_self]
      exact ⟨⟨here.fills, fills⟩, trivial, fun final => ⟨here.current final, current final⟩⟩

private theorem definite_item {items : List Format} {vs : List Value}
    (h : List.Forall₂ Definite items vs)
    {i : Nat} {f : Format} (at_i : items[i]? = some f) :
    ∃ v, vs[i]? = some v ∧ f.Definite v := by
  induction h generalizing i with
  | nil => cases at_i
  | cons here _ ih =>
      cases i with
      | zero =>
          cases at_i
          exact ⟨_, rfl, here⟩
      | succ i => exact ih at_i

private theorem reread_of_items {items : List Format} (inner : ItemsReread e defs sources [] items)
    {m : Medium} {ctx : Context} {store : LazyStore} {path : Path}
    {result : List Value × Record Value} {s : State}
    (run : Run.inFrame [] (Codec.parseItems path 0 (parts e defs items)) ⟨.medium m, ctx, store⟩ =
      .ok result s) :
    ∃ data suffix store', m.rest = data ++ suffix ∧ data.length = extents items ∧
      s = ⟨.medium (m.skip data.length), ctx, store'⟩ ∧ List.Forall₂ Definite items result.1 ∧
      ∀ (m₂ : Medium) (suffix₂ : List UInt8) (ctx₂ : Context) (store₂ : LazyStore) (path₂ : Path),
        m₂.rest = data ++ suffix₂ → Matches sources ctx.frames ctx₂.frames →
        ∃ frame, Run.inFrame [] (Codec.parseItems path₂ 0 (parts e defs items))
          ⟨.medium m₂, ctx₂, store₂⟩ =
            .ok (result.1, frame) ⟨.medium (m₂.skip data.length), ctx₂, store₂⟩ := by
  obtain ⟨s₁, inside, -, rfl⟩ := Run.ok_of_inFrame run
  obtain ⟨data, suffix, ctx', store', split, length, rfl, kept, definite, again⟩ :=
    inner 0 m (ctx.push []) store path _ s₁ inside
  refine ⟨data, suffix, store', split, length, by rw [Context.pop_of_kept kept], definite,
    fun m₂ suffix₂ ctx₂ store₂ path₂ next same => ?_⟩
  obtain ⟨ctx₃, parsed, kept'⟩ := again m₂ suffix₂ (ctx₂.push []) store₂ path₂ next
    (same.push [] [])
  have framed : Run.inFrame [] (Codec.parseItems path₂ 0 (parts e defs items))
      ⟨.medium m₂, ctx₂, store₂⟩ = .ok (result.1, ctx₃.innermost) _ := Run.inFrame_of_ok parsed
  rw [Context.pop_of_kept kept'] at framed
  exact ⟨ctx₃.innermost, framed⟩

private theorem rereads_sequence {items : List Format}
    (inner : ItemsReread e defs sources [] items) :
    (sequence items).Rereads e defs sources := by
  intro m ctx store path v s run
  obtain ⟨⟨vs, frame⟩, s₁, framed, run⟩ := Run.bind_eq_ok_iff.mp run
  obtain ⟨rfl, rfl⟩ := Run.pure_eq_ok_iff.mp run
  obtain ⟨data, suffix, store', split, length, rfl, definite, again⟩ := reread_of_items inner framed
  obtain ⟨fills, filled, current⟩ := definite_items definite
  refine ⟨data, suffix, store', split, by simpa only [extent] using length, rfl,
    ⟨by simpa only [Value.FillsTo] using fills, by simpa only [Value.isFilled] using filled,
      shapes_of_items fun i f at_i => ?_, fun final => ?_⟩,
    fun m₂ suffix₂ ctx₂ store₂ path₂ next same => ?_⟩
  · obtain ⟨v, found, whole⟩ := definite_item definite at_i
    exact ⟨v, found, whole.shapes⟩
  · simp only [UpToDate]
    rintro _ ⟨⟩
    exact current final
  · obtain ⟨frame', parsed⟩ := again m₂ suffix₂ ctx₂ store₂ path₂ next same
    simp only [codec, Codec.sequence]
    rw [Run.bind_of_ok parsed]
    rfl

private theorem rereads_focused {focus : Selector} {items : List Format}
    (inner : ItemsReread e defs sources [] items) :
    (focused focus items).Rereads e defs sources := by
  intro m ctx store path v s run
  obtain ⟨i, s₁, chosen, run⟩ := Run.bind_eq_ok_iff.mp run
  obtain ⟨at_focus, rfl⟩ := focusIndex_eq_ok_iff.mp chosen
  obtain ⟨⟨vs, frame⟩, s₂, framed, run⟩ := Run.bind_eq_ok_iff.mp run
  obtain ⟨rfl, rfl⟩ := Run.pure_eq_ok_iff.mp run
  obtain ⟨data, suffix, store', split, length, rfl, definite, again⟩ := reread_of_items inner framed
  obtain ⟨f, at_i⟩ := exists_of_position? at_focus
  obtain ⟨v, found, whole⟩ := definite_item definite at_i
  have shown : vs.getD i .none = v := by rw [List.getD_eq_getElem?_getD, found]; rfl
  rw [shown]
  refine ⟨data, suffix, store', split, by simpa only [extent] using length, rfl,
    ⟨whole.fills, whole.filled, ?_, fun final => ?_⟩,
    fun m₂ suffix₂ ctx₂ store₂ path₂ next same => ?_⟩
  · intro names reaches
    simp only [Reaches] at reaches
    rcases reaches with rfl | ⟨j, at_j, reaches⟩
    · exact ⟨_, rfl⟩
    · obtain rfl : i = j := Option.some.inj (at_focus.symm.trans at_j)
      obtain ⟨g, at_i', reaches⟩ := exists_of_itemReaches reaches
      obtain rfl := Option.some.inj (at_i.symm.trans at_i')
      exact whole.shapes names reaches
  · simp only [UpToDate]
    intro j at_j
    obtain rfl : i = j := Option.some.inj (at_focus.symm.trans at_j)
    exact (itemUpToDate_iff at_i).mpr (whole.current final)
  · obtain ⟨frame', parsed⟩ := again m₂ suffix₂ ctx₂ store₂ path₂ next same
    simp only [codec, Codec.focused]
    rw [Run.bind_of_ok (focusIndex_eq_ok_iff.mpr ⟨at_focus, rfl⟩), Run.bind_of_ok parsed]
    exact congrArg (fun v => EStateM.Result.ok v _) shown

/-! ## Formats -/

mutual

/-- A component without raw copies is parsed again elsewhere. -/
theorem rereads_codec {visible : Bool} {path : Path} {sources : List (Record Format)} :
    ∀ f : Format, f.Framed visible path sources → f.isCopyless = true →
      f.Rereads e defs sources := by
  intro f framed copyless
  cases f with
  | integer width signed endian =>
      simp only [Framed] at framed
      obtain ⟨n, leaf⟩ := framed
      exact rereads_leaf leaf
  | bytes length =>
      simp only [Framed] at framed
      obtain ⟨n, leaf⟩ := framed
      exact rereads_leaf leaf
  | constant of value =>
      simp only [Framed] at framed
      obtain ⟨⟨n, leaf⟩, atom, -⟩ := framed
      exact rereads_constant leaf atom
  | rebuild of expr =>
      simp only [Framed] at framed
      obtain ⟨⟨n, leaf⟩, -⟩ := framed
      exact rereads_rebuild leaf expr
  | checksum of hash data =>
      simp only [Framed] at framed
      obtain ⟨⟨n, leaf⟩, sighted⟩ := framed
      exact rereads_checksum leaf hash sighted
  | named name of =>
      simp only [Framed] at framed
      simp only [isCopyless] at copyless
      exact (rereads_codec of framed copyless).named name
  | documented docs of =>
      simp only [Framed] at framed
      simp only [isCopyless] at copyless
      exact (rereads_codec of framed copyless).documented docs
  | rawCopy of => simp only [isCopyless, Bool.false_eq_true] at copyless
  | struct fields overwrite =>
      simp only [Framed] at framed
      simp only [isCopyless] at copyless
      exact rereads_struct (rereads_fields fields framed.1 framed.2 copyless)
  | sequence items =>
      simp only [Framed] at framed
      simp only [isCopyless] at copyless
      exact rereads_sequence (rereads_items items framed copyless)
  | focused focus items =>
      simp only [Framed] at framed
      simp only [isCopyless] at copyless
      exact rereads_focused (rereads_items items framed copyless)
  | _ => simp only [Framed] at framed

theorem rereads_fields {visible : Bool} {path : Path} {names : List String}
    {sources : List (Record Format)} {front : Record Format} : ∀ fields : List Format,
      (fieldNames fields).Nodup → FramedFields visible path names sources front fields →
      areCopyless fields = true → FieldsReread e defs sources front fields
  | [], _, _, _ => .nil
  | f :: rest, distinct, framed, copyless => by
      simp only [FramedFields] at framed
      simp only [areCopyless, Bool.and_eq_true] at copyless
      exact .cons (flat_of_framed framed.1) distinct (rereads_codec f framed.1 copyless.1)
        (rereads_fields rest (distinct_rest distinct).1 framed.2.2 copyless.2)

theorem rereads_items {visible : Nat → Bool} {path : Path} {sources : List (Record Format)}
    {front : Record Format} {i : Nat} : ∀ items : List Format,
      FramedItems visible path sources front i items → areCopyless items = true →
      ItemsReread e defs sources front items
  | [], _, _ => .nil
  | f :: rest, framed, copyless => by
      simp only [FramedItems] at framed
      simp only [areCopyless, Bool.and_eq_true] at copyless
      exact .cons (rereads_codec f framed.1 copyless.1) (rereads_items rest framed.2 copyless.2)

end

end Format

end BinaryFormat
