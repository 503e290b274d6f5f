import BinaryFormat.Format.Checksums
import BinaryFormat.Proofs.Legible

/-!
# Structures that are sealed by a checksum

A structure holds a raw copy and a checksum of the bytes that the copy occupies.
Behind the copy the checksum is computed from what was just built, so that the
bytes are accepted when they are parsed.  In front of the copy it is patched in
once the copy was built, unless the input brings bytes of its own for the copy;
such a structure cannot be parsed at all.
-/

namespace BinaryFormat

namespace Format

/-! ## Sealed structures -/

/-- The fields of a structure that holds a raw copy and a checksum of its bytes.  The copy is of
integers, byte strings and structures of them; the other fields are any that are read back. -/
structure Sealed (defs : Definitions) where
  copy : String
  child : Format
  sum : Option String
  stored : Format
  hash : Hash
  before : List Format
  between : List Format
  behind : List Format
  overwrite : Bool
  shown : Record.isPrivate copy = false
  rigidChild : child.Rigid
  verifiedBefore : ∀ e, ∀ p ∈ parts e defs before, p.Verifies
  verifiedBetween : ∀ e, ∀ p ∈ parts e defs between, p.Verifies
  verifiedBehind : ∀ e, ∀ p ∈ parts e defs behind, p.Verifies
  distinct : (copy :: (sum.toList ++ (fieldNames before ++
    (fieldNames between ++ fieldNames behind)))).Nodup

namespace Sealed

variable {defs : Definitions} (f : Sealed defs)

def copyField : Format := .named f.copy (.rawCopy f.child)

def sumField : Format :=
  f.sum.elim id named (.checksum f.stored f.hash (.dataOf f.copy))

/-- The checksum is behind the copy. -/
def trailing : Format :=
  .struct (f.before ++ f.copyField :: (f.between ++ f.sumField :: f.behind)) f.overwrite

/-- The checksum is in front of the copy. -/
def leading : Format :=
  .struct (f.before ++ f.sumField :: (f.between ++ f.copyField :: f.behind)) f.overwrite

variable {f}

private theorem codec_sumField (e : Engine) :
    f.sumField.codec e defs =
      Codec.checksum e ⟨f.stored, f.stored.codec e defs⟩ f.hash (.dataOf f.copy) := by
  cases sum : f.sum <;> simp only [sumField, sum] <;> rfl

private theorem name?_sumField : f.sumField.name? = f.sum := by
  cases sum : f.sum <;> simp only [sumField, sum] <;> rfl

private theorem isEmbedded_sumField : f.sumField.isEmbedded = false := by
  cases sum : f.sum <;> simp only [sumField, sum] <;> rfl

/-- Bytes that a structure with the checksum behind the copy accepts. -/
structure Accepts (f : Sealed defs) (e : Engine)
    (front covered middle sum back : List UInt8) : Prop where
  before : Codec.Legible (parts e defs f.before) front
  copy : ∃ v, (f.child.codec e defs).Reads false .nothing v covered
  between : Codec.Legible (parts e defs f.between) middle
  sum : (f.stored.codec e defs).Holds e sum (f.hash covered).value
  behind : Codec.Legible (parts e defs f.behind) back

/-- A frame in which the raw copy holds these bytes. -/
def Copied (f : Sealed defs) (covered : List UInt8) (frame : Record Value) : Prop :=
  ∃ fields, Record.get? frame f.copy = some (.container fields) ∧
    Record.get? fields "data" = some (.bytes covered)

private theorem takes_copy {e : Engine} {v : Value} {covered : List UInt8}
    (reads : (f.child.codec e defs).Reads false .nothing v covered) :
    Codec.Takes f.overwrite [⟨f.copyField, f.copyField.codec e defs⟩] covered (fun _ => True)
      (f.Copied covered) := by
  refine Codec.takes_field rfl (fun m suffix ctx store place next _ => ?_) f.overwrite
  obtain ⟨p, ctx', parsed, quiet, -⟩ := Codec.parse_rawCopy (e := e)
    ⟨f.child, f.child.codec e defs⟩ place store reads next
    (by simp) (Surroundings.held_nothing ctx)
  refine ⟨_, ctx', parsed, quiet, nofun, fun name own => ?_⟩
  obtain rfl : f.copy = name := Option.some.inj own
  exact ⟨_, Record.get?_insert_self _ _ _, rfl⟩

private theorem takes_sum {e : Engine} {covered sum : List UInt8}
    (holds : (f.stored.codec e defs).Holds e sum (f.hash covered).value) :
    Codec.Takes f.overwrite [⟨f.sumField, f.sumField.codec e defs⟩] sum (f.Copied covered)
      (fun _ => True) := by
  refine Codec.takes_field f.isEmbedded_sumField
    (fun m suffix ctx store place next copied => ?_) f.overwrite
  obtain ⟨fields, copy, data⟩ := copied
  rw [codec_sumField]
  obtain ⟨p, ctx', parsed, quiet⟩ := Codec.parse_checksum
    ⟨f.stored, f.stored.codec e defs⟩ (.dataOf f.copy) store place holds next
    fun ctx' quiet =>
      Expr.evaluate_dataOf f.shown ((quiet.shown _ f.shown).trans copy) data
  exact ⟨p, ctx', parsed, quiet, fun _ => trivial, fun _ _ => trivial⟩

private theorem Accepts.takes {e : Engine} {front covered middle sum back : List UInt8}
    (accepts : f.Accepts e front covered middle sum back) :
    Codec.Takes f.overwrite
      (parts e defs (f.before ++ f.copyField :: (f.between ++ f.sumField :: f.behind)))
      (front ++ (covered ++ (middle ++ (sum ++ back)))) (fun _ => True) fun _ => True := by
  have distinct := f.distinct
  simp only [List.nodup_cons, List.nodup_append, List.mem_append, not_or] at distinct
  obtain ⟨⟨-, -, apart, -⟩, -, ⟨own, ⟨own', own'', -⟩, -⟩, -⟩ := distinct
  rw [← names_parts e defs] at own own' own'' apart
  obtain ⟨v, reads⟩ := accepts.copy
  rw [parts_append, parts, parts_append, parts]
  refine (Codec.takes_of_legible accepts.before own f.overwrite fun _ _ _ h => h).append
    ((takes_copy reads).append ((Codec.takes_of_legible accepts.between own' f.overwrite
      fun frame frame' same copied => ?_).append ((takes_sum accepts.sum).append
        (Codec.takes_of_legible accepts.behind own'' f.overwrite fun _ _ _ h => h))))
  obtain ⟨fields, copy, data⟩ := copied
  exact ⟨fields, (same _ apart f.shown).trans copy, data⟩

/-! ## Building -/

section

variable {width : Nat} {e : Engine} {input given : Record Value}
  {path : Path} {start : List UInt8} {ctx : Context} {store : LazyStore} {rest : List Part}
  {s : State}

private theorem build_copy {u : Value} (copy : Record.get? input f.copy = some (.container given))
    (value : Record.get? given "value" = some u) (present : u.isNone = false)
    (built : Codec.buildFields input path (⟨f.copyField, f.copyField.codec e defs⟩ :: rest)
      ⟨.atEnd start, ctx, store⟩ = .ok () s) :
    ∃ covered store' w, (f.child.codec e defs).Occupies u start covered ∧
      f.Copied covered (ctx.insert f.copy w).innermost ∧
      (w.InRange → ∃ p, (f.child.codec e defs).Reads false .nothing p covered) ∧
      Codec.buildFields input path rest
        ⟨.atEnd (start ++ covered), ctx.insert f.copy w, store'⟩ = .ok () s := by
  obtain ⟨w, s₁, here, later⟩ := buildFields_of_given rfl rfl copy built
  obtain ⟨covered, store', v, rfl, rfl, occupied, reads⟩ := Codec.build_rawCopy
    ⟨f.child, f.child.codec e defs⟩ (verifies_codec e defs f.rigidChild) value present
    (Part.build_eq_ok_iff.mp here)
  refine ⟨covered, store', _, occupied, ⟨_, Record.get?_insert_self _ _ _, rfl⟩,
    fun small => ?_, later⟩
  have fields : Value.InRangeFields _ := small
  exact reads (fields.get? (show Record.get? _ "value" = some v from rfl))

private theorem build_sum (serves : Serves defs e)
    (stores : ∀ data, f.stored.Stores defs width (f.hash data).value) {covered : List UInt8}
    (copied : f.Copied covered ctx.innermost)
    (built : Codec.buildFields input path (⟨f.sumField, f.sumField.codec e defs⟩ :: rest)
      ⟨.atEnd start, ctx, store⟩ = .ok () s) :
    ∃ sum ctx', f.stored.Holds defs sum (f.hash covered).value ∧ ctx.Kept ctx' ∧
      (∀ k ∉ f.sum, Record.get? ctx'.innermost k = Record.get? ctx.innermost k) ∧
      Codec.buildFields input path rest ⟨.atEnd (start ++ sum), ctx', store⟩ = .ok () s := by
  obtain ⟨fields, copy, data⟩ := copied
  have digested : ∀ u place w s₁, (f.sumField.codec e defs).build u place
      ⟨.atEnd start, ctx, store⟩ = .ok w s₁ → ∃ sum, s₁ = ⟨.atEnd (start ++ sum), ctx, store⟩ ∧
        f.stored.Holds defs sum (f.hash covered).value := by
    intro u place w s₁ here
    have seen : (Expr.dataOf f.copy).evaluate e.resolver ctx.scope place store =
        .ok (.bytes covered) store := Expr.evaluate_dataOf f.shown copy data
    rw [codec_sumField, Codec.build_checksum u seen] at here
    obtain ⟨sum, length, rfl, holds⟩ := (stores covered).holds e serves _ _ _ _ _ _ _ here
    refine ⟨sum, ?_, holds⟩
    rw [Medium.overlay_at_end, ← length, ← List.length_append]
    rfl
  rcases first_of_buildFields f.isEmbedded_sumField built with
    ⟨name, u, w, s₁, own, -, here, later⟩ | ⟨w, s₁, -, here, later⟩
  · obtain ⟨sum, rfl, holds⟩ := digested _ _ _ _ here
    have label : f.sum = some name := f.name?_sumField.symm.trans own
    refine ⟨sum, ctx.insert name w, holds, Context.kept_insert ctx name w, fun k other => ?_,
      later⟩
    refine Record.get?_insert_of_ne ?_ ctx.innermost w
    rintro rfl
    exact other label
  · obtain ⟨sum, rfl, holds⟩ := digested _ _ _ _ here
    exact ⟨sum, ctx, holds, .refl ctx, fun _ _ => rfl, later⟩

/-- Fields that can be verified are legible if what they noted is still there in the end. -/
private theorem build_verified {fs : List Format} (verified : ∀ p ∈ parts e defs fs, p.Verifies)
    (distinct : (fieldNames fs).Nodup)
    (built : Codec.buildFields input path (parts e defs fs ++ rest)
      ⟨.atEnd start, ctx, store⟩ = .ok () s) :
    ∃ data ctx' store', ctx.Kept ctx' ∧
      (∀ k ∉ fieldNames fs, Record.get? ctx'.innermost k = Record.get? ctx.innermost k) ∧
      ((∀ k ∈ fieldNames fs, ∀ v, Record.get? ctx'.innermost k = some v → v.InRange) →
        Codec.Legible (parts e defs fs) data) ∧
      Codec.buildFields input path rest ⟨.atEnd (start ++ data), ctx', store'⟩ = .ok () s := by
  rw [Codec.buildFields_append] at built
  obtain ⟨_, s₁, here, later⟩ := Run.bind_eq_ok_iff.mp built
  obtain ⟨data, ctx', store', rfl, kept, same, reads⟩ := Codec.appended_of_buildFields
    verified (by rwa [names_parts]) here
  rw [names_parts] at same reads
  refine ⟨data, ctx', store', kept, same, fun small => ?_, later⟩
  obtain ⟨record, keys, each⟩ := reads (Or.inr small)
  exact ⟨record, by rwa [names_parts], each⟩

private theorem accepts_of_build (serves : Serves defs e)
    (stores : ∀ data, f.stored.Stores defs width (f.hash data).value) {u : Value}
    (copy : Record.get? input f.copy = some (.container given))
    (value : Record.get? given "value" = some u) (present : u.isNone = false)
    (built : Codec.buildFields input path
      (parts e defs (f.before ++ f.copyField :: (f.between ++ f.sumField :: f.behind)))
      ⟨.atEnd start, ctx, store⟩ = .ok () s) :
    ∃ front covered middle sum back ctx' store',
      s = ⟨.atEnd (start ++ (front ++ (covered ++ (middle ++ (sum ++ back))))), ctx', store'⟩ ∧
      ctx.Kept ctx' ∧ (f.child.codec e defs).Occupies u (start ++ front) covered ∧
      f.stored.Holds defs sum (f.hash covered).value ∧
      ((∀ k v, Record.get? ctx'.innermost k = some v → v.InRange) →
        f.Accepts e front covered middle sum back) := by
  have distinct := f.distinct
  simp only [List.nodup_cons, List.nodup_append, List.mem_append, not_or, Option.mem_toList]
    at distinct
  obtain ⟨⟨apart, apart₁, apart₃, apart₅⟩, -, ⟨own, ⟨own', own'', split₃⟩, split₁⟩, split⟩ :=
    distinct
  rw [parts_append, parts, parts_append, parts] at built
  obtain ⟨front, ctx₁, store₁, kept₁, same₁, legible₁, built⟩ :=
    build_verified (f.verifiedBefore _) own built
  obtain ⟨covered, store₂, w, occupied, copied, reads, built⟩ := build_copy copy value present built
  obtain ⟨middle, ctx₃, store₃, kept₃, same₃, legible₃, built⟩ :=
    build_verified (f.verifiedBetween _) own' built
  have copied' : f.Copied covered ctx₃.innermost := by
    obtain ⟨fields, found, data⟩ := copied
    exact ⟨fields, (same₃ _ apart₃).trans found, data⟩
  obtain ⟨sum, ctx₄, holds, kept₄, same₄, built⟩ := build_sum serves stores copied' built
  rw [← List.append_nil (parts _ _ f.behind)] at built
  obtain ⟨back, ctx₅, store₅, kept₅, same₅, legible₅, built⟩ :=
    build_verified (f.verifiedBehind _) own'' built
  cases built
  refine ⟨front, covered, middle, sum, back, ctx₅, store₅, by simp only [List.append_assoc],
    (((kept₁.trans (Context.kept_insert _ _ _)).trans kept₃).trans kept₄).trans kept₅, occupied,
    holds, fun small => ?_⟩
  -- No later field has the name of an earlier one, so all that was noted is still there.
  have last : ∀ k ∉ f.sum, k ∉ fieldNames f.behind →
      Record.get? ctx₅.innermost k = Record.get? ctx₃.innermost k :=
    fun k other behind => (same₅ k behind).trans (same₄ k other)
  have copyKept : Record.get? ctx₅.innermost f.copy = some w :=
    ((last _ apart apart₅).trans (same₃ _ apart₃)).trans (Record.get?_insert_self _ _ _)
  obtain ⟨p, readsCopy⟩ := reads (small _ _ copyKept)
  refine ⟨legible₁ fun k mem v found => small k v ?_, ⟨p, readsCopy⟩,
    legible₃ fun k mem v found => small k v ?_, holds e serves,
    legible₅ fun k _ v found => small k v found⟩
  · have other : f.copy ≠ k := by
      rintro rfl
      exact apart₁ mem
    rw [last k (fun hit => split k hit k (Or.inl mem) rfl)
        (fun hit => split₁ k mem k (Or.inr hit) rfl),
      same₃ k (fun hit => split₁ k mem k (Or.inl hit) rfl)]
    exact (Record.get?_insert_of_ne other _ _).trans found
  · rw [last k (fun hit => split k hit k (Or.inr (Or.inl mem)) rfl)
      (fun hit => split₃ k mem k hit rfl)]
    exact found

/-! ## Patching -/

private theorem reserve_sum (serves : Serves defs e)
    (stores : ∀ data, f.stored.Stores defs width (f.hash data).value)
    (copy : Record.get? ctx.innermost f.copy = some (.container given))
    (missing : Record.get? given "data" = none)
    (built : Codec.buildFields input path (⟨f.sumField, f.sumField.codec e defs⟩ :: rest)
      ⟨.atEnd start, ctx, store⟩ = .ok () s) :
    ∃ place ctx', (place = path ∨ ∃ name ∈ f.sum, place = path.member name) ∧
      (ctx.defer (Codec.reservation ⟨f.stored, f.stored.codec e defs⟩
        (.checksum (.dataOf f.copy) f.hash) place start.length width)).Kept ctx' ∧
      (∀ k ∉ f.sum, Record.get? ctx'.innermost k = Record.get? ctx.innermost k) ∧
      Codec.buildFields input path rest
        ⟨.atEnd (start ++ List.replicate width 0), ctx', store⟩ = .ok () s := by
  have reserved : ∀ u place, (f.sumField.codec e defs).build u place
      ⟨.atEnd start, ctx, store⟩ = .ok .none ⟨.atEnd (start ++ List.replicate width 0),
        ctx.defer (Codec.reservation ⟨f.stored, f.stored.codec e defs⟩
          (.checksum (.dataOf f.copy) f.hash) place start.length width), store⟩ := by
    intro u place
    have pending : ((Expr.dataOf f.copy).evaluate e.resolver ctx.scope place).Pending store :=
      Expr.pending_dataOf f.shown copy missing
    rw [codec_sumField, Stream.atEnd_eq, Codec.checksum_of_pending u pending
      ((stores []).size e serves ctx place store), Medium.overlay_at_end]
    simp only [Stream.atEnd_eq, List.length_append, List.length_replicate]
  rcases first_of_buildFields f.isEmbedded_sumField built with
    ⟨name, u, w, s₁, own, -, here, later⟩ | ⟨w, s₁, -, here, later⟩
  · cases (reserved _ _).symm.trans here
    have label : f.sum = some name := f.name?_sumField.symm.trans own
    refine ⟨path.member name, _, Or.inr ⟨name, label, rfl⟩, Context.kept_insert _ name _,
      fun k other => ?_, later⟩
    refine Record.get?_insert_of_ne ?_ ctx.innermost _
    rintro rfl
    exact other label
  · cases (reserved _ _).symm.trans here
    exact ⟨path, _, Or.inl rfl, .refl _, fun _ _ => rfl, later⟩

private theorem resolve_sum (stores : ∀ data, f.stored.Stores defs width (f.hash data).value)
    {front back covered : List UInt8} {d : Deferred} (queue : ctx.top.deferred = [d])
    (offset : d.offset = front.length) (field : d.field = f.stored)
    (patch : d.patch = .checksum (.dataOf f.copy) f.hash) (scopes : d.scopes = [])
    (copied : f.Copied covered ctx.innermost)
    (run : (inner defs).resolvePending ⟨.atEnd (front ++ (List.replicate width 0 ++ back)), ctx,
      store⟩ = .ok () s) :
    ∃ sum ctx' store', sum.length = width ∧ f.stored.Holds defs sum (f.hash covered).value ∧
      s = ⟨.atEnd (front ++ (sum ++ back)), ctx', store'⟩ ∧ ctx'.below = ctx.below ∧
      ctx'.top.deferred = [] := by
  obtain ⟨fields, copy, data⟩ := copied
  rw [Engine.resolvePending, Engine.resolveSince_apply] at run
  dsimp only at run
  rw [queue, List.drop_zero] at run
  obtain ⟨unresolved, s₁, applied, requeued⟩ := Run.bind_eq_ok_iff.mp run
  have seen : (Expr.dataOf f.copy).evaluate (inner defs).resolver
      ⟨(ctx.discardSince 0).frames, none, none⟩ d.path store = .ok (.bytes covered) store :=
    Expr.evaluate_dataOf f.shown copy data
  have computed : d.patch.compute (inner defs).resolver ((ctx.discardSince 0).scopeOf d) d.path
      store = .ok (f.hash covered).value store := by
    rw [patch, Context.scopeOf, scopes, Patch.compute]
    exact (Run.bind_of_ok seen _).trans rfl
  rw [Engine.applyPatches_of_value computed] at applied
  obtain ⟨_, s₂, patched, applied⟩ := Run.bind_eq_ok_iff.mp applied
  cases applied
  obtain ⟨written, sum, length, holds, rfl⟩ := patched_of_apply
    (buildsPatches_inner defs) (List.length_replicate ..) offset
    (fun e serves _ _ _ _ _ _ _ made => by
      rw [field] at made
      exact (stores covered).holds e serves _ _ _ _ _ _ _ made) patched
  cases requeued
  have kept := (ctx.discardSince 0).kept_noted d written
  refine ⟨sum, (ctx.discardSince 0).noted d written, store, length, holds, ?_, kept.below,
    kept.deferred⟩
  simp only [List.append_nil]
  rfl

end

/-! ## Whole runs -/

variable {width : Nat} {input given params : Record Value} {u w : Value}
  {store : LazyStore} {s : State}

/-- With the checksum behind the copy, it is that of the bytes that the copy occupies, also where
the input held other bytes for it; all that was built is parsed again. -/
private theorem parsed_of_trailing
    (stores : ∀ data, f.stored.Stores defs width (f.hash data).value)
    (copy : Record.get? input f.copy = some (.container given))
    (value : Record.get? given "value" = some u) (present : u.isNone = false)
    (built : f.trailing.buildBytes (.ofDefinitions defs) (.container input) params store =
      .ok w s) :
    ∃ front covered middle sum back,
      s.stream.data = front ++ (covered ++ (middle ++ (sum ++ back))) ∧
      (f.child.codec (inner defs) defs).Occupies u front covered ∧
      f.stored.Holds defs sum (f.hash covered).value ∧
      (w.InRange → ∀ params' store' rest, ∃ p s',
        f.trailing.parseBytes (.ofDefinitions defs) params' (s.stream.data ++ rest) store' =
          .ok p s' ∧ s'.stream.pos = s.stream.data.length) := by
  obtain ⟨s₁, s₂, fields, settled, rfl, resolved⟩ := fields_of_buildBytes built
  obtain ⟨front, covered, middle, sum, back, ctx', store', rfl, kept, occupied, holds, accepts⟩ :=
    accepts_of_build (serves_inner defs) stores copy value present fields
  rw [Engine.resolvePending_of_empty _ kept.deferred] at settled
  cases settled
  rw [Context.pop_of_kept kept, Engine.resolveSince_of_empty rfl] at resolved
  cases resolved
  refine ⟨front, covered, middle, sum, back, rfl, occupied, holds,
    fun small params' store' rest => ?_⟩
  have accepted := accepts fun k v found => Value.InRangeFields.get? small found
  obtain ⟨p, parsed⟩ := Codec.parse_of_takes (e := inner defs) accepted.takes trivial
    (m := ⟨.growing, front ++ (covered ++ (middle ++ (sum ++ back))) ++ rest, 0⟩) rfl
    (.ofParams params') store' .this
  exact ⟨p, _, Run.tagged_of_ok parsed, Nat.zero_add _⟩

/-- With the checksum in front of the copy, what is patched in is that of the bytes that the
copy occupies, unless the input held other bytes for it. -/
private theorem patched_of_leading
    (stores : ∀ data, f.stored.Stores defs width (f.hash data).value)
    (copy : Record.get? input f.copy = some (.container given))
    (value : Record.get? given "value" = some u) (present : u.isNone = false)
    (missing : Record.get? given "data" = none)
    (built : f.leading.buildBytes (.ofDefinitions defs) (.container input) params store =
      .ok w s) :
    ∃ front sum middle covered back start,
      s.stream.data = front ++ (sum ++ (middle ++ (covered ++ back))) ∧
      start.length = (front ++ (sum ++ middle)).length ∧
      (f.child.codec (inner defs) defs).Occupies u start covered ∧
      f.stored.Holds defs sum (f.hash covered).value := by
  have distinct := f.distinct
  simp only [List.nodup_cons, List.nodup_append, List.mem_append, not_or, Option.mem_toList]
    at distinct
  obtain ⟨⟨apart, apart₁, apart₃, apart₅⟩, -, ⟨own, ⟨own', own'', -⟩, -⟩, -⟩ := distinct
  obtain ⟨s₁, s₂, fields, settled, rfl, resolved⟩ := fields_of_buildBytes built
  rw [parts_append, parts, parts_append, parts] at fields
  obtain ⟨front, ctx₁, store₁, kept₁, same₁, -, fields⟩ :=
    build_verified (f.verifiedBefore _) own fields
  obtain ⟨place, ctx₂, -, kept₂, same₂, fields⟩ := reserve_sum (serves_inner defs) stores
    ((same₁ _ apart₁).trans copy) missing fields
  obtain ⟨middle, ctx₃, store₃, kept₃, -, -, fields⟩ :=
    build_verified (f.verifiedBetween _) own' fields
  obtain ⟨covered, store₄, w, occupied, copied, -, fields⟩ := build_copy copy value present fields
  rw [← List.append_nil (parts _ _ f.behind)] at fields
  obtain ⟨back, ctx₅, store₅, kept₅, same₅, -, fields⟩ :=
    build_verified (f.verifiedBehind _) own'' fields
  cases fields
  -- The fields behind the copy do not note its name, so the patch for the checksum sees what was
  -- copied.
  have copied' : f.Copied covered ctx₅.innermost := by
    obtain ⟨fields, found, data⟩ := copied
    exact ⟨fields, (same₅ _ apart₅).trans found, data⟩
  have kept := (kept₂.trans (kept₃.trans (Context.kept_insert ctx₃ f.copy w))).trans kept₅
  have queue : ctx₅.top.deferred = [{ Codec.reservation ⟨f.stored, f.stored.codec (inner defs) defs⟩
      (.checksum (.dataOf f.copy) f.hash) place front.length width with
        depth := ctx₁.below.length }] := by
    rw [kept.deferred, Context.defer, kept₁.deferred]
    rfl
  simp only [List.nil_append, List.append_assoc] at queue settled occupied
  obtain ⟨sum, ctx', store', length, holds, rfl, below, deferred⟩ :=
    resolve_sum stores queue rfl rfl rfl rfl copied' settled
  have outer : ctx'.pop.top.deferred = [] := by
    rw [Context.pop, below, kept.below, Context.defer, kept₁.below]
    simp [Context.push, Context.ofParams, deferred]
  rw [Engine.resolveSince_of_empty outer] at resolved
  cases resolved
  exact ⟨front, sum, middle, covered, back, _, rfl, by simp [length], occupied, holds⟩

/-- Whatever is built verifies.  Behind the copy the checksum is that of the bytes that the copy
occupies, whatever bytes the input held for it, and what was built is parsed again with any
bytes behind it.  In front of the copy the checksum is that of these bytes as well unless the
input held others. -/
theorem verified_of_buildBytes (f : Sealed defs)
    (stores : ∀ data, f.stored.Stores defs width (f.hash data).value)
    (copy : Record.get? input f.copy = some (.container given))
    (value : Record.get? given "value" = some u) (present : u.isNone = false) :
    (∀ w s, f.trailing.buildBytes (.ofDefinitions defs) (.container input) params store =
        .ok w s →
      ∃ front covered middle sum back,
        s.stream.data = front ++ (covered ++ (middle ++ (sum ++ back))) ∧
        (f.child.codec (inner defs) defs).Occupies u front covered ∧
        f.stored.Holds defs sum (f.hash covered).value ∧
        (w.InRange → ∀ params' store' rest, ∃ p s',
          f.trailing.parseBytes (.ofDefinitions defs) params' (s.stream.data ++ rest) store' =
            .ok p s' ∧ s'.stream.pos = s.stream.data.length)) ∧
    ∀ w s, Record.get? given "data" = none →
      f.leading.buildBytes (.ofDefinitions defs) (.container input) params store = .ok w s →
      ∃ front sum middle covered back start,
        s.stream.data = front ++ (sum ++ (middle ++ (covered ++ back))) ∧
        start.length = (front ++ (sum ++ middle)).length ∧
        (f.child.codec (inner defs) defs).Occupies u start covered ∧
        f.stored.Holds defs sum (f.hash covered).value :=
  ⟨fun _ _ built => parsed_of_trailing stores copy value present built,
    fun _ _ missing built => patched_of_leading stores copy value present missing built⟩

/-- An octet and the sum of its one byte. -/
def octet : Sealed [] where
  copy := "r"
  child := .unsigned 1 .big
  sum := some "sum"
  stored := .unsigned 1 .big
  hash := Checksums.sum
  before := []
  between := []
  behind := []
  overwrite := false
  shown := by decide
  rigidChild := ⟨1, rfl⟩
  verifiedBefore _ _ mem := nomatch mem
  verifiedBetween _ _ mem := nomatch mem
  verifiedBehind _ _ mem := nomatch mem
  distinct := by decide

/-- The stale bytes in the input do not count behind the copy. -/
theorem verified_of_buildBytes_octet :
    (∃ w s, octet.trailing.buildBytes (.ofDefinitions [])
        (.container [("r", .container [("value", .int 5), ("data", .bytes [9])])]) [] .empty =
          .ok w s ∧ s.stream.data = [5, 5] ∧
      ∃ p s', octet.trailing.parseBytes (.ofDefinitions []) [] ([5, 5] ++ [255]) .empty =
        .ok p s' ∧ s'.stream.pos = 2) ∧
    ∃ w s front sum middle covered back, octet.leading.buildBytes (.ofDefinitions [])
        (.container [("r", .container [("value", .int 5)])]) [] .empty = .ok w s ∧
      [5, 5] = front ++ (sum ++ (middle ++ (covered ++ back))) ∧
      octet.stored.Holds [] sum (octet.hash covered).value := by
  have stores : ∀ data, octet.stored.Stores [] 1 (octet.hash data).value := fun data =>
    stores_integer [] false .big (by decide) (by decide) (octet.hash data)
  constructor
  · have run : Run.yields (octet.trailing.buildBytes (.ofDefinitions [])
        (.container [("r", .container [("value", .int 5), ("data", .bytes [9])])]) [] .empty)
        (fun w s => decide w.InRange && decide (s.stream.data = [5, 5])) = true := by
      decide +kernel
    obtain ⟨w, s, built, checked⟩ := Run.ok_of_yields run
    obtain ⟨small, data⟩ := Bool.and_eq_true_iff.mp checked
    have data := of_decide_eq_true data
    obtain ⟨_, _, _, _, _, -, -, -, parses⟩ :=
      (verified_of_buildBytes octet stores rfl rfl rfl).1 w s built
    obtain ⟨p, s', parsed, pos⟩ := parses (of_decide_eq_true small) [] .empty [255]
    rw [data] at parsed pos
    exact ⟨w, s, built, data, p, s', parsed, pos⟩
  · have run : Run.left? (octet.leading.buildBytes (.ofDefinitions [])
        (.container [("r", .container [("value", .int 5)])]) [] .empty) = some ([5, 5], 2) := by
      decide +kernel
    obtain ⟨w, s, built, data, -⟩ := Run.ok_of_left? run
    obtain ⟨front, sum, middle, covered, back, start, layout, -, -, holds⟩ :=
      (verified_of_buildBytes octet stores rfl rfl rfl).2 w s rfl built
    exact ⟨w, s, front, sum, middle, covered, back, built, data.symm.trans layout, holds⟩

/-- What is built with the checksum in front of the copy is refused: no field that comes later
can be seen when it is parsed. -/
theorem leading_octet_refused :
    Run.left? (octet.leading.buildBytes (.ofDefinitions [])
      (.container [("r", .container [("value", .int 5)])]) [] .empty) = some ([5, 5], 2) ∧
    Run.left? (octet.leading.parseBytes (.ofDefinitions []) [] [5, 5] .empty) = none := by
  refine ⟨by decide +kernel, by decide +kernel⟩

end Sealed

end Format

end BinaryFormat
